import Machine16.Main
import Machine16.Assembly.SourceMap
import Machine16.Proofs.Layout
import Machine16.Proofs.Decoding
import Machine16.Proofs.Reference
import Machine16.Proofs.Refinement
import Machine16.Proofs.Frames
import Machine16.Proofs.Fetching
import Machine16.Proofs.Execution
import Machine16.Proofs.Totality
import Machine16.Proofs.FlatMemory
import Machine16.Proofs.Running
import Machine16.Proofs.Balance
import Machine16.Proofs.Calls
import Machine16.Proofs.Interrupts
import Machine16.Proofs.LayeredBus
import Machine16.Proofs.ScreenWrites
import Machine16.Proofs.Outcomes
import Machine16.Proofs.OperandForms
import Machine16.Proofs.LaterLines
import Machine16.Proofs.Nodes
import Machine16.Proofs.Lines
import Machine16.Proofs.Spelling
import Machine16.Proofs.Tokens
import Machine16.Proofs.Expressions
import Machine16.Proofs.WellFormed
import Machine16.Proofs.Formats
import Machine16.Proofs.Printing
import Machine16.Proofs.Rereading
import Machine16.Proofs.Reassembly
import Machine16.Proofs.Listings
import Machine16.Proofs.CutTexts
import Machine16.Proofs.Spans
import Machine16.Proofs.SourceMaps
import Machine16.Proofs.Diagnosis
import Machine16.Proofs.Suggestions
import Machine16.Proofs.DeclarationOrder
import Machine16.Proofs.Renaming
import Machine16.Proofs.Commands
import Machine16.Proofs.Lockstep
import Machine16.Proofs.EventLog
import Machine16.Proofs.Playback
import Machine16.Proofs.Drivers
import Machine16.Proofs.ExpressionGrammar
import Machine16.Proofs.FormChoice
import Machine16.Proofs.ExactValues
import Machine16.Proofs.ErrorPlaces
import Machine16.Proofs.WholeInstructions
import Machine16.Proofs.SymbolLookup
import Machine16.Proofs.FailedSteps
import Machine16.Proofs.StackCalls
import Machine16.Proofs.Rendering
import Machine16.Proofs.Accesses
