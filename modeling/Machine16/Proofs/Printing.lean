import Machine16.Proofs.Expressions

/-! The pieces of a printed program. Mnemonics, keywords, registers and digits are words, which may be
written in either case; names and punctuation stand as they are. -/
namespace Machine16

@[simp] lemma joined_nil : joined [] = [] := rfl

@[simp] lemma joined_cons (p : Piece) (ps : List Piece) : joined (p :: ps) = p.text ++ joined ps := rfl

@[simp] lemma joined_append (ps qs : List Piece) : joined (ps ++ qs) = joined ps ++ joined qs :=
  List.flatMap_append

/-- Items with commas between them. -/
def commaSeparated : List (List Piece) → List Piece
  | [] => []
  | ps :: pss => ps ++ pss.flatMap (.exact ", " :: ·)

lemma intercalate_cons {α : Type} (separator as : List α) (rest : List (List α)) :
    separator.intercalate (as :: rest) = as ++ rest.flatMap (separator ++ ·) := by
  induction rest generalizing as with
  | nil => simp
  | cons bs rest ih => rw [List.intercalate_cons_cons, ih, List.flatMap_cons, List.append_assoc,
      List.append_assoc]

lemma joined_commaSeparated (pss : List (List Piece)) :
    joined (commaSeparated pss) = ", ".toList.intercalate (pss.map joined) := by
  cases pss with
  | nil => rfl
  | cons ps pss =>
    rw [commaSeparated, joined_append, List.map_cons, intercalate_cons]
    simp [joined, List.flatMap_map, List.flatMap_assoc, Piece.text]

/-- Items in braces. -/
def bracedPieces (pss : List (List Piece)) : List Piece :=
  .exact "\x7b " :: (commaSeparated pss ++ [.exact " \x7d"])

lemma joined_bracedPieces {α : Type} (as : List α) {pieces : α → List Piece} {print : α → String}
    (h : ∀ a, joined (pieces a) = (print a).toList) :
    joined (bracedPieces (as.map pieces)) = (braced (as.map print)).toList := by
  simp [bracedPieces, braced, joined_commaSeparated, Function.comp_def, h, Piece.text]

namespace Operand

def literalPieces : Expression → List Piece
  | .literal v => [.exact "$", .word (Hex.format 4 v.toNat)]
  | e => .exact "[" :: (e.pieces ++ [.exact "]"])

def addressPieces : Expression → List Piece
  | .literal v => [.exact "&", .word (Hex.format 4 v.toNat)]
  | e => .exact "&" :: .exact "[" :: (e.pieces ++ [.exact "]"])

def pieces : Operand Expression → List Piece
  | literal e | byte e => literalPieces e
  | address e => addressPieces e
  | register r => [.word r.name]
  | pointer r => [.exact "&", .word r.name]
  | indirect r => [.exact "&", .exact "(", .word r.name, .exact ")"]

lemma joined_literalPieces (e : Expression) : joined (literalPieces e) = (printLiteral e).toList := by
  cases e <;> simp [literalPieces, printLiteral, Expression.joined_pieces, Piece.text]

lemma joined_addressPieces (e : Expression) : joined (addressPieces e) = (printAddress e).toList := by
  cases e <;> simp [addressPieces, printAddress, Expression.joined_pieces, Piece.text]

lemma joined_pieces (o : Operand Expression) : joined o.pieces = o.print.toList := by
  cases o with
  | literal e | byte e => exact joined_literalPieces e
  | address e => exact joined_addressPieces e
  | register r | pointer r | indirect r => simp [pieces, print, Piece.text]

end Operand

def Instruction.pieces (i : Instruction Expression) : List Piece :=
  match i.operands with
  | [] => [.word i.opcode.mnemonic]
  | os => .word i.opcode.mnemonic :: .exact " " :: commaSeparated (os.map Operand.pieces)

lemma Instruction.joined_pieces (i : Instruction Expression) : joined i.pieces = i.print.toList := by
  obtain ⟨op, os⟩ := i
  cases os with
  | nil => simp [pieces, print, Piece.text]
  | cons o os =>
    simp [pieces, print, Piece.text, joined_commaSeparated, Function.comp_def, Operand.joined_pieces]

def Statement.pieces : Statement → List Piece
  | label n => [.exact n, .exact ":"]
  | constant ex n v =>
    [.exact (exportMark ex), .word "constant", .exact " ", .exact n, .exact " = ", .exact "$",
      .word (Hex.format 4 v.toNat)]
  | data ex w n vs =>
    .exact (exportMark ex) :: .word w.keyword :: .exact " " :: .exact n :: .exact " = " ::
      bracedPieces (vs.map fun v => [.exact "$", .word (Hex.format 2 v.toNat)])
  | struct ex n ms =>
    .exact (exportMark ex) :: .word "structure" :: .exact " " :: .exact n :: .exact " " ::
      bracedPieces (ms.map fun m => [.exact m.1, .exact ": ", .exact "$", .word (Hex.format 2 m.2.toNat)])
  | instruction i => i.pieces

lemma Statement.joined_pieces (s : Statement) : joined s.pieces = s.print.toList := by
  cases s with
  | label n | constant ex n v => simp [pieces, print, Piece.text]
  | data ex w n vs =>
    have hvalue (v : UInt32) : joined [.exact "$", .word (Hex.format 2 v.toNat)] =
        ("$" ++ Hex.format 2 v.toNat).toList := by simp [Piece.text]
    simp [pieces, print, joined_bracedPieces vs hvalue, Piece.text]
  | struct ex n ms =>
    have hmember (m : String × UInt32) :
        joined [.exact m.1, .exact ": ", .exact "$", .word (Hex.format 2 m.2.toNat)] =
          (m.1 ++ ": $" ++ Hex.format 2 m.2.toNat).toList := by simp [Piece.text]
    simp [pieces, print, joined_bracedPieces ms hmember, Piece.text]
  | instruction i => exact i.joined_pieces

/-- The pieces of a program: letters and digits that may be written in either case are the words. -/
def Program.pieces (p : Program) : List Piece := p.flatMap fun n => n.statement.pieces ++ [.exact "\n"]

lemma Program.joined_pieces (p : Program) : joined p.pieces = p.print.toList := by
  induction p with
  | nil => simp [pieces, print]
  | cons n p ih =>
    rw [pieces] at ih
    simp only [print] at ih
    simp [pieces, print, ih, Statement.joined_pieces, Piece.text]

end Machine16
