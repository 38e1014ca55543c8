import Machine16.Assembly.Assemble
import Machine16.Proofs.WellFormed

/-! Compiling what has been read may fail for its names and operators, but never for the format of an
instruction. -/
namespace Machine16

variable {α β : Type}

/-- A computation that does not fail for the format of an instruction. -/
def Formatted (x : Except CompileError α) : Prop := ∀ op, x ≠ .error (.formatMismatch op)

lemma formatted_ok (a : α) : Formatted (.ok a) := fun _ h => nomatch h

lemma Formatted.bind {x : Except CompileError α} {f : α → Except CompileError β} (hx : Formatted x)
    (hf : ∀ a, Formatted (f a)) : Formatted (x >>= f) := by
  intro op h
  cases x with
  | error e => exact hx op (by rw [← Except.error.inj h])
  | ok a => exact hf a op h

lemma formatted_mapM {f : α → Except CompileError β} {as : List α} (hf : ∀ a, Formatted (f a)) :
    Formatted (as.mapM f) := by
  induction as with
  | nil => exact formatted_ok []
  | cons a as ih =>
    rw [List.mapM_cons]
    exact (hf a).bind fun b => ih.bind fun bs => formatted_ok (b :: bs)

lemma formatted_foldlM {f : β → α → Except CompileError β} {as : List α} (hf : ∀ b a, Formatted (f b a))
    (b : β) : Formatted (as.foldlM f b) := by
  induction as generalizing b with
  | nil => exact formatted_ok b
  | cons a as ih =>
    rw [List.foldlM_cons]
    exact (hf b a).bind fun b' => ih b'

namespace Scope

lemma formatted_bindSymbol (s : Scope) (name : String) (x : Symbol) : Formatted (s.bindSymbol name x) := by
  unfold bindSymbol
  split
  · exact fun _ h => nomatch h
  · refine Formatted.bind ?_ fun _ => formatted_ok _
    unfold SymbolTable.define
    split <;> exact fun _ h => nomatch h

lemma formatted_bindStruct (s : Scope) (name : String) (x : StructLayout) :
    Formatted (s.bindStruct name x) := by
  unfold bindStruct
  split
  · exact fun _ h => nomatch h
  · refine Formatted.bind ?_ fun _ => formatted_ok _
    unfold StructTable.define
    split <;> exact fun _ h => nomatch h

lemma formatted_bind (s : Scope) (n : Node) : Formatted (s.bind n) := by
  unfold bind
  split
  · exact formatted_bindSymbol _ _ _
  · exact formatted_bindSymbol _ _ _
  · exact (formatted_bindSymbol _ _ _).bind fun _ => formatted_ok _
  · exact formatted_bindStruct _ _ _
  · exact formatted_ok _

lemma formatted_resolve_symbol (t : SymbolTable) (name : String) : Formatted (t.resolve name) := by
  unfold SymbolTable.resolve
  split <;> exact fun _ h => nomatch h

lemma formatted_evaluate (s : Scope) (e : Expression) : Formatted (s.evaluate e) := by
  induction e with
  | literal v => exact formatted_ok _
  | symbol n => exact formatted_resolve_symbol _ _
  | member struct n m =>
    refine Formatted.bind ?_ fun _ => (formatted_resolve_symbol _ _).bind fun _ => formatted_ok _
    unfold StructTable.resolve
    split
    · exact fun _ h => nomatch h
    · split <;> exact fun _ h => nomatch h
  | binary op l r ihl ihr =>
    refine ihl.bind fun _ => ihr.bind fun _ => ?_
    split
    · exact formatted_ok _
    · exact formatted_ok _
    · exact formatted_ok _
    · exact fun _ h => nomatch h

lemma formatted_evaluateOperand (s : Scope) (o : Operand Expression) : Formatted (s.evaluateOperand o) := by
  cases o with
  | literal e | byte e | address e => exact (s.formatted_evaluate e).bind fun _ => formatted_ok _
  | register r | pointer r | indirect r => exact formatted_ok _

lemma formatted_resolve (s : Scope) {i : Instruction Expression} (hi : i.WellFormed) :
    Formatted (s.resolve i) := by
  unfold resolve
  rw [if_neg (not_not.mpr hi.format_eq)]
  exact (formatted_mapM s.formatted_evaluateOperand).bind fun _ => formatted_ok _

end Scope

lemma Statement.formatted_encode (scope : Scope) {s : Statement} (hs : s.WellFormed) :
    Formatted (s.encode scope) := by
  cases s with
  | instruction i => exact (scope.formatted_resolve hs).bind fun _ => formatted_ok _
  | label n | constant ex n v | data ex w n vs | struct ex n ms => exact formatted_ok _

namespace Program

lemma formatted_encode (scope : Scope) {p : Program} (hp : p.WellFormed) (address : Word) :
    Formatted (encode scope address p) := by
  induction p generalizing address with
  | nil => exact formatted_ok []
  | cons n p ih =>
    obtain ⟨hn, hp⟩ := List.forall_mem_cons.mp hp
    rw [encode]
    refine (n.statement.formatted_encode scope hn).bind fun out => ?_
    cases out with
    | none => exact ih hp address
    | some bytes => exact (ih hp _).bind fun _ => formatted_ok _

lemma formatted_compile {p : Program} (hp : p.WellFormed) : Formatted p.compile := by
  have hchunks : Formatted p.chunks :=
    (formatted_foldlM Scope.formatted_bind _).bind fun scope => formatted_encode scope hp 0
  exact hchunks.bind fun _ => formatted_ok _

end Program

/-- What has been read never fails for the format of an instruction. -/
lemma assemble_ne_formatMismatch (source : String) (op : Opcode) :
    assemble source ≠ .error (.uncompilable (.formatMismatch op)) := by
  unfold assemble
  cases hp : Program.parse source with
  | error e => exact fun h => nomatch h
  | ok p =>
    have hformatted := Program.formatted_compile (Program.wellFormed_of_parse hp)
    change p.compile.mapError AssemblyError.uncompilable ≠ _
    cases hcompile : p.compile with
    | ok bytes => exact fun h => nomatch h
    | error e =>
      intro h
      cases h
      exact hformatted op hcompile

end Machine16
