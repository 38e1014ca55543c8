import Machine16.Proofs.Expressions
import Machine16.Proofs.Nodes
import Machine16.Proofs.OperandForms

/-! Well-formed programs: names are names, and the operands of an instruction are in the format of its
opcode. Nothing else is ever read. -/
namespace Machine16

def Operand.WellFormed : Operand Expression → Prop
  | literal e | byte e | address e => e.WellFormed
  | register _ | pointer _ | indirect _ => True

structure Instruction.WellFormed (i : Instruction Expression) : Prop where
  format_eq : i.format = i.opcode.format
  operands : ∀ o ∈ i.operands, o.WellFormed

def Statement.WellFormed : Statement → Prop
  | label n | constant _ n _ | data _ _ n _ => isName n.toList = true
  | struct _ n ms => isName n.toList = true ∧ ∀ m ∈ ms, isName m.1.toList = true
  | instruction i => i.WellFormed

def Program.WellFormed (p : Program) : Prop := ∀ n ∈ p, n.statement.WellFormed

section Decidability

instance Expression.decidableWellFormed : (e : Expression) → Decidable e.WellFormed
  | literal _ => .isTrue trivial
  | symbol n => inferInstanceAs (Decidable (isName n.toList = true))
  | member s n m =>
    inferInstanceAs (Decidable (isName s.toList = true ∧ isName n.toList = true ∧ isName m.toList = true))
  | binary _ l r =>
    have := decidableWellFormed l
    have := decidableWellFormed r
    inferInstanceAs (Decidable (l.WellFormed ∧ r.WellFormed))

instance : (o : Operand Expression) → Decidable o.WellFormed
  | .literal e | .byte e | .address e => inferInstanceAs (Decidable e.WellFormed)
  | .register _ | .pointer _ | .indirect _ => .isTrue trivial

instance (i : Instruction Expression) : Decidable i.WellFormed :=
  decidable_of_iff (i.format = i.opcode.format ∧ ∀ o ∈ i.operands, o.WellFormed)
    ⟨fun h => ⟨h.1, h.2⟩, fun h => ⟨h.1, h.2⟩⟩

instance : (s : Statement) → Decidable s.WellFormed
  | .label n | .constant _ n _ | .data _ _ n _ => inferInstanceAs (Decidable (isName n.toList = true))
  | .struct _ n ms =>
    inferInstanceAs (Decidable (isName n.toList = true ∧ ∀ m ∈ ms, isName m.1.toList = true))
  | .instruction i => inferInstanceAs (Decidable i.WellFormed)

instance (p : Program) : Decidable p.WellFormed :=
  inferInstanceAs (Decidable (∀ n ∈ p, n.statement.WellFormed))

end Decidability

namespace Parser

variable {α β : Type} {p q : Parser α} {f : α → Parser β} {P : α → Prop} {Q : β → Prop}

/-- Whatever the parser reads has the property. -/
def Yields (p : Parser α) (P : α → Prop) : Prop := ∀ cs a unread, p cs = .done a unread → P a

lemma yields_true (p : Parser α) : p.Yields fun _ => True := fun _ _ _ _ => trivial

lemma yields_pure {a : α} (h : P a) : (pure a : Parser α).Yields P := by
  intro cs a' unread hdone
  rwa [← (pure_eq_done.mp hdone).1]

lemma Yields.bind (hp : p.Yields P) (hf : ∀ a, P a → (f a).Yields Q) : (p >>= f).Yields Q := by
  intro cs b unread h
  obtain ⟨a, mid, ha, hb⟩ := bind_eq_done.mp h
  exact hf a (hp cs a mid ha) mid b unread hb

/-- What comes before does not matter. -/
lemma yields_bind (hf : ∀ a, (f a).Yields Q) : (p >>= f).Yields Q :=
  (yields_true p).bind fun a _ => hf a

lemma Yields.map (hp : p.Yields P) {g : α → β} (hg : ∀ a, P a → Q (g a)) :
    (do return g (← p) : Parser β).Yields Q := hp.bind fun a ha => yields_pure (hg a ha)

lemma Yields.orElse (hp : p.Yields P) (hq : q.Yields P) : (p <|> q).Yields P := by
  intro cs a unread h
  obtain h | ⟨-, h⟩ := orElse_eq_done.mp h
  · exact hp cs a unread h
  · exact hq cs a unread h

lemma Yields.commit (hp : p.Yields P) (d : Declaration) : (p.commit d).Yields P :=
  fun cs a unread h => hp cs a unread (commit_eq_done.mp h)

lemma Yields.many (hp : p.Yields P) (hprogress : p.Progresses) :
    Yields (p.many hprogress) fun as => ∀ a ∈ as, P a := by
  intro cs as unread h
  fun_induction Parser.many p hprogress cs generalizing as with
  | case1 cs a mid hdone _ ih =>
    cases hrest : p.many hprogress mid with
    | done bs u =>
      rw [hrest] at h ih
      cases h
      exact List.forall_mem_cons.mpr ⟨hp cs a mid hdone, ih bs rfl⟩
    | miss place =>
      rw [hrest] at h
      cases h
    | fail place reason =>
      rw [hrest] at h
      cases h
  | case2 cs place hplace =>
    cases h
    exact fun _ ha => absurd ha List.not_mem_nil
  | case3 cs place reason hfail => cases h

end Parser

namespace Grammar

open Machine16.Parser

lemma yields_name : name.Yields fun n => isName n.toList = true := by
  intro cs n unread h
  obtain ⟨c, ds, -, hc, rfl, -⟩ := name_eq_done.mp h
  rw [String.toList_ofList, isName, hc, Bool.true_and, List.all_eq_true]
  exact fun d hd => List.mem_takeWhile_imp hd

lemma yields_bracketed : bracketed.Yields Expression.WellFormed := by
  intro cs e unread h
  obtain ⟨inner, -, -, he⟩ := bracketed_eq_done.mp h
  exact Expression.wellFormed_of_parse he

lemma yields_literal : literal.Yields Expression.WellFormed :=
  (yields_bind fun _ => yields_pure trivial).orElse yields_bracketed

lemma yields_address : address.Yields Expression.WellFormed :=
  yields_bind fun _ => yields_bind fun _ =>
    (yields_bind fun _ => yields_pure trivial).orElse yields_bracketed

lemma yields_operand (s : Slot) : (operand s).Yields fun o => o.slot = s ∧ o.WellFormed := by
  cases s with
  | literal | byte => exact yields_literal.map fun _ he => ⟨rfl, he⟩
  | address => exact yields_address.map fun _ he => ⟨rfl, he⟩
  | register => exact yields_bind fun _ => yields_pure ⟨rfl, trivial⟩
  | pointer => exact yields_bind fun _ => yields_bind fun _ => yields_pure ⟨rfl, trivial⟩
  | indirect =>
    exact yields_bind fun _ => yields_bind fun _ => yields_bind fun _ => yields_bind fun _ =>
      yields_pure ⟨rfl, trivial⟩

lemma yields_operands (f : Format) :
    (operands f).Yields fun os => os.map Operand.slot = f ∧ ∀ o ∈ os, o.WellFormed := by
  induction f with
  | nil => exact yields_pure ⟨rfl, fun _ h => nomatch h⟩
  | cons s f ih =>
    by_cases hf : f = []
    · subst hf
      exact (yields_operand s).map fun o ho => ⟨by simp [ho.1], by simpa using ho.2⟩
    · rw [operands_cons hf]
      exact (yields_operand s).bind fun o ho => yields_bind fun _ =>
        ih.map fun os hos => ⟨by simp [ho.1, hos.1], List.forall_mem_cons.mpr ⟨ho.2, hos.2⟩⟩

lemma yields_arguments (f : Format) :
    (arguments f).Yields fun os => os.map Operand.slot = f ∧ ∀ o ∈ os, o.WellFormed := by
  unfold arguments
  split
  · rename_i hf
    exact yields_pure ⟨by simp [hf], fun _ h => nomatch h⟩
  · exact yields_bind fun _ => yields_operands f

lemma yields_instruction : instruction.Yields Instruction.WellFormed := by
  refine yields_bind fun mnemonic => yields_bind fun _ => ?_
  intro cs i unread h
  obtain ⟨-, hos, -⟩ := form_eq_done.mp (afterMnemonic_eq_done.mp h).2
  obtain ⟨hformat, hall⟩ := yields_arguments _ _ _ _ hos
  exact ⟨hformat, hall⟩

lemma yields_declaredName : declaredName.Yields fun n => isName n.toList = true :=
  yields_bind fun _ => yields_name

lemma yields_member : member.Yields fun m => isName m.1.toList = true :=
  yields_name.bind fun _ hn => yields_bind fun _ => yields_bind fun _ => yields_bind fun _ =>
    yields_bind fun _ => yields_pure hn

lemma yields_listed {α : Type} {item : Parser α} {P : α → Prop} (hlocal : item.Local)
    (hitem : item.Yields P) : (listed item hlocal).Yields fun as => ∀ a ∈ as, P a := by
  have hmany := Yields.many (yields_bind (p := separator) fun _ => hitem)
    (progresses_separator.bind fun _ => hlocal)
  have hseparated : (separated item hlocal).Yields fun as => ∀ a ∈ as, P a :=
    (hitem.bind fun a ha => hmany.map fun as has => List.forall_mem_cons.mpr ⟨ha, has⟩).orElse
      (yields_pure fun _ h => nomatch h)
  exact yields_bind fun _ => yields_bind fun _ => hseparated.bind fun as has =>
    yields_bind fun _ => yields_bind fun _ => yields_pure has

lemma yields_statement : statement.Yields Statement.WellFormed := by
  have hdata : data.Yields Statement.WellFormed :=
    yields_bind fun _ => yields_bind fun _ => (yields_declaredName.bind fun _ hn =>
      yields_bind fun _ => yields_bind fun _ => yields_pure hn).commit _
  have hstruct : struct.Yields Statement.WellFormed :=
    yields_bind fun _ => yields_bind fun _ => (yields_declaredName.bind fun _ hn =>
      yields_bind fun _ => (yields_listed local_member yields_member).map fun _ hms => ⟨hn, hms⟩).commit _
  have hconstant : constant.Yields Statement.WellFormed :=
    yields_bind fun _ => yields_bind fun _ => (yields_declaredName.bind fun _ hn =>
      yields_bind fun _ => yields_bind fun _ => yields_pure hn).commit _
  have hlabel : label.Yields Statement.WellFormed :=
    yields_name.bind fun _ hn => yields_bind fun _ => yields_pure hn
  have hinstruction : (do return .instruction (← instruction) : Parser Statement).Yields Statement.WellFormed :=
    yields_instruction.map fun _ hi => hi
  exact hdata.orElse <| hstruct.orElse <| hconstant.orElse <| hinstruction.orElse hlabel

end Grammar

namespace Program

lemma Nodes.wellFormed {stop : Nat} {cs : List Char} {p : Program} (h : Nodes stop cs p) :
    p.WellFormed := by
  induction h with
  | nil => exact fun _ hn => nomatch hn
  | cons _ hs _ ih => exact List.forall_mem_cons.mpr ⟨Grammar.yields_statement _ _ _ hs, ih⟩

/-- Every program that has been read is well formed. -/
lemma wellFormed_of_parse {source : String} {p : Program} (h : parse source = .ok p) : p.WellFormed :=
  (parse_eq_ok.mp h).wellFormed

end Program

end Machine16
