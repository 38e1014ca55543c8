import Machine16.Proofs.Declarations

/-! Which programs compile, and the one error that is reported about each of the others. Both are read off
the program itself: what an expression needs is declared somewhere in it, before or behind. -/
namespace Machine16

section First

variable {α β ε : Type} {f : α → Except ε β} {P Q : α → Prop} {a : α} {as before : List α} {e : ε}

lemma forall_or_first (h : ∀ a, P a ∨ Q a) (as : List α) :
    (∀ a ∈ as, P a) ∨ ∃ before a after, as = before ++ a :: after ∧ (∀ b ∈ before, P b) ∧ Q a := by
  induction as with
  | nil => exact .inl fun _ ha => absurd ha List.not_mem_nil
  | cons a as ih =>
    obtain ha | ha := h a
    · obtain has | ⟨before, b, after, rfl, hbefore, hb⟩ := ih
      · exact .inl (List.forall_mem_cons.mpr ⟨ha, has⟩)
      · exact .inr ⟨a :: before, b, after, rfl, List.forall_mem_cons.mpr ⟨ha, hbefore⟩, hb⟩
    · exact .inr ⟨[], a, as, rfl, fun _ hb => absurd hb List.not_mem_nil, ha⟩

lemma exists_mapM_eq_ok (h : ∀ a ∈ as, ∃ b, f a = .ok b) : ∃ bs, as.mapM f = .ok bs := by
  induction as with
  | nil => exact ⟨[], rfl⟩
  | cons a as ih =>
    obtain ⟨⟨b, hb⟩, has⟩ := List.forall_mem_cons.mp h
    obtain ⟨bs, hbs⟩ := ih has
    exact ⟨b :: bs, by rw [List.mapM_cons, hb, hbs]; rfl⟩

lemma mapM_eq_error (hbefore : ∀ b ∈ before, ∃ c, f b = .ok c) (ha : f a = .error e) (after : List α) :
    (before ++ a :: after).mapM f = .error e := by
  obtain ⟨cs, hcs⟩ := exists_mapM_eq_ok hbefore
  rw [List.mapM_append, hcs, List.mapM_cons, ha]
  rfl

end First

/-- The operators that have a value. -/
def Operator.Supported (op : Operator) : Prop := op = .add ∨ op = .subtract ∨ op = .multiply

/-- The statement declares this structure with that member. -/
def Statement.HasMember (struct member : String) : Statement → Prop
  | .struct _ name ms => name = struct ∧ member ∈ ms.map Prod.fst
  | label _ | constant .. | data .. | instruction _ => False

def Program.HasMember (p : Program) (struct member : String) : Prop :=
  ∃ n ∈ p, n.statement.HasMember struct member

namespace Expression

/-- Everything in the expression has been declared, and every operator has a value. -/
def Bound (p : Program) : Expression → Prop
  | literal _ => True
  | symbol name => name ∈ p.symbolNames
  | member struct name m => p.HasMember struct m ∧ name ∈ p.symbolNames
  | binary op left right => left.Bound p ∧ right.Bound p ∧ op.Supported

/-- The first error of an expression. -/
inductive Fails (p : Program) : Expression → CompileError → Prop
  | symbol {name} (undeclared : name ∉ p.symbolNames) :
      Fails p (.symbol name) (.unresolvedSymbol name (SymbolTable.nearest? name p.symbolNames))
  | struct {struct name member} (undeclared : struct ∉ p.structNames) :
      Fails p (.member struct name member) (.unknownStructure struct)
  | member {struct name member} (declared : struct ∈ p.structNames) (missing : ¬ p.HasMember struct member) :
      Fails p (.member struct name member) (.unknownMember struct member)
  | base {struct name member} (found : p.HasMember struct member) (undeclared : name ∉ p.symbolNames) :
      Fails p (.member struct name member) (.unresolvedSymbol name (SymbolTable.nearest? name p.symbolNames))
  | left {op left right e} (fails : Fails p left e) : Fails p (.binary op left right) e
  | right {op left right e} (bound : left.Bound p) (fails : Fails p right e) :
      Fails p (.binary op left right) e
  | operator {op left right} (leftBound : left.Bound p) (rightBound : right.Bound p)
      (unsupported : ¬ op.Supported) : Fails p (.binary op left right) (.unsupportedOperator op)

end Expression

namespace Operand

def expression? : Operand Expression → Option Expression
  | literal e | byte e | address e => some e
  | register _ | pointer _ | indirect _ => none

def Bound (p : Program) (o : Operand Expression) : Prop := ∀ e ∈ o.expression?, e.Bound p

def Fails (p : Program) (o : Operand Expression) (e : CompileError) : Prop := ∃ x ∈ o.expression?, x.Fails p e

end Operand

namespace Instruction

structure Bound (p : Program) (i : Instruction Expression) : Prop where
  format : i.format = i.opcode.format
  operands : ∀ o ∈ i.operands, o.Bound p

/-- The first error of an instruction. In the wrong format none of its operands is looked at. -/
inductive Fails (p : Program) (i : Instruction Expression) : CompileError → Prop
  | format (mismatch : i.format ≠ i.opcode.format) : Fails p i (.formatMismatch i.opcode)
  | operand {before o after e} (format : i.format = i.opcode.format)
      (operands : i.operands = before ++ o :: after) (bound : ∀ b ∈ before, b.Bound p) (fails : o.Fails p e) :
      Fails p i e

end Instruction

namespace Statement

def Bound (p : Program) : Statement → Prop
  | instruction i => i.Bound p
  | label _ | constant .. | data .. | struct .. => True

def Fails (p : Program) (e : CompileError) : Statement → Prop
  | instruction i => i.Fails p e
  | label _ | constant .. | data .. | struct .. => False

end Statement

namespace Program

structure WellBound (p : Program) : Prop where
  distinct : p.names.Nodup
  statements : ∀ n ∈ p, n.statement.Bound p

/-- The first error of a program. Names that are declared again come before all other errors. -/
inductive Reports (p : Program) : CompileError → Prop
  | duplicate {n name} (first : p.Redeclares n name) : Reports p (.duplicateBinding name (some n.span))
  | statement {before n after e} (distinct : p.names.Nodup) (split : p = before ++ n :: after)
      (bound : ∀ m ∈ before, m.statement.Bound p) (fails : n.statement.Fails p e) : Reports p e

end Program

section Decidability

instance (op : Operator) : Decidable op.Supported :=
  inferInstanceAs (Decidable (op = .add ∨ op = .subtract ∨ op = .multiply))

instance (struct member : String) : (st : Statement) → Decidable (st.HasMember struct member)
  | .struct _ name ms => inferInstanceAs (Decidable (name = struct ∧ member ∈ ms.map Prod.fst))
  | .label _ | .constant .. | .data .. | .instruction _ => .isFalse id

instance (p : Program) (struct member : String) : Decidable (p.HasMember struct member) :=
  inferInstanceAs (Decidable (∃ n ∈ p, n.statement.HasMember struct member))

instance Expression.decidableBound (p : Program) : (x : Expression) → Decidable (x.Bound p)
  | literal _ => .isTrue trivial
  | symbol name => inferInstanceAs (Decidable (name ∈ p.symbolNames))
  | member struct name m => inferInstanceAs (Decidable (p.HasMember struct m ∧ name ∈ p.symbolNames))
  | binary op left right =>
    have := decidableBound p left
    have := decidableBound p right
    inferInstanceAs (Decidable (left.Bound p ∧ right.Bound p ∧ op.Supported))

instance (p : Program) (o : Operand Expression) : Decidable (o.Bound p) :=
  inferInstanceAs (Decidable (∀ e ∈ o.expression?, e.Bound p))

instance (p : Program) (i : Instruction Expression) : Decidable (i.Bound p) :=
  decidable_of_iff (i.format = i.opcode.format ∧ ∀ o ∈ i.operands, o.Bound p)
    ⟨fun h => ⟨h.1, h.2⟩, fun h => ⟨h.1, h.2⟩⟩

instance (p : Program) : (st : Statement) → Decidable (st.Bound p)
  | .instruction i => inferInstanceAs (Decidable (i.Bound p))
  | .label _ | .constant .. | .data .. | .struct .. => .isTrue trivial

instance (p : Program) : Decidable p.WellBound :=
  decidable_of_iff (p.names.Nodup ∧ ∀ n ∈ p, n.statement.Bound p) ⟨fun h => ⟨h.1, h.2⟩, fun h => ⟨h.1, h.2⟩⟩

end Decidability

variable {s : Scope} {p : Program} {e : CompileError}

namespace Scope.Holds

variable {name struct member : String}

lemma resolve_symbol (h : s.Holds p) (hname : name ∈ p.symbolNames) :
    ∃ v, s.symbols.resolve name = .ok v := by
  rw [← h.names_symbols, ← Bindings.isSome_get?] at hname
  obtain ⟨x, hx⟩ := Option.isSome_iff_exists.mp hname
  exact ⟨x.value, by rw [SymbolTable.resolve, hx]⟩

lemma resolve_symbol_eq_error (h : s.Holds p) (hname : name ∉ p.symbolNames) : s.symbols.resolve name =
    .error (.unresolvedSymbol name (SymbolTable.nearest? name p.symbolNames)) := by
  rw [← h.names_symbols, ← Bindings.isSome_get?, Option.not_isSome_iff_eq_none] at hname
  rw [SymbolTable.resolve, hname, h.names_symbols]

lemma hasMember_iff (h : s.Holds p) : p.HasMember struct member ↔
    ∃ layout, s.structs.get? struct = some layout ∧ (layout.offset? member).isSome := by
  simp only [h.get?_structs, StructLayout.isSome_offset?]
  constructor
  · rintro ⟨n, hn, hmember⟩
    cases hst : n.statement with
    | struct ex name ms =>
      rw [hst] at hmember
      obtain ⟨rfl, hmember⟩ := hmember
      refine ⟨_, ⟨n, hn, Node.layout?_eq_some_iff.mpr ⟨ex, ms, hst, rfl⟩⟩, ?_⟩
      rwa [StructLayout.map_fst_laidOut]
    | label _ | constant _ _ _ | data _ _ _ _ | instruction _ =>
      rw [hst] at hmember
      exact hmember.elim
  · rintro ⟨layout, ⟨n, hn, hlayout⟩, hmember⟩
    obtain ⟨ex, ms, hstruct, rfl⟩ := Node.layout?_eq_some_iff.mp hlayout
    rw [StructLayout.map_fst_laidOut] at hmember
    refine ⟨n, hn, ?_⟩
    rw [hstruct]
    exact ⟨rfl, hmember⟩

lemma resolve_member (h : s.Holds p) (hmember : p.HasMember struct member) :
    ∃ offset, s.structs.resolve struct member = .ok offset := by
  obtain ⟨layout, hlayout, hoffset⟩ := h.hasMember_iff.mp hmember
  obtain ⟨offset, hoffset⟩ := Option.isSome_iff_exists.mp hoffset
  exact ⟨offset, by simp only [StructTable.resolve, hlayout, hoffset]⟩

lemma resolve_struct_eq_error (h : s.Holds p) (hstruct : struct ∉ p.structNames) :
    s.structs.resolve struct member = .error (.unknownStructure struct) := by
  rw [← h.names_structs, ← Bindings.isSome_get?, Option.not_isSome_iff_eq_none] at hstruct
  rw [StructTable.resolve, hstruct]

lemma resolve_member_eq_error (h : s.Holds p) (hstruct : struct ∈ p.structNames)
    (hmember : ¬ p.HasMember struct member) :
    s.structs.resolve struct member = .error (.unknownMember struct member) := by
  rw [← h.names_structs, ← Bindings.isSome_get?] at hstruct
  obtain ⟨layout, hlayout⟩ := Option.isSome_iff_exists.mp hstruct
  have hoffset : layout.offset? member = none := by
    rw [← Option.not_isSome_iff_eq_none]
    exact fun hoffset => hmember (h.hasMember_iff.mpr ⟨layout, hlayout, hoffset⟩)
  simp only [StructTable.resolve, hlayout, hoffset]

end Scope.Holds

namespace Expression

variable {x : Expression}

lemma Bound.evaluate (hx : x.Bound p) (h : s.Holds p) : ∃ v, s.evaluate x = .ok v := by
  induction x with
  | literal v => exact ⟨v.toUInt16, rfl⟩
  | symbol name => exact h.resolve_symbol hx
  | member struct name m =>
    obtain ⟨offset, hoffset⟩ := h.resolve_member hx.1
    obtain ⟨base, hbase⟩ := h.resolve_symbol hx.2
    exact ⟨base + offset, by simp only [Scope.evaluate, hoffset, hbase]; rfl⟩
  | binary op left right ihl ihr =>
    obtain ⟨hleft, hright, hop⟩ := hx
    obtain ⟨a, ha⟩ := ihl hleft
    obtain ⟨b, hb⟩ := ihr hright
    simp only [Scope.evaluate, ha, hb]
    obtain rfl | rfl | rfl := hop
    · exact ⟨a + b, rfl⟩
    · exact ⟨a - b, rfl⟩
    · exact ⟨a * b, rfl⟩

lemma Fails.evaluate (hx : x.Fails p e) (h : s.Holds p) : s.evaluate x = .error e := by
  induction hx with
  | symbol undeclared => exact h.resolve_symbol_eq_error undeclared
  | struct undeclared =>
    simp only [Scope.evaluate, h.resolve_struct_eq_error undeclared]
    rfl
  | member declared missing =>
    simp only [Scope.evaluate, h.resolve_member_eq_error declared missing]
    rfl
  | base found undeclared =>
    obtain ⟨offset, hoffset⟩ := h.resolve_member found
    simp only [Scope.evaluate, hoffset, h.resolve_symbol_eq_error undeclared]
    rfl
  | left _ ih =>
    simp only [Scope.evaluate, ih]
    rfl
  | right bound _ ih =>
    obtain ⟨a, ha⟩ := bound.evaluate h
    simp only [Scope.evaluate, ha, ih]
    rfl
  | @operator op left right leftBound rightBound unsupported =>
    obtain ⟨a, ha⟩ := leftBound.evaluate h
    obtain ⟨b, hb⟩ := rightBound.evaluate h
    simp only [Scope.evaluate, ha, hb]
    cases op with
    | add => exact absurd (.inl rfl) unsupported
    | subtract => exact absurd (.inr (.inl rfl)) unsupported
    | multiply => exact absurd (.inr (.inr rfl)) unsupported
    | divide | and | or | xor => rfl

lemma bound_or_fails (p : Program) (x : Expression) : x.Bound p ∨ ∃ e, x.Fails p e := by
  induction x with
  | literal v => exact .inl trivial
  | symbol name =>
    by_cases hname : name ∈ p.symbolNames
    · exact .inl hname
    · exact .inr ⟨_, .symbol hname⟩
  | member struct name m =>
    -- the structure and its member are looked up before the symbol
    by_cases hmember : p.HasMember struct m
    · by_cases hname : name ∈ p.symbolNames
      · exact .inl ⟨hmember, hname⟩
      · exact .inr ⟨_, .base hmember hname⟩
    · by_cases hstruct : struct ∈ p.structNames
      · exact .inr ⟨_, .member hstruct hmember⟩
      · exact .inr ⟨_, .struct hstruct⟩
  | binary op left right ihl ihr =>
    obtain hleft | ⟨e, hleft⟩ := ihl
    · obtain hright | ⟨e, hright⟩ := ihr
      · by_cases hop : op.Supported
        · exact .inl ⟨hleft, hright, hop⟩
        · exact .inr ⟨_, .operator hleft hright hop⟩
      · exact .inr ⟨e, .right hleft hright⟩
    · exact .inr ⟨e, .left hleft⟩

end Expression

namespace Operand

variable {o : Operand Expression}

lemma Bound.evaluate (ho : o.Bound p) (h : s.Holds p) : ∃ w, s.evaluateOperand o = .ok w := by
  cases o with
  | literal x | byte x | address x =>
    obtain ⟨v, hv⟩ := (ho x rfl).evaluate h
    exact ⟨_, bind_eq_ok.mpr ⟨v, hv, rfl⟩⟩
  | register _ | pointer _ | indirect _ => exact ⟨_, rfl⟩

lemma Fails.evaluate (ho : o.Fails p e) (h : s.Holds p) : s.evaluateOperand o = .error e := by
  obtain ⟨x, hx, hfails⟩ := ho
  cases o with
  | literal _ | byte _ | address _ =>
    cases hx
    simp only [Scope.evaluateOperand, hfails.evaluate h]
    rfl
  | register _ | pointer _ | indirect _ => cases hx

lemma bound_or_fails (p : Program) (o : Operand Expression) : o.Bound p ∨ ∃ e, o.Fails p e := by
  cases hx : o.expression? with
  | none => exact .inl fun x hx' => nomatch hx.symm.trans hx'
  | some x =>
    obtain hbound | ⟨e, hfails⟩ := x.bound_or_fails p
    · left
      intro y hy
      cases hx.symm.trans hy
      exact hbound
    · exact .inr ⟨e, x, hx, hfails⟩

end Operand

namespace Instruction

variable {i : Instruction Expression}

lemma Bound.resolve (hi : i.Bound p) (h : s.Holds p) : ∃ r, s.resolve i = .ok r := by
  obtain ⟨os, hos⟩ := exists_mapM_eq_ok fun o ho => (hi.operands o ho).evaluate h
  exact ⟨⟨i.opcode, os⟩, Scope.resolve_eq_ok.mpr ⟨hi.format, rfl, hos⟩⟩

lemma Fails.resolve (hi : i.Fails p e) (h : s.Holds p) : s.resolve i = .error e := by
  cases hi with
  | format mismatch =>
    rw [Scope.resolve, if_pos mismatch]
    rfl
  | @operand before o after e format operands bound fails =>
    have hos := mapM_eq_error (fun b hb => (bound b hb).evaluate h) (fails.evaluate h) after
    rw [Scope.resolve, if_neg (not_not.mpr format), operands, hos]
    rfl

lemma bound_or_fails (p : Program) (i : Instruction Expression) : i.Bound p ∨ ∃ e, i.Fails p e := by
  by_cases hformat : i.format = i.opcode.format
  · obtain hos | ⟨before, o, after, hos, hbefore, e, ho⟩ :=
      forall_or_first (Operand.bound_or_fails p) i.operands
    · exact .inl ⟨hformat, hos⟩
    · exact .inr ⟨e, .operand hformat hos hbefore ho⟩
  · exact .inr ⟨_, .format hformat⟩

end Instruction

namespace Statement

variable {st : Statement}

lemma Bound.encode (hst : st.Bound p) (h : s.Holds p) : ∃ out, st.encode s = .ok out := by
  cases st with
  | instruction i =>
    obtain ⟨r, hr⟩ := Instruction.Bound.resolve hst h
    exact ⟨some r.encode, bind_eq_ok.mpr ⟨r, hr, rfl⟩⟩
  | label _ | constant _ _ _ | data _ _ _ _ | struct _ _ _ => exact ⟨_, rfl⟩

lemma Fails.encode (hst : st.Fails p e) (h : s.Holds p) : st.encode s = .error e := by
  cases st with
  | instruction i =>
    rw [Statement.encode, Instruction.Fails.resolve hst h]
    rfl
  | label _ | constant _ _ _ | data _ _ _ _ | struct _ _ _ => exact hst.elim

lemma bound_or_fails (p : Program) (st : Statement) : st.Bound p ∨ ∃ e, st.Fails p e := by
  cases st with
  | instruction i => exact i.bound_or_fails p
  | label _ | constant _ _ _ | data _ _ _ _ | struct _ _ _ => exact .inl trivial

end Statement

namespace Program

lemma WellBound.compile (h : p.WellBound) : ∃ bytes, p.compile = .ok bytes := by
  obtain ⟨s, hs, hholds⟩ := Scope.ofProgram_of_nodup h.distinct
  obtain ⟨outs, houts⟩ := exists_mapM_eq_ok fun n hn => (h.statements n hn).encode hholds
  rw [compile_eq_bytes hs, bytes, houts]
  exact ⟨_, rfl⟩

lemma Reports.compile (h : p.Reports e) : p.compile = .error e := by
  cases h with
  | duplicate first => exact compile_of_redeclares first
  | @statement before n after e distinct split bound fails =>
    obtain ⟨s, hs, hholds⟩ := Scope.ofProgram_of_nodup distinct
    have hafter := mapM_eq_error (fun m hm => (bound m hm).encode hholds) (fails.encode hholds) after
    rw [compile_eq_bytes hs, bytes, split, hafter]
    rfl

lemma wellBound_or_reports (p : Program) : p.WellBound ∨ ∃ e, p.Reports e := by
  obtain hdistinct | ⟨n, name, hn⟩ := p.nodup_names_or_redeclares
  · obtain hp | ⟨before, n, after, hsplit, hbefore, e, hn⟩ :=
      forall_or_first (fun n : Node => n.statement.bound_or_fails p) p
    · exact .inl ⟨hdistinct, hp⟩
    · exact .inr ⟨e, .statement hdistinct hsplit hbefore hn⟩
  · exact .inr ⟨_, .duplicate hn⟩

end Program

/-- A program compiles exactly if no name is declared twice, every instruction has operands in the format of
its opcode, and its expressions are made of declared names and of operators that have a value. Else the error
is the first one, where names that are declared again come before everything else. If no name is declared
twice, the first pass finds for every name what the program declares it to be, a symbol or a structure. -/
theorem compile_diagnosis (p : Program) :
    ((∃ bytes, p.compile = .ok bytes) ↔ p.WellBound) ∧ (∀ e, p.compile = .error e ↔ p.Reports e) ∧
      ((∃ s, Scope.ofProgram p = .ok s) ↔ p.names.Nodup) ∧
      ∀ s, Scope.ofProgram p = .ok s →
        (∀ name x, s.symbols.get? name = some x ↔ p.Declares name x) ∧
        (∀ name layout, s.structs.get? name = some layout ↔ ∃ n ∈ p, n.layout? = some (name, layout)) ∧
        (∀ name, ¬ (s.symbols.contains name = true ∧ s.structs.contains name = true)) ∧
        s.address = UInt16.ofNat p.size := by
  refine ⟨⟨?_, Program.WellBound.compile⟩, fun e => ⟨fun h => ?_, Program.Reports.compile⟩, ⟨?_, fun h => ?_⟩,
    fun s hs => ?_⟩
  · rintro ⟨bytes, h⟩
    obtain hp | ⟨e, he⟩ := p.wellBound_or_reports
    · exact hp
    · cases h.symm.trans he.compile
  · obtain hp | ⟨e', he⟩ := p.wellBound_or_reports
    · obtain ⟨bytes, hbytes⟩ := hp.compile
      cases h.symm.trans hbytes
    · cases h.symm.trans he.compile
      exact he
  · rintro ⟨s, hs⟩
    exact (Scope.holds_of_ofProgram hs).1
  · obtain ⟨s, hs, -⟩ := Scope.ofProgram_of_nodup h
    exact ⟨s, hs⟩
  · obtain ⟨hnodup, hholds⟩ := Scope.holds_of_ofProgram hs
    refine ⟨fun name x => hholds.get?_symbols, fun name layout => hholds.get?_structs, fun name => ?_,
      hholds.address⟩
    rw [Bindings.contains_iff, Bindings.contains_iff, hholds.names_symbols, hholds.names_structs]
    exact fun h => Program.not_mem_structNames hnodup h.1 h.2

theorem compile_diagnosis_sample : (∃ bytes, Program.sample.compile = .ok bytes) ∧
    ∃ s, Scope.ofProgram .sample = .ok s ∧
      s.symbols.get? "end" = some ⟨.label, 7, false, some ⟨41, 45⟩⟩ := by
  obtain ⟨hcompile, -, hbind, htables⟩ := compile_diagnosis .sample
  obtain ⟨s, hs⟩ := hbind.mpr (by decide)
  obtain ⟨hsymbols, -⟩ := htables s hs
  have hend : Program.sample.Declares "end" ⟨.label, 7, false, some ⟨41, 45⟩⟩ :=
    ⟨Program.sample.take 2, _, _, rfl, rfl⟩
  exact ⟨hcompile.mpr (by decide), s, hs, (hsymbols _ _).mpr hend⟩

end Machine16
