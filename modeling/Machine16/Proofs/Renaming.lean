import Mathlib.Data.Set.Function
import Mathlib.Logic.Equiv.Basic
import Machine16.Proofs.Diagnosis

/-! Names are only names. A renaming that keeps the names of a program apart changes nothing in what it
compiles to, and in its errors nothing but the names and what is suggested for them. -/
namespace Machine16

/-- New names for symbols and structures, which share their names, and for the members of structures. -/
structure Renaming where
  name : String → String
  member : String → String

namespace Expression

def rename (r : Renaming) : Expression → Expression
  | literal v => literal v
  | symbol name => symbol (r.name name)
  | member struct name m => member (r.name struct) (r.name name) (r.member m)
  | binary op left right => binary op (left.rename r) (right.rename r)

/-- The symbols and structures that an expression refers to. -/
def names : Expression → List String
  | literal _ => []
  | symbol name => [name]
  | member struct name _ => [struct, name]
  | binary _ left right => left.names ++ right.names

def members : Expression → List String
  | literal _ | symbol _ => []
  | member _ _ m => [m]
  | binary _ left right => left.members ++ right.members

end Expression

namespace Statement

def rename (r : Renaming) : Statement → Statement
  | label name => label (r.name name)
  | constant ex name v => constant ex (r.name name) v
  | data ex w name vs => data ex w (r.name name) vs
  | struct ex name ms => struct ex (r.name name) (ms.map (Prod.map r.member id))
  | instruction i => instruction (i.map (Expression.rename r))

def expressions : Statement → List Expression
  | instruction i => i.operands.filterMap Operand.expression?
  | label _ | constant .. | data .. | struct .. => []

/-- The symbols and structures that a statement declares or refers to. -/
def mentions (st : Statement) : List String := st.name?.toList ++ st.expressions.flatMap Expression.names

/-- The members that a statement declares or refers to. -/
def members : Statement → List String
  | struct _ _ ms => ms.map Prod.fst
  | st => st.expressions.flatMap Expression.members

end Statement

def Node.rename (r : Renaming) (n : Node) : Node := ⟨n.statement.rename r, n.span⟩

namespace Program

def rename (r : Renaming) (p : Program) : Program := p.map (Node.rename r)

def mentions (p : Program) : List String := p.flatMap fun n => n.statement.mentions

def memberNames (p : Program) : List String := p.flatMap fun n => n.statement.members

end Program

/-- Different names of the program stay different. -/
structure Renaming.Separates (r : Renaming) (p : Program) : Prop where
  names : Set.InjOn r.name {name | name ∈ p.mentions}
  members : Set.InjOn r.member {m | m ∈ p.memberNames}

/-- The same kind of error about the renamed name, with any suggestion. -/
inductive CompileError.Renamed (r : Renaming) : CompileError → CompileError → Prop
  | duplicateBinding {name span} :
      Renamed r (.duplicateBinding name span) (.duplicateBinding (r.name name) span)
  | unresolvedSymbol {name suggestion suggestion'} :
      Renamed r (.unresolvedSymbol name suggestion) (.unresolvedSymbol (r.name name) suggestion')
  | unknownStructure {name} : Renamed r (.unknownStructure name) (.unknownStructure (r.name name))
  | unknownMember {struct m} :
      Renamed r (.unknownMember struct m) (.unknownMember (r.name struct) (r.member m))
  | unsupportedOperator {op} : Renamed r (.unsupportedOperator op) (.unsupportedOperator op)
  | formatMismatch {op} : Renamed r (.formatMismatch op) (.formatMismatch op)

/-- The same result, or the same kind of error. -/
inductive Renaming.Matches (r : Renaming) {α : Type} :
    Except CompileError α → Except CompileError α → Prop
  | ok (a : α) : Matches r (.ok a) (.ok a)
  | error {e e'} (h : e.Renamed r e') : Matches r (.error e) (.error e')

namespace Renaming.Matches

variable {r : Renaming} {α β : Type}

lemma bind {x x' : Except CompileError α} {y y' : α → Except CompileError β} (hx : r.Matches x x')
    (hy : ∀ a, r.Matches (y a) (y' a)) : r.Matches (x >>= y) (x' >>= y') := by
  cases hx with
  | ok a => exact hy a
  | error h => exact .error h

lemma map (f : α → β) {x x' : Except CompileError α} (hx : r.Matches x x') :
    r.Matches (f <$> x) (f <$> x') := by
  cases hx with
  | ok a => exact .ok (f a)
  | error h => exact .error h

lemma mapM {γ δ : Type} {f : γ → δ} {y : γ → Except CompileError α} {y' : δ → Except CompileError α}
    {cs : List γ} (h : ∀ c ∈ cs, r.Matches (y c) (y' (f c))) :
    r.Matches (cs.mapM y) ((cs.map f).mapM y') := by
  induction cs with
  | nil => exact .ok []
  | cons c cs ih =>
    obtain ⟨hc, hcs⟩ := List.forall_mem_cons.mp h
    rw [List.map_cons, List.mapM_cons, List.mapM_cons]
    exact hc.bind fun a => (ih hcs).bind fun as => .ok (a :: as)

lemma ok_iff {x x' : Except CompileError α} (h : r.Matches x x') (a : α) : x = .ok a ↔ x' = .ok a := by
  cases h with
  | ok b => exact Iff.rfl
  | error _ => exact ⟨nofun, nofun⟩

lemma exists_error {x x' : Except CompileError α} (h : r.Matches x x') {e : CompileError}
    (hx : x = .error e) : ∃ e', x' = .error e' ∧ e.Renamed r e' := by
  cases h with
  | ok a => cases hx
  | error hrenamed =>
    cases hx
    exact ⟨_, rfl, hrenamed⟩

end Renaming.Matches

section Lookup

variable {α β : Type} {f : String → String} {g : α → β} {l : List (String × α)} {k : String}

/-- Renamed keys are looked up as before if no other key gets the name that is looked up. -/
lemma lookup_map_of_injOn {names : Set String} (hf : Set.InjOn f names) (hl : ∀ e ∈ l, e.1 ∈ names)
    (hk : k ∈ names) : (l.map (Prod.map f g)).lookup (f k) = (l.lookup k).map g := by
  induction l with
  | nil => rfl
  | cons e l ih =>
    obtain ⟨he, hl⟩ := List.forall_mem_cons.mp hl
    rw [List.map_cons, List.lookup_cons, List.lookup_cons, ih hl]
    have hkey : (f k == f e.1) = (k == e.1) := by
      rw [Bool.eq_iff_iff, beq_iff_eq, beq_iff_eq]
      exact hf.eq_iff hk he
    change (bif f k == f e.1 then _ else _) = _
    rw [hkey]
    cases k == e.1 <;> rfl

end Lookup

variable {r : Renaming} {p : Program}

namespace Statement

@[simp] lemma name?_rename (st : Statement) : (st.rename r).name? = st.name?.map r.name := by
  cases st <;> rfl

@[simp] lemma size_rename (st : Statement) : (st.rename r).size = st.size := by
  cases st <;> rfl

end Statement

def StructLayout.rename (r : Renaming) (l : StructLayout) : StructLayout :=
  { l with members := l.members.map (Prod.map r.member id) }

lemma StructLayout.laidOut_rename (ms : List (String × UInt32)) :
    laidOut (ms.map (Prod.map r.member id)) = (laidOut ms).map (Prod.map r.member id) := by
  have hsizes (ms : List (String × UInt32)) :
      (ms.map (Prod.map r.member id)).foldr (fun m size => m.2.toNat + size) 0 =
        ms.foldr (fun m size => m.2.toNat + size) 0 := List.foldr_map
  apply List.ext_getElem
  · simp [laidOut]
  · intro i _ _
    simp [laidOut, ← List.map_take, hsizes]

namespace Node

lemma symbol?_rename (offset : Nat) (n : Node) :
    (n.rename r).symbol? offset = (n.symbol? offset).map (Prod.map r.name id) := by
  obtain ⟨st, span⟩ := n
  cases st <;> rfl

lemma layout?_rename (n : Node) :
    (n.rename r).layout? = n.layout?.map (Prod.map r.name (StructLayout.rename r)) := by
  obtain ⟨st, span⟩ := n
  cases st with
  | struct ex name ms =>
    change some (r.name name, (⟨StructLayout.laidOut (ms.map _), ex, span⟩ : StructLayout)) = _
    rw [StructLayout.laidOut_rename]
    rfl
  | label _ | constant _ _ _ | data _ _ _ _ | instruction _ => rfl

end Node

namespace Program

lemma names_rename (p : Program) : (p.rename r).names = p.names.map r.name := by
  rw [names, names, rename, List.filterMap_map, List.map_filterMap]
  exact List.filterMap_congr fun n _ => n.statement.name?_rename

lemma symbols_rename (p : Program) (offset : Nat) :
    (p.rename r).symbols offset = (p.symbols offset).map (Prod.map r.name id) := by
  induction p generalizing offset with
  | nil => rfl
  | cons n p ih =>
    have hsize : (n.rename r).statement.size = n.statement.size := n.statement.size_rename
    change symbols offset (n.rename r :: rename r p) = _
    rw [symbols, symbols, hsize, ih, n.symbol?_rename, List.map_append, Option.toList_map]

lemma layouts_rename (p : Program) :
    (p.rename r).layouts = p.layouts.map (Prod.map r.name (StructLayout.rename r)) := by
  rw [layouts, layouts, rename, List.filterMap_map, List.map_filterMap]
  exact List.filterMap_congr fun n _ => n.layout?_rename

lemma mem_mentions_of_mem_names {name : String} (h : name ∈ p.names) : name ∈ p.mentions := by
  obtain ⟨n, hn, hname⟩ := List.mem_filterMap.mp h
  refine List.mem_flatMap.mpr ⟨n, hn, List.mem_append_left _ ?_⟩
  exact Option.mem_toList.mpr hname

lemma Redeclares.rename {n : Node} {name : String} (h : p.Redeclares n name) (hr : r.Separates p) :
    (p.rename r).Redeclares (n.rename r) (r.name name) := by
  obtain ⟨before, after, rfl, hnodup, hname, hmem⟩ := h
  refine ⟨rename r before, rename r after, List.map_append, ?_, ?_, ?_⟩
  · rw [names_rename]
    refine hnodup.map_on fun x hx y hy => hr.names ?_ ?_
    · exact mem_mentions_of_mem_names (names_append ▸ List.mem_append_left _ hx)
    · exact mem_mentions_of_mem_names (names_append ▸ List.mem_append_left _ hy)
  · rw [Node.rename, Statement.name?_rename, hname, Option.map_some]
  · rw [names_rename]
    exact List.mem_map_of_mem hmem

end Program

namespace Scope

/-- What a program mentions is looked up in both scopes alike, by its old and by its new name. -/
structure Renames (r : Renaming) (p : Program) (s t : Scope) : Prop where
  symbol : ∀ name ∈ p.mentions, r.Matches (s.symbols.resolve name) (t.symbols.resolve (r.name name))
  member : ∀ struct ∈ p.mentions, ∀ m ∈ p.memberNames,
    r.Matches (s.structs.resolve struct m) (t.structs.resolve (r.name struct) (r.member m))

lemma Holds.renames {s t : Scope} (hs : s.Holds p) (ht : t.Holds (p.rename r)) (hr : r.Separates p) :
    s.Renames r p t where
  symbol name hname := by
    have hmentions : ∀ e ∈ s.symbols.entries, e.1 ∈ {name | name ∈ p.mentions} := by
      intro e he
      refine Program.mem_mentions_of_mem_names (Program.mem_names.mpr (.inl ?_))
      rw [← hs.names_symbols]
      exact List.mem_map_of_mem he
    have hget : t.symbols.get? (r.name name) = s.symbols.get? name := by
      rw [Bindings.get?, ht.symbols, Program.symbols_rename, ← hs.symbols,
        lookup_map_of_injOn hr.names hmentions hname, Option.map_id]
      rfl
    rw [SymbolTable.resolve, SymbolTable.resolve, hget]
    cases s.symbols.get? name with
    | none => exact .error .unresolvedSymbol
    | some x => exact .ok x.value
  member struct hstruct m hm := by
    have hmentions : ∀ e ∈ s.structs.entries, e.1 ∈ {name | name ∈ p.mentions} := by
      intro e he
      refine Program.mem_mentions_of_mem_names (Program.mem_names.mpr (.inr ?_))
      rw [← hs.names_structs]
      exact List.mem_map_of_mem he
    have hget : t.structs.get? (r.name struct) = (s.structs.get? struct).map (StructLayout.rename r) := by
      rw [Bindings.get?, ht.structs, Program.layouts_rename, ← hs.structs,
        lookup_map_of_injOn hr.names hmentions hstruct]
      rfl
    rw [StructTable.resolve, StructTable.resolve, hget]
    cases hlayout : s.structs.get? struct with
    | none => exact .error .unknownStructure
    | some l =>
      obtain ⟨n, hn, hl⟩ := hs.get?_structs.mp hlayout
      have hmembers : ∀ e ∈ l.members, e.1 ∈ {m | m ∈ p.memberNames} := by
        obtain ⟨ex, ms, hst, rfl⟩ := Node.layout?_eq_some_iff.mp hl
        intro e he
        refine List.mem_flatMap.mpr ⟨n, hn, ?_⟩
        rw [hst, Statement.members, ← StructLayout.map_fst_laidOut]
        exact List.mem_map_of_mem he
      have hoffset : (l.rename r).offset? (r.member m) = l.offset? m := by
        rw [StructLayout.offset?, StructLayout.rename, lookup_map_of_injOn hr.members hmembers hm,
          Option.map_id]
        rfl
      simp only [Option.map_some, hoffset]
      cases l.offset? m with
      | none => exact .error .unknownMember
      | some offset => exact .ok offset

namespace Renames

variable {s t : Scope} (h : s.Renames r p t)

include h

lemma evaluate {x : Expression} (hnames : x.names ⊆ p.mentions) (hmembers : x.members ⊆ p.memberNames) :
    r.Matches (s.evaluate x) (t.evaluate (x.rename r)) := by
  induction x with
  | literal v => exact .ok _
  | symbol name => exact h.symbol name (hnames List.mem_cons_self)
  | member struct name m =>
    obtain ⟨hstruct, hnames⟩ := List.cons_subset.mp hnames
    refine (h.member struct hstruct m (hmembers List.mem_cons_self)).bind fun offset => ?_
    exact (h.symbol name (hnames List.mem_cons_self)).bind fun base => .ok (base + offset)
  | binary op left right ihl ihr =>
    obtain ⟨hleft, hright⟩ := List.append_subset.mp hnames
    obtain ⟨hleft', hright'⟩ := List.append_subset.mp hmembers
    refine (ihl hleft hleft').bind fun a => (ihr hright hright').bind fun b => ?_
    cases op with
    | add | subtract | multiply => exact .ok _
    | divide | and | or | xor => exact .error .unsupportedOperator

lemma evaluateOperand {o : Operand Expression}
    (ho : ∀ x ∈ o.expression?, x.names ⊆ p.mentions ∧ x.members ⊆ p.memberNames) :
    r.Matches (s.evaluateOperand o) (t.evaluateOperand (o.map (Expression.rename r))) := by
  cases o with
  | literal x | byte x | address x =>
    obtain ⟨hnames, hmembers⟩ := ho x rfl
    exact (h.evaluate hnames hmembers).bind fun w => .ok _
  | register _ | pointer _ | indirect _ => exact .ok _

lemma encode {n : Node} (hn : n ∈ p) :
    r.Matches (n.statement.encode s) ((n.statement.rename r).encode t) := by
  have hmentions : n.statement.mentions ⊆ p.mentions := fun _ hx => List.mem_flatMap.mpr ⟨n, hn, hx⟩
  have hmembers : n.statement.members ⊆ p.memberNames := fun _ hx => List.mem_flatMap.mpr ⟨n, hn, hx⟩
  cases hst : n.statement with
  | instruction i =>
    rw [hst] at hmentions hmembers
    have hoperand : ∀ o ∈ i.operands,
        r.Matches (s.evaluateOperand o) (t.evaluateOperand (o.map (Expression.rename r))) := by
      intro o ho
      refine h.evaluateOperand fun x hx => ?_
      have hmem : x ∈ (Statement.instruction i).expressions := List.mem_filterMap.mpr ⟨o, ho, hx⟩
      exact ⟨fun _ hy => hmentions (List.mem_flatMap.mpr ⟨x, hmem, hy⟩),
        fun _ hy => hmembers (List.mem_flatMap.mpr ⟨x, hmem, hy⟩)⟩
    have hresolve : r.Matches (s.resolve i) (t.resolve (i.map (Expression.rename r))) := by
      have hopcode : (i.map (Expression.rename r)).opcode = i.opcode := rfl
      rw [Scope.resolve, Scope.resolve, Instruction.format_map, hopcode]
      by_cases hformat : i.format = i.opcode.format
      · rw [if_neg (not_not.mpr hformat), if_neg (not_not.mpr hformat)]
        exact (Renaming.Matches.mapM hoperand).bind fun os => .ok (⟨i.opcode, os⟩ : Instruction Word)
      · rw [if_pos hformat, if_pos hformat]
        exact .error .formatMismatch
    exact hresolve.bind fun i => .ok _
  | label _ | constant _ _ _ | data _ _ _ _ | struct _ _ _ => exact .ok _

lemma bytes : r.Matches (Program.bytes s p) (Program.bytes t (p.rename r)) := by
  have houtputs : r.Matches (p.mapM fun n => n.statement.encode s)
      ((p.map (Node.rename r)).mapM fun n => n.statement.encode t) := .mapM fun n hn => h.encode hn
  exact houtputs.map _

end Renames

end Scope

/-- A renaming that keeps names apart goes through to the end. -/
lemma Program.matches_compile (hr : r.Separates p) : r.Matches p.compile (p.rename r).compile := by
  obtain hp | ⟨n, name, hn⟩ := p.nodup_names_or_redeclares
  · obtain ⟨s, hs, hsp⟩ := Scope.ofProgram_of_nodup hp
    have hq : (p.rename r).names.Nodup := by
      rw [names_rename]
      exact hp.map_on fun x hx y hy =>
        hr.names (mem_mentions_of_mem_names hx) (mem_mentions_of_mem_names hy)
    obtain ⟨t, ht, htq⟩ := Scope.ofProgram_of_nodup hq
    rw [compile_eq_bytes hs, compile_eq_bytes ht]
    exact (hsp.renames htq hr).bytes
  · rw [compile_of_redeclares hn, compile_of_redeclares (hn.rename hr)]
    exact .error .duplicateBinding

/-- Names are only names: a program and the same program with other names, different ones for different
ones, compile to the same bytes, or fail with the same kind of error about the same thing. -/
theorem compile_rename {r : Renaming} {p : Program} (h : r.Separates p) :
    (∀ bytes, p.compile = .ok bytes ↔ (p.rename r).compile = .ok bytes) ∧
      ∀ e, p.compile = .error e → ∃ e', (p.rename r).compile = .error e' ∧ e.Renamed r e' := by
  have hmatches := Program.matches_compile h
  exact ⟨fun bytes => hmatches.ok_iff bytes, fun e he => hmatches.exists_error he⟩

/-- The structure and the block of the program exchange their names, and so do the members. -/
def Renaming.exchange : Renaming := ⟨Equiv.swap "point" "table", Equiv.swap "x" "y"⟩

/-- Two bytes behind the beginning of the table. -/
def Program.tabled : Program :=
  [⟨.struct false "point" [("x", 2), ("y", 2)], ⟨0, 30⟩⟩,
    ⟨.instruction ⟨.movLitReg, [.literal (.member "point" "table" "y"), .register .r1]⟩, ⟨31, 58⟩⟩,
    ⟨.data false .word "table" [1, 2], ⟨59, 86⟩⟩]

theorem compile_rename_exchanged : Renaming.exchange.Separates .tabled ∧
    (Program.tabled.rename .exchange).compile = .ok [0x10, 0, 6, 0, 0, 1, 0, 2] := by
  have h : Renaming.exchange.Separates .tabled :=
    ⟨(Equiv.swap "point" "table").injective.injOn, (Equiv.swap "x" "y").injective.injOn⟩
  exact ⟨h, ((compile_rename h).1 _).mp rfl⟩

end Machine16
