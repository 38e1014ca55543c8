import Mathlib.Data.List.Induction
import Mathlib.Data.List.Nodup
import Mathlib.Data.List.Pairwise
import Machine16.Proofs.Layout

/-! What a program declares. If no name is declared twice, the first pass makes tables of exactly these
declarations, whatever their order; else it stops at the first node that declares a name again. -/
namespace Machine16

namespace Statement

/-- The name that a statement declares as a symbol. -/
def symbolName? : Statement → Option String
  | label name | constant _ name _ | data _ _ name _ => some name
  | struct .. | instruction _ => none

/-- The name that a statement declares as a structure. -/
def structName? : Statement → Option String
  | struct _ name _ => some name
  | label _ | constant .. | data .. | instruction _ => none

def name? (s : Statement) : Option String := s.symbolName?.or s.structName?

end Statement

/-- The members of a structure with their offsets. Every member lies behind all members before it. -/
def StructLayout.laidOut (ms : List (String × UInt32)) : List (String × Word) :=
  ms.mapIdx fun i m => (m.1, UInt16.ofNat ((ms.take i).foldr (fun m size => m.2.toNat + size) 0))

namespace Node

/-- The symbol that a node declares if there are `offset` bytes before it. -/
def symbol? (offset : Nat) (n : Node) : Option (String × Symbol) :=
  match n.statement with
  | .label name => some (name, ⟨.label, UInt16.ofNat offset, false, n.span⟩)
  | .constant ex name v => some (name, ⟨.constant, v.toUInt16, ex, n.span⟩)
  | .data ex _ name _ => some (name, ⟨.data, UInt16.ofNat offset, ex, n.span⟩)
  | .struct .. | .instruction _ => none

/-- The structure that a node declares. -/
def layout? (n : Node) : Option (String × StructLayout) :=
  match n.statement with
  | .struct ex name ms => some (name, ⟨StructLayout.laidOut ms, ex, n.span⟩)
  | .label _ | .constant .. | .data .. | .instruction _ => none

end Node

namespace Program

def names (p : Program) : List String := p.filterMap fun n => n.statement.name?

def symbolNames (p : Program) : List String := p.filterMap fun n => n.statement.symbolName?

def structNames (p : Program) : List String := p.filterMap fun n => n.statement.structName?

/-- The symbols of statements that have `offset` bytes before them. -/
def symbols (offset : Nat) : Program → List (String × Symbol)
  | [] => []
  | n :: p => (n.symbol? offset).toList ++ symbols (offset + n.statement.size) p

def layouts (p : Program) : List (String × StructLayout) := p.filterMap Node.layout?

/-- The program declares `name` as the symbol `x`, an address being the number of bytes before the node. -/
def Declares (p : Program) (name : String) (x : Symbol) : Prop :=
  ∃ before n after, p = before ++ n :: after ∧ n.symbol? (size before) = some (name, x)

/-- The node `n` is the first of the program that declares a name that has been declared before, and this is
`name`. -/
def Redeclares (p : Program) (n : Node) (name : String) : Prop :=
  ∃ before after, p = before ++ n :: after ∧ before.names.Nodup ∧ n.statement.name? = some name ∧
    name ∈ before.names

variable {p q : Program} {n : Node} {name : String}

lemma names_append : (p ++ q).names = p.names ++ q.names := List.filterMap_append

lemma names_concat : (p ++ [n]).names = p.names ++ n.statement.name?.toList := by
  rw [names_append]
  cases h : n.statement.name? <;> simp [names, h]

lemma symbols_append (offset : Nat) :
    (p ++ q).symbols offset = p.symbols offset ++ q.symbols (offset + p.size) := by
  induction p generalizing offset with
  | nil => rfl
  | cons n p ih => rw [List.cons_append, symbols, symbols, ih, List.append_assoc, size_cons, Nat.add_assoc]

lemma mem_names : name ∈ p.names ↔ name ∈ p.symbolNames ∨ name ∈ p.structNames := by
  simp only [names, symbolNames, structNames, List.mem_filterMap, Statement.name?, Option.or_eq_some_iff]
  constructor
  · rintro ⟨n, hn, h | ⟨-, h⟩⟩
    · exact .inl ⟨n, hn, h⟩
    · exact .inr ⟨n, hn, h⟩
  · rintro (⟨n, hn, h⟩ | ⟨n, hn, h⟩)
    · exact ⟨n, hn, .inl h⟩
    · refine ⟨n, hn, .inr ⟨?_, h⟩⟩
      cases hs : n.statement <;> simp_all [Statement.structName?, Statement.symbolName?]

lemma eq_of_name?_eq {m : Node} (h : p.names.Nodup) (hn : n ∈ p) (hm : m ∈ p)
    (hname : n.statement.name? = some name) (hname' : m.statement.name? = some name) : n = m := by
  by_contra hne
  have : Std.Symm fun n m : Node =>
      ∀ x, n.statement.name? = some x → ∀ y, m.statement.name? = some y → x ≠ y :=
    ⟨fun n m hnm x hx y hy => (hnm y hy x hx).symm⟩
  exact (List.pairwise_filterMap.mp h).forall hn hm hne name hname name hname' rfl

/-- No name stands for a symbol and for a structure. -/
lemma not_mem_structNames (h : p.names.Nodup) (hname : name ∈ p.symbolNames) : name ∉ p.structNames := by
  intro hstruct
  obtain ⟨n, hn, hname⟩ := List.mem_filterMap.mp hname
  obtain ⟨m, hm, hstruct⟩ := List.mem_filterMap.mp hstruct
  have hnone : m.statement.symbolName? = none := by
    cases hst : m.statement <;> simp_all [Statement.structName?, Statement.symbolName?]
  obtain rfl : n = m := by
    have hsymbol : n.statement.name? = some name := by rw [Statement.name?, hname, Option.some_or]
    exact eq_of_name?_eq h hn hm hsymbol (by rw [Statement.name?, hnone, Option.none_or, hstruct])
  cases hname.symm.trans hnone

lemma mem_symbols {offset : Nat} {x : Symbol} : (name, x) ∈ p.symbols offset ↔
    ∃ before n after, p = before ++ n :: after ∧ n.symbol? (offset + size before) = some (name, x) := by
  constructor
  · intro h
    induction p generalizing offset with
    | nil => cases h
    | cons n p ih =>
      obtain h | h := List.mem_append.mp h
      · exact ⟨[], n, p, rfl, Option.mem_toList.mp h⟩
      · obtain ⟨before, m, after, rfl, hm⟩ := ih h
        exact ⟨n :: before, m, after, rfl, by rwa [size_cons, ← Nat.add_assoc]⟩
  · rintro ⟨before, n, after, rfl, h⟩
    rw [symbols_append, symbols]
    exact List.mem_append_right _ (List.mem_append_left _ (Option.mem_toList.mpr h))

lemma map_fst_symbols (p : Program) (offset : Nat) : (p.symbols offset).map Prod.fst = p.symbolNames := by
  induction p generalizing offset with
  | nil => rfl
  | cons n p ih =>
    rw [symbols, List.map_append, ih]
    cases hs : n.statement <;> simp [symbolNames, Node.symbol?, Statement.symbolName?, hs]

lemma map_fst_layouts (p : Program) : p.layouts.map Prod.fst = p.structNames := by
  rw [layouts, structNames, List.map_filterMap]
  apply List.filterMap_congr
  intro n _
  cases hs : n.statement <;> simp [Node.layout?, Statement.structName?, hs]

lemma layouts_concat : (p ++ [n]).layouts = p.layouts ++ n.layout?.toList := by
  rw [layouts, List.filterMap_append]
  cases h : n.layout? <;> simp [layouts, h]

lemma not_mem_names_of_nodup (h : (p ++ n :: q).names.Nodup) (hname : n.statement.name? = some name) :
    name ∉ p.names := by
  intro hmem
  rw [List.append_cons, names_append, names_concat, hname] at h
  have hdisjoint := (List.nodup_append.mp (List.nodup_append.mp h).1).2.2
  exact hdisjoint name hmem name List.mem_cons_self rfl

lemma Redeclares.not_nodup (h : p.Redeclares n name) : ¬ p.names.Nodup := by
  obtain ⟨before, after, rfl, -, hname, hmem⟩ := h
  exact fun hnodup => not_mem_names_of_nodup hnodup hname hmem

/-- Either all names differ, or some node is the first one to declare a name again. -/
lemma nodup_names_or_redeclares (p : Program) : p.names.Nodup ∨ ∃ n name, p.Redeclares n name := by
  induction p using List.reverseRecOn with
  | nil => exact .inl List.nodup_nil
  | append_singleton p n ih =>
    obtain hp | ⟨m, name, before, after, rfl, h⟩ := ih
    · rw [names_concat]
      cases hname : n.statement.name? with
      | none => exact .inl (by simpa using hp)
      | some name =>
        by_cases hmem : name ∈ names p
        · exact .inr ⟨n, name, p, [], rfl, hp, hname, hmem⟩
        · left
          simpa using hp.concat hmem
    · exact .inr ⟨m, name, before, after ++ [n], by simp, h⟩

end Program

namespace Bindings

variable {α : Type} {b : Bindings α} {name : String} {value : α}

lemma get?_eq_some_iff : b.get? name = some value ↔ (name, value) ∈ b.entries := by
  rw [get?, List.lookup_eq_some_iff]
  constructor
  · rintro ⟨before, after, h, -⟩
    rw [h]
    exact List.mem_append_right _ List.mem_cons_self
  · intro h
    obtain ⟨before, after, h⟩ := List.append_of_mem h
    refine ⟨before, after, h, fun e he => ?_⟩
    have hnodup := b.nodup
    rw [h, List.map_append, List.map_cons, List.nodup_middle, List.nodup_cons] at hnodup
    refine bne_iff_ne.mpr fun heq => hnodup.1 (List.mem_append_left _ ?_)
    exact List.mem_map.mpr ⟨e, he, heq.symm⟩

lemma contains_iff : b.contains name = true ↔ name ∈ b.names := List.contains_iff_mem

lemma isSome_get? : (b.get? name).isSome ↔ name ∈ b.names := by rw [← contains_eq_isSome, contains_iff]

lemma define?_of_not_contains (h : b.contains name = false) (value : α) :
    ∃ b', b.define? name value = some b' ∧ b'.entries = b.entries ++ [(name, value)] :=
  ⟨_, dif_neg (by simp [h]), rfl⟩

end Bindings

namespace StructLayout

lemma offsets_eq (start : Word) (ms : List (String × UInt32)) : offsets start ms = ms.mapIdx fun i m =>
    (m.1, start + UInt16.ofNat ((ms.take i).foldr (fun m size => m.2.toNat + size) 0)) := by
  induction ms generalizing start with
  | nil => rfl
  | cons m ms ih =>
    rw [offsets, ih, List.mapIdx_cons]
    simp [UInt16.add_assoc, UInt16.ofNat_add]

lemma ofSizes_eq (ms : List (String × UInt32)) (exported : Bool) (defined : Option Span) :
    ofSizes ms exported defined = ⟨laidOut ms, exported, defined⟩ := by
  simp only [ofSizes, offsets_eq, UInt16.zero_add, laidOut]

lemma map_fst_laidOut (ms : List (String × UInt32)) : (laidOut ms).map Prod.fst = ms.map Prod.fst := by
  apply List.ext_getElem <;> simp [laidOut]

lemma isSome_offset? {l : StructLayout} {member : String} :
    (l.offset? member).isSome ↔ member ∈ l.members.map Prod.fst := by
  rw [offset?, List.lookup_isSome_iff, List.mem_map]
  simp only [beq_iff_eq, @eq_comm _ member]

end StructLayout

namespace Node

variable {n : Node} {name : String} {layout : StructLayout}

lemma layout?_eq_some_iff : n.layout? = some (name, layout) ↔ ∃ exported ms,
    n.statement = .struct exported name ms ∧ layout = ⟨StructLayout.laidOut ms, exported, n.span⟩ := by
  obtain ⟨st, span⟩ := n
  cases st with
  | struct exported name' ms =>
    constructor
    · intro h
      cases h
      exact ⟨exported, ms, rfl, rfl⟩
    · rintro ⟨_, _, h, rfl⟩
      cases h
      rfl
  | label _ | constant _ _ _ | data _ _ _ _ | instruction _ =>
    constructor
    · intro h
      cases h
    · rintro ⟨_, _, h, -⟩
      cases h

end Node

namespace Scope

/-- The tables hold what a program declares, and no more. -/
structure Holds (s : Scope) (p : Program) : Prop where
  symbols : s.symbols.entries = p.symbols 0
  structs : s.structs.entries = p.layouts
  address : s.address = UInt16.ofNat p.size

namespace Holds

variable {s : Scope} {p : Program} {n : Node} {name : String}

lemma names_symbols (h : s.Holds p) : s.symbols.names = p.symbolNames := by
  rw [Bindings.names, h.symbols, Program.map_fst_symbols]

lemma names_structs (h : s.Holds p) : s.structs.names = p.structNames := by
  rw [Bindings.names, h.structs, Program.map_fst_layouts]

lemma get?_symbols (h : s.Holds p) {x : Symbol} : s.symbols.get? name = some x ↔ p.Declares name x := by
  rw [Bindings.get?_eq_some_iff, h.symbols, Program.mem_symbols, Program.Declares]
  simp only [Nat.zero_add]

lemma get?_structs (h : s.Holds p) {layout : StructLayout} :
    s.structs.get? name = some layout ↔ ∃ n ∈ p, n.layout? = some (name, layout) := by
  rw [Bindings.get?_eq_some_iff, h.structs, Program.layouts, List.mem_filterMap]

lemma contains_iff (h : s.Holds p) : s.contains name = true ↔ name ∈ p.names := by
  rw [Scope.contains, Bool.or_eq_true, Bindings.contains_iff, Bindings.contains_iff, h.names_symbols,
    h.names_structs, Program.mem_names]

lemma not_contains (h : s.Holds p) (hname : name ∉ p.names) :
    s.contains name = false ∧ s.symbols.contains name = false ∧ s.structs.contains name = false := by
  rw [← h.contains_iff, Bool.not_eq_true] at hname
  exact ⟨hname, Bool.or_eq_false_iff.mp hname⟩

lemma bindSymbol (h : s.Holds p) (hname : name ∉ p.names) (x : Symbol) : ∃ t, s.bindSymbol name x =
    .ok { s with symbols := t } ∧ t.entries = p.symbols 0 ++ [(name, x)] := by
  obtain ⟨hcontains, hsymbols, -⟩ := h.not_contains hname
  obtain ⟨t, ht, hentries⟩ := Bindings.define?_of_not_contains hsymbols x
  refine ⟨t, ?_, by rw [hentries, h.symbols]⟩
  simp only [Scope.bindSymbol, hcontains, SymbolTable.define, ht]
  rfl

lemma bindStruct (h : s.Holds p) (hname : name ∉ p.names) (x : StructLayout) : ∃ t, s.bindStruct name x =
    .ok { s with structs := t } ∧ t.entries = p.layouts ++ [(name, x)] := by
  obtain ⟨hcontains, -, hstructs⟩ := h.not_contains hname
  obtain ⟨t, ht, hentries⟩ := Bindings.define?_of_not_contains hstructs x
  refine ⟨t, ?_, by rw [hentries, h.structs]⟩
  simp only [Scope.bindStruct, hcontains, StructTable.define, ht]
  rfl

/-- One more node adds what it declares. -/
lemma concat {s' : Scope} (h : s.Holds p) (hs' : s.bind n = .ok s')
    (hsymbols : s'.symbols.entries = p.symbols 0 ++ (n.symbol? p.size).toList)
    (hstructs : s'.structs.entries = p.layouts ++ n.layout?.toList) : s'.Holds (p ++ [n]) where
  symbols := by
    rw [hsymbols, Program.symbols_append, Nat.zero_add, Program.symbols, Program.symbols, List.append_nil]
  structs := by rw [hstructs, Program.layouts_concat]
  address := by
    rw [address_bind hs', h.address, Program.size_append, Program.size_cons, Program.size_nil, Nat.add_zero,
      UInt16.ofNat_add]

/-- The step of the first pass at a node that declares nothing that has been declared. -/
lemma bind (h : s.Holds p) (hname : ∀ name ∈ n.statement.name?, name ∉ p.names) :
    ∃ s', s.bind n = .ok s' ∧ s'.Holds (p ++ [n]) := by
  have hsymbols : s.symbols.entries = p.symbols 0 ++ [] := h.symbols.trans (List.append_nil _).symm
  have hstructs : s.structs.entries = p.layouts ++ [] := h.structs.trans (List.append_nil _).symm
  obtain ⟨st, span⟩ := n
  cases st with
  | label name =>
    obtain ⟨t, ht, hentries⟩ := h.bindSymbol (hname name rfl) ⟨.label, s.address, false, span⟩
    rw [h.address] at hentries
    exact ⟨_, ht, h.concat ht hentries hstructs⟩
  | constant ex name v =>
    obtain ⟨t, ht, hentries⟩ := h.bindSymbol (hname name rfl) ⟨.constant, v.toUInt16, ex, span⟩
    exact ⟨_, ht, h.concat ht hentries hstructs⟩
  | data ex w name vs =>
    obtain ⟨t, ht, hentries⟩ := h.bindSymbol (hname name rfl) ⟨.data, s.address, ex, span⟩
    rw [h.address] at hentries
    have hbind : s.bind ⟨.data ex w name vs, span⟩ = .ok _ := bind_eq_ok.mpr ⟨_, ht, rfl⟩
    exact ⟨_, hbind, h.concat hbind hentries hstructs⟩
  | struct ex name ms =>
    obtain ⟨t, ht, hentries⟩ := h.bindStruct (hname name rfl) (.ofSizes ms ex span)
    rw [StructLayout.ofSizes_eq] at hentries
    exact ⟨_, ht, h.concat ht hsymbols hentries⟩
  | instruction i => exact ⟨_, rfl, h.concat rfl hsymbols hstructs⟩

lemma bind_eq_error (h : s.Holds p) (hname : n.statement.name? = some name) (hmem : name ∈ p.names) :
    s.bind n = .error (.duplicateBinding name (some n.span)) := by
  have hcontains := h.contains_iff.mpr hmem
  obtain ⟨st, span⟩ := n
  cases st with
  | label _ | constant _ _ _ | data _ _ _ _ | struct _ _ _ =>
    cases hname
    simp only [Scope.bind, Scope.bindSymbol, Scope.bindStruct, hcontains]
    rfl
  | instruction _ => cases hname

/-- The first pass over statements that declare no name again. -/
lemma foldlM_bind {q : Program} (h : s.Holds p) (hq : (p ++ q).names.Nodup) :
    ∃ s', q.foldlM Scope.bind s = .ok s' ∧ s'.Holds (p ++ q) := by
  induction q generalizing s p with
  | nil => exact ⟨s, rfl, by rwa [List.append_nil]⟩
  | cons n q ih =>
    obtain ⟨s', hs', hholds⟩ := h.bind fun name hname => Program.not_mem_names_of_nodup hq hname
    rw [List.append_cons] at hq ⊢
    obtain ⟨s'', hs'', hholds⟩ := ih hholds hq
    refine ⟨s'', ?_, hholds⟩
    rw [List.foldlM_cons]
    exact bind_eq_ok.mpr ⟨s', hs', hs''⟩

end Holds

variable {p : Program} {n : Node} {name : String}

lemma holds_empty : ({} : Scope).Holds [] := ⟨rfl, rfl, rfl⟩

/-- The first pass succeeds if no name is declared twice. -/
lemma ofProgram_of_nodup (h : p.names.Nodup) : ∃ s, Scope.ofProgram p = .ok s ∧ s.Holds p :=
  holds_empty.foldlM_bind h

/-- The first pass stops at the first node that declares a name again. -/
lemma ofProgram_of_redeclares (h : p.Redeclares n name) :
    Scope.ofProgram p = .error (.duplicateBinding name (some n.span)) := by
  obtain ⟨before, after, rfl, hnodup, hname, hmem⟩ := h
  obtain ⟨s, hs, hholds⟩ := ofProgram_of_nodup hnodup
  rw [ofProgram] at hs ⊢
  rw [List.foldlM_append, hs]
  change (n :: after).foldlM bind s = _
  rw [List.foldlM_cons, hholds.bind_eq_error hname hmem]
  rfl

/-- Whatever the first pass makes of a program holds its declarations. -/
lemma holds_of_ofProgram {s : Scope} (h : Scope.ofProgram p = .ok s) : p.names.Nodup ∧ s.Holds p := by
  obtain hnodup | ⟨n, name, hn⟩ := p.nodup_names_or_redeclares
  · obtain ⟨s', hs', hholds⟩ := ofProgram_of_nodup hnodup
    cases hs'.symm.trans h
    exact ⟨hnodup, hholds⟩
  · cases (ofProgram_of_redeclares hn).symm.trans h

end Scope

/-- A program that declares a name again does not compile, whatever else is wrong with it. -/
lemma Program.compile_of_redeclares {p : Program} {n : Node} {name : String} (h : p.Redeclares n name) :
    p.compile = .error (.duplicateBinding name (some n.span)) := by
  rw [Program.compile, chunks, Scope.ofProgram_of_redeclares h]
  rfl

end Machine16
