import Machine16.Proofs.Declarations
import Machine16.Proofs.Suggestions

/-! Constants and structures may be declared anywhere. They take no place in memory, and what is looked up in
the tables does not depend on the order in which the tables have been filled. -/
namespace Machine16

namespace Statement

/-- Whether the statement declares something that has no place in memory. -/
def floats : Statement → Bool
  | constant .. | struct .. => true
  | label _ | data .. | instruction _ => false

def unexported : Statement → Statement
  | constant _ name v => constant false name v
  | data _ w name vs => data false w name vs
  | struct _ name ms => struct false name ms
  | label name => label name
  | instruction i => instruction i

@[simp] lemma name?_unexported (st : Statement) : st.unexported.name? = st.name? := by cases st <;> rfl

@[simp] lemma size_unexported (st : Statement) : st.unexported.size = st.size := by cases st <;> rfl

lemma size_of_floats {st : Statement} (h : st.floats = true) : st.size = 0 := by
  cases st with
  | constant _ _ _ | struct _ _ _ => rfl
  | label _ | data _ _ _ _ | instruction _ => cases h

end Statement

namespace Node

/-- The node without its export mark and span. -/
def bare (n : Node) : Node := ⟨n.statement.unexported, ⟨0, 0⟩⟩

/-- The value of the symbol that a node declares if there are `offset` bytes before it. -/
def value? (offset : Nat) (n : Node) : Option (String × Word) :=
  (n.symbol? offset).map fun e => (e.1, e.2.value)

def members? (n : Node) : Option (String × List (String × Word)) := n.layout?.map fun e => (e.1, e.2.members)

lemma value?_bare (offset : Nat) (n : Node) : n.bare.value? offset = n.value? offset := by
  obtain ⟨st, span⟩ := n
  cases st <;> rfl

lemma members?_bare (n : Node) : n.bare.members? = n.members? := by
  obtain ⟨st, span⟩ := n
  cases st <;> rfl

lemma value?_of_floats {n : Node} (h : n.statement.floats = true) (offset : Nat) :
    n.value? offset = n.value? 0 := by
  obtain ⟨st, span⟩ := n
  cases st with
  | constant _ _ _ | struct _ _ _ => rfl
  | label _ | data _ _ _ _ | instruction _ => cases h

end Node

namespace Program

/-- The program without its export marks and spans. -/
def bare (p : Program) : Program := p.map Node.bare

/-- The constants and structures. -/
def floating (p : Program) : Program := p.filter fun n => n.statement.floats

/-- The labels, blocks and instructions. -/
def placed (p : Program) : Program := p.filter fun n => !n.statement.floats

/-- The same labels, blocks and instructions in the same order, with the same constants and structures
anywhere between them. Export marks and spans may differ. -/
structure Rearranged (p q : Program) : Prop where
  placed : p.bare.placed = q.bare.placed
  floating : p.bare.floating.Perm q.bare.floating

/-- The values of the symbols of statements that have `offset` bytes before them. -/
def values (offset : Nat) (p : Program) : List (String × Word) :=
  (p.symbols offset).map fun e => (e.1, e.2.value)

/-- The offsets of the members of every structure. -/
def members (p : Program) : List (String × List (String × Word)) := p.layouts.map fun e => (e.1, e.2.members)

variable {p q : Program}

lemma names_bare (p : Program) : p.bare.names = p.names := by
  rw [names, names, bare, List.filterMap_map]
  exact List.filterMap_congr fun n _ => n.statement.name?_unexported

lemma members_eq (p : Program) : p.members = p.filterMap Node.members? := List.map_filterMap

lemma members_bare (p : Program) : p.bare.members = p.members := by
  rw [members_eq, members_eq, bare, List.filterMap_map]
  exact List.filterMap_congr fun n _ => n.members?_bare

lemma values_cons (offset : Nat) (n : Node) (p : Program) :
    values offset (n :: p) = (n.value? offset).toList ++ values (offset + n.statement.size) p := by
  rw [values, symbols, List.map_append, Node.value?, Option.toList_map]
  rfl

lemma placed_cons_of_floats {n : Node} (h : n.statement.floats = true) : placed (n :: p) = p.placed :=
  List.filter_cons_of_neg (by simp [h])

lemma placed_cons {n : Node} (h : n.statement.floats = false) : placed (n :: p) = n :: p.placed :=
  List.filter_cons_of_pos (by simp [h])

lemma values_bare (offset : Nat) (p : Program) : p.bare.values offset = p.values offset := by
  induction p generalizing offset with
  | nil => rfl
  | cons n p ih =>
    change values offset (n.bare :: bare p) = _
    rw [values_cons, values_cons, n.value?_bare]
    exact congrArg _ ((ih _).trans (by rw [Node.bare, Statement.size_unexported]))

/-- Constants and structures do not move what stands after them, and have the same value everywhere. -/
lemma values_perm (offset : Nat) (p : Program) :
    (p.values offset).Perm (p.floating.filterMap (Node.value? 0) ++ p.placed.values offset) := by
  induction p generalizing offset with
  | nil => rfl
  | cons n p ih =>
    rw [values_cons]
    cases h : n.statement.floats with
    | true =>
      have hfloating : floating (n :: p) = n :: floating p := List.filter_cons_of_pos h
      rw [hfloating, placed_cons_of_floats h, Statement.size_of_floats h, Nat.add_zero,
        Node.value?_of_floats h]
      cases hvalue : n.value? 0 with
      | none => simpa [List.filterMap_cons, hvalue] using ih offset
      | some e => simpa [List.filterMap_cons, hvalue] using (ih offset).cons e
    | false =>
      have hfloating : floating (n :: p) = floating p := List.filter_cons_of_neg (by simp [h])
      rw [hfloating, placed_cons h, values_cons]
      exact ((ih _).append_left _).trans (List.perm_append_comm_assoc _ _ _)

lemma Rearranged.values (h : p.Rearranged q) : (p.values 0).Perm (q.values 0) := by
  have hfloating := h.floating.filterMap (Node.value? 0)
  calc
    p.values 0 = p.bare.values 0 := (values_bare 0 p).symm
    (p.bare.values 0).Perm _ := values_perm 0 _
    (p.bare.floating.filterMap (Node.value? 0) ++ p.bare.placed.values 0).Perm
        (q.bare.floating.filterMap (Node.value? 0) ++ q.bare.placed.values 0) := by
      rw [h.placed]
      exact hfloating.append_right _
    (q.bare.floating.filterMap (Node.value? 0) ++ q.bare.placed.values 0).Perm _ := (values_perm 0 _).symm
    q.bare.values 0 = q.values 0 := values_bare 0 q

lemma Rearranged.perm (h : p.Rearranged q) : p.bare.Perm q.bare := by
  calc
    p.bare.Perm (p.bare.floating ++ p.bare.placed) := (List.filter_append_perm _ _).symm
    _ = (p.bare.floating ++ q.bare.placed) := by rw [h.placed]
    (p.bare.floating ++ q.bare.placed).Perm (q.bare.floating ++ q.bare.placed) := h.floating.append_right _
    (q.bare.floating ++ q.bare.placed).Perm q.bare := List.filter_append_perm _ _

lemma Rearranged.names (h : p.Rearranged q) : p.names.Perm q.names := by
  rw [← names_bare p, ← names_bare q]
  exact h.perm.filterMap _

lemma Rearranged.members (h : p.Rearranged q) : p.members.Perm q.members := by
  rw [← members_bare p, ← members_bare q, members_eq, members_eq]
  exact h.perm.filterMap _

end Program

namespace Bindings

variable {α β : Type} {b c : Bindings α} {f : α → β}

/-- Tables with the same entries in another order give the same answers. -/
lemma map_get?_eq_of_perm
    (h : (b.entries.map fun e => (e.1, f e.2)).Perm (c.entries.map fun e => (e.1, f e.2)))
    (name : String) : (b.get? name).map f = (c.get? name).map f := by
  have hmem (b : Bindings α) (v : β) :
      (b.get? name).map f = some v ↔ (name, v) ∈ b.entries.map fun e => (e.1, f e.2) := by
    simp only [Option.map_eq_some_iff, get?_eq_some_iff, List.mem_map, Prod.exists, Prod.mk.injEq]
    constructor
    · rintro ⟨x, hx, rfl⟩
      exact ⟨name, x, hx, rfl, rfl⟩
    · rintro ⟨_, x, hx, rfl, rfl⟩
      exact ⟨x, hx, rfl⟩
  ext v
  rw [hmem, hmem]
  exact h.mem_iff

end Bindings

namespace Scope

/-- Every name means the same in both scopes. -/
structure Agrees (s t : Scope) : Prop where
  symbols : ∀ name, (s.symbols.get? name).map Symbol.value = (t.symbols.get? name).map Symbol.value
  structs : ∀ name,
    (s.structs.get? name).map StructLayout.members = (t.structs.get? name).map StructLayout.members

lemma Holds.agrees {s t : Scope} {p q : Program} (hs : s.Holds p) (ht : t.Holds q) (h : p.Rearranged q) :
    s.Agrees t where
  symbols := Bindings.map_get?_eq_of_perm (by rw [hs.symbols, ht.symbols]; exact h.values)
  structs := Bindings.map_get?_eq_of_perm (by rw [hs.structs, ht.structs]; exact h.members)

namespace Agrees

variable {s t : Scope} (h : s.Agrees t)

include h

lemma mem_names (name : String) : name ∈ s.symbols.names ↔ name ∈ t.symbols.names := by
  rw [← Bindings.isSome_get?, ← Bindings.isSome_get?, ← Option.isSome_map, h.symbols, Option.isSome_map]

lemma resolve_symbol (name : String) : s.symbols.resolve name = t.symbols.resolve name := by
  have hvalue := h.symbols name
  rw [SymbolTable.resolve, SymbolTable.resolve]
  cases hs : s.symbols.get? name with
  | none =>
    rw [hs, Option.map_none, eq_comm, Option.map_eq_none_iff] at hvalue
    rw [hvalue, SymbolTable.nearest?_congr h.mem_names]
  | some x =>
    rw [hs, Option.map_some, eq_comm, Option.map_eq_some_iff] at hvalue
    obtain ⟨y, ht, hxy⟩ := hvalue
    rw [ht]
    exact congrArg Except.ok hxy.symm

lemma resolve_member (struct member : String) :
    s.structs.resolve struct member = t.structs.resolve struct member := by
  have hmembers := h.structs struct
  rw [StructTable.resolve, StructTable.resolve]
  cases hs : s.structs.get? struct with
  | none =>
    rw [hs, Option.map_none, eq_comm, Option.map_eq_none_iff] at hmembers
    rw [hmembers]
  | some x =>
    rw [hs, Option.map_some, eq_comm, Option.map_eq_some_iff] at hmembers
    obtain ⟨y, ht, hxy⟩ := hmembers
    simp only [ht, StructLayout.offset?, hxy]

lemma evaluate (x : Expression) : s.evaluate x = t.evaluate x := by
  induction x with
  | literal v => rfl
  | symbol name => exact h.resolve_symbol name
  | member struct name m => simp only [Scope.evaluate, h.resolve_member, h.resolve_symbol]
  | binary op left right ihl ihr => simp only [Scope.evaluate, ihl, ihr]

lemma evaluateOperand (o : Operand Expression) : s.evaluateOperand o = t.evaluateOperand o := by
  cases o with
  | literal x | byte x | address x => simp only [Scope.evaluateOperand, h.evaluate]
  | register _ | pointer _ | indirect _ => rfl

lemma encode (st : Statement) : st.encode s = st.encode t := by
  cases st with
  | instruction i =>
    have hoperands : s.evaluateOperand = t.evaluateOperand := funext h.evaluateOperand
    simp only [Statement.encode, Scope.resolve, hoperands]
  | label _ | constant _ _ _ | data _ _ _ _ | struct _ _ _ => rfl

end Agrees

end Scope

namespace Program

variable {s t : Scope} {p q : Program}

lemma bytes_bare (s : Scope) (p : Program) : bytes s p.bare = bytes s p := by
  induction p with
  | nil => rfl
  | cons n p ih =>
    have hencode : n.statement.unexported.encode s = n.statement.encode s := by cases n.statement <;> rfl
    change bytes s (n.bare :: bare p) = _
    rw [bytes_cons, bytes_cons, ih, Node.bare, hencode]

lemma bytes_placed (s : Scope) (p : Program) : bytes s p.placed = bytes s p := by
  induction p with
  | nil => rfl
  | cons n p ih =>
    cases h : n.statement.floats with
    | true =>
      have hencode : n.statement.encode s = .ok none := by
        cases hst : n.statement <;> simp_all [Statement.floats] <;> rfl
      rw [bytes_cons_of_none hencode, placed_cons_of_floats h, ih]
    | false => rw [placed_cons h, bytes_cons, bytes_cons, ih]

lemma bytes_congr (h : s.Agrees t) (p : Program) : bytes s p = bytes t p := by
  simp only [bytes, h.encode]

lemma Rearranged.bytes (h : p.Rearranged q) (hst : s.Agrees t) : bytes s p = Program.bytes t q := by
  calc
    Program.bytes s p = Program.bytes s p.bare.placed := by rw [bytes_placed, bytes_bare]
    _ = Program.bytes t q.bare.placed := by rw [h.placed, bytes_congr hst]
    _ = Program.bytes t q := by rw [bytes_placed, bytes_bare]

end Program

/-- Constants and structures may be declared anywhere: two programs that differ only in where they do it, in
export marks and in spans compile to the same bytes, or both declare a name twice, or have the same error. -/
theorem compile_rearranged {p q : Program} (h : p.Rearranged q) :
    (∀ bytes, p.compile = .ok bytes ↔ q.compile = .ok bytes) ∧
      ((∃ name span, p.compile = .error (.duplicateBinding name span)) ↔
        ∃ name span, q.compile = .error (.duplicateBinding name span)) ∧
      ∀ e, (∀ name span, e ≠ .duplicateBinding name span) →
        (p.compile = .error e ↔ q.compile = .error e) := by
  obtain hp | ⟨n, name, hp⟩ := p.nodup_names_or_redeclares
  · obtain ⟨s, hs, hsp⟩ := Scope.ofProgram_of_nodup hp
    obtain ⟨t, ht, htq⟩ := Scope.ofProgram_of_nodup (h.names.nodup_iff.mp hp)
    -- nothing is declared twice, so both first passes succeed, and even the errors of the second ones agree
    have hcompile : p.compile = q.compile := by
      rw [Program.compile_eq_bytes hs, Program.compile_eq_bytes ht, h.bytes (hsp.agrees htq h)]
    rw [hcompile]
    exact ⟨fun _ => Iff.rfl, Iff.rfl, fun _ _ => Iff.rfl⟩
  · obtain hq | ⟨m, name', hq⟩ := q.nodup_names_or_redeclares
    · exact absurd (h.names.nodup_iff.mpr hq) hp.not_nodup
    · rw [Program.compile_of_redeclares hp, Program.compile_of_redeclares hq]
      refine ⟨fun bytes => ⟨nofun, nofun⟩, ⟨fun _ => ⟨_, _, rfl⟩, fun _ => ⟨_, _, rfl⟩⟩, fun e he => ⟨?_, ?_⟩⟩
      · rintro ⟨⟩
        exact absurd rfl (he _ _)
      · rintro ⟨⟩
        exact absurd rfl (he _ _)

/-- What is used has been declared before. -/
def Program.declaredBefore : Program :=
  [⟨.constant true "base" 0x1000, ⟨0, 24⟩⟩,
    ⟨.struct false "point" [("x", 2), ("y", 2)], ⟨25, 50⟩⟩,
    ⟨.instruction ⟨.movLitReg, [.literal (.member "point" "base" "y"), .register .r1]⟩, ⟨51, 77⟩⟩,
    ⟨.label "end", ⟨78, 82⟩⟩]

/-- What is used is declared after it, in another order. -/
def Program.declaredAfter : Program :=
  [⟨.instruction ⟨.movLitReg, [.literal (.member "point" "base" "y"), .register .r1]⟩, ⟨0, 26⟩⟩,
    ⟨.struct true "point" [("x", 2), ("y", 2)], ⟨27, 53⟩⟩,
    ⟨.label "end", ⟨54, 58⟩⟩,
    ⟨.constant false "base" 0x1000, ⟨59, 82⟩⟩]

theorem compile_rearranged_sample :
    Program.declaredBefore.Rearranged .declaredAfter ∧
      Program.declaredAfter.compile = .ok [0x10, 0x10, 2, 0] := by
  have h : Program.declaredBefore.Rearranged .declaredAfter := ⟨by decide, by decide⟩
  exact ⟨h, ((compile_rearranged h).1 _).mp rfl⟩

end Machine16
