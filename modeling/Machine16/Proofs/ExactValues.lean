import Mathlib.Algebra.Ring.Int.Defs
import Machine16.Proofs.Diagnosis

/-! What an expression is worth in the integers. Every number on the way to the value of an operand is cut to a
word: literals, constants, the sizes of members, the counts of elements, the running address and all results.
None of it shows, since cutting is a homomorphism of rings: the value is the one in the integers, cut once. -/
namespace Machine16

/-- The number that a node gives to its symbol if there are `offset` bytes before it. -/
def Node.number? (offset : Nat) (n : Node) : Option (String × Nat) :=
  match n.statement with
  | .label name | .data _ _ name _ => some (name, offset)
  | .constant _ name v => some (name, v.toNat)
  | .struct .. | .instruction _ => none

/-- The program gives this number to the symbol, an address being the number of bytes before the node. -/
def Program.Numbers (p : Program) (name : String) (k : Nat) : Prop :=
  ∃ before n after, p = before ++ n :: after ∧ n.number? (size before) = some (name, k)

/-- The first member of that name has `k` bytes before it. -/
def StructLayout.Skips (ms : List (String × UInt32)) (member : String) (k : Nat) : Prop :=
  ∃ before size after, ms = before ++ (member, size) :: after ∧ member ∉ before.map Prod.fst ∧
    k = before.foldr (fun m size => m.2.toNat + size) 0

def Program.Skips (p : Program) (struct member : String) (k : Nat) : Prop :=
  ∃ n ∈ p, ∃ exported ms, n.statement = .struct exported struct ms ∧ StructLayout.Skips ms member k

/-- The value of an expression in the integers. -/
inductive Expression.Denotes (p : Program) : Expression → Int → Prop
  | literal (v : UInt32) : Denotes p (.literal v) v.toNat
  | symbol {name k} (number : p.Numbers name k) : Denotes p (.symbol name) k
  | member {struct name member base k} (number : p.Numbers name base) (skips : p.Skips struct member k) :
      Denotes p (.member struct name member) (base + k)
  | add {left right x y} (left_denotes : Denotes p left x) (right_denotes : Denotes p right y) :
      Denotes p (.binary .add left right) (x + y)
  | subtract {left right x y} (left_denotes : Denotes p left x) (right_denotes : Denotes p right y) :
      Denotes p (.binary .subtract left right) (x - y)
  | multiply {left right x y} (left_denotes : Denotes p left x) (right_denotes : Denotes p right y) :
      Denotes p (.binary .multiply left right) (x * y)

namespace Word

/-- The number is one of those that are cut to this word. -/
def Cuts (w : Word) (x : Int) : Prop := (w.toNat : Int) = x % 2 ^ 16

namespace Cuts

variable {a b : Word} {x y : Int}

lemma ofNat (n : Nat) : Cuts (UInt16.ofNat n) n := by simp [Cuts]

lemma toUInt16 (v : UInt32) : Cuts v.toUInt16 v.toNat := by simp [Cuts]

lemma add (ha : Cuts a x) (hb : Cuts b y) : Cuts (a + b) (x + y) := by
  simp only [Cuts, UInt16.toNat_add, Int.natCast_emod, Int.natCast_add] at ha hb ⊢
  rw [ha, hb]
  exact (Int.add_emod x y _).symm

lemma mul (ha : Cuts a x) (hb : Cuts b y) : Cuts (a * b) (x * y) := by
  simp only [Cuts, UInt16.toNat_mul, Int.natCast_emod, Int.natCast_mul] at ha hb ⊢
  rw [ha, hb]
  exact (Int.mul_emod x y _).symm

lemma sub (ha : Cuts a x) (hb : Cuts b y) : Cuts (a - b) (x - y) := by
  have hlt := b.toNat_lt
  simp only [Cuts, UInt16.toNat_sub] at ha hb ⊢
  omega

end Cuts
end Word

/-- A list has one split at the first element of a kind. -/
lemma eq_of_append_cons_eq {α : Type} {P : α → Prop} {before before' after after' : List α} {a a' : α}
    (h : before ++ a :: after = before' ++ a' :: after') (ha : P a) (ha' : P a') (hbefore : ∀ b ∈ before, ¬ P b)
    (hbefore' : ∀ b ∈ before', ¬ P b) : before = before' ∧ a = a' := by
  induction before generalizing before' with
  | nil =>
    cases before' with
    | nil =>
      cases h
      exact ⟨rfl, rfl⟩
    | cons b before' =>
      cases h
      exact absurd ha (hbefore' _ List.mem_cons_self)
  | cons b before ih =>
    cases before' with
    | nil =>
      cases h
      exact absurd ha' (hbefore _ List.mem_cons_self)
    | cons b' before' =>
      obtain ⟨rfl, htail⟩ := List.cons.inj h
      obtain ⟨rfl, rfl⟩ := ih htail (List.forall_mem_cons.mp hbefore).2 (List.forall_mem_cons.mp hbefore').2
      exact ⟨rfl, rfl⟩

section Numbers

variable {n : Node} {p : Program} {name : String} {k l offset : Nat}

lemma Node.symbolName?_of_number? (h : n.number? offset = some (name, k)) :
    n.statement.symbolName? = some name := by
  obtain ⟨st, span⟩ := n
  cases st with
  | label _ | constant _ _ _ | data _ _ _ _ =>
    cases h
    rfl
  | struct _ _ _ | instruction _ => cases h

lemma Node.name?_of_number? (h : n.number? offset = some (name, k)) : n.statement.name? = some name := by
  rw [Statement.name?, symbolName?_of_number? h, Option.some_or]

lemma Node.exists_number? (h : n.statement.symbolName? = some name) (offset : Nat) :
    ∃ k, n.number? offset = some (name, k) := by
  obtain ⟨st, span⟩ := n
  cases st with
  | label _ | constant _ _ _ | data _ _ _ _ =>
    cases h
    exact ⟨_, rfl⟩
  | struct _ _ _ | instruction _ => cases h

/-- The symbol holds the number cut to a word. -/
lemma Node.symbol?_of_number? (h : n.number? offset = some (name, k)) :
    ∃ x, n.symbol? offset = some (name, x) ∧ x.value.Cuts k := by
  obtain ⟨st, span⟩ := n
  cases st with
  | label _ | data _ _ _ _ =>
    cases h
    exact ⟨_, rfl, .ofNat k⟩
  | constant ex name v =>
    cases h
    exact ⟨_, rfl, .toUInt16 v⟩
  | struct _ _ _ | instruction _ => cases h

namespace Program

lemma exists_numbers : (∃ k, p.Numbers name k) ↔ name ∈ p.symbolNames := by
  rw [symbolNames, List.mem_filterMap]
  constructor
  · rintro ⟨k, before, n, after, rfl, hn⟩
    exact ⟨n, List.mem_append_right _ List.mem_cons_self, Node.symbolName?_of_number? hn⟩
  · rintro ⟨n, hn, hname⟩
    obtain ⟨before, after, rfl⟩ := List.append_of_mem hn
    obtain ⟨k, hk⟩ := Node.exists_number? hname (size before)
    exact ⟨k, before, n, after, rfl, hk⟩

/-- Where all names differ, a name is declared by no node before the one that declares it. -/
lemma not_name?_of_nodup {before after : Program} (h : (before ++ n :: after).names.Nodup)
    (hn : n.statement.name? = some name) : ∀ m ∈ before, m.statement.name? ≠ some name :=
  fun m hm hname => not_mem_names_of_nodup h hn (List.mem_filterMap.mpr ⟨m, hm, hname⟩)

lemma Numbers.unique (hp : p.names.Nodup) (hk : p.Numbers name k) (hl : p.Numbers name l) : k = l := by
  obtain ⟨before, n, after, rfl, hn⟩ := hk
  obtain ⟨before', m, after', hsplit, hm⟩ := hl
  have hname := Node.name?_of_number? hn
  have hname' := Node.name?_of_number? hm
  obtain ⟨rfl, rfl⟩ := eq_of_append_cons_eq hsplit hname hname' (not_name?_of_nodup hp hname)
    (not_name?_of_nodup (hsplit ▸ hp) hname')
  cases hn.symm.trans hm
  rfl

end Program

lemma Scope.Holds.resolve_of_numbers {s : Scope} (h : s.Holds p) (hk : p.Numbers name k) :
    ∃ w, s.symbols.resolve name = .ok w ∧ w.Cuts k := by
  obtain ⟨before, n, after, hsplit, hn⟩ := hk
  obtain ⟨x, hx, hcuts⟩ := Node.symbol?_of_number? hn
  have hget := h.get?_symbols.mpr ⟨before, n, after, hsplit, hx⟩
  exact ⟨x.value, by rw [SymbolTable.resolve, hget], hcuts⟩

end Numbers

section Members

variable {ms : List (String × UInt32)} {struct member : String} {p : Program} {s : Scope} {k l : Nat}

namespace StructLayout

lemma exists_skips : (∃ k, Skips ms member k) ↔ member ∈ ms.map Prod.fst := by
  constructor
  · rintro ⟨k, before, size, after, rfl, -⟩
    simp
  · intro h
    obtain ⟨names, names', hsplit, hnot⟩ := List.eq_append_cons_of_mem h
    obtain ⟨before, rest, rfl, rfl, hrest⟩ := List.map_eq_append_iff.mp hsplit
    obtain ⟨⟨_, size⟩, after, rfl, rfl, -⟩ := List.map_eq_cons_iff.mp hrest
    exact ⟨_, before, size, after, rfl, hnot, rfl⟩

/-- The running offset is cut at every member, which does not show in the sum. -/
lemma lookup_offsets {before : List (String × UInt32)} (hbefore : member ∉ before.map Prod.fst)
    (start : Word) (size : UInt32) (after : List (String × UInt32)) {x : Nat} (hstart : start.Cuts x) :
    ∃ w, (offsets start (before ++ (member, size) :: after)).lookup member = some w ∧
      w.Cuts (x + before.foldr (fun m size => m.2.toNat + size) 0 : Nat) := by
  induction before generalizing start x with
  | nil => exact ⟨start, List.lookup_cons_self, hstart⟩
  | cons m before ih =>
    rw [List.map_cons, List.mem_cons, not_or] at hbefore
    have hnext : (start + m.2.toUInt16).Cuts (x + m.2.toNat : Nat) := hstart.add (.toUInt16 m.2)
    obtain ⟨w, hw, hcuts⟩ := ih hbefore.2 _ hnext
    refine ⟨w, ?_, ?_⟩
    · rw [← hw, List.cons_append, offsets, List.lookup_cons, beq_false_of_ne hbefore.1]
    · rwa [List.foldr_cons, ← Nat.add_assoc]

lemma Skips.offset? (h : Skips ms member k) (exported : Bool) (defined : Option Span) :
    ∃ w, (ofSizes ms exported defined).offset? member = some w ∧ w.Cuts k := by
  obtain ⟨before, size, after, rfl, hbefore, rfl⟩ := h
  obtain ⟨w, hw, hcuts⟩ := lookup_offsets hbefore 0 size after (.ofNat 0)
  exact ⟨w, hw, by rwa [Nat.zero_add] at hcuts⟩

lemma Skips.unique (hk : Skips ms member k) (hl : Skips ms member l) : k = l := by
  obtain ⟨before, size, after, rfl, hbefore, rfl⟩ := hk
  obtain ⟨before', size', after', hsplit, hbefore', rfl⟩ := hl
  have hother {ms : List (String × UInt32)} (h : member ∉ ms.map Prod.fst) : ∀ m ∈ ms, m.1 ≠ member :=
    fun m hm heq => h (heq ▸ List.mem_map_of_mem hm)
  obtain ⟨rfl, -⟩ := eq_of_append_cons_eq (P := fun m => m.1 = member) hsplit rfl rfl (hother hbefore)
    (hother hbefore')
  rfl

end StructLayout

namespace Program

lemma exists_skips : (∃ k, p.Skips struct member k) ↔ p.HasMember struct member := by
  constructor
  · rintro ⟨k, n, hn, ex, ms, hstruct, hk⟩
    refine ⟨n, hn, ?_⟩
    rw [hstruct]
    exact ⟨rfl, StructLayout.exists_skips.mp ⟨k, hk⟩⟩
  · rintro ⟨n, hn, hmember⟩
    cases hst : n.statement with
    | struct ex name ms =>
      rw [hst] at hmember
      obtain ⟨rfl, hmember⟩ := hmember
      obtain ⟨k, hk⟩ := StructLayout.exists_skips.mpr hmember
      exact ⟨k, n, hn, ex, ms, hst, hk⟩
    | label _ | constant _ _ _ | data _ _ _ _ | instruction _ =>
      rw [hst] at hmember
      exact hmember.elim

lemma Skips.unique (hp : p.names.Nodup) (hk : p.Skips struct member k) (hl : p.Skips struct member l) :
    k = l := by
  obtain ⟨n, hn, ex, ms, hstruct, hk⟩ := hk
  obtain ⟨m, hm, ex', ms', hstruct', hl⟩ := hl
  obtain rfl : n = m :=
    eq_of_name?_eq hp hn hm (congrArg Statement.name? hstruct) (congrArg Statement.name? hstruct')
  cases hstruct.symm.trans hstruct'
  exact StructLayout.Skips.unique hk hl

end Program

lemma Scope.Holds.resolve_of_skips (h : s.Holds p) (hk : p.Skips struct member k) :
    ∃ w, s.structs.resolve struct member = .ok w ∧ w.Cuts k := by
  obtain ⟨n, hn, ex, ms, hstruct, hk⟩ := hk
  obtain ⟨w, hw, hcuts⟩ := hk.offset? ex n.span
  rw [StructLayout.ofSizes_eq] at hw
  have hget := h.get?_structs.mpr ⟨n, hn, Node.layout?_eq_some_iff.mpr ⟨ex, ms, hstruct, rfl⟩⟩
  exact ⟨w, by simp only [StructTable.resolve, hget, hw], hcuts⟩

end Members

namespace Expression

variable {p : Program} {s : Scope} {e : Expression} {x y : Int}

lemma bound_iff_denotes : e.Bound p ↔ ∃ x, e.Denotes p x := by
  constructor
  · intro h
    induction e with
    | literal v => exact ⟨_, .literal v⟩
    | symbol name =>
      obtain ⟨k, hk⟩ := Program.exists_numbers.mpr h
      exact ⟨k, .symbol hk⟩
    | member struct name m =>
      obtain ⟨k, hk⟩ := Program.exists_skips.mpr h.1
      obtain ⟨base, hbase⟩ := Program.exists_numbers.mpr h.2
      exact ⟨_, .member hbase hk⟩
    | binary op left right ihl ihr =>
      obtain ⟨hleft, hright, hop⟩ := h
      obtain ⟨x, hx⟩ := ihl hleft
      obtain ⟨y, hy⟩ := ihr hright
      obtain rfl | rfl | rfl := hop
      · exact ⟨_, .add hx hy⟩
      · exact ⟨_, .subtract hx hy⟩
      · exact ⟨_, .multiply hx hy⟩
  · rintro ⟨x, h⟩
    induction h with
    | literal v => trivial
    | symbol number => exact Program.exists_numbers.mp ⟨_, number⟩
    | member number skips => exact ⟨Program.exists_skips.mp ⟨_, skips⟩, Program.exists_numbers.mp ⟨_, number⟩⟩
    | add _ _ ihl ihr => exact ⟨ihl, ihr, .inl rfl⟩
    | subtract _ _ ihl ihr => exact ⟨ihl, ihr, .inr (.inl rfl)⟩
    | multiply _ _ ihl ihr => exact ⟨ihl, ihr, .inr (.inr rfl)⟩

lemma Denotes.unique (hp : p.names.Nodup) (hx : e.Denotes p x) (hy : e.Denotes p y) : x = y := by
  induction hx generalizing y with
  | literal v =>
    cases hy
    rfl
  | symbol number =>
    cases hy with
    | symbol number' => rw [number.unique hp number']
  | member number skips =>
    cases hy with
    | member number' skips' => rw [number.unique hp number', skips.unique hp skips']
  | add _ _ ihl ihr =>
    cases hy with
    | add hl hr => rw [ihl hl, ihr hr]
  | subtract _ _ ihl ihr =>
    cases hy with
    | subtract hl hr => rw [ihl hl, ihr hr]
  | multiply _ _ ihl ihr =>
    cases hy with
    | multiply hl hr => rw [ihl hl, ihr hr]

/-- The induction over the expression: every node of the tree holds the cut of its value in the integers. -/
lemma Denotes.evaluate (h : s.Holds p) (hx : e.Denotes p x) : ∃ w, s.evaluate e = .ok w ∧ w.Cuts x := by
  induction hx with
  | literal v => exact ⟨v.toUInt16, rfl, .toUInt16 v⟩
  | symbol number => exact h.resolve_of_numbers number
  | member number skips =>
    obtain ⟨offset, hoffset, hcuts⟩ := h.resolve_of_skips skips
    obtain ⟨base, hbase, hcuts'⟩ := h.resolve_of_numbers number
    exact ⟨base + offset, by simp only [Scope.evaluate, hoffset, hbase]; rfl, hcuts'.add hcuts⟩
  | add _ _ ihl ihr =>
    obtain ⟨a, ha, hcuts⟩ := ihl
    obtain ⟨b, hb, hcuts'⟩ := ihr
    exact ⟨a + b, by simp only [Scope.evaluate, ha, hb]; rfl, hcuts.add hcuts'⟩
  | subtract _ _ ihl ihr =>
    obtain ⟨a, ha, hcuts⟩ := ihl
    obtain ⟨b, hb, hcuts'⟩ := ihr
    exact ⟨a - b, by simp only [Scope.evaluate, ha, hb]; rfl, hcuts.sub hcuts'⟩
  | multiply _ _ ihl ihr =>
    obtain ⟨a, ha, hcuts⟩ := ihl
    obtain ⟨b, hb, hcuts'⟩ := ihr
    exact ⟨a * b, by simp only [Scope.evaluate, ha, hb]; rfl, hcuts.mul hcuts'⟩

end Expression

/-- The value of an operand is its value in the integers, cut once. An expression has exactly one value in the
integers if its names are declared and its operators are sums, differences and products; this is when it
evaluates, and what it evaluates to is the low word of that value. -/
theorem evaluate_exact {p : Program} {s : Scope} (h : Scope.ofProgram p = .ok s) (e : Expression) :
    (e.Bound p ↔ ∃ x, e.Denotes p x) ∧ ((∃ w, s.evaluate e = .ok w) ↔ e.Bound p) ∧
      ∀ x, e.Denotes p x → (∀ y, e.Denotes p y → y = x) ∧
        ∃ w, s.evaluate e = .ok w ∧ (w.toNat : Int) = x % 2 ^ 16 := by
  obtain ⟨hnodup, hholds⟩ := Scope.holds_of_ofProgram h
  refine ⟨e.bound_iff_denotes, ⟨?_, fun he => he.evaluate hholds⟩, fun x hx =>
    ⟨fun y hy => hy.unique hnodup hx, hx.evaluate hholds⟩⟩
  rintro ⟨w, hw⟩
  obtain he | ⟨err, he⟩ := e.bound_or_fails p
  · exact he
  · cases hw.symm.trans (he.evaluate hholds)

/-- A constant of 17 bits, and a structure whose members together take more than 32. -/
def Program.oversized : Program :=
  [⟨.constant false "far" 0x12345, ⟨0, 21⟩⟩,
    ⟨.struct false "block" [("head", 0xFFFFFFFF), ("tail", 0x10003), ("head", 1)], ⟨22, 70⟩⟩,
    ⟨.instruction ⟨.jmp, [.address (.symbol "end")]⟩, ⟨71, 81⟩⟩,
    ⟨.label "end", ⟨82, 86⟩⟩]

/-- `(<block> end.tail - !far) * $FFFFFFFF` -/
theorem evaluate_exact_oversized : ∃ s, Scope.ofProgram .oversized = .ok s ∧
    s.evaluate (.binary .multiply (.binary .subtract (.member "block" "end" "tail") (.symbol "far"))
      (.literal 0xFFFFFFFF)) = .ok 0x2343 := by
  obtain ⟨s, hs, -⟩ : ∃ s, Scope.ofProgram .oversized = .ok s ∧ s.Holds .oversized :=
    Scope.ofProgram_of_nodup (by decide)
  have hfar : Program.oversized.Numbers "far" 0x12345 := ⟨[], _, _, rfl, rfl⟩
  have hend : Program.oversized.Numbers "end" 3 := ⟨Program.oversized.take 3, _, [], rfl, rfl⟩
  have htail : Program.oversized.Skips "block" "tail" 0xFFFFFFFF :=
    ⟨_, List.mem_cons_of_mem _ List.mem_cons_self, false, _, rfl, [("head", 0xFFFFFFFF)], 0x10003, _, rfl,
      by decide, rfl⟩
  obtain ⟨-, -, hexact⟩ := evaluate_exact hs (.binary .multiply
    (.binary .subtract (.member "block" "end" "tail") (.symbol "far")) (.literal 0xFFFFFFFF))
  obtain ⟨-, w, hw, hvalue⟩ := hexact ((3 + 0xFFFFFFFF - 0x12345) * 0xFFFFFFFF)
    (.multiply (.subtract (.member hend htail) (.symbol hfar)) (.literal _))
  obtain rfl : w = 0x2343 := UInt16.toNat_inj.mp (Int.natCast_inj.mp hvalue)
  exact ⟨s, hs, hw⟩

end Machine16
