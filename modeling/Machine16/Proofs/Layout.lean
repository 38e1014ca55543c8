import Mathlib.Data.List.Basic
import Machine16.Assembly.Chunk

/-! How a program is laid out in memory. The first pass counts the sizes that the statements ask
for, in words that wrap; the second one counts the bytes that it has encoded. Both find the same
places, which are the unbounded offsets taken modulo 64 KiB. -/
namespace Machine16

/-- A chain of computations succeeds if every link of it does. -/
lemma bind_eq_ok {ε α β : Type} {x : Except ε α} {f : α → Except ε β} {b : β} :
    (x >>= f) = .ok b ↔ ∃ a, x = .ok a ∧ f a = .ok b := by
  cases x with
  | error e => simp [bind, Except.bind]
  | ok a => simp [bind, Except.bind]

namespace Statement

/-- Whether a statement stands for bytes of its own, be they none. -/
def emits : Statement → Bool
  | data .. | instruction _ => true
  | label _ | constant .. | struct .. => false

/-- The number of bytes that a statement stands for. -/
def size : Statement → Nat
  | data _ w _ vs => w.size * vs.length
  | instruction i => i.opcode.size
  | label _ | constant .. | struct .. => 0

lemma size_eq_zero {s : Statement} (h : s.emits = false) : s.size = 0 := by
  cases s <;> simp_all [emits, size]

end Statement

namespace Scope

lemma slot_evaluateOperand {s : Scope} {o : Operand Expression} {w : Operand Word}
    (h : s.evaluateOperand o = .ok w) : w.slot = o.slot := by
  cases o with
  | literal e | byte e | address e =>
    obtain ⟨v, _, hv⟩ := bind_eq_ok.mp h
    cases hv
    rfl
  | register r | pointer r | indirect r =>
    cases h
    rfl

lemma slots_mapM_evaluateOperand {s : Scope} {os : List (Operand Expression)}
    {ws : List (Operand Word)} (h : os.mapM s.evaluateOperand = .ok ws) :
    ws.map Operand.slot = os.map Operand.slot := by
  induction os generalizing ws with
  | nil =>
    cases h
    rfl
  | cons o os ih =>
    rw [List.mapM_cons] at h
    obtain ⟨w, hw, h⟩ := bind_eq_ok.mp h
    obtain ⟨ws', hws, h⟩ := bind_eq_ok.mp h
    cases h
    rw [List.map_cons, List.map_cons, slot_evaluateOperand hw, ih hws]

/-- Operands are evaluated once their format has been found right. -/
lemma resolve_eq_ok {s : Scope} {i : Instruction Expression} {r : Instruction Word} :
    s.resolve i = .ok r ↔ i.format = i.opcode.format ∧ r.opcode = i.opcode ∧
      i.operands.mapM s.evaluateOperand = .ok r.operands := by
  unfold resolve
  by_cases hf : i.format = i.opcode.format
  · rw [if_neg (not_not.mpr hf)]
    constructor
    · intro h
      obtain ⟨ws, hws, h⟩ := bind_eq_ok.mp h
      cases h
      exact ⟨hf, rfl, hws⟩
    · rintro ⟨_, hop, hws⟩
      refine bind_eq_ok.mpr ⟨_, hws, ?_⟩
      rw [← hop]
      rfl
  · rw [if_pos hf]
    constructor
    · intro h
      obtain ⟨_, h, _⟩ := bind_eq_ok.mp h
      cases h
    · intro h
      exact absurd h.1 hf

lemma length_encode_resolve {s : Scope} {i : Instruction Expression} {r : Instruction Word}
    (h : s.resolve i = .ok r) : r.encode.length = i.opcode.size := by
  obtain ⟨hf, -, hos⟩ := resolve_eq_ok.mp h
  rw [Instruction.length_encode, Opcode.size, ← hf]
  exact congrArg Format.size (slots_mapM_evaluateOperand hos)

/-- A definition of a symbol binds one more name and leaves the address where it is. -/
lemma bindSymbol_eq_ok {s s' : Scope} {name : String} {x : Symbol}
    (h : s.bindSymbol name x = .ok s') :
    s'.address = s.address ∧ s'.symbols.get? name = some x ∧
      ∀ other y, s.symbols.get? other = some y → s'.symbols.get? other = some y := by
  unfold bindSymbol at h
  by_cases hc : s.contains name = true
  · rw [if_pos hc] at h
    cases h
  · rw [if_neg hc] at h
    obtain ⟨t, ht, h⟩ := bind_eq_ok.mp h
    cases h
    unfold SymbolTable.define at ht
    split at ht
    · rename_i t' ht'
      cases ht
      refine ⟨rfl, ?_, ?_⟩
      · rw [Bindings.get?_define? ht', if_pos rfl]
      · intro other y hy
        rw [Bindings.get?_define? ht']
        split_ifs with hn
        · subst hn
          have := (Bindings.entries_define? ht').1
          rw [Bindings.contains_eq_isSome, hy] at this
          cases this
        · exact hy
    · cases ht

lemma bindStruct_eq_ok {s s' : Scope} {name : String} {x : StructLayout}
    (h : s.bindStruct name x = .ok s') : s'.address = s.address ∧ s'.symbols = s.symbols := by
  unfold bindStruct at h
  by_cases hc : s.contains name = true
  · rw [if_pos hc] at h
    cases h
  · rw [if_neg hc] at h
    obtain ⟨t, _, h⟩ := bind_eq_ok.mp h
    cases h
    exact ⟨rfl, rfl⟩

/-- The first pass moves on by the size of the statement, in spite of the truncated count of the
elements of a block and of the product that wraps. -/
lemma address_bind {s s' : Scope} {n : Node} (h : s.bind n = .ok s') :
    s'.address = s.address + UInt16.ofNat n.statement.size := by
  obtain ⟨st, span⟩ := n
  cases st with
  | label name | constant ex name v =>
    simpa [Statement.size] using (bindSymbol_eq_ok h).1
  | struct ex name ms => simpa [Statement.size] using (bindStruct_eq_ok h).1
  | data ex w name vs =>
    obtain ⟨t, ht, h⟩ := bind_eq_ok.mp h
    cases h
    simp [advance, Statement.size, (bindSymbol_eq_ok ht).1]
  | instruction i =>
    cases h
    rfl

lemma get?_bind {s s' : Scope} {n : Node} (h : s.bind n = .ok s') {name : String} {x : Symbol}
    (hx : s.symbols.get? name = some x) : s'.symbols.get? name = some x := by
  obtain ⟨st, span⟩ := n
  cases st with
  | label _ | constant _ _ _ => exact (bindSymbol_eq_ok h).2.2 _ _ hx
  | struct _ _ _ => rwa [(bindStruct_eq_ok h).2]
  | data _ _ _ _ =>
    obtain ⟨t, ht, h⟩ := bind_eq_ok.mp h
    cases h
    exact (bindSymbol_eq_ok ht).2.2 _ _ hx
  | instruction _ =>
    cases h
    exact hx

lemma get?_foldlM_bind {p : Program} {s s' : Scope} (h : p.foldlM bind s = .ok s')
    {name : String} {x : Symbol} (hx : s.symbols.get? name = some x) :
    s'.symbols.get? name = some x := by
  induction p generalizing s with
  | nil =>
    cases h
    exact hx
  | cons n p ih =>
    rw [List.foldlM_cons] at h
    obtain ⟨t, ht, h⟩ := bind_eq_ok.mp h
    exact ih h (get?_bind ht hx)

end Scope

/-- What the two passes make of a statement that has `offset` bytes before it: the first one gives
the place to its name, the second one puts its bytes there. -/
inductive Laid (scope : Scope) (offset : Nat) : Node → List Chunk → Prop
  | label {name} {span : Span}
      (bound : scope.symbols.get? name = some ⟨.label, UInt16.ofNat offset, false, span⟩) :
      Laid scope offset ⟨.label name, span⟩ []
  | constant {ex name v span} : Laid scope offset ⟨.constant ex name v, span⟩ []
  | struct {ex name ms span} : Laid scope offset ⟨.struct ex name ms, span⟩ []
  | data {ex w name vs} {span : Span}
      (bound : scope.symbols.get? name = some ⟨.data, UInt16.ofNat offset, ex, span⟩) :
      Laid scope offset ⟨.data ex w name vs, span⟩
        [⟨span, UInt16.ofNat offset, vs.flatMap w.encode⟩]
  | instruction {i r span} (resolved : scope.resolve i = .ok r)
      (length : r.encode.length = i.opcode.size) :
      Laid scope offset ⟨.instruction i, span⟩ [⟨span, UInt16.ofNat offset, r.encode⟩]

/-- The layout of statements that have `offset` bytes before them. Here offsets do not wrap: the
next statement has the bytes before it that the chunks up to it hold. -/
inductive Layout (scope : Scope) : Nat → Program → List Chunk → Prop
  | nil {offset} : Layout scope offset [] []
  | cons {offset n p here rest} (laid : Laid scope offset n here)
      (tail : Layout scope (offset + (here.flatMap Chunk.bytes).length) p rest) :
      Layout scope offset (n :: p) (here ++ rest)

namespace Laid

lemma length_bytes {scope : Scope} {offset : Nat} {n : Node} {here : List Chunk}
    (h : Laid scope offset n here) : (here.flatMap Chunk.bytes).length = n.statement.size := by
  cases h with
  | label _ | constant | struct => rfl
  | data _ => simpa [Statement.size] using Nat.mul_comm _ _
  | instruction _ hl => simpa [Statement.size] using hl

end Laid

/-- Encoding a statement puts its chunk, if it has one, in front of the others. -/
lemma Program.encode_cons_eq_ok {scope : Scope} {address : Word} {n : Node} {p : Program}
    {cs : List Chunk} (h : Program.encode scope address (n :: p) = .ok cs) :
    ∃ out rest, n.statement.encode scope = .ok out ∧
      cs = out.toList.map (Chunk.mk n.span address) ++ rest ∧
      Program.encode scope (address + UInt16.ofNat (out.getD []).length) p = .ok rest := by
  obtain ⟨out, ho, h⟩ := bind_eq_ok.mp h
  cases out with
  | none => exact ⟨none, cs, ho, rfl, by simpa using h⟩
  | some bytes =>
    obtain ⟨rest, hr, h⟩ := bind_eq_ok.mp h
    cases h
    exact ⟨some bytes, rest, ho, rfl, hr⟩

/-- What the first pass has bound for a statement and what the second one encodes fit together. -/
lemma laid_of_passes {s s' scope : Scope} {n : Node} {offset : Nat} {out : Option (List Byte)}
    (haddress : s.address = UInt16.ofNat offset) (hbind : s.bind n = .ok s')
    (hkeep : ∀ name x, s'.symbols.get? name = some x → scope.symbols.get? name = some x)
    (hout : n.statement.encode scope = .ok out) :
    Laid scope offset n (out.toList.map (Chunk.mk n.span (UInt16.ofNat offset))) := by
  obtain ⟨st, span⟩ := n
  cases st with
  | label name =>
    cases hout
    refine .label (hkeep _ _ ?_)
    rw [← haddress]
    exact (Scope.bindSymbol_eq_ok hbind).2.1
  | constant ex name v =>
    cases hout
    exact .constant
  | struct ex name ms =>
    cases hout
    exact .struct
  | data ex w name vs =>
    cases hout
    obtain ⟨t, ht, hbind⟩ := bind_eq_ok.mp hbind
    cases hbind
    refine .data (hkeep _ _ ?_)
    rw [← haddress]
    exact (Scope.bindSymbol_eq_ok ht).2.1
  | instruction i =>
    obtain ⟨r, hr, hout⟩ := bind_eq_ok.mp hout
    cases hout
    exact .instruction hr (Scope.length_encode_resolve hr)

/-- The invariant of both loops: their counters are the number of bytes so far, modulo 64 KiB. -/
lemma layout_of_passes {p : Program} {s scope : Scope} {offset : Nat} {cs : List Chunk}
    (haddress : s.address = UInt16.ofNat offset) (hbind : p.foldlM Scope.bind s = .ok scope)
    (hencode : Program.encode scope (UInt16.ofNat offset) p = .ok cs) :
    Layout scope offset p cs ∧
      scope.address = UInt16.ofNat (offset + (cs.flatMap Chunk.bytes).length) := by
  induction p generalizing s offset cs with
  | nil =>
    cases hbind
    cases hencode
    exact ⟨.nil, haddress⟩
  | cons n p ih =>
    rw [List.foldlM_cons] at hbind
    obtain ⟨s', hn, hbind⟩ := bind_eq_ok.mp hbind
    obtain ⟨out, rest, hout, rfl, hrest⟩ := Program.encode_cons_eq_ok hencode
    have hlaid := laid_of_passes haddress hn (fun _ _ => Scope.get?_foldlM_bind hbind) hout
    have hlength := hlaid.length_bytes
    have hsize : (out.getD []).length = n.statement.size := by
      cases out <;> simpa using hlength
    have haddress' : s'.address = UInt16.ofNat (offset + n.statement.size) := by
      rw [Scope.address_bind hn, haddress, UInt16.ofNat_add]
    rw [hsize, ← UInt16.ofNat_add] at hrest
    obtain ⟨htail, haddress⟩ := ih haddress' hbind hrest
    refine ⟨.cons hlaid ?_, ?_⟩
    · rw [hlength]
      exact htail
    · rw [haddress, List.flatMap_append, List.length_append, hlength, Nat.add_assoc]

lemma compile_eq_ok {p : Program} {bytes : List Byte} :
    p.compile = .ok bytes ↔ ∃ scope chunks, Scope.ofProgram p = .ok scope ∧
      Program.encode scope 0 p = .ok chunks ∧ chunks.flatMap Chunk.bytes = bytes := by
  rw [Program.compile, map_eq_pure_bind, bind_eq_ok]
  constructor
  · rintro ⟨chunks, hc, h⟩
    cases h
    obtain ⟨scope, hs, hencode⟩ := bind_eq_ok.mp hc
    exact ⟨scope, chunks, hs, hencode, rfl⟩
  · rintro ⟨scope, chunks, hs, hencode, rfl⟩
    exact ⟨chunks, bind_eq_ok.mpr ⟨scope, hs, hencode⟩, rfl⟩

/-- Both passes lay a program out alike. A program that compiles has been bound; its labels and
blocks are bound to the places where the second pass arrives when it comes to them, there is one
chunk for every block and instruction, and the first pass ends where the bytes do. -/
theorem compile_layout {p : Program} {bytes : List Byte} (h : p.compile = .ok bytes) :
    ∃ scope chunks, Scope.ofProgram p = .ok scope ∧ p.chunks = .ok chunks ∧
      Layout scope 0 p chunks ∧ chunks.flatMap Chunk.bytes = bytes ∧
      scope.address = UInt16.ofNat bytes.length := by
  obtain ⟨scope, chunks, hs, hencode, rfl⟩ := compile_eq_ok.mp h
  have hstart : ({} : Scope).address = UInt16.ofNat 0 := rfl
  obtain ⟨hlayout, haddress⟩ := layout_of_passes hstart hs hencode
  rw [Nat.zero_add] at haddress
  exact ⟨scope, chunks, hs, bind_eq_ok.mpr ⟨scope, hs, hencode⟩, hlayout, rfl, haddress⟩

/-- A jump over a block to a label that is declared behind it. -/
def Program.sample : Program :=
  [⟨.instruction ⟨.jmp, [.address (.symbol "end")]⟩, ⟨0, 10⟩⟩,
    ⟨.data false .word "block" [1, 0x10002], ⟨11, 40⟩⟩,
    ⟨.label "end", ⟨41, 45⟩⟩,
    ⟨.instruction ⟨.lsfRegLit, [.register .r1, .byte (.literal 0x101)]⟩, ⟨46, 58⟩⟩,
    ⟨.instruction ⟨.hlt, []⟩, ⟨59, 62⟩⟩]

theorem compile_layout_sample :
    Program.sample.compile = .ok [0x4A, 0, 7, 0, 1, 0, 2, 0x26, 0, 1, 0xFF] ∧
      ∃ scope chunks, Scope.ofProgram .sample = .ok scope ∧ Program.sample.chunks = .ok chunks ∧
        Layout scope 0 .sample chunks ∧ scope.address = 11 := by
  have h : Program.sample.compile = .ok [0x4A, 0, 7, 0, 1, 0, 2, 0x26, 0, 1, 0xFF] := rfl
  obtain ⟨scope, chunks, hs, hc, hlayout, -, haddress⟩ := compile_layout h
  exact ⟨h, scope, chunks, hs, hc, hlayout, haddress⟩

/-- The number of bytes that statements emit. -/
def Program.size (p : Program) : Nat := p.foldr (fun n size => n.statement.size + size) 0

@[simp] lemma Program.size_nil : Program.size [] = 0 := rfl

@[simp] lemma Program.size_cons (n : Node) (p : Program) :
    Program.size (n :: p) = n.statement.size + Program.size p := rfl

@[simp] lemma Program.size_append (p q : Program) :
    Program.size (p ++ q) = Program.size p + Program.size q := by
  induction p with
  | nil => exact (Nat.zero_add _).symm
  | cons n p ih => rw [List.cons_append, size_cons, size_cons, ih, Nat.add_assoc]

namespace Layout

lemma length_bytes {scope : Scope} {offset : Nat} {p : Program} {cs : List Chunk}
    (h : Layout scope offset p cs) : (cs.flatMap Chunk.bytes).length = p.size := by
  induction h with
  | nil => rfl
  | cons laid _ ih =>
    rw [List.flatMap_append, List.length_append, ih, laid.length_bytes, Program.size_cons]

lemma append {scope : Scope} {offset : Nat} {p q : Program} {cs : List Chunk}
    (h : Layout scope offset (p ++ q) cs) :
    ∃ cs₁ cs₂, cs = cs₁ ++ cs₂ ∧ Layout scope offset p cs₁ ∧
      Layout scope (offset + p.size) q cs₂ := by
  induction p generalizing offset cs with
  | nil => exact ⟨[], cs, rfl, .nil, h⟩
  | cons n p ih =>
    cases h with
    | cons laid tail =>
      obtain ⟨cs₁, cs₂, rfl, h₁, h₂⟩ := ih tail
      refine ⟨_, cs₂, (List.append_assoc _ _ _).symm, .cons laid h₁, ?_⟩
      rwa [laid.length_bytes, Nat.add_assoc, ← Program.size_cons] at h₂

/-- Around a statement, the bytes before it are those of the statements before it. -/
lemma split {scope : Scope} {before after : Program} {n : Node} {cs : List Chunk}
    (h : Layout scope 0 (before ++ n :: after) cs) :
    ∃ cs₁ here cs₂, cs = cs₁ ++ (here ++ cs₂) ∧
      (cs₁.flatMap Chunk.bytes).length = before.size ∧ Laid scope before.size n here := by
  obtain ⟨cs₁, _, rfl, h₁, h₂⟩ := h.append
  rw [Nat.zero_add] at h₂
  cases h₂ with
  | cons laid tail => exact ⟨cs₁, _, _, rfl, h₁.length_bytes, laid⟩

/-- The bytes of an instruction lie where the statements before it end. -/
lemma encoded {scope : Scope} {before after : Program} {i : Instruction Expression} {span : Span}
    {cs : List Chunk} (h : Layout scope 0 (before ++ ⟨.instruction i, span⟩ :: after) cs) :
    ∃ r start rest, scope.resolve i = .ok r ∧ r.encode.length = i.opcode.size ∧
      cs.flatMap Chunk.bytes = start ++ (r.encode ++ rest) ∧ start.length = before.size := by
  obtain ⟨cs₁, here, cs₂, rfl, hlength, laid⟩ := h.split
  cases laid with
  | @instruction _ r _ resolved length =>
    exact ⟨r, _, cs₂.flatMap Chunk.bytes, resolved, length, by simp, hlength⟩

end Layout

namespace Program

/-- The bytes of the statements one after the other, or the first error. -/
def bytes (s : Scope) (p : Program) : Except CompileError (List Byte) :=
  (List.flatMap fun out => out.getD []) <$> p.mapM fun n => n.statement.encode s

variable {s : Scope}

lemma bytes_cons (n : Node) (p : Program) : bytes s (n :: p) =
    n.statement.encode s >>= fun out => (out.getD [] ++ ·) <$> bytes s p := by
  simp only [bytes, List.mapM_cons, map_eq_pure_bind, bind_assoc, pure_bind, List.flatMap_cons]

lemma bytes_cons_of_none {n : Node} (h : n.statement.encode s = .ok none) (p : Program) :
    bytes s (n :: p) = bytes s p := by
  rw [bytes_cons, h]
  exact id_map (bytes s p)

/-- Where a statement comes to lie does not matter for its bytes. -/
lemma bytes_encode (s : Scope) (address : Word) (p : Program) :
    List.flatMap Chunk.bytes <$> encode s address p = bytes s p := by
  induction p generalizing address with
  | nil => rfl
  | cons n p ih =>
    rw [encode]
    cases h : n.statement.encode s with
    | error e =>
      rw [bytes_cons, h]
      rfl
    | ok out =>
      cases out with
      | none =>
        rw [bytes_cons_of_none h, ← ih address]
        rfl
      | some bytes =>
        rw [bytes_cons, h, ← ih (address + UInt16.ofNat bytes.length)]
        change List.flatMap Chunk.bytes <$> (encode s (address + UInt16.ofNat bytes.length) p >>= _) = _ <$> _
        cases encode s (address + UInt16.ofNat bytes.length) p with
        | error e => rfl
        | ok cs => rfl

lemma compile_eq_bytes {p : Program} (hs : Scope.ofProgram p = .ok s) : p.compile = bytes s p := by
  rw [Program.compile, chunks, hs, ← bytes_encode s 0 p]
  rfl

end Program
end Machine16
