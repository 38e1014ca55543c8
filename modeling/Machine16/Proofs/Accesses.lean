import Machine16.Proofs.FlatMemory
import Machine16.Proofs.Layers

/-! Accesses to a memory, one after the other and at any offsets. The memory holds the bytes that were
stored last, and an access that reaches over its end changes nothing. -/
namespace Machine16

/-- The answer to a read. -/
def Answer.ofExcept {α : Type} (f : α → Answer) : Except MemoryError α → Answer
  | .ok a => f a
  | .error e => error e

namespace Ram

/-- An access at a 64-bit offset. -/
inductive Access
  | readByte (offset : UInt64)
  | readWord (offset : UInt64)
  | writeByte (offset : UInt64) (b : Byte)
  | writeWord (offset : UInt64) (w : Word)
  deriving DecidableEq, Repr

namespace Access

def offset : Access → UInt64
  | readByte offset | readWord offset | writeByte offset _ | writeWord offset _ => offset

def width : Access → Nat
  | readByte _ | writeByte .. => 1
  | readWord _ | writeWord .. => 2

/-- The access lies inside a memory of that size. -/
def Fits (size : Nat) (a : Access) : Prop := a.offset.toNat + a.width ≤ size

instance (size : Nat) (a : Access) : Decidable (a.Fits size) :=
  inferInstanceAs (Decidable (a.offset.toNat + a.width ≤ size))

/-- The bytes that a write stores, with their offsets. A word has its high byte first. -/
def stores : Access → List (Nat × Byte)
  | readByte _ | readWord _ => []
  | writeByte offset b => [(offset.toNat, b)]
  | writeWord offset w => [(offset.toNat, Word.high w), (offset.toNat + 1, Word.low w)]

/-- The answer of a memory with these bytes, if the access lies inside it. -/
def answer (byte : Nat → Byte) : Access → Answer
  | readByte offset => .byte (byte offset.toNat)
  | readWord offset => .word (Word.ofBytes (byte offset.toNat) (byte (offset.toNat + 1)))
  | writeByte .. | writeWord .. => .done

lemma answer_ne_error (byte : Nat → Byte) (a : Access) (e : MemoryError) : a.answer byte ≠ .error e := by
  cases a <;> simp [answer]

lemma lt_of_mem_stores {size : Nat} {a : Access} (h : a.Fits size) {p : Nat × Byte} (hp : p ∈ a.stores) :
    p.1 < size := by
  cases a with
  | readByte offset | readWord offset => cases hp
  | writeByte offset b =>
    rw [stores, List.mem_singleton] at hp
    rw [hp]
    exact h
  | writeWord offset w =>
    have h : offset.toNat + 2 ≤ size := h
    rw [stores, List.mem_pair] at hp
    obtain rfl | rfl := hp
    · exact Nat.lt_of_succ_lt h
    · exact h

end Access

/-- The answer to a write, and the memory behind it. -/
def answerUpdate : EStateM.Result MemoryError Ram Unit → Answer × Ram
  | .ok () m => (.done, m)
  | .error e m => (.error e, m)

/-- The answer to an access, and the memory behind it. -/
def access (m : Ram) : Access → Answer × Ram
  | .readByte offset => (.ofExcept .byte (m.readByte offset), m)
  | .readWord offset => (.ofExcept .word (m.readWord offset), m)
  | .writeByte offset b => answerUpdate (writeByte offset b m)
  | .writeWord offset w => answerUpdate (writeWord offset w m)

/-- The memory behind a sequence of accesses, some of which may have failed. -/
def after (m : Ram) (history : List Access) : Ram := history.foldl (fun m a => (m.access a).2) m

/-- The memory with bytes stored one after the other. -/
def store (m : Ram) (ps : List (Nat × Byte)) : Ram := ps.foldl (fun m p => m.set p.1 p.2) m

/-- What a sequence of accesses has stored in a memory of that size. -/
def stored (size : Nat) (history : List Access) : List (Nat × Byte) :=
  (history.filter (·.Fits size)).flatMap Access.stores

/-- The byte that was stored last at an offset, or zero if there has been none. -/
def lastStored (size : Nat) (history : List Access) (i : Nat) : Byte :=
  ((stored size history).reverse.lookup i).getD 0

variable {m : Ram} {a : Access}

lemma access_of_fits (h : a.Fits m.size) : m.access a = (a.answer m.byte, m.store a.stores) := by
  cases a with
  | readByte offset =>
    have h : offset.toNat + 1 ≤ m.bytes.size := h
    rw [access, readByte_eq_byte h]
    rfl
  | readWord offset =>
    have h : offset.toNat + 2 ≤ m.bytes.size := h
    rw [access, readWord_eq_bytes h]
    rfl
  | writeByte offset b =>
    have h : offset.toNat + 1 ≤ m.bytes.size := h
    simp only [access, writeByte_eq_set h]
    rfl
  | writeWord offset w =>
    have h : offset.toNat + 2 ≤ m.bytes.size := h
    simp only [access, writeWord_eq_set h]
    rfl

lemma access_of_not_fits (h : ¬ a.Fits m.size) :
    m.access a = (.error (m.fault a.offset a.width), m) := by
  obtain ⟨bytes⟩ := m
  cases a with
  | readByte offset | writeByte offset _ =>
    have h : ¬ offset.toNat + 1 ≤ bytes.size := h
    simp only [access, readByte, writeByte, dif_neg h]
    rfl
  | readWord offset | writeWord offset _ =>
    have h : ¬ offset.toNat + 2 ≤ bytes.size := h
    simp only [access, readWord, writeWord, dif_neg h]
    rfl

lemma fault_eq_outOfBounds {offset : UInt64} {width : Nat} (h : offset.toNat + width < UInt64.size)
    (m : Ram) : m.fault offset width = .outOfBounds offset.toNat m.size := if_pos h

lemma fault_eq_offsetOverflow {offset : UInt64} {width : Nat} (h : UInt64.size ≤ offset.toNat + width)
    (m : Ram) : m.fault offset width = .offsetOverflow offset.toNat := if_neg (Nat.not_lt_of_le h)

@[simp] lemma size_store (m : Ram) (ps : List (Nat × Byte)) : (m.store ps).size = m.size := by
  induction ps generalizing m with
  | nil => rfl
  | cons p ps ih => exact (ih _).trans (size_set m p.1 p.2)

lemma byte_store {ps : List (Nat × Byte)} (h : ∀ p ∈ ps, p.1 < m.size) (i : Nat) :
    (m.store ps).byte i = (ps.reverse.lookup i).getD (m.byte i) := by
  induction ps generalizing m with
  | nil => rfl
  | cons p ps ih =>
    obtain ⟨hp, hps⟩ := List.forall_mem_cons.mp h
    have hrest := ih (m := m.set p.1 p.2) (by simpa using hps)
    change ((m.set p.1 p.2).store ps).byte i = _
    rw [hrest, byte_set hp, List.reverse_cons, List.lookup_append]
    -- what is stored later counts
    cases ps.reverse.lookup i with
    | some b => rfl
    | none =>
      by_cases hi : i = p.1
      · rw [if_pos hi, hi, List.lookup_cons_self]
        rfl
      · rw [if_neg hi, List.lookup_cons, beq_false_of_ne hi, List.lookup_nil]
        rfl

lemma stored_cons (size : Nat) (a : Access) (history : List Access) :
    stored size (a :: history) = (if a.Fits size then a.stores else []) ++ stored size history := by
  by_cases h : a.Fits size <;> simp [stored, h]

lemma lt_of_mem_stored {size : Nat} {history : List Access} {p : Nat × Byte} (h : p ∈ stored size history) :
    p.1 < size := by
  obtain ⟨a, ha, hp⟩ := List.mem_flatMap.mp h
  exact Access.lt_of_mem_stores (of_decide_eq_true (List.mem_filter.mp ha).2) hp

/-- Every access either stores its bytes or leaves the memory as it is. -/
lemma after_eq_store (m : Ram) (history : List Access) :
    m.after history = m.store (stored m.size history) := by
  induction history generalizing m with
  | nil => rfl
  | cons a history ih =>
    change ((m.access a).2).after history = _
    rw [stored_cons]
    by_cases h : a.Fits m.size
    · have hstore (ps : List (Nat × Byte)) : m.store (a.stores ++ ps) = (m.store a.stores).store ps :=
        List.foldl_append
      rw [access_of_fits h, ih, size_store, if_pos h, hstore]
    · rw [access_of_not_fits h, ih, if_neg h, List.nil_append]

lemma byte_zeros (n i : Nat) : (zeros n).byte i = 0 := by
  rw [byte, zeros, Array.getD_eq_getD_getElem?, Array.getElem?_replicate]
  split_ifs <;> rfl

@[simp] lemma size_after (m : Ram) (history : List Access) : (m.after history).size = m.size := by
  rw [after_eq_store, size_store]

lemma byte_after_zeros (n : Nat) (history : List Access) (i : Nat) :
    ((zeros n).after history).byte i = lastStored n history i := by
  have hbound : ∀ p ∈ stored (zeros n).size history, p.1 < (zeros n).size := fun p => lt_of_mem_stored
  rw [after_eq_store, byte_store hbound, byte_zeros, size_zeros, lastStored]

lemma eq_ofFn {n : Nat} {byte : Nat → Byte} (hsize : m.size = n) (hbyte : ∀ i < n, m.byte i = byte i) :
    m = ⟨Array.ofFn fun i : Fin n => byte i⟩ := by
  obtain ⟨bytes⟩ := m
  have hsize : bytes.size = n := hsize
  congr 1
  refine Array.ext (by rw [hsize, Array.size_ofFn]) fun i hi hi' => ?_
  have hb := hbyte i (hsize ▸ hi)
  rw [Array.getElem_ofFn, ← hb, Ram.byte, Array.getElem_eq_getD]

/-- A memory that was zero at first, behind any sequence of accesses. It has the size that it had, and holds
the bytes that were stored last. An access inside it is answered with these bytes. An access that reaches
over its end fails and changes nothing, and the error names the offset and the size, unless the end of the
access is no 64-bit number. -/
theorem access_after (n : Nat) (history : List Access) (a : Access) :
    let m := (zeros n).after history
    m = ⟨Array.ofFn fun i : Fin n => lastStored n history i⟩ ∧
    ((∀ e, (m.access a).1 ≠ .error e) ↔ a.offset.toNat + a.width ≤ n) ∧
    (a.offset.toNat + a.width ≤ n →
      m.access a = (a.answer (lastStored n history), (zeros n).after (history ++ [a]))) ∧
    (n < a.offset.toNat + a.width → a.offset.toNat + a.width < UInt64.size →
      m.access a = (.error (.outOfBounds a.offset.toNat n), m)) ∧
    (n < a.offset.toNat + a.width → UInt64.size ≤ a.offset.toNat + a.width →
      m.access a = (.error (.offsetOverflow a.offset.toNat), m)) := by
  intro m
  have hsize : m.size = n := by rw [size_after, size_zeros]
  have hbytes : m.byte = lastStored n history := funext (byte_after_zeros n history)
  have hinside (h : a.offset.toNat + a.width ≤ n) : (m.access a).1 = a.answer (lastStored n history) := by
    rw [access_of_fits (hsize ▸ h), hbytes]
  have houtside (h : n < a.offset.toNat + a.width) :
      m.access a = (.error (m.fault a.offset a.width), m) :=
    access_of_not_fits (hsize ▸ Nat.not_le_of_lt h)
  refine ⟨eq_ofFn hsize fun i _ => congrFun hbytes i, ⟨fun h => ?_, fun h e => ?_⟩, fun h => ?_,
    fun h hend => ?_, fun h hend => ?_⟩
  · by_contra hover
    exact h _ (congrArg Prod.fst (houtside (Nat.lt_of_not_le hover)))
  · rw [hinside h]
    exact a.answer_ne_error _ e
  · rw [after, List.foldl_concat]
    exact Prod.ext (hinside h) rfl
  · rw [houtside h, fault_eq_outOfBounds hend, hsize]
  · rw [houtside h, fault_eq_offsetOverflow hend]

/-- The last offsets lie outside of every memory, but an access there is not out of bounds. -/
theorem readByte_lastOffset : ¬ 0xFFFFFFFFFFFFFFFF + 1 ≤ (zeros 4).size ∧
    (zeros 4).access (.readByte 0xFFFFFFFFFFFFFFFF) =
      (.error (.offsetOverflow 0xFFFFFFFFFFFFFFFF), zeros 4) ∧
    (zeros 4).access (.readByte 0xFFFFFFFFFFFFFFFF) ≠
      (.error (.outOfBounds 0xFFFFFFFFFFFFFFFF 4), zeros 4) := by
  decide +kernel

end Ram
end Machine16
