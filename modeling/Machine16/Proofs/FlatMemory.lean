import Mathlib.Tactic.SplitIfs
import Machine16.Memory.Bus
import Machine16.Memory.Peripheral
import Machine16.Proofs.Totality

/-! A bus with one memory of 64 KiB over all addresses. It is an array of bytes: every access succeeds,
and a word is two bytes next to each other, except that nothing lies behind the last address. -/
namespace Machine16

namespace Ram

/-- The byte at an offset, or zero if there is none. -/
def byte (m : Ram) (i : Nat) : Byte := m.bytes.getD i 0

/-- The memory with another byte at an offset, if there is such an offset. -/
def set (m : Ram) (i : Nat) (b : Byte) : Ram := ⟨m.bytes.setIfInBounds i b⟩

@[simp] lemma size_set (m : Ram) (i : Nat) (b : Byte) : (m.set i b).size = m.size :=
  Array.size_setIfInBounds

lemma byte_set {m : Ram} {i : Nat} (hi : i < m.size) (b : Byte) (j : Nat) :
    (m.set i b).byte j = if j = i then b else m.byte j := by
  have hi : i < m.bytes.size := hi
  simp only [byte, set, Array.getD_eq_getD_getElem?, Array.getElem?_setIfInBounds]
  split_ifs with hij hji
  · rfl
  · exact absurd hij.symm hji
  · omega
  · rfl

lemma set_of_size_le {m : Ram} {i : Nat} (hi : m.size ≤ i) (b : Byte) : m.set i b = m :=
  congrArg mk (Array.setIfInBounds_eq_of_size_le hi)

lemma set_eq {bytes : Array Byte} {i : Nat} (hi : i < bytes.size) (b : Byte) :
    (⟨bytes⟩ : Ram).set i b = ⟨bytes.set i b⟩ := by
  rw [set, Array.setIfInBounds_def, dif_pos hi]

lemma readByte_eq_byte {m : Ram} {offset : UInt64} (h : offset.toNat + 1 ≤ m.bytes.size) :
    m.readByte offset = .ok (m.byte offset.toNat) := by
  rw [readByte, dif_pos h, byte, Array.getElem_eq_getD]

lemma readWord_eq_bytes {m : Ram} {offset : UInt64} (h : offset.toNat + 2 ≤ m.bytes.size) :
    m.readWord offset = .ok (Word.ofBytes (m.byte offset.toNat) (m.byte (offset.toNat + 1))) := by
  rw [readWord, dif_pos h, byte, byte, Array.getElem_eq_getD, Array.getElem_eq_getD]

lemma writeByte_eq_set {m : Ram} {offset : UInt64} (h : offset.toNat + 1 ≤ m.bytes.size) (b : Byte) :
    writeByte offset b m = .ok () (m.set offset.toNat b) := by
  obtain ⟨bytes⟩ := m
  rw [writeByte, dif_pos h, set_eq h]

lemma writeWord_eq_set {m : Ram} {offset : UInt64} (h : offset.toNat + 2 ≤ m.bytes.size) (w : Word) :
    writeWord offset w m =
      .ok () ((m.set offset.toNat (Word.high w)).set (offset.toNat + 1) (Word.low w)) := by
  obtain ⟨bytes⟩ := m
  rw [writeWord, dif_pos h, set_eq (Nat.lt_of_succ_lt h), set_eq]

/-- The memory with bytes from an offset on, as many as there is room for. -/
def fill (m : Ram) (i : Nat) : List Byte → Ram
  | [] => m
  | b :: bs => (m.set i b).fill (i + 1) bs

@[simp] lemma size_fill (m : Ram) (i : Nat) (bs : List Byte) : (m.fill i bs).size = m.size := by
  induction bs generalizing m i with
  | nil => rfl
  | cons b bs ih => rw [fill, ih, size_set]

lemma fill_of_size_le {m : Ram} {i : Nat} (hi : m.size ≤ i) (bs : List Byte) : m.fill i bs = m := by
  induction bs generalizing i with
  | nil => rfl
  | cons b bs ih => rw [fill, set_of_size_le hi, ih (by omega)]

lemma byte_fill_of_lt (m : Ram) {i j : Nat} (h : j < i) (bs : List Byte) :
    (m.fill i bs).byte j = m.byte j := by
  induction bs generalizing m i with
  | nil => rfl
  | cons b bs ih =>
    rw [fill, ih (m.set i b) (by omega)]
    simp only [byte, set, Array.getD_eq_getD_getElem?, Array.getElem?_setIfInBounds]
    rw [if_neg (by omega)]

lemma byte_fill {m : Ram} {i : Nat} {bs : List Byte} (h : i + bs.length ≤ m.size) {k : Nat}
    (hk : k < bs.length) : (m.fill i bs).byte (i + k) = bs[k] := by
  induction bs generalizing m i k with
  | nil => cases hk
  | cons b bs ih =>
    rw [List.length_cons] at h hk
    cases k with
    | zero =>
      change ((m.set i b).fill (i + 1) bs).byte i = b
      rw [byte_fill_of_lt _ (Nat.lt_add_one i), byte_set (by omega), if_pos rfl]
    | succ k =>
      have hsize : i + 1 + bs.length ≤ (m.set i b).size := by
        rw [size_set]
        omega
      have := ih hsize (Nat.lt_of_succ_lt_succ hk)
      rwa [Nat.add_assoc, Nat.add_comm 1 k] at this

end Ram

namespace Bus

section

variable {δ α : Type} [Inhabited α]

lemma updateAt_of_getElem? {ds : List δ} {device : Nat} {d : δ} (hd : ds[device]? = some d)
    (u : Update δ α) : updateAt u device ds = Update.within (ds.set device ·) (u d) := by
  induction ds generalizing device with
  | nil => cases hd
  | cons x ds ih =>
    cases device with
    | zero =>
      cases hd
      rfl
    | succ device =>
      rw [updateAt, ih hd]
      cases u d <;> rfl

/-- The bus with another device of that number. -/
def withDevice (b : Bus δ) (device : Nat) (d : δ) : Bus δ := { b with devices := b.devices.set device d }

omit [Inhabited α] in
lemma devices_withDevice {b : Bus δ} {device : Nat} {d : δ} (h : b.devices[device]? = some d) (d' : δ) :
    (b.withDevice device d').devices[device]? = some d' :=
  List.getElem?_set_self (List.getElem?_eq_some_iff.mp h).1

omit [Inhabited α] in
lemma withDevice_withDevice (b : Bus δ) (device : Nat) (d d' : δ) :
    (b.withDevice device d).withDevice device d' = b.withDevice device d' := by
  simp only [withDevice, List.set_set]

end

section

variable {b : Bus Peripheral} {r : Region} {m : Ram} {address : Word}

lemma writeRegion_of_not_writable (hwritable : r.writable = false) (address : Word)
    (u : Word → Update Peripheral Unit) : writeRegion r address u b = .ok () b := by
  rw [writeRegion, if_neg (by simp [hwritable])]
  rfl

/-- A write to a region is a write to its device, and changes nothing else. -/
lemma writeRegion_of_device {δ : Type} {b : Bus δ} {d : δ} (hwritable : r.writable = true)
    (hdevice : b.devices[r.device]? = some d) (u : Word → Update δ Unit) :
    writeRegion r address u b = Update.within (b.withDevice r.device) (u (address - r.first) d) := by
  obtain ⟨devices, regions, mapped⟩ := b
  rw [writeRegion, if_pos hwritable, update, updateAt_of_getElem? hdevice]
  cases u (address - r.first) d <;> rfl

/-- A write to a memory, at the offset that an address has in its region. -/
lemma writeByte_eq_ok (hwritable : r.writable = true)
    (hdevice : b.devices[r.device]? = some (.ram m)) (hregion : b.region? address = some r)
    {i : Nat} (hoffset : (address - r.first).toUInt64.toNat = i) (hi : i < m.size) (v : Byte) :
    writeByte address v b = .ok () (b.withDevice r.device (.ram (m.set i v))) := by
  have hbyte : Device.writeByte (address - r.first) v (Peripheral.ram m) =
      .ok () (.ram (m.set i v)) := by
    change Update.within Peripheral.ram (Ram.writeByte _ v m) = _
    rw [Ram.writeByte_eq_set (by rw [hoffset]; exact hi), hoffset, Update.within_ok]
  simp only [writeByte, hregion]
  exact (writeRegion_of_device hwritable hdevice _).trans (congrArg _ hbyte)

lemma writeWord_eq_ok (hwritable : r.writable = true)
    (hdevice : b.devices[r.device]? = some (.ram m)) (hregion : b.wordRegion? address = some r)
    {i : Nat} (hoffset : (address - r.first).toUInt64.toNat = i) (hi : i + 1 < m.size) (w : Word) :
    writeWord address w b =
      .ok () (b.withDevice r.device (.ram ((m.set i (Word.high w)).set (i + 1) (Word.low w)))) := by
  have hword : Device.writeWord (address - r.first) w (Peripheral.ram m) =
      .ok () (.ram ((m.set i (Word.high w)).set (i + 1) (Word.low w))) := by
    change Update.within Peripheral.ram (Ram.writeWord _ w m) = _
    rw [Ram.writeWord_eq_set (by rw [hoffset]; exact hi), hoffset, Update.within_ok]
  simp only [writeWord, hregion]
  exact (writeRegion_of_device hwritable hdevice _).trans (congrArg _ hword)

end

/-- All addresses belong to one mapping, of a memory of 64 KiB that may be written. -/
structure Spans (b : Bus Peripheral) (r : Region) (m : Ram) : Prop where
  region : ∀ address, b.region? address = some r
  first : r.first = 0
  writable : r.writable = true
  device : b.devices[r.device]? = some (.ram m)
  size : m.size = 0x10000

namespace Spans

variable {b : Bus Peripheral} {r : Region} {m : Ram}

lemma withDevice (h : b.Spans r m) {m' : Ram} (hm' : m'.size = m.size) :
    (b.withDevice r.device (.ram m')).Spans r m' :=
  ⟨h.region, h.first, h.writable, devices_withDevice h.device (.ram m'), hm'.trans h.size⟩

lemma toNat_sub_first (h : b.Spans r m) (address : Word) :
    (address - r.first).toUInt64.toNat = address.toNat := by
  rw [h.first, UInt16.sub_zero, UInt16.toNat_toUInt64]

lemma toNat_lt_size (h : b.Spans r m) (address : Word) : address.toNat < m.size := by
  rw [h.size]
  exact address.toNat_lt

lemma readByte (h : b.Spans r m) (address : Word) :
    b.readByte address = .ok (m.byte address.toNat) := by
  have hlt := h.toNat_lt_size address
  have hoffset := h.toNat_sub_first address
  simp only [Bus.readByte, h.region, h.device]
  refine (Ram.readByte_eq_byte (by rw [hoffset]; exact hlt)).trans ?_
  rw [hoffset]

lemma readWord (h : b.Spans r m) (address : Word) : b.readWord address =
    .ok (Word.ofBytes (m.byte address.toNat) (m.byte (address.toNat + 1))) := by
  simp only [Bus.readWord, h.readByte]
  by_cases ha : address = 0xFFFF
  · have hsize : m.bytes.size = 0x10000 := h.size
    have hbyte : m.byte (address.toNat + 1) = 0 := by
      simp [Ram.byte, ha, hsize]
    rw [hbyte, ha]
    rfl
  · have hnext : nextAddress? address = some (address + 1) := if_neg ha
    rw [hnext]
    simp only [Word.toNat_add_one ha]
    rfl

lemma writeByte (h : b.Spans r m) (address : Word) (v : Byte) :
    writeByte address v b = .ok () (b.withDevice r.device (.ram (m.set address.toNat v))) :=
  writeByte_eq_ok h.writable h.device (h.region address) (h.toNat_sub_first address)
    (h.toNat_lt_size address) v

lemma writeWord (h : b.Spans r m) (address w : Word) : writeWord address w b =
    .ok () (b.withDevice r.device
      (.ram ((m.set address.toNat (Word.high w)).set (address.toNat + 1) (Word.low w)))) := by
  by_cases ha : address = 0xFFFF
  · -- the low byte would lie behind the last address
    have hset : (m.set address.toNat (Word.high w)).set (address.toNat + 1) (Word.low w) =
        m.set address.toNat (Word.high w) := by
      refine Ram.set_of_size_le ?_ _
      rw [Ram.size_set, h.size, ha]
      decide
    have hnext : nextAddress? address = none := if_pos ha
    have hregion : b.wordRegion? address = none := by simp [wordRegion?, hnext]
    simp only [Bus.writeWord, hregion, writeBytes, hnext]
    change EStateM.bind (Bus.writeByte address (Word.high w)) (fun _ => EStateM.pure ()) b = _
    simp only [EStateM.bind, h.writeByte, hset]
    rfl
  · have hnext : nextAddress? address = some (address + 1) := if_neg ha
    have hregion : b.wordRegion? address = some r := by
      simp [wordRegion?, hnext, h.region]
    have hlt := h.toNat_lt_size (address + 1)
    rw [Word.toNat_add_one ha] at hlt
    exact writeWord_eq_ok h.writable h.device hregion (h.toNat_sub_first address) hlt w

end Spans

/-- Nothing but a memory over all addresses. -/
def flat (m : Ram) : Bus Peripheral := ⟨[.ram m], [⟨0, 0, 0, 0xFFFF, true⟩], 1⟩

variable {m : Ram} (hm : m.size = 0x10000)

include hm

lemma spans_flat : (flat m).Spans ⟨0, 0, 0, 0xFFFF, true⟩ m where
  region address := by
    have : (⟨0, 0, 0, 0xFFFF, true⟩ : Region).covers address = true := by
      have := address.toNat_lt
      simp [Region.covers, UInt16.le_iff_toNat_le]
      omega
    simp [region?, flat, this]
  first := rfl
  writable := rfl
  device := rfl
  size := hm

lemma readByte_flat (address : Word) : (flat m).readByte address = .ok (m.byte address.toNat) :=
  (spans_flat hm).readByte address

lemma readWord_flat (address : Word) : (flat m).readWord address =
    .ok (Word.ofBytes (m.byte address.toNat) (m.byte (address.toNat + 1))) :=
  (spans_flat hm).readWord address

lemma writeByte_flat (address : Word) (b : Byte) :
    writeByte address b (flat m) = .ok () (flat (m.set address.toNat b)) :=
  (spans_flat hm).writeByte address b

lemma writeWord_flat (address w : Word) : writeWord address w (flat m) =
    .ok () (flat ((m.set address.toNat (Word.high w)).set (address.toNat + 1) (Word.low w))) :=
  (spans_flat hm).writeWord address w

/-- Bytes behind the last address are not loaded. -/
lemma load_flat (address : Nat) (bs : List Byte) :
    load address bs (flat m) = .ok () (flat (m.fill address bs)) := by
  induction bs generalizing m address with
  | nil => rfl
  | cons b bs ih =>
    rw [load]
    by_cases h : address ≤ 0xFFFF
    · have haddress : (UInt16.ofNat address).toNat = address := by
        rw [UInt16.toNat_ofNat']
        omega
      rw [if_pos h]
      change EStateM.bind (writeByte (UInt16.ofNat address) b) (fun _ => load (address + 1) bs)
        (flat m) = _
      simp only [EStateM.bind, writeByte_flat hm, haddress]
      exact ih (by simpa using hm) (address + 1)
    · rw [if_neg h, Ram.fill_of_size_le (by omega)]
      rfl

/-- How such a bus is made and loaded. -/
lemma map_load_flat (bs : List Byte) :
    (do let _ ← map 0 0 0xFFFF true; load 0 bs : Update (Bus Peripheral) Unit)
      (attach {} (.ram m)) = .ok () (flat (m.fill 0 bs)) := by
  change load 0 bs (flat m) = _
  exact load_flat hm 0 bs

end Bus

/-- The bus is a memory over all addresses. -/
def Bus.IsFlat (b : Bus Peripheral) : Prop := ∃ m : Ram, m.size = 0x10000 ∧ b = flat m

lemma Bus.reliable_isFlat : Reliable IsFlat where
  readByte := by
    rintro _ ⟨m, hm, rfl⟩ address
    exact ⟨_, readByte_flat hm address⟩
  readWord := by
    rintro _ ⟨m, hm, rfl⟩ address
    exact ⟨_, readWord_flat hm address⟩
  writeWord := by
    rintro _ ⟨m, hm, rfl⟩ address w
    exact ⟨_, writeWord_flat hm address w, _, by simpa using hm, rfl⟩

/-- One memory that may be written lies over all addresses, whatever else there is on the bus. -/
def Bus.IsSpanned (b : Bus Peripheral) : Prop := ∃ r m, b.Spans r m

lemma Bus.isSpanned_flat {m : Ram} (hm : m.size = 0x10000) : (flat m).IsSpanned :=
  ⟨_, m, spans_flat hm⟩

lemma Bus.reliable_isSpanned : Reliable IsSpanned where
  readByte := by
    rintro b ⟨r, m, h⟩ address
    exact ⟨_, h.readByte address⟩
  readWord := by
    rintro b ⟨r, m, h⟩ address
    exact ⟨_, h.readWord address⟩
  writeWord := by
    rintro b ⟨r, m, h⟩ address w
    exact ⟨_, h.writeWord address w, r, _, h.withDevice (by simp)⟩

end Machine16
