import Machine16.Memory.Device

/-! One address space of 64 KiB made of devices. A device is mapped to a range of addresses, and
where ranges overlap the newest one counts. Addresses that nothing is mapped to read as zero;
writes to them, or to ranges that may not be written, are lost. One device may be mapped more
than once. -/
namespace Machine16

structure Region where
  /-- The number of the mapping. -/
  handle : Nat
  /-- The number of the device on the bus. -/
  device : Nat
  first : Word
  last : Word
  writable : Bool
  deriving DecidableEq, Repr

def Region.covers (r : Region) (address : Word) : Bool := r.first ≤ address && address ≤ r.last

structure Bus (δ : Type) where
  devices : List δ := []
  /-- The newest region comes first. -/
  regions : List Region := []
  /-- The number of mappings so far. -/
  mapped : Nat := 0

namespace Bus

variable {δ : Type}

/-- Adds a device that is not mapped yet. -/
def attach (b : Bus δ) (d : δ) : Bus δ := { b with devices := b.devices ++ [d] }

/-- Maps a device to all addresses from `first` to `last`, and gives the number of the mapping. -/
def map (device first last : Nat) (writable : Bool) : Update (Bus δ) Nat
  | ⟨devices, regions, mapped⟩ =>
    if first ≤ last ∧ last ≤ 0xFFFF then
      let r : Region := ⟨mapped, device, UInt16.ofNat first, UInt16.ofNat last, writable⟩
      .ok mapped ⟨devices, r :: regions, mapped + 1⟩
    else .error (.invalidRange first last) ⟨devices, regions, mapped⟩

/-- The device of a mapping, and the bus without the mapping. -/
def unmap? (b : Bus δ) (handle : Nat) : Option (Nat × Bus δ) :=
  (b.regions.find? (·.handle == handle)).map fun r =>
    (r.device, { b with regions := b.regions.filter (·.handle != handle) })

def region? (b : Bus δ) (address : Word) : Option Region := b.regions.find? (·.covers address)

def nextAddress? (address : Word) : Option Word :=
  if address = 0xFFFF then none else some (address + 1)

/-- Changes the device of that number. If there is none the answer is the default one, zero for a byte. -/
def updateAt {α : Type} [Inhabited α] (u : Update δ α) : Nat → Update (List δ) α
  | _, [] => .ok default []
  | 0, d :: ds => Update.within (· :: ds) (u d)
  | i + 1, d :: ds => Update.within (d :: ·) (updateAt u i ds)

def update {α : Type} [Inhabited α] (device : Nat) (u : Update δ α) : Update (Bus δ) α
  | ⟨devices, regions, mapped⟩ => Update.within (⟨·, regions, mapped⟩) (updateAt u device devices)

section

variable [Addressable δ]

def getByte (address : Word) : Update (Bus δ) Byte := fun b =>
  match b.region? address with
  | none => .ok 0 b
  | some r => update r.device (Addressable.getByte (address - r.first)) b

/-- The two bytes are read one after the other, wherever they are. -/
def getWord (address : Word) : Update (Bus δ) Word := do
  let high ← getByte address
  let low ←
    match nextAddress? address with
    | none => pure 0
    | some next => getByte next
  return Word.ofBytes high low

/-- A write to the device of a region, with the address that the device sees. -/
def writeRegion (r : Region) (address : Word) (u : Word → Update δ Unit) : Update (Bus δ) Unit :=
  if r.writable then update r.device (u (address - r.first)) else pure ()

def writeByte (address : Word) (v : Byte) : Update (Bus δ) Unit := fun b =>
  match b.region? address with
  | none => .ok () b
  | some r => writeRegion r address (fun a => Addressable.writeByte a v) b

def writeBytes (address : Word) (w : Word) : Update (Bus δ) Unit := do
  writeByte address (Word.high w)
  match nextAddress? address with
  | none => pure ()
  | some next => writeByte next (Word.low w)

/-- The region that both bytes of a word lie in. -/
def wordRegion? (b : Bus δ) (address : Word) : Option Region := do
  let next ← nextAddress? address
  let r ← b.region? address
  let s ← b.region? next
  if r.handle = s.handle then some r else none

/-- A word inside one region is written as a whole, so that the device sees all of it. -/
def writeWord (address : Word) (w : Word) : Update (Bus δ) Unit := fun b =>
  match b.wordRegion? address with
  | some r => writeRegion r address (fun a => Addressable.writeWord a w) b
  | none => writeBytes address w b

/-- Writes bytes from `address` on, up to the end of the address space. -/
def load (address : Nat) : List Byte → Update (Bus δ) Unit
  | [] => pure ()
  | v :: vs => do
    if address ≤ 0xFFFF then
      writeByte (UInt16.ofNat address) v
      load (address + 1) vs

instance : Addressable (Bus δ) where
  getByte := getByte
  getWord := getWord
  writeByte := writeByte
  writeWord := writeWord

end

section

variable [Device δ]

/-- The byte at an address. -/
def readByte (b : Bus δ) (address : Word) : Except MemoryError Byte :=
  match b.region? address with
  | none => .ok 0
  | some r =>
    match b.devices[r.device]? with
    | none => .ok 0
    | some d => Device.readByte d (address - r.first)

def readWord (b : Bus δ) (address : Word) : Except MemoryError Word := do
  let high ← b.readByte address
  let low ←
    match nextAddress? address with
    | none => .ok 0
    | some next => b.readByte next
  return Word.ofBytes high low

omit [Device δ] in
theorem updateAt_eq_ofExcept {α : Type} [Inhabited α] {u : Update δ α} {f : δ → Except MemoryError α}
    (h : ∀ d, u d = Update.ofExcept (f d) d) (i : Nat) (ds : List δ) :
    updateAt u i ds = Update.ofExcept ((ds[i]?.map f).getD (.ok default)) ds := by
  induction ds generalizing i with
  | nil =>
    rw [updateAt]
    rfl
  | cons d ds ih =>
    cases i with
    | zero =>
      rw [updateAt, h, Update.within_ofExcept]
      rfl
    | succ i =>
      rw [updateAt, ih, Update.within_ofExcept]
      rfl

theorem getByte_eq (address : Word) (b : Bus δ) :
    getByte address b = Update.ofExcept (b.readByte address) b := by
  obtain ⟨devices, regions, mapped⟩ := b
  rw [getByte, readByte]
  cases region? ⟨devices, regions, mapped⟩ address with
  | none => rfl
  | some r =>
    change Update.within _ (updateAt _ _ _) = _
    rw [updateAt_eq_ofExcept (Device.getByte_eq _), Update.within_ofExcept]
    cases h : devices[r.device]? <;> simp only [h] <;> rfl

theorem getWord_eq (address : Word) (b : Bus δ) :
    getWord address b = Update.ofExcept (b.readWord address) b := by
  refine Update.bind_eq_ofExcept (getByte_eq address b) fun high => ?_
  cases nextAddress? address with
  | none => rfl
  | some next => exact Update.bind_eq_ofExcept (getByte_eq next b) fun low => rfl

instance : Device (Bus δ) where
  readByte := readByte
  readWord := readWord
  getByte_eq := getByte_eq
  getWord_eq := getWord_eq

end

end Bus
end Machine16
