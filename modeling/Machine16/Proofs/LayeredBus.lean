import Machine16.Proofs.FlatMemory
import Machine16.Proofs.Layers

/-! The bus is a memory in layers. If the devices that are mapped are large enough memories, it answers
every request as the layers do, also where it writes a word as a whole. -/
namespace Machine16

namespace Bus

variable {δ : Type} [Device δ]

/-- The answer to a read, which changes nothing. -/
def answerRead {α : Type} (b : Bus δ) (f : α → Answer) : Except MemoryError α → Answer × Bus δ
  | .ok a => (f a, b)
  | .error e => (.error e, b)

def answerUpdate {α : Type} (f : α → Answer) : EStateM.Result MemoryError (Bus δ) α → Answer × Bus δ
  | .ok a b => (f a, b)
  | .error e b => (.error e, b)

def answer (b : Bus δ) : Request → Answer × Bus δ
  | .map device first last writable => answerUpdate .mapped (map device first last writable b)
  | .unmap number =>
    match b.unmap? number with
    | some (device, b) => (.unmapped (some device), b)
    | none => (.unmapped none, b)
  | .readByte address => b.answerRead .byte (b.readByte address)
  | .readWord address => b.answerRead .word (b.readWord address)
  | .writeByte address v => answerUpdate (fun _ => .done) (writeByte address v b)
  | .writeWord address w => answerUpdate (fun _ => .done) (writeWord address w b)
  | .load address bytes => answerUpdate (fun _ => .done) (load address.toNat bytes b)

def answers (b : Bus δ) : List Request → List Answer × Bus δ
  | [] => ([], b)
  | r :: rs =>
    let (a, b) := b.answer r
    let (as, b) := b.answers rs
    (a :: as, b)

end Bus

/-- The size of a device that is a memory. -/
def Peripheral.size? : Peripheral → Option Nat
  | ram m => some m.size
  | screen _ => none

namespace Bus

/-- The size of a device, if there is one and it is a memory. -/
def size? (b : Bus Peripheral) (device : Nat) : Option Nat := b.devices[device]?.bind Peripheral.size?

/-- The bytes of the devices. Where no memory has a byte, it is zero. -/
def content (b : Bus Peripheral) (device offset : Nat) : Byte :=
  match b.devices[device]? with
  | some (.ram m) => m.byte offset
  | _ => 0

lemma exists_ram {b : Bus Peripheral} {device size : Nat} (h : b.size? device = some size) :
    ∃ m : Ram, b.devices[device]? = some (.ram m) ∧ m.size = size := by
  obtain ⟨p, hp, hsize⟩ := Option.bind_eq_some_iff.mp h
  cases p with
  | ram m => exact ⟨m, hp, Option.some.inj hsize⟩
  | screen s => cases hsize

lemma map_of_invalid {δ : Type} {device first last : Nat} {writable : Bool}
    (h : ¬ (first ≤ last ∧ last ≤ 0xFFFF)) (b : Bus δ) :
    Bus.map device first last writable b = .error (.invalidRange first last) b := by
  rw [Bus.map, if_neg h]

end Bus

namespace Layer

/-- The region of the bus that a layer is. -/
def region (number : Nat) (l : Layer) : Region :=
  ⟨number, l.device, UInt16.ofNat l.first, UInt16.ofNat l.last, l.writable⟩

/-- The layer lies in the address space, and its device has a byte for each address. -/
structure Fits (l : Layer) (size? : Nat → Option Nat) : Prop where
  first_le_last : l.first ≤ l.last
  last_le : l.last ≤ 0xFFFF
  size : ∃ size, size? l.device = some size ∧ l.last - l.first < size

variable {l : Layer} {size? : Nat → Option Nat}

lemma Fits.covers (h : l.Fits size?) (number : Nat) (address : Word) :
    (l.region number).covers address = l.covers address.toNat := by
  have hfirst := h.first_le_last
  have hlast := h.last_le
  simp only [Region.covers, region, Layer.covers, UInt16.le_iff_toNat_le, UInt16.toNat_ofNat']
  rw [Nat.mod_eq_of_lt (by omega), Nat.mod_eq_of_lt (by omega)]

/-- The address that the device sees. -/
lemma Fits.toNat_sub_first (h : l.Fits size?) (number : Nat) {address : Word}
    (ha : l.covers address.toNat = true) :
    (address - (l.region number).first).toNat = address.toNat - l.first := by
  have hfirst := h.first_le_last
  have hlast := h.last_le
  have hlt := address.toNat_lt
  simp only [Layer.covers, Bool.and_eq_true, decide_eq_true_eq] at ha
  simp only [region]
  rw [UInt16.toNat_sub, UInt16.toNat_ofNat']
  omega

end Layer

namespace Layered

/-- The regions of the first layers, the newest one first. -/
def regions (layer : Nat → Option Layer) (count : Nat) : List Region :=
  (List.range count).reverse.filterMap fun n => (layer n).map (Layer.region n)

variable {layer layer' : Nat → Option Layer}

lemma regions_succ (layer : Nat → Option Layer) (count : Nat) : regions layer (count + 1) =
    ((layer count).map (Layer.region count)).toList ++ regions layer count := by
  rw [regions, List.range_succ, List.reverse_append]
  cases h : layer count <;> simp [h, regions]

lemma handle_lt_of_mem_regions {count : Nat} {r : Region} (h : r ∈ regions layer count) :
    r.handle < count := by
  obtain ⟨n, hn, hr⟩ := List.mem_filterMap.mp h
  obtain ⟨l, _, rfl⟩ := Option.map_eq_some_iff.mp hr
  simpa [Layer.region] using hn

lemma find?_regions (layer : Nat → Option Layer) {count number : Nat} (h : number < count) :
    (regions layer count).find? (·.handle == number) =
      (layer number).map (Layer.region number) := by
  induction count with
  | zero => cases h
  | succ count ih =>
    rw [regions_succ, List.find?_append]
    obtain hlt | rfl := Nat.lt_succ_iff_lt_or_eq.mp h
    · have hne : count ≠ number := by omega
      rw [ih hlt]
      cases layer count <;> simp [Layer.region, hne]
    · -- the regions below have smaller numbers
      have hbelow : (regions layer number).find? (·.handle == number) = none := by
        refine List.find?_eq_none.mpr fun r hr => ?_
        simpa using Nat.ne_of_lt (handle_lt_of_mem_regions hr)
      rw [hbelow]
      cases layer number <;> simp [Layer.region]

lemma regions_map (m : Layered) (l : Layer) :
    regions (m.map l).layer (m.count + 1) = l.region m.count :: regions m.layer m.count := by
  have hbelow : regions (m.map l).layer m.count = regions m.layer m.count := by
    refine List.filterMap_congr fun n hn => ?_
    have hne : n ≠ m.count := by
      have : n < m.count := by simpa using hn
      omega
    rw [layer_map, if_neg hne]
  rw [regions_succ, hbelow, layer_map, if_pos rfl]
  rfl

lemma regions_unmap (m : Layered) (number : Nat) : regions (m.unmap number).layer m.count =
    (regions m.layer m.count).filter (·.handle != number) := by
  rw [regions, regions, List.filter_filterMap]
  refine List.filterMap_congr fun n _ => ?_
  rw [layer_unmap]
  by_cases hn : n = number
  · subst hn
    cases m.layer n <;> simp [Layer.region, Option.filter]
  · cases m.layer n <;> simp [Layer.region, Option.filter, hn]

end Layered

namespace Bus

/-- The bus answers for the layers. -/
structure Represents (size? : Nat → Option Nat) (b : Bus Peripheral) (m : Layered) : Prop where
  mapped : b.mapped = m.count
  regions : b.regions = Layered.regions m.layer m.count
  fresh : ∀ n, m.count ≤ n → m.layer n = none
  fits : ∀ n l, m.layer n = some l → l.Fits size?
  size? : b.size? = size?
  content : b.content = m.content

namespace Represents

variable {size? : Nat → Option Nat} {b : Bus Peripheral} {m : Layered}

/-- An address belongs to no region and no layer, or to a region that is a layer. -/
lemma region?_cases (h : b.Represents size? m) (address : Word) :
    b.region? address = none ∧ m.owner? address.toNat = none ∨
      ∃ n l, m.layer n = some l ∧ l.covers address.toNat = true ∧
        b.region? address = some (l.region n) ∧ m.owner? address.toNat = some l := by
  have haddress : address.toNat ≤ 0xFFFF := Nat.le_of_lt_succ address.toNat_lt
  have hregion : b.region? address =
      (m.number? address.toNat).bind fun n => (m.layer n).map (Layer.region n) := by
    rw [region?, h.regions, Layered.regions, List.find?_filterMap, Layered.number?]
    congr
    funext n
    cases hl : m.layer n with
    | none => rfl
    | some l => exact (h.fits n l hl).covers n address
  rw [hregion, Layered.owner?, if_pos haddress]
  cases hn : m.number? address.toNat with
  | none => exact .inl ⟨rfl, rfl⟩
  | some n =>
    obtain ⟨l, hl, hcovers⟩ := (Option.any_eq_true _ _).mp (Layered.number?_eq_some.mp hn).2.1
    exact .inr ⟨n, l, hl, hcovers, by simp [hl], by simp [hl]⟩

/-- The memory behind a layer, and the byte of it that an address stands for. -/
lemma exists_ram (h : b.Represents size? m) {n : Nat} {l : Layer} (hl : m.layer n = some l)
    {address : Word} (hcovers : l.covers address.toNat = true) :
    ∃ ram : Ram, b.devices[l.device]? = some (.ram ram) ∧
      (address - (l.region n).first).toUInt64.toNat = address.toNat - l.first ∧
      address.toNat - l.first < ram.size ∧
      (l.covers (address.toNat + 1) = true → address.toNat - l.first + 1 < ram.size) := by
  have fits := h.fits n l hl
  obtain ⟨size, hsize, hlt⟩ := fits.size
  rw [← h.size?] at hsize
  obtain ⟨ram, hram, rfl⟩ := Bus.exists_ram hsize
  refine ⟨ram, hram, by rw [UInt16.toNat_toUInt64, fits.toNat_sub_first n hcovers], ?_, fun hnext => ?_⟩
  all_goals
    simp only [Layer.covers, Bool.and_eq_true, decide_eq_true_eq] at *
    omega

lemma readByte (h : b.Represents size? m) (address : Word) :
    b.readByte address = .ok (m.readByte address.toNat) := by
  obtain ⟨hregion, howner⟩ | ⟨n, l, hl, hcovers, hregion, howner⟩ := h.region?_cases address
  · simp only [Bus.readByte, hregion, Layered.readByte, howner]
  · obtain ⟨ram, hram, hoffset, hlt, -⟩ := h.exists_ram hl hcovers
    have hdevice : b.devices[(l.region n).device]? = some (.ram ram) := hram
    simp only [Bus.readByte, hregion, hdevice, Layered.readByte, howner]
    refine (Ram.readByte_eq_byte (by rw [hoffset]; exact hlt)).trans ?_
    rw [hoffset, ← h.content]
    simp only [Bus.content, hram]

lemma readWord (h : b.Represents size? m) (address : Word) :
    b.readWord address = .ok (m.readWord address.toNat) := by
  simp only [Bus.readWord, h.readByte, Layered.readWord]
  by_cases ha : address = 0xFFFF
  · have hlow : m.readByte (address.toNat + 1) = 0 := by
      rw [ha]
      rfl
    rw [hlow, ha]
    rfl
  · have hnext : nextAddress? address = some (address + 1) := if_neg ha
    rw [hnext]
    simp only [Word.toNat_add_one ha]
    rfl

/-- One byte of a memory changes, on the bus and in the layers. -/
lemma set (h : b.Represents size? m) {device : Nat} {ram : Ram}
    (hram : b.devices[device]? = some (.ram ram)) {i : Nat} (hi : i < ram.size) (v : Byte) :
    Represents size? (b.withDevice device (.ram (ram.set i v)))
      { m with content := fun d j => if d = device ∧ j = i then v else m.content d j } where
  mapped := h.mapped
  regions := h.regions
  fresh := h.fresh
  fits := h.fits
  size? := by
    rw [← h.size?]
    funext d
    simp only [Bus.size?, withDevice, List.getElem?_set]
    split_ifs with hd hlength
    · subst hd
      simp [hram, Peripheral.size?]
    · subst hd
      rw [List.getElem?_eq_none (by omega)]
    · rfl
  content := by
    rw [← h.content]
    funext d j
    simp only [Bus.content, withDevice, List.getElem?_set]
    by_cases hd : device = d
    · subst hd
      have hlength : device < b.devices.length := (List.getElem?_eq_some_iff.mp hram).1
      simp only [if_pos hlength, hram, Ram.byte_set hi, reduceIte, true_and]
    · simp [hd, Ne.symm hd]

lemma writeByte (h : b.Represents size? m) (address : Word) (v : Byte) :
    ∃ b', writeByte address v b = .ok () b' ∧ b'.Represents size? (m.writeByte address.toNat v) := by
  obtain ⟨hregion, howner⟩ | ⟨n, l, hl, hcovers, hregion, howner⟩ := h.region?_cases address
  · exact ⟨b, by simp only [Bus.writeByte, hregion], by simpa only [Layered.writeByte, howner]⟩
  cases hwritable : l.writable with
  | false =>
    refine ⟨b, ?_, by simpa only [Layered.writeByte, howner, hwritable]⟩
    simp only [Bus.writeByte, hregion]
    exact writeRegion_of_not_writable (r := l.region n) hwritable _ _
  | true =>
    obtain ⟨ram, hram, hoffset, hlt, -⟩ := h.exists_ram hl hcovers
    refine ⟨_, writeByte_eq_ok (r := l.region n) hwritable hram hregion hoffset hlt v, ?_⟩
    simp only [Layered.writeByte, howner, hwritable, if_true]
    exact h.set hram hlt v

lemma writeBytes (h : b.Represents size? m) (address w : Word) :
    ∃ b', writeBytes address w b = .ok () b' ∧ b'.Represents size? (m.writeWord address.toNat w) := by
  obtain ⟨b₁, hfirst, h₁⟩ := h.writeByte address (Word.high w)
  rw [Bus.writeBytes]
  by_cases ha : address = 0xFFFF
  · have hnext : nextAddress? address = none := if_pos ha
    refine ⟨b₁, ?_, ?_⟩
    · change EStateM.bind (Bus.writeByte address _) _ b = _
      simp only [EStateM.bind, hfirst, hnext]
      rfl
    · rw [ha] at h₁ ⊢
      exact h₁
  · have hnext : nextAddress? address = some (address + 1) := if_neg ha
    obtain ⟨b₂, hsecond, h₂⟩ := h₁.writeByte (address + 1) (Word.low w)
    refine ⟨b₂, ?_, by rwa [Word.toNat_add_one ha] at h₂⟩
    change EStateM.bind (Bus.writeByte address _) _ b = _
    simp only [EStateM.bind, hfirst, hnext, hsecond]

/-- Both bytes of a word that is written as a whole belong to one layer. -/
lemma exists_of_wordRegion? (h : b.Represents size? m) {address : Word} {r : Region}
    (hr : b.wordRegion? address = some r) :
    address ≠ 0xFFFF ∧ ∃ n l, m.layer n = some l ∧ r = l.region n ∧
      b.region? address = some (l.region n) ∧ l.covers address.toNat = true ∧
      b.region? (address + 1) = some (l.region n) ∧ l.covers (address.toNat + 1) = true := by
  obtain ⟨next, hnext, hr⟩ := Option.bind_eq_some_iff.mp hr
  obtain ⟨r₁, hr₁, hr⟩ := Option.bind_eq_some_iff.mp hr
  obtain ⟨r₂, hr₂, hr⟩ := Option.bind_eq_some_iff.mp hr
  split_ifs at hr with hhandle
  cases hr
  have ha : address ≠ 0xFFFF := by
    rintro rfl
    cases hnext
  obtain rfl : address + 1 = next := by
    rw [nextAddress?, if_neg ha] at hnext
    exact Option.some.inj hnext
  obtain ⟨hnone, -⟩ | ⟨n, l, hl, hcovers, hregion, -⟩ := h.region?_cases address
  · cases hnone.symm.trans hr₁
  obtain ⟨hnone, -⟩ | ⟨n', l', hl', hcovers', hregion', -⟩ := h.region?_cases (address + 1)
  · cases hnone.symm.trans hr₂
  cases hregion.symm.trans hr₁
  cases hregion'.symm.trans hr₂
  obtain rfl : n = n' := hhandle
  cases hl.symm.trans hl'
  rw [Word.toNat_add_one ha] at hcovers'
  exact ⟨ha, n, l, hl, rfl, hregion, hcovers, hregion', hcovers'⟩

/-- Whether a word is written as a whole or byte by byte makes no difference. -/
lemma writeWord_eq_writeBytes (h : b.Represents size? m) (address w : Word) :
    writeWord address w b = Bus.writeBytes address w b := by
  cases hr : b.wordRegion? address with
  | none => simp only [writeWord, hr]
  | some r =>
    obtain ⟨ha, n, l, hl, rfl, hregion, hcovers, hregion', hcovers'⟩ := h.exists_of_wordRegion? hr
    have hnext : nextAddress? address = some (address + 1) := if_neg ha
    simp only [writeWord, hr]
    change _ = EStateM.bind (Bus.writeByte address _) _ b
    cases hwritable : l.writable with
    | false =>
      have hbyte (a : Word) (v : Byte) (ha : b.region? a = some (l.region n)) :
          Bus.writeByte a v b = .ok () b := by
        simp only [Bus.writeByte, ha]
        exact writeRegion_of_not_writable (r := l.region n) hwritable _ _
      rw [writeRegion_of_not_writable (r := l.region n) hwritable]
      simp only [EStateM.bind, hnext, hbyte _ _ hregion, hbyte _ _ hregion']
    | true =>
      obtain ⟨ram, hram, hoffset, hlt, hlt'⟩ := h.exists_ram hl hcovers
      have hcovers'' : l.covers (address + 1).toNat = true := by rwa [Word.toNat_add_one ha]
      obtain ⟨_, -, hoffset', -⟩ := h.exists_ram hl hcovers''
      have hfirst_le : l.first ≤ address.toNat := by
        simp only [Layer.covers, Bool.and_eq_true, decide_eq_true_eq] at hcovers
        exact hcovers.1
      rw [Word.toNat_add_one ha, Nat.sub_add_comm hfirst_le] at hoffset'
      have hdevice : b.devices[(l.region n).device]? = some (.ram ram) := hram
      have hwhole := writeWord_eq_ok hwritable hdevice hr hoffset (hlt' hcovers') w
      have hfirst := writeByte_eq_ok hwritable hdevice hregion hoffset hlt (Word.high w)
      -- the first byte leaves the regions as they are
      let ram₁ : Ram := ram.set (address.toNat - l.first) (Word.high w)
      have hregion₁ : (b.withDevice (l.region n).device (.ram ram₁)).region? (address + 1) =
          some (l.region n) := hregion'
      have hlt₁ : address.toNat - l.first + 1 < ram₁.size := by simpa [ram₁] using hlt' hcovers'
      have hsecond := writeByte_eq_ok hwritable (devices_withDevice hdevice (.ram ram₁)) hregion₁ hoffset' hlt₁
        (Word.low w)
      rw [withDevice_withDevice] at hsecond
      simp only [writeWord, hr] at hwhole
      rw [hwhole]
      simp only [EStateM.bind, hfirst, hnext]
      exact hsecond.symm

lemma writeWord (h : b.Represents size? m) (address w : Word) :
    ∃ b', writeWord address w b = .ok () b' ∧ b'.Represents size? (m.writeWord address.toNat w) := by
  rw [h.writeWord_eq_writeBytes]
  exact h.writeBytes address w

lemma load (h : b.Represents size? m) (address : Nat) (bs : List Byte) :
    ∃ b', load address bs b = .ok () b' ∧ b'.Represents size? (m.load address bs) := by
  induction bs generalizing b m address with
  | nil => exact ⟨b, rfl, h⟩
  | cons v bs ih =>
    rw [Bus.load]
    by_cases ha : address ≤ 0xFFFF
    · have haddress : (UInt16.ofNat address).toNat = address := by
        rw [UInt16.toNat_ofNat']
        omega
      obtain ⟨b₁, hfirst, h₁⟩ := h.writeByte (UInt16.ofNat address) v
      rw [haddress] at h₁
      obtain ⟨b', hrest, h'⟩ := ih h₁ (address + 1)
      refine ⟨b', ?_, h'⟩
      rw [if_pos ha]
      change EStateM.bind (Bus.writeByte _ v) _ b = _
      simp only [EStateM.bind, hfirst, hrest]
    · rw [if_neg ha, Layered.load_of_lt (Nat.lt_of_not_le ha)]
      exact ⟨b, rfl, h⟩

lemma map (h : b.Represents size? m) {l : Layer} (fits : l.Fits size?) :
    ∃ b', Bus.map l.device l.first l.last l.writable b = .ok m.count b' ∧
      b'.Represents size? (m.map l) := by
  have hrange : l.first ≤ l.last ∧ l.last ≤ 0xFFFF := ⟨fits.first_le_last, fits.last_le⟩
  refine ⟨{ b with regions := l.region m.count :: b.regions, mapped := m.count + 1 }, ?_, ?_⟩
  · obtain ⟨devices, regions, mapped⟩ := b
    obtain rfl : mapped = m.count := h.mapped
    rw [Bus.map, if_pos hrange]
    rfl
  · refine ⟨rfl, ?_, fun n hn => ?_, fun n l' hl' => ?_, h.size?, h.content⟩
    · exact (congrArg _ h.regions).trans (m.regions_map l).symm
    · have hn : m.count + 1 ≤ n := hn
      rw [Layered.layer_map, if_neg (by omega), h.fresh n (by omega)]
    · rw [Layered.layer_map] at hl'
      split_ifs at hl'
      · cases hl'
        exact fits
      · exact h.fits n l' hl'

lemma find?_handle (h : b.Represents size? m) (number : Nat) :
    b.regions.find? (·.handle == number) = (m.layer number).map (Layer.region number) := by
  rw [h.regions]
  by_cases hnumber : number < m.count
  · exact Layered.find?_regions m.layer hnumber
  · rw [h.fresh number (Nat.le_of_not_lt hnumber)]
    refine List.find?_eq_none.mpr fun r hr => ?_
    have := Layered.handle_lt_of_mem_regions hr
    have hne : r.handle ≠ number := by omega
    simpa using hne

/-- What has been unmapped is handed back, and nothing else changes. -/
lemma unmap (h : b.Represents size? m) {number : Nat} {l : Layer} (hl : m.layer number = some l) :
    ∃ b', b.unmap? number = some (l.device, b') ∧ b'.Represents size? (m.unmap number) := by
  have hfind := h.find?_handle number
  rw [hl] at hfind
  refine ⟨_, congrArg _ hfind, h.mapped, ?_, fun n hn => ?_, fun n l' hl' => ?_, h.size?, h.content⟩
  · exact (congrArg _ h.regions).trans (m.regions_unmap number).symm
  · rw [Layered.layer_unmap, h.fresh n hn, ite_self]
  · rw [Layered.layer_unmap] at hl'
    split_ifs at hl'
    exact h.fits n l' hl'

lemma unmap_of_none (h : b.Represents size? m) {number : Nat} (hl : m.layer number = none) :
    b.unmap? number = none ∧ m.unmap number = m := by
  have hfind := h.find?_handle number
  rw [hl] at hfind
  refine ⟨congrArg _ hfind, ?_⟩
  rw [Layered.unmap, ← hl, Function.update_eq_self]

lemma answer (h : b.Represents size? m) {r : Request} (fits : r.Fits size?) :
    (b.answer r).1 = (m.answer r).1 ∧ (b.answer r).2.Represents size? (m.answer r).2 := by
  cases r with
  | map device first last writable =>
    by_cases hrange : first ≤ last ∧ last ≤ 0xFFFF
    · let l : Layer := ⟨device, first, last, writable⟩
      obtain ⟨b', hb, h'⟩ := h.map (l := l) ⟨hrange.1, hrange.2, fits hrange.1 hrange.2⟩
      have hb : Bus.map device first last writable b = .ok m.count b' := hb
      simp only [Bus.answer, hb, answerUpdate, Layered.answer, if_pos hrange]
      exact ⟨trivial, h'⟩
    · have hb : Bus.map device first last writable b = .error (.invalidRange first last) b :=
        map_of_invalid hrange b
      simp only [Bus.answer, hb, answerUpdate, Layered.answer, if_neg hrange]
      exact ⟨trivial, h⟩
  | unmap number =>
    cases hl : m.layer number with
    | none =>
      obtain ⟨hb, hm⟩ := h.unmap_of_none hl
      simp only [Bus.answer, hb, Layered.answer, hl, hm]
      exact ⟨rfl, h⟩
    | some l =>
      obtain ⟨b', hb, h'⟩ := h.unmap hl
      simp only [Bus.answer, hb, Layered.answer, hl]
      exact ⟨rfl, h'⟩
  | readByte address =>
    simp only [Bus.answer, h.readByte, answerRead, Layered.answer]
    exact ⟨trivial, h⟩
  | readWord address =>
    simp only [Bus.answer, h.readWord, answerRead, Layered.answer]
    exact ⟨trivial, h⟩
  | writeByte address v =>
    obtain ⟨b', hb, h'⟩ := h.writeByte address v
    simp only [Bus.answer, hb, answerUpdate, Layered.answer]
    exact ⟨trivial, h'⟩
  | writeWord address w =>
    obtain ⟨b', hb, h'⟩ := h.writeWord address w
    simp only [Bus.answer, hb, answerUpdate, Layered.answer]
    exact ⟨trivial, h'⟩
  | load address bytes =>
    obtain ⟨b', hb, h'⟩ := h.load address.toNat bytes
    simp only [Bus.answer, hb, answerUpdate, Layered.answer]
    exact ⟨trivial, h'⟩

lemma answers (h : b.Represents size? m) {rs : List Request} (fits : ∀ r ∈ rs, r.Fits size?) :
    (b.answers rs).1 = (m.answers rs).1 ∧ (b.answers rs).2.Represents size? (m.answers rs).2 := by
  induction rs generalizing b m with
  | nil => exact ⟨rfl, h⟩
  | cons r rs ih =>
    rw [List.forall_mem_cons] at fits
    obtain ⟨hanswer, h'⟩ := h.answer fits.1
    obtain ⟨hanswers, h''⟩ := ih h' fits.2
    simp only [Bus.answers, Layered.answers, hanswer, hanswers]
    exact ⟨trivial, h''⟩

lemma initial (devices : List Peripheral) :
    Represents (Bus.size? ⟨devices, [], 0⟩) ⟨devices, [], 0⟩
      ⟨fun _ => none, 0, Bus.content ⟨devices, [], 0⟩⟩ :=
  ⟨rfl, rfl, fun _ _ => rfl, fun _ _ h => (nomatch h), rfl, rfl⟩

end Represents

end Bus

/-- Whether a mapping can be made has nothing to do with the device. -/
lemma Bus.answer_map_eq_error {δ : Type} [Device δ] {b : Bus δ} {m : Layered}
    {device first last : Nat} {writable : Bool} {e : MemoryError} :
    (b.answer (.map device first last writable)).1 = .error e ↔
      (m.answer (.map device first last writable)).1 = .error e := by
  by_cases hrange : first ≤ last ∧ last ≤ 0xFFFF
  · simp [answer, answerUpdate, map, Layered.answer, hrange]
  · simp [answer, answerUpdate, map_of_invalid hrange, Layered.answer, hrange]

/-- The bus refines the layers. Whatever is asked of a bus on which only memories that are large
enough are mapped, the answers and the contents of the memories are those of the layers. The only
error is that of a range that is none, and it changes nothing. -/
theorem Bus.answers_eq_layered (devices : List Peripheral) (rs : List Request)
    (fits : ∀ r ∈ rs, r.Fits (size? ⟨devices, [], 0⟩)) :
    let b : Bus Peripheral := ⟨devices, [], 0⟩
    let m : Layered := ⟨fun _ => none, 0, b.content⟩
    (b.answers rs).1 = (m.answers rs).1 ∧ (b.answers rs).2.content = (m.answers rs).2.content ∧
      (b.answers rs).2.size? = b.size? ∧
      ∀ r e, ((b.answers rs).2.answer r).1 = .error e ↔
        (∃ device first last writable, r = .map device first last writable ∧
          (last < first ∨ 0xFFFF < last) ∧ e = .invalidRange first last) ∧
          ((b.answers rs).2.answer r).2 = (b.answers rs).2 := by
  intro b m
  obtain ⟨hanswers, h⟩ := (Represents.initial devices).answers fits
  refine ⟨hanswers, h.content, h.size?, fun r e => ?_⟩
  have herror : ((b.answers rs).2.answer r).1 = .error e ↔
      ((m.answers rs).2.answer r).1 = .error e := by
    cases r with
    | map device first last writable => exact answer_map_eq_error
    | _ =>
      refine Iff.of_eq (congrArg (· = Answer.error e) (h.answer ?_).1)
      trivial
  rw [herror, Layered.answer_eq_error]
  refine ⟨fun hinvalid => ⟨hinvalid, ?_⟩, And.left⟩
  obtain ⟨device, first, last, writable, rfl, hrange, -⟩ := hinvalid
  have hrange' : ¬ (first ≤ last ∧ last ≤ 0xFFFF) := by omega
  simp only [answer, map_of_invalid hrange', answerUpdate]

/-- A memory is mapped over the end of the address space and partly hidden by another one. -/
theorem Bus.answers_eq_layered_sample :
    ((⟨[.ram (.zeros 4), .ram (.zeros 2)], [], 0⟩ : Bus Peripheral).answers
      [.map 0 0xFFFC 0xFFFF true, .map 1 0xFFFD 0xFFFE false, .writeWord 0xFFFC 0x1234,
        .load 0xFFFE [5, 6, 7], .readWord 0xFFFC, .unmap 1, .unmap 1, .readWord 0xFFFF,
        .map 0 3 2 true]).1 =
      [.mapped 0, .mapped 1, .done, .done, .word 0x1200, .unmapped (some 1), .unmapped none,
        .word 0x0600, .error (.invalidRange 3 2)] := by
  refine (answers_eq_layered _ _ ?_).1.trans rfl
  intro r hr
  simp only [List.mem_cons, List.not_mem_nil, or_false] at hr
  obtain rfl | rfl | rfl | rfl | rfl | rfl | rfl | rfl | rfl := hr
  · exact fun _ _ => ⟨4, rfl, by decide⟩
  · exact fun _ _ => ⟨2, rfl, by decide⟩
  all_goals first | trivial | exact fun h => absurd h (by decide)

end Machine16
