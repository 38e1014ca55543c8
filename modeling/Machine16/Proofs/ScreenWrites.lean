import Machine16.Proofs.FlatMemory

/-! Words that are written to a screen through the bus. Where both bytes of a word lie in one mapping
of the screen, the word is one command to it. At the last cell of a mapping, and next to a mapping that
hides the cell behind, the bytes part ways, and the screen draws the high byte. -/
namespace Machine16

namespace Screen

/-- The screen after its terminal has received a text. -/
def shown (s : Screen) (text : List Char) : Screen := { s with output := s.output ++ utf8 text }

lemma shown_shown (s : Screen) (text text' : List Char) :
    (s.shown text).shown text' = s.shown (text ++ text') := by
  have houtput : s.output ++ utf8 text ++ utf8 text' = s.output ++ utf8 (text ++ text') :=
    Array.ext' (by simp [utf8])
  simp only [shown, houtput]

def eraseText : List Char := ['\x1b', '[', '2', 'J']

/-- The text that switches between bold and regular characters. Most high bytes change nothing. -/
def styleText (high : Byte) : List Char :=
  if high = 0xF1 then ['\x1b', '[', '1', 'm'] else if high = 0xF2 then ['\x1b', '[', '0', 'm'] else []

/-- The text that draws one character at a cell. -/
def cellText (cell : Word) (code : Byte) : List Char := moveTo cell.toNat ++ [Char.ofNat code.toNat]

/-- The text that a word stands for at a cell: a high byte of 0xFF erases and draws nothing, with any
other one the low byte is drawn. -/
def wordText (cell w : Word) : List Char :=
  if Word.high w = 0xFF then eraseText else styleText (Word.high w) ++ cellText cell (Word.low w)

/-- A word is sent in one piece, or in two if it switches between bold and regular characters. -/
lemma writeWord_eq_emit (cell w : Word) : (Device.writeWord cell w : Update Screen Unit) =
    if Word.high w = 0xFF then emit cell eraseText
    else if styleText (Word.high w) = [] then emit cell (cellText cell (Word.low w))
    else (do emit cell (styleText (Word.high w)); emit cell (cellText cell (Word.low w))) := by
  change writeWord cell w = _
  by_cases herase : Word.high w = 0xFF
  · rw [if_pos herase, writeWord, herase]
    rfl
  rw [if_neg herase]
  by_cases hbold : Word.high w = 0xF1
  · rw [writeWord, hbold]
    rfl
  by_cases hregular : Word.high w = 0xF2
  · rw [writeWord, hregular]
    rfl
  have hstyle : styleText (Word.high w) = [] := by rw [styleText, if_neg hbold, if_neg hregular]
  rw [if_pos hstyle]
  unfold writeWord
  split <;> first | rfl | contradiction

section

variable {s s' : Screen}

lemma emit_eq_shown {cell : Word} {text : List Char} (h : emit cell text s = .ok () s') :
    s' = s.shown text := by
  obtain ⟨capacity, output⟩ := s
  simp only [emit] at h
  split_ifs at h
  cases h
  rfl

lemma writeByte_eq_shown {cell : Word} {code : Byte} (h : Device.writeByte cell code s = .ok () s') :
    s' = s.shown (cellText cell code) := emit_eq_shown h

/-- A word that a screen takes is sent with its whole text. -/
lemma writeWord_eq_shown {cell w : Word} (h : Device.writeWord cell w s = .ok () s') :
    s' = s.shown (wordText cell w) := by
  rw [writeWord_eq_emit] at h
  rw [wordText]
  split_ifs at h ⊢ with herase hstyle
  · exact emit_eq_shown h
  · rw [hstyle]
    exact emit_eq_shown h
  · obtain ⟨_, u, hu, h⟩ := Update.bind_eq_ok.mp h
    rw [emit_eq_shown h, emit_eq_shown hu, shown_shown]

end

section

variable {s : Screen} (hcapacity : s.capacity = none)
include hcapacity

lemma emit_eq_ok (cell : Word) (text : List Char) : emit cell text s = .ok () (s.shown text) := by
  obtain ⟨_, output⟩ := s
  cases hcapacity
  simp [emit, shown]

lemma writeByte_eq_ok (cell : Word) (code : Byte) :
    Device.writeByte cell code s = .ok () (s.shown (cellText cell code)) :=
  emit_eq_ok hcapacity cell _

lemma writeWord_eq_ok (cell w : Word) : Device.writeWord cell w s = .ok () (s.shown (wordText cell w)) := by
  rw [writeWord_eq_emit, wordText]
  split_ifs with herase hstyle
  · exact emit_eq_ok hcapacity cell _
  · rw [hstyle]
    exact emit_eq_ok hcapacity cell _
  · rw [← shown_shown, Update.bind_of_ok (emit_eq_ok hcapacity cell _)]
    exact emit_eq_ok (s := s.shown (styleText (Word.high w))) hcapacity cell _

end

/-- Screens in the place of devices. A write to such a device is a write to its screen. -/
structure Mounted {δ : Type} [Addressable δ] (mount : Screen → δ) : Prop where
  writeByte (cell : Word) (code : Byte) (s : Screen) :
    Addressable.writeByte cell code (mount s) = Update.within mount (Device.writeByte cell code s)
  writeWord (cell w : Word) (s : Screen) :
    Addressable.writeWord cell w (mount s) = Update.within mount (Device.writeWord cell w s)

lemma mounted_screen : Mounted Peripheral.screen := ⟨fun _ _ _ => rfl, fun _ _ _ => rfl⟩

lemma mounted_inl {ε : Type} [Addressable ε] : Mounted (Sum.inl : Screen → Screen ⊕ ε) :=
  ⟨fun _ _ _ => rfl, fun _ _ _ => rfl⟩

end Screen

namespace Bus

variable {δ : Type}

/-- The address after this one belongs to the mapping too. -/
def Continues (b : Bus δ) (r : Region) (address : Word) : Prop :=
  ∃ next s, nextAddress? address = some next ∧ b.region? next = some s ∧ s.handle = r.handle

section

variable {b : Bus δ} {r : Region} {address : Word}

lemma wordRegion?_of_continues (hregion : b.region? address = some r) (h : b.Continues r address) :
    b.wordRegion? address = some r := by
  obtain ⟨next, s, hnext, hs, hhandle⟩ := h
  simp [wordRegion?, hnext, hregion, hs, hhandle]

lemma wordRegion?_of_not_continues (hregion : b.region? address = some r)
    (h : ¬ b.Continues r address) : b.wordRegion? address = none := by
  simp only [wordRegion?, hregion, Option.bind_eq_bind, Option.bind_eq_none_iff]
  intro next hnext r' hr' s hs
  cases hr'
  rw [if_neg]
  intro hhandle
  exact h ⟨next, s, hnext, hs, hhandle.symm⟩

variable [Addressable δ] {d : δ} (hregion : b.region? address = some r) (hwritable : r.writable = true)
  (hdevice : b.devices[r.device]? = some d)

include hregion hwritable hdevice

lemma writeByte_of_device (v : Byte) : writeByte address v b =
    Update.within (b.withDevice r.device) (Addressable.writeByte (address - r.first) v d) := by
  simp only [writeByte, hregion]
  exact writeRegion_of_device hwritable hdevice _

lemma writeWord_of_continues (h : b.Continues r address) (w : Word) : writeWord address w b =
    Update.within (b.withDevice r.device) (Addressable.writeWord (address - r.first) w d) := by
  simp only [writeWord, wordRegion?_of_continues hregion h]
  exact writeRegion_of_device hwritable hdevice _

end

/-- Words on a screen, on a bus with any devices. Where the next address belongs to the same mapping, the
effect is that of the same word written to the cell of the screen itself, and no other device changes. Where
it does not, the high byte is written to the cell, and then the low byte to wherever the next address leads.
A word that the screen takes erases it, or its low byte is drawn; a byte that it takes is drawn. Without a
limit to its terminal, a screen takes everything. -/
theorem writeWord_screen [Addressable δ] {mount : Screen → δ} (hmount : Screen.Mounted mount) {b : Bus δ}
    {r : Region} {s : Screen} {address : Word} (hregion : b.region? address = some r)
    (hwritable : r.writable = true) (hscreen : b.devices[r.device]? = some (mount s)) (w : Word) :
    let cell := address - r.first
    let shows (s' : Screen) := b.withDevice r.device (mount s')
    (b.Continues r address → writeWord address w b = Update.within shows (Device.writeWord cell w s)) ∧
    (¬ b.Continues r address →
      (∀ s', Device.writeByte cell (Word.high w) s = .ok () s' →
        writeWord address w b = (match nextAddress? address with
          | none => .ok () (shows s')
          | some next => writeByte next (Word.low w) (shows s'))) ∧
      ∀ e s', Device.writeByte cell (Word.high w) s = .error e s' →
        writeWord address w b = .error e (shows s')) ∧
    (∀ s', Device.writeWord cell w s = .ok () s' → s' = s.shown (Screen.wordText cell w)) ∧
    (∀ code s', Device.writeByte cell code s = .ok () s' → s' = s.shown (Screen.cellText cell code)) ∧
    (s.capacity = none → (∃ s', Device.writeWord cell w s = .ok () s') ∧
      ∀ code, ∃ s', Device.writeByte cell code s = .ok () s') := by
  intro cell shows
  refine ⟨fun hcontinues => ?_, fun hparts => ?_, fun s' => Screen.writeWord_eq_shown,
    fun code s' => Screen.writeByte_eq_shown, fun hcapacity => ⟨?_, fun code => ?_⟩⟩
  · rw [writeWord_of_continues hregion hwritable hscreen hcontinues, hmount.writeWord]
    cases Device.writeWord (address - r.first) w s <;> rfl
  · have hfirst := writeByte_of_device hregion hwritable hscreen (Word.high w)
    rw [hmount.writeByte] at hfirst
    simp only [writeWord, wordRegion?_of_not_continues hregion hparts, writeBytes]
    constructor
    · intro s' hs'
      have hs' : Device.writeByte (address - r.first) (Word.high w) s = .ok () s' := hs'
      rw [hs'] at hfirst
      rw [Update.bind_of_ok hfirst]
      cases nextAddress? address <;> rfl
    · intro e s' hs'
      have hs' : Device.writeByte (address - r.first) (Word.high w) s = .error e s' := hs'
      rw [hs'] at hfirst
      exact Update.bind_of_error hfirst
  · exact ⟨_, Screen.writeWord_eq_ok hcapacity cell w⟩
  · exact ⟨_, Screen.writeByte_eq_ok hcapacity cell code⟩

/-- A screen of four cells over the middle of a memory. -/
def screenSample : Bus Peripheral :=
  ⟨[.ram (.zeros 16), .screen {}], [⟨1, 1, 4, 7, true⟩, ⟨0, 0, 0, 15, true⟩], 2⟩

/-- The same screen over the middle of another bus, which has the memory. -/
def nestedSample : Bus (Screen ⊕ Bus Peripheral) :=
  ⟨[.inr (.mk [.ram (.zeros 16)] [⟨0, 0, 0, 15, true⟩] 1), .inl {}],
    [⟨1, 1, 4, 7, true⟩, ⟨0, 0, 0, 15, true⟩], 2⟩

theorem writeWord_screen_sample :
    writeWord 6 0xFF41 screenSample =
        .ok () (screenSample.withDevice 1 (.screen (Screen.shown {} Screen.eraseText))) ∧
      ∃ inner, inner.readByte 8 = .ok 0x42 ∧ writeWord 7 0x4142 nestedSample =
        .ok () ((nestedSample.withDevice 1 (.inl (Screen.shown {} (Screen.cellText 3 0x41)))).withDevice 0
          (.inr inner)) := by
  have hmiddle : screenSample.region? 6 = some ⟨1, 1, 4, 7, true⟩ := by decide
  have hcontinues : screenSample.Continues ⟨1, 1, 4, 7, true⟩ 6 :=
    ⟨7, ⟨1, 1, 4, 7, true⟩, by decide, by decide, rfl⟩
  have hlast : nestedSample.region? 7 = some ⟨1, 1, 4, 7, true⟩ := by decide
  have hparts : ¬ nestedSample.Continues ⟨1, 1, 4, 7, true⟩ 7 := by
    rintro ⟨next, s, hnext, hs, hhandle⟩
    cases hnext
    cases hs
    exact absurd hhandle (by decide)
  obtain ⟨hwhole, -, -, -, -⟩ := writeWord_screen Screen.mounted_screen hmiddle rfl rfl 0xFF41
  obtain ⟨-, hbytes, -, -, -⟩ := writeWord_screen Screen.mounted_inl hlast rfl rfl 0x4142
  refine ⟨hwhole hcontinues, .mk [.ram ((Ram.zeros 16).set 8 0x42)] [⟨0, 0, 0, 15, true⟩] 1, rfl, ?_⟩
  exact (hbytes hparts).1 _ (Screen.writeByte_eq_ok rfl 3 0x41)

/-- At the last cell of a mapping, a word whose high byte is 0xFF does not erase the screen. It draws
the character 0xFF there, and its low byte goes to the memory behind. -/
theorem lastCell_not_erased :
    ∃ (b b' : Bus Peripheral) (s : Screen),
      (do let _ ← map 0 0 15 true; map 1 4 7 true) ⟨[.ram (.zeros 16), .screen {}], [], 0⟩ =
        EStateM.Result.ok 1 b ∧
      b.region? 7 = some ⟨1, 1, 4, 7, true⟩ ∧ b.devices[1]? = some (.screen {}) ∧
      Device.writeWord (7 - 4) 0xFF41 ({} : Screen) = .ok () s ∧ s = Screen.shown {} Screen.eraseText ∧
      writeWord 7 0xFF41 b = .ok () b' ∧
      b'.devices = [.ram ((Ram.zeros 16).set 8 0x41), .screen (Screen.shown {} (Screen.cellText 3 0xFF))] ∧
      b' ≠ b.withDevice 1 (.screen s) := by
  refine ⟨screenSample, _, _, rfl, by decide, rfl, Screen.writeWord_eq_ok rfl _ _, rfl, rfl, rfl, ?_⟩
  intro h
  -- the memory behind would be as it was
  have hbehind : (Except.ok 0x41 : Except MemoryError Byte) = .ok 0 :=
    congrArg (fun b : Bus Peripheral => b.readByte 8) h
  simp at hbehind

end Bus
end Machine16
