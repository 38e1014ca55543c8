import Mathlib.Data.List.Induction
import Machine16.Proofs.Terminal

/-! What the output of a screen shows on a terminal. A cell of the screen has one place there, where the
terminal shows the character that was last drawn in the cell, in the style of that time. -/
namespace Machine16

/-- One of the events, behind those before it, is a `p`, and all events after it are a `q`. -/
def Latest {α : Type} (p : List α → α → Prop) (q : α → Prop) (xs : List α) : Prop :=
  ∃ before x after, xs = before ++ x :: after ∧ p before x ∧ ∀ y ∈ after, q y

lemma not_latest_nil {α : Type} (p : List α → α → Prop) (q : α → Prop) : ¬ Latest p q [] := by
  rintro ⟨before, x, after, h, -⟩
  simp at h

lemma latest_concat {α : Type} {p : List α → α → Prop} {q : α → Prop} {xs : List α} {x : α} :
    Latest p q (xs ++ [x]) ↔ p xs x ∨ q x ∧ Latest p q xs := by
  constructor
  · rintro ⟨before, y, after, h, hy, hafter⟩
    obtain rfl | ⟨after, z, rfl⟩ := List.eq_nil_or_concat after
    · obtain ⟨rfl, hx⟩ := List.append_inj' h rfl
      cases hx
      exact .inl hy
    · rw [List.concat_eq_append, ← List.cons_append, ← List.append_assoc] at h
      rw [List.concat_eq_append] at hafter
      obtain ⟨rfl, hx⟩ := List.append_inj' h rfl
      cases hx
      simp only [List.mem_append, List.mem_singleton] at hafter
      exact .inr ⟨hafter x (.inr rfl), before, y, after, rfl, hy, fun w hw => hafter w (.inl hw)⟩
  · rintro (hx | ⟨hx, before, y, after, rfl, hy, hafter⟩)
    · exact ⟨xs, x, [], rfl, hx, List.forall_mem_nil _⟩
    · refine ⟨before, y, after ++ [x], by simp, hy, fun w hw => ?_⟩
      obtain hw | hw := List.mem_append.mp hw
      · exact hafter w hw
      · rwa [List.mem_singleton.mp hw]

namespace Screen

/-- A write to a screen, with the cell that it goes to. -/
inductive Write
  | byte (cell : Word) (code : Byte)
  | word (cell w : Word)
  deriving DecidableEq, Repr

namespace Write

def perform : Write → Update Screen Unit
  | byte cell code => Device.writeByte cell code
  | word cell w => Device.writeWord cell w

def erases : Write → Bool
  | byte .. => false
  | word _ w => Word.high w == 0xFF

/-- The cell that a character is drawn in, and its code. -/
def drawn? : Write → Option (Word × Byte)
  | byte cell code => some (cell, code)
  | word cell w => if Word.high w = 0xFF then none else some (cell, Word.low w)

/-- Whether characters are bold from now on, if the write is a command about that. -/
def bold? : Write → Option Bool
  | byte .. => none
  | word _ w => if Word.high w = 0xF1 then some true else if Word.high w = 0xF2 then some false else none

/-- The character that is drawn, if there is one, is not a control character. -/
def Drawable (w : Write) : Prop := ∀ p ∈ w.drawn?, 0x20 ≤ p.2 ∧ p.2 ≤ 0x7E ∨ 0xA0 ≤ p.2

instance (w : Write) : Decidable w.Drawable := Option.decidableForallMem w.drawn?

def text : Write → List Char
  | byte cell code => cellText cell code
  | word cell w => wordText cell w

/-- What does not draw erases, and says nothing about the style. -/
lemma of_drawn?_eq_none {w : Write} (h : w.drawn? = none) : w.erases = true ∧ w.bold? = none := by
  cases w with
  | byte cell code => cases h
  | word cell w =>
    rw [drawn?] at h
    split_ifs at h with herase
    simp [erases, bold?, herase]

lemma of_drawn?_eq_some {w : Write} {p : Word × Byte} (h : w.drawn? = some p) : w.erases = false := by
  cases w with
  | byte cell code => rfl
  | word cell w =>
    rw [drawn?] at h
    split_ifs at h with herase
    exact beq_eq_false_iff_ne.mpr herase

end Write

def writeAll : List Write → Update Screen Unit
  | [] => pure ()
  | w :: ws => do
    w.perform
    writeAll ws

/-- The last command about the style has been to draw bold characters. -/
def Bold : List Write → Prop := Latest (fun _ w => w.bold? = some true) (fun w => w.bold? = none)

lemma bold_concat {ws : List Write} {w : Write} :
    Bold (ws ++ [w]) ↔ w.bold? = some true ∨ w.bold? = none ∧ Bold ws := latest_concat

/-- A character has been drawn in the cell and not been erased. -/
def Drawn (cell : Word) : List Write → Prop :=
  Latest (fun _ w => ∃ code, w.drawn? = some (cell, code)) (fun w => w.erases = false)

/-- The glyph is that of the character that was last drawn in the cell, if it has not been erased. -/
def Shows (cell : Word) (g : Glyph) : List Write → Prop :=
  Latest
    (fun before w => ∃ code, w.drawn? = some (cell, code) ∧ g.char = Char.ofNat code.toNat ∧
      (g.bold = true ↔ Bold (before ++ [w])))
    (fun w => w.erases = false ∧ ∀ code, w.drawn? ≠ some (cell, code))

section

variable {ws : List Write} {w : Write} {cell c : Word} {code : Byte} (h : w.drawn? = some (cell, code))

include h

lemma drawn?_ne (hc : c ≠ cell) (code' : Byte) : w.drawn? ≠ some (c, code') := by
  rw [h]
  rintro ⟨⟩
  exact hc rfl

lemma drawn_concat : Drawn c (ws ++ [w]) ↔ c = cell ∨ Drawn c ws := by
  rw [Drawn, latest_concat, and_iff_right (Write.of_drawn?_eq_some h)]
  refine or_congr_left ⟨?_, ?_⟩
  · rintro ⟨code', hw⟩
    by_contra hc
    exact drawn?_ne h hc code' hw
  · rintro rfl
    exact ⟨code, h⟩

lemma shows_concat_self {g : Glyph} : Shows cell g (ws ++ [w]) ↔
    g.char = Char.ofNat code.toNat ∧ (g.bold = true ↔ Bold (ws ++ [w])) := by
  rw [Shows, latest_concat]
  constructor
  · rintro (⟨code', hw, hg⟩ | ⟨⟨-, hnone⟩, -⟩)
    · cases h.symm.trans hw
      exact hg
    · exact absurd h (hnone code)
  · intro hg
    exact .inl ⟨code, h, hg⟩

/-- A character that is drawn changes its own cell only. -/
lemma shows_concat_of_ne (hc : c ≠ cell) {g : Glyph} : Shows c g (ws ++ [w]) ↔ Shows c g ws := by
  rw [Shows, latest_concat, or_iff_right, and_iff_right ⟨Write.of_drawn?_eq_some h, drawn?_ne h hc⟩]
  rintro ⟨code', hw, -⟩
  exact drawn?_ne h hc code' hw

end

/-- Where a cell is on a terminal. -/
def place (cell : Word) : Place := ⟨cell.toNat / 32 + 1, cell.toNat % 32 + 1⟩

lemma place_injective : Function.Injective place := by
  intro a b h
  obtain ⟨hrow, hcolumn⟩ := Place.mk.inj h
  exact UInt16.toNat_inj.mp (by omega)

/-- A terminal that has received the whole output shows this. -/
def Displays (s : Screen) (t : Terminal) : Prop :=
  ∃ text, String.fromUTF8? ⟨s.output⟩ = some text ∧ ({} : Terminal).receiveAll text.toList = some t

variable {s s' : Screen}

/-- A write that does not fail sends its whole text. -/
lemma Write.perform_eq_shown {w : Write} (h : w.perform s = .ok () s') : s' = s.shown w.text := by
  cases w with
  | byte cell code => exact writeByte_eq_shown h
  | word cell w => exact writeWord_eq_shown h

lemma Write.perform_eq_ok (h : s.capacity = none) (w : Write) : w.perform s = .ok () (s.shown w.text) := by
  cases w with
  | byte cell code => exact writeByte_eq_ok h cell code
  | word cell w => exact writeWord_eq_ok h cell w

lemma shown_nil (s : Screen) : s.shown [] = s := by simp [shown, utf8]

lemma writeAll_eq_shown {ws : List Write} (h : writeAll ws s = .ok () s') :
    s' = s.shown (ws.flatMap Write.text) := by
  induction ws generalizing s with
  | nil =>
    cases h
    exact (shown_nil _).symm
  | cons w ws ih =>
    rw [writeAll] at h
    obtain ⟨_, u, hu, h⟩ := Update.bind_eq_ok.mp h
    rw [ih h, Write.perform_eq_shown hu, shown_shown, List.flatMap_cons]

lemma writeAll_eq_ok (h : s.capacity = none) (ws : List Write) :
    writeAll ws s = .ok () (s.shown (ws.flatMap Write.text)) := by
  induction ws generalizing s with
  | nil => exact congrArg _ (shown_nil s).symm
  | cons w ws ih =>
    rw [writeAll, List.flatMap_cons, ← shown_shown]
    exact (Update.bind_of_ok (w.perform_eq_ok h)).trans (ih (s := s.shown w.text) h)

lemma displays_shown {text : List Char} {t : Terminal} (h : ({} : Terminal).receiveAll text = some t)
    (capacity : Option Nat) : Displays (shown ⟨capacity, #[]⟩ text) t := by
  have hbytes : (⟨(shown ⟨capacity, #[]⟩ text).output⟩ : ByteArray) = text.utf8Encode :=
    ByteArray.ext (Array.ext' (by simp [shown, utf8, List.utf8Encode]))
  refine ⟨String.ofList text, ?_, by rwa [String.toList_ofList]⟩
  rw [hbytes, String.fromUTF8?, dif_pos ByteArray.isValidUTF8_utf8Encode]
  rfl

end Screen

namespace Terminal

open Screen

/-- The terminal with a character drawn in a cell. -/
def draw (t : Terminal) (cell : Word) (code : Byte) : Terminal :=
  { t with cursor := place cell }.put (Char.ofNat code.toNat)

/-- The terminal behind the text of a write. -/
def apply (t : Terminal) (w : Write) : Terminal :=
  match w.drawn? with
  | none => t.clear
  | some (cell, code) => { t with bold := w.bold?.getD t.bold }.draw cell code

variable {t : Terminal}

lemma receiveAll_cellText (ht : t.mode = .text) (cell : Word) {code : Byte}
    (hcode : 0x20 ≤ code ∧ code ≤ 0x7E ∨ 0xA0 ≤ code) :
    t.receiveAll (cellText cell code) = some (t.draw cell code) := by
  have hlt : code.toNat < 0xD800 := Nat.lt_trans code.toNat_lt (by decide)
  have hchar : (Char.ofNat code.toNat).toNat = code.toNat := by
    rw [Char.ofNat, dif_pos (.inl hlt)]
    rfl
  have hprintable : isPrintable (Char.ofNat code.toNat) = true := by
    simp only [UInt8.le_iff_toNat_le] at hcode
    simp only [isPrintable, hchar, Bool.or_eq_true, Bool.and_eq_true, decide_eq_true_eq]
    exact hcode
  rw [cellText, receiveAll_append, receiveAll_moveTo ht, Option.bind_some]
  exact receiveAll_char (t := { t with cursor := place cell }) ht hprintable

lemma receiveAll_styleText (ht : t.mode = .text) (cell w : Word) :
    t.receiveAll (styleText (Word.high w)) = some { t with bold := (Write.word cell w).bold?.getD t.bold } := by
  rw [styleText, Write.bold?]
  split_ifs
  · exact receiveAll_bold ht
  · exact receiveAll_regular ht
  · rfl

lemma receiveAll_text (ht : t.mode = .text) {w : Write} (hw : w.Drawable) :
    t.receiveAll w.text = some (t.apply w) := by
  cases w with
  | byte cell code => exact receiveAll_cellText ht cell (hw (cell, code) rfl)
  | word cell w =>
    rw [Write.text, wordText]
    by_cases herase : Word.high w = 0xFF
    · have hdrawn : (Write.word cell w).drawn? = none := if_pos herase
      rw [if_pos herase, apply, hdrawn]
      exact receiveAll_eraseText ht
    · have hdrawn : (Write.word cell w).drawn? = some (cell, Word.low w) := if_neg herase
      rw [if_neg herase, receiveAll_append, receiveAll_styleText ht cell, Option.bind_some, apply, hdrawn]
      exact receiveAll_cellText
        (t := { t with bold := (Write.word cell w).bold?.getD t.bold }) ht cell (hw _ hdrawn)

lemma glyph?_draw (t : Terminal) (cell : Word) (code : Byte) (p : Place) : (t.draw cell code).glyph? p =
    if p = place cell then some ⟨Char.ofNat code.toNat, t.bold⟩ else t.glyph? p :=
  Function.update_apply _ _ _ _

/-- The terminal has no escape sequence half read, and shows what the writes have drawn, cell by cell and
nowhere else. -/
structure Renders (t : Terminal) (ws : List Write) : Prop where
  mode : t.mode = .text
  bold : t.bold = true ↔ Bold ws
  glyph : ∀ cell g, t.glyph? (place cell) = some g ↔ Shows cell g ws
  blank : ∀ cell, t.glyph? (place cell) = none ↔ ¬ Drawn cell ws
  elsewhere : ∀ p, (∀ cell, place cell ≠ p) → t.glyph? p = none

namespace Renders

variable {ws : List Write}

lemma nil : Renders {} [] where
  mode := rfl
  bold := by simp [Bold, not_latest_nil]
  glyph cell g := by simp [Shows, not_latest_nil]
  blank cell := by simp [Drawn, not_latest_nil]
  elsewhere p hp := rfl

lemma erase (h : t.Renders ws) {w : Write} (hw : w.drawn? = none) : t.clear.Renders (ws ++ [w]) := by
  obtain ⟨herases, hbold⟩ := Write.of_drawn?_eq_none hw
  refine ⟨h.mode, ?_, fun cell g => ?_, fun cell => ?_, fun p _ => rfl⟩
  · rw [bold_concat, hbold]
    exact h.bold.trans (by simp)
  · simp [Shows, latest_concat, hw, herases, clear]
  · simp [Drawn, latest_concat, hw, herases, clear]

lemma draw (h : t.Renders ws) {w : Write} {cell : Word} {code : Byte} (hw : w.drawn? = some (cell, code)) :
    ({ t with bold := w.bold?.getD t.bold }.draw cell code).Renders (ws ++ [w]) := by
  have hbold : w.bold?.getD t.bold = true ↔ Bold (ws ++ [w]) := by
    rw [bold_concat]
    cases hb : w.bold? with
    | none => simpa using h.bold
    | some b => simp
  refine ⟨h.mode, hbold, fun c g => ?_, fun c => ?_, fun p hp => ?_⟩
  · rw [glyph?_draw]
    by_cases hc : c = cell
    · obtain ⟨char, bold⟩ := g
      rw [hc, if_pos rfl, shows_concat_self hw, ← hbold, ← Bool.eq_iff_iff, Option.some_inj,
        Glyph.mk.injEq, eq_comm, eq_comm (b := bold)]
    · rw [if_neg (place_injective.ne hc), shows_concat_of_ne hw hc]
      exact h.glyph c g
  · rw [glyph?_draw, drawn_concat hw]
    by_cases hc : c = cell
    · simp [hc]
    · rw [if_neg (place_injective.ne hc), or_iff_right hc]
      exact h.blank c
  · rw [glyph?_draw, if_neg (Ne.symm (hp cell))]
    exact h.elsewhere p hp

lemma apply (h : t.Renders ws) (w : Write) : (t.apply w).Renders (ws ++ [w]) := by
  rw [Terminal.apply]
  cases hw : w.drawn? with
  | none => exact h.erase hw
  | some p => exact h.draw hw

end Renders

/-- What a sequence of writes sends is received without an error and shows what they have drawn. -/
lemma exists_renders {ws : List Write} (hws : ∀ w ∈ ws, w.Drawable) :
    ∃ t, ({} : Terminal).receiveAll (ws.flatMap Write.text) = some t ∧ t.Renders ws := by
  induction ws using List.reverseRecOn with
  | nil => exact ⟨{}, rfl, .nil⟩
  | append_singleton ws w ih =>
    obtain ⟨t, ht, hrenders⟩ := ih fun w hw => hws w (List.mem_append_left _ hw)
    have hw := receiveAll_text hrenders.mode (hws w (by simp))
    refine ⟨t.apply w, ?_, hrenders.apply w⟩
    rw [List.flatMap_append, List.flatMap_singleton, receiveAll_append, ht, Option.bind_some, hw]

end Terminal

namespace Screen

/-- The output of a screen is a text, and a terminal that receives it shows in each cell what was last
drawn there, unless the screen has been erased since. Erasing takes away what is shown and nothing else.
Two cells are never in one place, and where the output has no limit, no write fails. -/
theorem output_renders {ws : List Write} (hws : ∀ w ∈ ws, w.Drawable) :
    (∃ s, writeAll ws {} = .ok () s) ∧
    (∀ capacity s, writeAll ws ⟨capacity, #[]⟩ = .ok () s → ∃ t, s.Displays t ∧ t.Renders ws ∧
      ∀ cell w s', Word.high w = 0xFF → Device.writeWord cell w s = .ok () s' → s'.Displays t.clear) ∧
    Function.Injective place := by
  refine ⟨⟨_, writeAll_eq_ok rfl ws⟩, fun capacity s hs => ?_, place_injective⟩
  obtain ⟨t, ht, hrenders⟩ := Terminal.exists_renders hws
  cases writeAll_eq_shown hs
  refine ⟨t, displays_shown ht capacity, hrenders, fun cell w s' hw hs' => ?_⟩
  have htext : wordText cell w = eraseText := if_pos hw
  cases writeWord_eq_shown hs'
  rw [htext, shown_shown]
  refine displays_shown ?_ capacity
  rw [Terminal.receiveAll_append, ht, Option.bind_some]
  exact Terminal.receiveAll_eraseText hrenders.mode

/-- A bold A, an accented letter in the last cell, a screen that is erased, and a B that is still bold. -/
def writesSample : List Write := [.word 33 0xF141, .byte 0xFFFF 0xE9, .word 5 0xFF41, .word 0 0x0042]

theorem output_renders_sample : (∀ w ∈ writesSample, w.Drawable) ∧
    ∃ s t, writeAll writesSample {} = .ok () s ∧ s.Displays t ∧ t.glyph? ⟨1, 1⟩ = some ⟨'B', true⟩ ∧
      t.glyph? ⟨2, 2⟩ = none ∧ t.glyph? ⟨2048, 32⟩ = none := by
  have hdrawable : ∀ w ∈ writesSample, w.Drawable := by decide +kernel
  obtain ⟨⟨s, hs⟩, hall, -⟩ := output_renders hdrawable
  obtain ⟨t, ht, hrenders, -⟩ := hall none s hs
  have hbold : Bold writesSample := ⟨[], _, _, rfl, rfl, by decide⟩
  have hshows : Shows 0 ⟨'B', true⟩ writesSample :=
    ⟨writesSample.dropLast, .word 0 0x0042, [], rfl, ⟨0x42, rfl, rfl, iff_of_true rfl hbold⟩, by simp⟩
  have herased (cell : Word) (hcell : cell ≠ 0) : ¬ Drawn cell writesSample := by
    have hwrites : writesSample =
        ([.word 33 0xF141, .byte 0xFFFF 0xE9] ++ [.word 5 0xFF41]) ++ [.word 0 0x0042] := rfl
    have herases : (Write.word 5 0xFF41).drawn? = none ∧ (Write.word 5 0xFF41).erases = true := by decide
    have hlast : (Write.word 0 0x0042).drawn? = some (0, 0x42) := rfl
    rw [hwrites, drawn_concat hlast, Drawn, latest_concat, herases.1, herases.2]
    simp [hcell]
  exact ⟨hdrawable, s, t, hs, ht, (hrenders.glyph 0 _).mpr hshows,
    (hrenders.blank 33).mpr (herased 33 (by decide)), (hrenders.blank 0xFFFF).mpr (herased 0xFFFF (by decide))⟩

end Screen
end Machine16
