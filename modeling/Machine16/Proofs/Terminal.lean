import Mathlib.Logic.Function.Basic
import Machine16.Proofs.ScreenWrites

/-! A terminal that receives text. It knows four escape sequences: to clear it, to move its cursor, and to
show the characters that follow as bold or as regular ones. Every printable character is shown where the
cursor is. The terminal has no edges, and it refuses what it does not know. -/
namespace Machine16

/-- A character as a terminal shows it. -/
structure Glyph where
  char : Char
  bold : Bool
  deriving DecidableEq, Repr

/-- A place on a terminal. Rows and columns count from one. -/
structure Place where
  row : Nat
  column : Nat
  deriving DecidableEq, Repr

namespace Terminal

/-- What a terminal has read of an escape sequence. A parameter without digits is zero. -/
inductive Mode
  | text
  | escape
  | parameters (before : List Nat) (current : Nat)
  deriving DecidableEq, Repr

end Terminal

structure Terminal where
  glyph? : Place → Option Glyph := fun _ => none
  cursor : Place := ⟨1, 1⟩
  bold : Bool := false
  mode : Terminal.Mode := .text

namespace Terminal

def isPrintable (c : Char) : Bool :=
  0x20 ≤ c.toNat && c.toNat ≤ 0x7E || 0xA0 ≤ c.toNat

/-- The terminal without any characters. The style stays as it is. -/
def clear (t : Terminal) : Terminal := { t with glyph? := fun _ => none }

/-- The terminal with a character under its cursor, which goes on by one column. -/
def put (t : Terminal) (c : Char) : Terminal :=
  { t with
    glyph? := Function.update t.glyph? t.cursor (some ⟨c, t.bold⟩)
    cursor := ⟨t.cursor.row, t.cursor.column + 1⟩ }

/-- What an escape sequence does, by its parameters and its last character. -/
def obey (t : Terminal) : List Nat → Char → Option Terminal
  | [2], 'J' => some t.clear
  | [1], 'm' => some { t with bold := true }
  | [0], 'm' => some { t with bold := false }
  | [row, column], 'H' => some { t with cursor := ⟨row, column⟩ }
  | _, _ => none

def receive (t : Terminal) (c : Char) : Option Terminal :=
  match t.mode with
  | .text =>
    if c = '\x1b' then some { t with mode := .escape }
    else if isPrintable c then some (t.put c)
    else none
  | .escape => if c = '[' then some { t with mode := .parameters [] 0 } else none
  | .parameters before current =>
    if c.isDigit then some { t with mode := .parameters before (10 * current + (c.toNat - '0'.toNat)) }
    else if c = ';' then some { t with mode := .parameters (before ++ [current]) 0 }
    else { t with mode := .text }.obey (before ++ [current]) c

def receiveAll (t : Terminal) (text : List Char) : Option Terminal := text.foldlM receive t

@[simp] lemma receiveAll_nil (t : Terminal) : t.receiveAll [] = some t := rfl

@[simp] lemma receiveAll_cons (t : Terminal) (c : Char) (text : List Char) :
    t.receiveAll (c :: text) = (t.receive c).bind (·.receiveAll text) := List.foldlM_cons

lemma receiveAll_append (t : Terminal) (text text' : List Char) :
    t.receiveAll (text ++ text') = (t.receiveAll text).bind (·.receiveAll text') := List.foldlM_append

lemma receive_digit {t : Terminal} {before : List Nat} {current : Nat} {d : Char}
    (ht : t.mode = .parameters before current) (hd : d.isDigit = true) :
    t.receive d = some { t with mode := .parameters before (10 * current + (d.toNat - '0'.toNat)) } := by
  rw [receive, ht]
  exact if_pos hd

/-- Digits make up the number of a parameter. -/
lemma receiveAll_digits {ds : List Char} (hds : ∀ d ∈ ds, d.isDigit = true) (glyph? : Place → Option Glyph)
    (cursor : Place) (bold : Bool) (before : List Nat) (current : Nat) :
    receiveAll ⟨glyph?, cursor, bold, .parameters before current⟩ ds =
      some ⟨glyph?, cursor, bold, .parameters before (Nat.ofDigitChars 10 ds current)⟩ := by
  induction ds generalizing current with
  | nil => rfl
  | cons d ds ih =>
    rw [List.forall_mem_cons] at hds
    rw [receiveAll_cons, receive_digit rfl hds.1, Option.bind_some, ih hds.2, Nat.ofDigitChars_cons]

lemma receiveAll_number (n : Nat) (glyph? : Place → Option Glyph) (cursor : Place) (bold : Bool)
    (before : List Nat) :
    receiveAll ⟨glyph?, cursor, bold, .parameters before 0⟩ (Nat.toDigits 10 n) =
      some ⟨glyph?, cursor, bold, .parameters before n⟩ := by
  have hdigits : ∀ d ∈ Nat.toDigits 10 n, d.isDigit = true := fun d =>
    Nat.isDigit_of_mem_toDigits (by decide) (by decide)
  rw [receiveAll_digits hdigits, Nat.ofDigitChars_ten_toDigits]

section

variable {t : Terminal} (ht : t.mode = .text)

include ht

lemma receiveAll_moveTo (cell : Nat) : t.receiveAll (Screen.moveTo cell) =
    some { t with cursor := ⟨cell / Screen.width + 1, cell % Screen.width + 1⟩ } := by
  obtain ⟨glyph?, cursor, bold, _⟩ := t
  cases ht
  have hbegin : receiveAll ⟨glyph?, cursor, bold, .text⟩ ['\x1b', '['] =
      some ⟨glyph?, cursor, bold, .parameters [] 0⟩ := rfl
  have hnext (n : Nat) : receiveAll ⟨glyph?, cursor, bold, .parameters [] n⟩ [';'] =
      some ⟨glyph?, cursor, bold, .parameters [n] 0⟩ := rfl
  have hend (m n : Nat) : receiveAll ⟨glyph?, cursor, bold, .parameters [m] n⟩ ['H'] =
      some ⟨glyph?, ⟨m, n⟩, bold, .text⟩ := by
    simp [receive, obey]
  have htext : Screen.moveTo cell = ['\x1b', '['] ++ (Nat.toDigits 10 (cell / Screen.width + 1) ++
      ([';'] ++ (Nat.toDigits 10 (cell % Screen.width + 1) ++ ['H']))) := by
    simp [Screen.moveTo, Screen.escape]
  rw [htext, receiveAll_append, hbegin, Option.bind_some, receiveAll_append, receiveAll_number,
    Option.bind_some, receiveAll_append, hnext, Option.bind_some, receiveAll_append, receiveAll_number,
    Option.bind_some, hend]

lemma receiveAll_eraseText : t.receiveAll Screen.eraseText = some t.clear := by
  obtain ⟨glyph?, cursor, bold, _⟩ := t
  cases ht
  rfl

lemma receiveAll_bold : t.receiveAll ['\x1b', '[', '1', 'm'] = some { t with bold := true } := by
  obtain ⟨glyph?, cursor, bold, _⟩ := t
  cases ht
  rfl

lemma receiveAll_regular : t.receiveAll ['\x1b', '[', '0', 'm'] = some { t with bold := false } := by
  obtain ⟨glyph?, cursor, bold, _⟩ := t
  cases ht
  rfl

lemma receiveAll_char {c : Char} (hc : isPrintable c = true) : t.receiveAll [c] = some (t.put c) := by
  have hescape : c ≠ '\x1b' := by
    rintro rfl
    cases hc
  rw [receiveAll_cons, receive, ht]
  simp only [if_neg hescape, if_pos hc]
  rfl

end

end Terminal
end Machine16
