import Machine16.Memory.Device

/-! A screen of character cells, 32 in a row, drawn with the escape sequences of a terminal. A word
written to a cell has the code of the character in its low byte. Its high byte may be a command:
0xFF erases the screen and draws nothing, 0xF1 and 0xF2 switch to bold and back before drawing. -/
namespace Machine16

structure Screen where
  /-- The number of bytes that the terminal takes, if there is a limit. -/
  capacity : Option Nat := none
  output : Array Byte := #[]
  deriving DecidableEq

namespace Screen

def width : Nat := 32

def utf8 (text : List Char) : List Byte := text.flatMap String.utf8EncodeChar

def room (s : Screen) : Option Nat := s.capacity.map (· - s.output.size)

/-- Writes a text for the cell `address`. When the terminal is full the rest is lost. -/
def emit (address : Word) (text : List Char) : Update Screen Unit
  | ⟨capacity, output⟩ =>
    let bytes := utf8 text
    let room := capacity.elim bytes.length (· - output.size)
    if bytes.length ≤ room then .ok () ⟨capacity, output ++ bytes⟩
    else .error (.device address "device full") ⟨capacity, output ++ bytes.take room⟩

def escape (text : List Char) : List Char := '\x1b' :: '[' :: text

/-- Rows and columns count from one. -/
def moveTo (cell : Nat) : List Char :=
  escape (Nat.toDigits 10 (cell / width + 1) ++ ';' :: Nat.toDigits 10 (cell % width + 1) ++ ['H'])

def draw (address : Word) (code : Byte) : Update Screen Unit :=
  emit address (moveTo address.toNat ++ [Char.ofNat code.toNat])

def writeWord (address : Word) (w : Word) : Update Screen Unit := do
  match Word.high w with
  | 0xFF => emit address (escape ['2', 'J'])
  | 0xF1 =>
    emit address (escape ['1', 'm'])
    draw address (Word.low w)
  | 0xF2 =>
    emit address (escape ['0', 'm'])
    draw address (Word.low w)
  | _ => draw address (Word.low w)

/-- Reading a screen gives zero. -/
instance : Device Screen where
  readByte _ _ := .ok 0
  readWord _ _ := .ok 0
  writeByte := draw
  writeWord := writeWord

end Screen
end Machine16
