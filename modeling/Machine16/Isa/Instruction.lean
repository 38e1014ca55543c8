import Machine16.Isa.Opcode

/-! Instructions with their operands, and the bytes that stand for them. One type serves for
operands that are still expressions and for operands that are known words. -/
namespace Machine16

/-- An operand whose literals and addresses are given by an `ε`. -/
inductive Operand (ε : Type)
  | literal (value : ε)
  | byte (value : ε)
  | address (value : ε)
  | register (r : Register)
  | pointer (r : Register)
  | indirect (r : Register)
  deriving DecidableEq, Repr

namespace Operand

variable {ε δ : Type}

def slot : Operand ε → Slot
  | literal _ => .literal
  | byte _ => .byte
  | address _ => .address
  | register _ => .register
  | pointer _ => .pointer
  | indirect _ => .indirect

def map (f : ε → δ) : Operand ε → Operand δ
  | literal v => literal (f v)
  | byte v => byte (f v)
  | address v => address (f v)
  | register r => register r
  | pointer r => pointer r
  | indirect r => indirect r

@[simp] theorem slot_map (f : ε → δ) (o : Operand ε) : (o.map f).slot = o.slot := by
  cases o <;> rfl

/-- Of a literal of one byte only the low half is encoded. -/
def encode : Operand Word → List Byte
  | literal v | address v => Word.bytes v
  | byte v => [Word.low v]
  | register r | pointer r | indirect r => [r.selector]

@[simp] theorem length_encode (o : Operand Word) : o.encode.length = o.slot.width := by
  cases o <;> rfl

/-- Reads one operand and leaves the bytes after it. -/
def decode? : Slot → List Byte → Option (Operand Word × List Byte)
  | .literal, h :: l :: bs => some (literal (Word.ofBytes h l), bs)
  | .byte, b :: bs => some (byte b.toUInt16, bs)
  | .address, h :: l :: bs => some (address (Word.ofBytes h l), bs)
  | .register, b :: bs => some (register (Register.ofSelector b), bs)
  | .pointer, b :: bs => some (pointer (Register.ofSelector b), bs)
  | .indirect, b :: bs => some (indirect (Register.ofSelector b), bs)
  | _, _ => none

theorem length_of_decode? {s : Slot} {bs rest : List Byte} {o : Operand Word}
    (h : decode? s bs = some (o, rest)) : bs.length = s.width + rest.length := by
  fun_cases decode? s bs <;> simp_all [decode?, Slot.width] <;> omega

def decodeAll? : Format → List Byte → Option (List (Operand Word) × List Byte)
  | [], bs => some ([], bs)
  | s :: f, bs => do
    let (o, bs) ← decode? s bs
    let (os, bs) ← decodeAll? f bs
    pure (o :: os, bs)

theorem length_of_decodeAll? {f : Format} {bs rest : List Byte} {os : List (Operand Word)}
    (h : decodeAll? f bs = some (os, rest)) : bs.length + 1 = f.size + rest.length := by
  induction f generalizing bs os with
  | nil => simp_all [decodeAll?]; omega
  | cons s f ih =>
    simp only [decodeAll?, Option.pure_def, Option.bind_eq_bind, Option.bind_eq_some_iff] at h
    obtain ⟨⟨o, bs'⟩, ho, ⟨os', rest'⟩, hos, heq⟩ := h
    obtain ⟨rfl, rfl⟩ : o :: os' = os ∧ rest' = rest := by simpa using heq
    have h1 := length_of_decode? ho
    have h2 : bs'.length + 1 = Format.size f + rest'.length := ih hos
    simp only [Format.size_cons]
    omega

end Operand

structure Instruction (ε : Type) where
  opcode : Opcode
  operands : List (Operand ε)
  deriving DecidableEq, Repr

/-- The bytes at `address` are no instruction. -/
inductive DecodeError
  | unknownOpcode (address : Word) (byte : Byte)
  | truncated (address : Word) (opcode : Opcode)
  deriving DecidableEq, Repr

namespace Instruction

variable {ε δ : Type}

/-- The format that the operands have, which is not always the one that the opcode asks for. -/
def format (i : Instruction ε) : Format := i.operands.map Operand.slot

def map (f : ε → δ) (i : Instruction ε) : Instruction δ :=
  ⟨i.opcode, i.operands.map (Operand.map f)⟩

@[simp] theorem format_map (f : ε → δ) (i : Instruction ε) : (i.map f).format = i.format := by
  simp [format, map, Function.comp_def]

def encode (i : Instruction Word) : List Byte :=
  i.opcode.code :: i.operands.flatMap Operand.encode

theorem length_encode (i : Instruction Word) : i.encode.length = i.format.size := by
  obtain ⟨op, os⟩ := i
  simp only [encode, format]
  induction os with
  | nil => rfl
  | cons o os ih =>
    simp only [List.flatMap_cons, List.length_cons, List.length_append, List.map_cons,
      Format.size_cons, Operand.length_encode] at ih ⊢
    omega

/-- Reads the instruction that begins with the byte `code` at `address`, and leaves the bytes
after it. -/
def decode (address : Word) (code : Byte) (bs : List Byte) :
    Except DecodeError (Instruction Word × List Byte) :=
  match Opcode.ofByte? code with
  | none => .error (.unknownOpcode address code)
  | some op =>
    match Operand.decodeAll? op.format bs with
    | none => .error (.truncated address op)
    | some (os, rest) => .ok (⟨op, os⟩, rest)

theorem length_of_decode {address : Word} {code : Byte} {bs rest : List Byte}
    {i : Instruction Word} (h : decode address code bs = .ok (i, rest)) :
    bs.length + 1 = i.opcode.size + rest.length := by
  unfold decode at h
  split at h
  · simp at h
  · split at h
    · simp at h
    · rename_i op _ _ _ hos
      simp only [Except.ok.injEq, Prod.mk.injEq] at h
      rw [← h.1, ← h.2]
      exact Operand.length_of_decodeAll? hos

theorem length_lt_of_decode {address : Word} {code : Byte} {bs rest : List Byte}
    {i : Instruction Word} (h : decode address code bs = .ok (i, rest)) :
    rest.length < (code :: bs).length := by
  have := length_of_decode h
  have := i.opcode.size_pos
  simp only [List.length_cons]
  omega

end Instruction
end Machine16
