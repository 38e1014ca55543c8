import Machine16.Isa.Register

/-! The instruction set as one table. A format lists the operands of an instruction in the order
in which they are written, encoded and fetched, so that text, bytes and execution cannot
disagree about it. -/
namespace Machine16

/-- The kind of one operand. -/
inductive Slot
  /-- A word. -/
  | literal
  /-- A literal of which one byte is kept. -/
  | byte
  /-- A word that names a place in memory. -/
  | address
  | register
  /-- A register that holds an address or an offset. -/
  | pointer
  /-- A register through which a literal is stored. -/
  | indirect
  deriving DecidableEq, Repr

/-- The number of bytes an operand takes. -/
def Slot.width : Slot → Nat
  | literal | address => 2
  | byte | register | pointer | indirect => 1

abbrev Format := List Slot

namespace Format

/-- The size of an instruction, with the byte that names it. -/
def size (f : Format) : Nat := f.foldr (fun s n => s.width + n) 1

@[simp] theorem size_nil : size [] = 1 := rfl

@[simp] theorem size_cons (s : Slot) (f : Format) : size (s :: f) = s.width + size f := rfl

theorem size_pos (f : Format) : 0 < size f := by
  induction f with
  | nil => exact Nat.one_pos
  | cons s f ih => exact Nat.add_pos_right _ ih

end Format

inductive Opcode
  | movLitReg | movRegReg | movRegMem | movMemReg | movLitMem | movRegPtrReg | movLitOffReg
  | movLitRegPtr
  | addRegReg | addLitReg | subLitReg | subRegLit | subRegReg | incReg | decReg | mulLitReg
  | mulRegReg
  | lsfRegLit | lsfRegReg | rsfRegLit | rsfRegReg
  | andRegLit | andRegReg | orRegLit | orRegReg | xorRegLit | xorRegReg | not
  | jneLit | jneReg | jeqReg | jeqLit | jltReg | jltLit | jgtReg | jgtLit | jleReg | jleLit
  | jgeReg | jgeLit | jmp
  | pshLit | pshReg | pop | calLit | calReg | ret
  | slp | hlt | rti | int
  deriving DecidableEq, Repr

structure Descriptor where
  name : String
  mnemonic : String
  code : Byte
  format : Format
  deriving DecidableEq, Repr

namespace Opcode

def descriptor : Opcode → Descriptor
  | movLitReg => ⟨"MOV_LIT_REG", "mov", 0x10, [.literal, .register]⟩
  | movRegReg => ⟨"MOV_REG_REG", "mov", 0x11, [.register, .register]⟩
  | movRegMem => ⟨"MOV_REG_MEM", "mov", 0x12, [.register, .address]⟩
  | movMemReg => ⟨"MOV_MEM_REG", "mov", 0x13, [.address, .register]⟩
  | movLitMem => ⟨"MOV_LIT_MEM", "mov", 0x1B, [.literal, .address]⟩
  | movRegPtrReg => ⟨"MOV_REG_PTR_REG", "mov", 0x1C, [.pointer, .register]⟩
  | movLitOffReg => ⟨"MOV_LIT_OFF_REG", "mov", 0x1D, [.literal, .pointer, .register]⟩
  | movLitRegPtr => ⟨"MOV_LIT_MEM_REG_PTR", "mov", 0x19, [.literal, .indirect]⟩
  | addRegReg => ⟨"ADD_REG_REG", "add", 0x14, [.register, .register]⟩
  | addLitReg => ⟨"ADD_LIT_REG", "add", 0x3F, [.literal, .register]⟩
  | subLitReg => ⟨"SUB_LIT_REG", "sub", 0x16, [.literal, .register]⟩
  | subRegLit => ⟨"SUB_REG_LIT", "sub", 0x1E, [.register, .literal]⟩
  | subRegReg => ⟨"SUB_REG_REG", "sub", 0x1F, [.register, .register]⟩
  | incReg => ⟨"INC_REG", "inc", 0x35, [.register]⟩
  | decReg => ⟨"DEC_REG", "dec", 0x36, [.register]⟩
  | mulLitReg => ⟨"MUL_LIT_REG", "mul", 0x20, [.literal, .register]⟩
  | mulRegReg => ⟨"MUL_REG_REG", "mul", 0x21, [.register, .register]⟩
  | lsfRegLit => ⟨"LSF_REG_LIT", "lsf", 0x26, [.register, .byte]⟩
  | lsfRegReg => ⟨"LSF_REG_REG", "lsf", 0x27, [.register, .register]⟩
  | rsfRegLit => ⟨"RSF_REG_LIT", "rsf", 0x2A, [.register, .byte]⟩
  | rsfRegReg => ⟨"RSF_REG_REG", "rsf", 0x2B, [.register, .register]⟩
  | andRegLit => ⟨"AND_REG_LIT", "and", 0x2E, [.register, .literal]⟩
  | andRegReg => ⟨"AND_REG_REG", "and", 0x2F, [.register, .register]⟩
  | orRegLit => ⟨"OR_REG_LIT", "or", 0x30, [.register, .literal]⟩
  | orRegReg => ⟨"OR_REG_REG", "or", 0x31, [.register, .register]⟩
  | xorRegLit => ⟨"XOR_REG_LIT", "xor", 0x32, [.register, .literal]⟩
  | xorRegReg => ⟨"XOR_REG_REG", "xor", 0x33, [.register, .register]⟩
  | not => ⟨"NOT", "not", 0x34, [.register]⟩
  | jneLit => ⟨"JMP_NOT_EQ", "jne", 0x15, [.literal, .address]⟩
  | jneReg => ⟨"JNE_REG", "jne", 0x40, [.register, .address]⟩
  | jeqReg => ⟨"JEQ_REG", "jeq", 0x3E, [.register, .address]⟩
  | jeqLit => ⟨"JEQ_LIT", "jeq", 0x41, [.literal, .address]⟩
  | jltReg => ⟨"JLT_REG", "jlt", 0x42, [.register, .address]⟩
  | jltLit => ⟨"JLT_LIT", "jlt", 0x43, [.literal, .address]⟩
  | jgtReg => ⟨"JGT_REG", "jgt", 0x44, [.register, .address]⟩
  | jgtLit => ⟨"JGT_LIT", "jgt", 0x45, [.literal, .address]⟩
  | jleReg => ⟨"JLE_REG", "jle", 0x46, [.register, .address]⟩
  | jleLit => ⟨"JLE_LIT", "jle", 0x47, [.literal, .address]⟩
  | jgeReg => ⟨"JGE_REG", "jge", 0x48, [.register, .address]⟩
  | jgeLit => ⟨"JGE_LIT", "jge", 0x49, [.literal, .address]⟩
  | jmp => ⟨"JMP", "jmp", 0x4A, [.address]⟩
  | pshLit => ⟨"PSH_LIT", "psh", 0x17, [.literal]⟩
  | pshReg => ⟨"PSH_REG", "psh", 0x18, [.register]⟩
  | pop => ⟨"POP", "pop", 0x1A, [.register]⟩
  | calLit => ⟨"CAL_LIT", "cal", 0x5E, [.literal]⟩
  | calReg => ⟨"CAL_REG", "cal", 0x5F, [.register]⟩
  | ret => ⟨"RET", "ret", 0x60, []⟩
  | slp => ⟨"SLP_LIT", "slp", 0x50, [.literal]⟩
  | hlt => ⟨"HLT", "hlt", 0xFF, []⟩
  | rti => ⟨"RET_INT", "rti", 0xFC, []⟩
  | int => ⟨"INT", "int", 0xFD, [.literal]⟩

def name (op : Opcode) : String := op.descriptor.name
def mnemonic (op : Opcode) : String := op.descriptor.mnemonic
def code (op : Opcode) : Byte := op.descriptor.code
def format (op : Opcode) : Format := op.descriptor.format
def size (op : Opcode) : Nat := op.format.size

/-- All opcodes. Those of one mnemonic are tried in this order. -/
def all : List Opcode :=
  [movLitReg, movRegReg, movRegMem, movMemReg, movLitMem, movRegPtrReg, movLitOffReg,
    movLitRegPtr,
    addRegReg, addLitReg, subLitReg, subRegLit, subRegReg, incReg, decReg, mulLitReg, mulRegReg,
    lsfRegLit, lsfRegReg, rsfRegLit, rsfRegReg,
    andRegLit, andRegReg, orRegLit, orRegReg, xorRegLit, xorRegReg, not,
    jneLit, jneReg, jeqReg, jeqLit, jltReg, jltLit, jgtReg, jgtLit, jleReg, jleLit, jgeReg,
    jgeLit, jmp,
    pshLit, pshReg, pop, calLit, calReg, ret,
    slp, hlt, rti, int]

theorem mem_all (op : Opcode) : op ∈ all := by cases op <;> decide

def ofByte? (b : Byte) : Option Opcode := all.find? fun op => op.code == b

@[simp] theorem ofByte?_code (op : Opcode) : ofByte? op.code = some op := by cases op <;> rfl

theorem code_of_ofByte? {b : Byte} {op : Opcode} (h : ofByte? b = some op) : op.code = b := by
  simpa using List.find?_some h

/-- Mnemonics are read in either case. -/
def ofMnemonic (mnemonic : String) : List Opcode :=
  all.filter fun op => op.mnemonic.toList == mnemonic.toList.map Char.toLower

/-- Every mnemonic once. -/
def mnemonics : List String := (all.map Opcode.mnemonic).eraseDups

theorem size_pos (op : Opcode) : 0 < op.size := op.format.size_pos

end Opcode

example : Opcode.ofByte? 0xFC = some .rti := by decide
example : Opcode.ofByte? 0 = none := by decide
example : Opcode.movLitOffReg.size = 5 := by decide

end Machine16
