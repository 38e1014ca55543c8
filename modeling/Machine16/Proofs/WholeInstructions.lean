import Machine16.Proofs.Decoding

/-! Byte strings that are whole instructions one after the other. Every byte string is, up to the first place
where no whole instruction follows, and there is one way to cut it. Validation and listing find this place. -/
namespace Machine16

/-- The bytes of one instruction: the byte that names the opcode, and any others, as many as it takes. -/
structure Opcode.Whole (op : Opcode) (bytes : List Byte) : Prop where
  code : bytes.head? = some op.code
  length : bytes.length = op.size

namespace Operand

lemma exists_decode? {s : Slot} {bs : List Byte} (h : bs.length = s.width) :
    ∃ o, ∀ rest, decode? s (bs ++ rest) = some (o, rest) := by
  cases s with
  | literal | address =>
    obtain ⟨high, low, rfl⟩ := List.length_eq_two.mp h
    exact ⟨_, fun _ => rfl⟩
  | byte | register | pointer | indirect =>
    obtain ⟨b, rfl⟩ := List.length_eq_one_iff.mp h
    exact ⟨_, fun _ => rfl⟩

/-- Any bytes can be operands, if they are as many as the format takes. -/
lemma exists_decodeAll? {f : Format} {bs : List Byte} (h : bs.length + 1 = f.size) :
    ∃ os, ∀ rest, decodeAll? f (bs ++ rest) = some (os, rest) := by
  induction f generalizing bs with
  | nil =>
    obtain rfl : bs = [] := List.length_eq_zero_iff.mp (Nat.succ.inj h)
    exact ⟨[], fun _ => rfl⟩
  | cons s f ih =>
    rw [Format.size_cons] at h
    have hpos := Format.size_pos f
    have htake : (bs.take s.width).length = s.width := by
      rw [List.length_take]
      omega
    have hdrop : (bs.drop s.width).length + 1 = Format.size f := by
      rw [List.length_drop]
      omega
    obtain ⟨o, ho⟩ := exists_decode? htake
    obtain ⟨os, hos⟩ := ih hdrop
    refine ⟨o :: os, fun rest => ?_⟩
    rw [← List.take_append_drop s.width bs, List.append_assoc]
    simp [decodeAll?, ho, hos]

lemma decodeAll?_eq_none {f : Format} {bs : List Byte} (h : bs.length + 1 < f.size) :
    decodeAll? f bs = none := by
  cases hos : decodeAll? f bs with
  | none => rfl
  | some p =>
    have := length_of_decodeAll? hos
    omega

end Operand

/-- What is wrong with bytes at an address that do not begin with a whole instruction: the first of them
names no opcode, or they end before the instruction does. -/
inductive Defect (address : Word) : List Byte → DecodeError → Prop
  | unknown {b : Byte} {bs : List Byte} (h : ∀ op : Opcode, op.code ≠ b) :
      Defect address (b :: bs) (.unknownOpcode address b)
  | truncated {op : Opcode} {chunk bs : List Byte} (whole : op.Whole chunk) (nonempty : bs ≠ [])
      (start : bs <+: chunk) (proper : bs ≠ chunk) : Defect address bs (.truncated address op)

/-- The bytes do not begin with a whole instruction. -/
def Blocks (bs : List Byte) : Prop := ∀ (op : Opcode) chunk rest, op.Whole chunk → bs ≠ chunk ++ rest

namespace Opcode

lemma code_injective : Function.Injective code := fun op op' h =>
  Option.some.inj ((ofByte?_code op).symm.trans ((congrArg ofByte? h).trans (ofByte?_code op')))

lemma Whole.exists_cons {op : Opcode} {chunk : List Byte} (h : op.Whole chunk) :
    ∃ bs, chunk = op.code :: bs ∧ bs.length + 1 = op.size := by
  obtain ⟨hcode, hlength⟩ := h
  cases chunk with
  | nil => cases hcode
  | cons b bs =>
    cases hcode
    exact ⟨bs, rfl, hlength⟩

lemma blocks_nil : Blocks [] := by
  intro op chunk rest whole heq
  obtain ⟨bs, rfl, -⟩ := whole.exists_cons
  cases heq

/-- Of two whole instructions, none goes on where the other one ends. -/
lemma Whole.append_inj {op op' : Opcode} {chunk chunk' rest rest' : List Byte} (h : op.Whole chunk)
    (h' : op'.Whole chunk') (heq : chunk ++ rest = chunk' ++ rest') : chunk = chunk' ∧ rest = rest' := by
  obtain ⟨bs, rfl, hlength⟩ := h.exists_cons
  obtain ⟨bs', rfl, hlength'⟩ := h'.exists_cons
  obtain rfl := code_injective (List.cons.inj heq).1
  exact List.append_inj heq (by rw [h.length, h'.length])

end Opcode

namespace Defect

variable {address : Word} {bs : List Byte} {e : DecodeError}

/-- A truncated instruction lacks bytes. -/
lemma of_length_lt {op : Opcode} (h : bs.length + 1 < op.size) :
    Defect address (op.code :: bs) (.truncated address op) := by
  have hwhole : op.Whole (op.code :: bs ++ List.replicate (op.size - (bs.length + 1)) 0) := by
    refine ⟨rfl, ?_⟩
    rw [List.length_append, List.length_replicate, List.length_cons]
    omega
  refine .truncated hwhole (List.cons_ne_nil _ _) (List.prefix_append _ _) fun heq => ?_
  have := congrArg List.length heq
  rw [hwhole.length, List.length_cons] at this
  omega

lemma exists_cons (h : Defect address bs e) : ∃ b bs', bs = b :: bs' ∧
    ((∀ op : Opcode, op.code ≠ b) ∧ e = .unknownOpcode address b ∨
      ∃ op : Opcode, op.code = b ∧ bs'.length + 1 < op.size ∧ e = .truncated address op) := by
  cases h with
  | unknown h => exact ⟨_, _, rfl, .inl ⟨h, rfl⟩⟩
  | @truncated op chunk _ whole nonempty start proper =>
    obtain ⟨chunk', rfl, hlength⟩ := whole.exists_cons
    cases bs with
    | nil => exact absurd rfl nonempty
    | cons b bs =>
      obtain ⟨rfl, hstart⟩ := List.cons_prefix_cons.mp start
      have hne : bs.length ≠ chunk'.length := fun heq => proper (by rw [hstart.eq_of_length heq])
      have hle := hstart.length_le
      exact ⟨_, _, rfl, .inr ⟨op, rfl, by omega, rfl⟩⟩

lemma blocks (h : Defect address bs e) : Blocks bs := by
  rintro op chunk rest whole rfl
  obtain ⟨bs, rfl, hlength⟩ := whole.exists_cons
  obtain ⟨b, bs', heq, hcases⟩ := h.exists_cons
  rw [List.cons_append, List.cons.injEq] at heq
  obtain ⟨rfl, rfl⟩ := heq
  obtain ⟨hunknown, -⟩ | ⟨op', hcode, hlt, -⟩ := hcases
  · exact hunknown op rfl
  · obtain rfl := Opcode.code_injective hcode
    rw [List.length_append] at hlt
    omega

end Defect

/-- Bytes begin with a whole instruction, or something is wrong with them. -/
lemma whole_or_defect {bytes : List Byte} (h : bytes ≠ []) :
    (∃ (op : Opcode) (chunk rest : List Byte), op.Whole chunk ∧ bytes = chunk ++ rest) ∨
      ∀ address, ∃ e, Defect address bytes e := by
  cases bytes with
  | nil => exact absurd rfl h
  | cons b bs =>
    by_cases hop : ∃ op : Opcode, op.code = b
    · obtain ⟨op, rfl⟩ := hop
      by_cases hlength : bs.length + 1 < op.size
      · exact .inr fun address => ⟨_, .of_length_lt hlength⟩
      · have hpos := op.size_pos
        refine .inl ⟨op, op.code :: bs.take (op.size - 1), bs.drop (op.size - 1), ⟨rfl, ?_⟩, ?_⟩
        · rw [List.length_cons, List.length_take]
          omega
        · rw [List.cons_append, List.take_append_drop]
    · exact .inr fun address => ⟨_, .unknown (not_exists.mp hop)⟩

namespace Instruction

/-- A whole instruction is read, whatever follows it. -/
lemma exists_decode {op : Opcode} {bs : List Byte} (h : bs.length + 1 = op.size) :
    ∃ i : Instruction Word, i.opcode = op ∧
      ∀ address rest, decode address op.code (bs ++ rest) = .ok (i, rest) := by
  obtain ⟨os, hos⟩ := Operand.exists_decodeAll? h
  refine ⟨⟨op, os⟩, rfl, fun address rest => ?_⟩
  rw [decode, Opcode.ofByte?_code]
  simp only [hos]

lemma decode_of_defect {address : Word} {b : Byte} {bs : List Byte} {e : DecodeError}
    (h : Defect address (b :: bs) e) : decode address b bs = .error e := by
  obtain ⟨b, bs, heq, hcases⟩ := h.exists_cons
  obtain ⟨rfl, rfl⟩ := List.cons.inj heq
  obtain ⟨hunknown, rfl⟩ | ⟨op, rfl, hlt, rfl⟩ := hcases
  · have hop : Opcode.ofByte? b = none := by
      cases hop : Opcode.ofByte? b with
      | none => rfl
      | some op => exact absurd (Opcode.code_of_ofByte? hop) (hunknown op)
    rw [decode, hop]
  · rw [decode, Opcode.ofByte?_code]
    simp only [Operand.decodeAll?_eq_none hlt]

end Instruction

/-- The same error for bytes that lie that much further on. -/
def DecodeError.shift (offset : Word) : DecodeError → DecodeError
  | unknownOpcode address b => unknownOpcode (address + offset) b
  | truncated address op => truncated (address + offset) op

namespace Listing

/-- The bytes of whole instructions, one after the other. -/
structure Cut (bytes : List Byte) (chunks : List (List Byte)) : Prop where
  whole : ∀ chunk ∈ chunks, ∃ op : Opcode, op.Whole chunk
  flatten : chunks.flatten = bytes

/-- The instructions that chunks from an offset on are read as, each with its address. -/
inductive Entries : Nat → List (List Byte) → List (Word × Instruction Word) → Prop
  | nil {offset} : Entries offset [] []
  | cons {offset code bs i chunks entries}
      (decoded : Instruction.decode (UInt16.ofNat offset) code bs = .ok (i, []))
      (tail : Entries (offset + (code :: bs).length) chunks entries) :
      Entries offset ((code :: bs) :: chunks) ((UInt16.ofNat offset, i) :: entries)

/-- Whole instructions, then bytes with which something is wrong. -/
structure Broken (bytes good rest : List Byte) (e : DecodeError) : Prop where
  append : good ++ rest = bytes
  cut : ∃ chunks, Cut good chunks
  defect : Defect (UInt16.ofNat good.length) rest e

namespace Cut

variable {bytes bytes' chunk rest rest' : List Byte} {chunks chunks' : List (List Byte)}

lemma nil : Cut [] [] := ⟨fun _ h => absurd h List.not_mem_nil, rfl⟩

lemma cons {op : Opcode} (whole : op.Whole chunk) (h : Cut bytes chunks) :
    Cut (chunk ++ bytes) (chunk :: chunks) :=
  ⟨List.forall_mem_cons.mpr ⟨⟨op, whole⟩, h.whole⟩, by rw [List.flatten_cons, h.flatten]⟩

/-- Bytes that are cut and then go on in a way that is no whole instruction are cut in one way. -/
lemma unique (h : Cut bytes chunks) (h' : Cut bytes' chunks') (hrest : Blocks rest) (hrest' : Blocks rest')
    (heq : bytes ++ rest = bytes' ++ rest') : chunks = chunks' ∧ rest = rest' := by
  obtain ⟨hwhole, rfl⟩ := h
  obtain ⟨hwhole', rfl⟩ := h'
  induction chunks generalizing chunks' with
  | nil =>
    cases chunks' with
    | nil => exact ⟨rfl, heq⟩
    | cons chunk' chunks' =>
      obtain ⟨⟨op, hop⟩, -⟩ := List.forall_mem_cons.mp hwhole'
      rw [List.flatten_cons, List.append_assoc] at heq
      exact absurd heq (hrest op _ _ hop)
  | cons chunk chunks ih =>
    obtain ⟨⟨op, hop⟩, htail⟩ := List.forall_mem_cons.mp hwhole
    rw [List.flatten_cons, List.append_assoc] at heq
    cases chunks' with
    | nil => exact absurd heq.symm (hrest' op _ _ hop)
    | cons chunk' chunks' =>
      obtain ⟨⟨op', hop'⟩, htail'⟩ := List.forall_mem_cons.mp hwhole'
      rw [List.flatten_cons, List.append_assoc] at heq
      obtain ⟨rfl, hnext⟩ := hop.append_inj hop' heq
      obtain ⟨rfl, rfl⟩ := ih htail htail' hnext
      exact ⟨rfl, rfl⟩

end Cut

/-- Every byte string is whole instructions up to its end or up to something that is wrong. -/
lemma exists_cut (bytes : List Byte) : ∃ good rest chunks, good ++ rest = bytes ∧ Cut good chunks ∧
    (rest = [] ∨ ∀ address, ∃ e, Defect address rest e) := by
  induction hn : bytes.length using Nat.strongRecOn generalizing bytes with
  | ind n ih =>
    subst hn
    by_cases hbytes : bytes = []
    · exact ⟨[], bytes, [], rfl, .nil, .inl hbytes⟩
    obtain ⟨op, chunk, bytes, hop, rfl⟩ | hdefect := whole_or_defect hbytes
    · have hlt : bytes.length < (chunk ++ bytes).length := by
        have := op.size_pos
        rw [List.length_append, hop.length]
        omega
      obtain ⟨good, rest, chunks, rfl, hcut, hrest⟩ := ih _ hlt bytes rfl
      exact ⟨chunk ++ good, rest, chunk :: chunks, List.append_assoc .., hcut.cons hop, hrest⟩
    · exact ⟨[], bytes, [], rfl, .nil, .inr hdefect⟩

/-- Validation and listing pass over whole instructions. -/
lemma Cut.pass {bytes : List Byte} {chunks : List (List Byte)} (h : Cut bytes chunks) (offset : Nat) :
    ∃ entries, Entries offset chunks entries ∧ ∀ rest,
      validateAt (UInt16.ofNat offset) (bytes ++ rest) =
        validateAt (UInt16.ofNat (offset + bytes.length)) rest ∧
      ∀ before, disassembleAt before (UInt16.ofNat offset) (bytes ++ rest) =
        disassembleAt (entries.reverse ++ before) (UInt16.ofNat (offset + bytes.length)) rest := by
  obtain ⟨hwhole, rfl⟩ := h
  induction chunks generalizing offset with
  | nil => exact ⟨[], .nil, fun _ => ⟨rfl, fun _ => rfl⟩⟩
  | cons chunk chunks ih =>
    obtain ⟨⟨op, hop⟩, htail⟩ := List.forall_mem_cons.mp hwhole
    obtain ⟨bs, rfl, hlength⟩ := hop.exists_cons
    obtain ⟨i, rfl, hdecode⟩ := Instruction.exists_decode hlength
    obtain ⟨entries, hentries, hpass⟩ := ih (offset + (i.opcode.code :: bs).length) htail
    have haddress : UInt16.ofNat offset + UInt16.ofNat i.opcode.size =
        UInt16.ofNat (offset + (i.opcode.code :: bs).length) := by rw [hop.length, UInt16.ofNat_add]
    refine ⟨(UInt16.ofNat offset, i) :: entries, .cons (by simpa using hdecode _ []) hentries, fun rest => ?_⟩
    have hstep := hdecode (UInt16.ofNat offset) (chunks.flatten ++ rest)
    obtain ⟨hvalidate, hdisassemble⟩ := hpass rest
    rw [List.flatten_cons, List.append_assoc, List.cons_append, List.length_append, ← Nat.add_assoc]
    constructor
    · rw [validateAt_of_decode hstep, haddress, hvalidate]
    · intro before
      rw [disassembleAt_of_decode before hstep, haddress, hdisassemble, List.reverse_cons,
        List.append_assoc, List.singleton_append]

lemma validateAt_of_error {address : Word} {code : Byte} {bs : List Byte} {e : DecodeError}
    (h : Instruction.decode address code bs = .error e) : validateAt address (code :: bs) = .error e := by
  rw [validateAt]
  split <;> simp_all

lemma disassembleAt_of_error {address : Word} {code : Byte} {bs : List Byte} {e : DecodeError}
    (before : List (Word × Instruction Word)) (h : Instruction.decode address code bs = .error e) :
    disassembleAt before address (code :: bs) = .error e := by
  rw [disassembleAt]
  split <;> simp_all

lemma validateAt_of_defect {address : Word} {bs : List Byte} {e : DecodeError} (h : Defect address bs e) :
    validateAt address bs = .error e := by
  obtain ⟨b, bs, rfl, -⟩ := h.exists_cons
  exact validateAt_of_error (Instruction.decode_of_defect h)

lemma disassembleAt_of_defect {address : Word} {bs : List Byte} {e : DecodeError}
    (before : List (Word × Instruction Word)) (h : Defect address bs e) :
    disassembleAt before address bs = .error e := by
  obtain ⟨b, bs, rfl, -⟩ := h.exists_cons
  exact disassembleAt_of_error before (Instruction.decode_of_defect h)

section

variable {bytes good rest : List Byte} {chunks : List (List Byte)} {e : DecodeError}

lemma Cut.listed (h : Cut bytes chunks) :
    validate bytes = .ok () ∧ ∃ entries, Entries 0 chunks entries ∧ disassemble bytes = .ok entries := by
  obtain ⟨entries, hentries, hpass⟩ := h.pass 0
  obtain ⟨hvalidate, hdisassemble⟩ := hpass []
  rw [List.append_nil] at hvalidate hdisassemble
  refine ⟨hvalidate.trans (by rw [validateAt]), entries, hentries, (hdisassemble []).trans ?_⟩
  rw [disassembleAt, List.append_nil, List.reverse_reverse]

lemma Broken.reported (h : Broken bytes good rest e) :
    validate bytes = .error e ∧ disassemble bytes = .error e := by
  obtain ⟨rfl, ⟨chunks, hcut⟩, hdefect⟩ := h
  obtain ⟨entries, -, hpass⟩ := hcut.pass 0
  obtain ⟨hvalidate, hdisassemble⟩ := hpass rest
  rw [Nat.zero_add] at hvalidate hdisassemble
  exact ⟨hvalidate.trans (validateAt_of_defect hdefect),
    (hdisassemble []).trans (disassembleAt_of_defect _ hdefect)⟩

lemma Broken.unique {good' rest' : List Byte} {e' : DecodeError} (h : Broken bytes good rest e)
    (h' : Broken bytes good' rest' e') : good = good' ∧ rest = rest' ∧ e = e' := by
  obtain ⟨chunks, hcut⟩ := h.cut
  obtain ⟨chunks', hcut'⟩ := h'.cut
  obtain ⟨rfl, rfl⟩ := hcut.unique hcut' h.defect.blocks h'.defect.blocks (h.append.trans h'.append.symm)
  refine ⟨hcut.flatten.symm.trans hcut'.flatten, rfl, ?_⟩
  cases h.reported.1.symm.trans h'.reported.1
  rfl

/-- Bytes are whole instructions, or they are broken somewhere. -/
lemma cut_or_broken (bytes : List Byte) :
    (∃ chunks, Cut bytes chunks) ∨ ∃ good rest e, Broken bytes good rest e := by
  obtain ⟨good, rest, chunks, rfl, hcut, rfl | hdefect⟩ := exists_cut bytes
  · exact .inl ⟨chunks, by rwa [List.append_nil]⟩
  · obtain ⟨e, he⟩ := hdefect (UInt16.ofNat good.length)
    exact .inr ⟨good, rest, e, rfl, ⟨chunks, hcut⟩, he⟩

end

lemma decode_shift (address offset : Word) (b : Byte) (bs : List Byte) :
    Instruction.decode (address + offset) b bs =
      (Instruction.decode address b bs).mapError (.shift offset) := by
  unfold Instruction.decode
  cases Opcode.ofByte? b with
  | none => rfl
  | some op =>
    cases h : Operand.decodeAll? op.format bs with
    | none => simp only [h]; rfl
    | some p => simp only [h]; rfl

lemma validateAt_shift (address offset : Word) (bs : List Byte) :
    validateAt (address + offset) bs = (validateAt address bs).mapError (.shift offset) := by
  fun_induction validateAt address bs with
  | case1 address => rw [validateAt]; rfl
  | case2 address code bs e h =>
    exact validateAt_of_error (by rw [decode_shift, h]; rfl)
  | case3 address code bs i rest h _ ih =>
    have hshift : Instruction.decode (address + offset) code bs = .ok (i, rest) := by
      rw [decode_shift, h]
      rfl
    have hcomm : address + offset + UInt16.ofNat i.opcode.size =
        address + UInt16.ofNat i.opcode.size + offset := by grind
    rw [validateAt_of_decode hshift, hcomm, ih]

/-- Validation and listing agree on every byte string. They accept the strings that can be cut into whole
instructions, and list one instruction for each of them; there is one way to cut. Of any other string they
report what is wrong behind the whole instructions that it begins with, and the number of bytes of these. -/
theorem validate_locates (bytes : List Byte) :
    validate bytes = (disassemble bytes).map (fun _ => ()) ∧
    (validate bytes = .ok () ↔ ∃ chunks, Cut bytes chunks) ∧
    (∀ chunks, Cut bytes chunks → (∀ chunks', Cut bytes chunks' → chunks' = chunks) ∧
      ∃ entries, Entries 0 chunks entries ∧ disassemble bytes = .ok entries) ∧
    ((¬∃ chunks, Cut bytes chunks) → ∃ good rest e, Broken bytes good rest e ∧
      validate bytes = .error e ∧
      ∀ good' rest' e', Broken bytes good' rest' e' → good' = good ∧ rest' = rest ∧ e' = e) ∧
    (validate bytes = .ok () → ∀ more, validate (bytes ++ more) =
      (validate more).mapError (.shift (UInt16.ofNat bytes.length))) := by
  have hiff : validate bytes = .ok () ↔ ∃ chunks, Cut bytes chunks := by
    refine ⟨fun h => (cut_or_broken bytes).resolve_right ?_, fun ⟨chunks, h⟩ => h.listed.1⟩
    rintro ⟨good, rest, e, hbroken⟩
    cases h.symm.trans hbroken.reported.1
  refine ⟨?_, hiff, fun chunks h => ⟨fun chunks' h' => ?_, h.listed.2⟩, fun h => ?_, fun h more => ?_⟩
  · obtain ⟨chunks, h⟩ | ⟨good, rest, e, h⟩ := cut_or_broken bytes
    · obtain ⟨hvalidate, entries, -, hdisassemble⟩ := h.listed
      rw [hvalidate, hdisassemble]
      rfl
    · rw [h.reported.1, h.reported.2]
      rfl
  · exact (h'.unique h Opcode.blocks_nil Opcode.blocks_nil rfl).1
  · obtain ⟨good, rest, e, hbroken⟩ := (cut_or_broken bytes).resolve_left h
    exact ⟨good, rest, e, hbroken, hbroken.reported.1, fun _ _ _ h' => h'.unique hbroken⟩
  · obtain ⟨chunks, hcut⟩ := hiff.mp h
    obtain ⟨entries, -, hpass⟩ := hcut.pass 0
    have hshift := validateAt_shift 0 (UInt16.ofNat bytes.length) more
    rw [UInt16.zero_add] at hshift
    refine (hpass more).1.trans ?_
    rw [Nat.zero_add, hshift]
    rfl

/-- A listing of two instructions, one that goes on with a byte that names none, and one that ends before
its second instruction does. -/
theorem validate_locates_sample :
    (Cut [0x4A, 0, 3, 0xFF] [[0x4A, 0, 3], [0xFF]] ∧ ∃ entries,
      Entries 0 [[0x4A, 0, 3], [0xFF]] entries ∧ disassemble [0x4A, 0, 3, 0xFF] = .ok entries) ∧
    (validate [0xFF] = .ok () ∧ validate ([0xFF] ++ [2]) = .error (.unknownOpcode 1 2)) ∧
    (¬∃ chunks, Cut [0xFF, 0x10, 0x12] chunks) ∧ ∃ good rest e, Broken [0xFF, 0x10, 0x12] good rest e ∧
      validate [0xFF, 0x10, 0x12] = .error e ∧ good = [0xFF] ∧ e = .truncated 1 .movLitReg := by
  have hlt : Opcode.hlt.Whole [0xFF] := ⟨rfl, rfl⟩
  have jmp : Opcode.jmp.Whole [0x4A, 0, 3] := ⟨rfl, rfl⟩
  have hhlt : Cut [0xFF] [[0xFF]] := Cut.nil.cons hlt
  have hjmp : Cut [0x4A, 0, 3, 0xFF] [[0x4A, 0, 3], [0xFF]] := hhlt.cons jmp
  have hlength : [(0x12 : Byte)].length + 1 < Opcode.movLitReg.size := by decide
  have hbroken : Broken [0xFF, 0x10, 0x12] [0xFF] [0x10, 0x12] (.truncated 1 .movLitReg) :=
    ⟨rfl, ⟨_, hhlt⟩, .of_length_lt hlength⟩
  have hcut : ¬∃ chunks, Cut [0xFF, 0x10, 0x12] chunks := by
    intro h
    cases ((validate_locates _).2.1.mpr h).symm.trans hbroken.reported.1
  have hvalid := (validate_locates [0xFF]).2.1.mpr ⟨_, hhlt⟩
  obtain ⟨good, rest, e, h, hreported, hunique⟩ := (validate_locates _).2.2.2.1 hcut
  obtain ⟨hgood, -, he⟩ := hunique _ _ _ hbroken
  have hunknown : validate [2] = .error (.unknownOpcode 0 2) := validateAt_of_error rfl
  refine ⟨⟨hjmp, ((validate_locates _).2.2.1 _ hjmp).2⟩, ⟨hvalid, ?_⟩, hcut,
    good, rest, e, h, hreported, hgood.symm, he.symm⟩
  rw [(validate_locates [0xFF]).2.2.2.2 hvalid, hunknown]
  rfl

end Listing
end Machine16
