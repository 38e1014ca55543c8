import Machine16.Proofs.Decoding

/-! Bytes that have been listed and are encoded again. A selector may name a register in more than one
way, and comes back as the smallest of them; every other byte comes back as it was. -/
namespace Machine16

/-- For each byte of an operand, whether it selects a register. -/
def Slot.selectors : Slot → List Bool
  | literal | address => [false, false]
  | byte => [false]
  | register | pointer | indirect => [true]

/-- For each byte of an instruction, whether it selects a register. -/
def Instruction.selectors {ε : Type} (i : Instruction ε) : List Bool :=
  false :: i.format.flatMap Slot.selectors

/-- The bytes with every selector below 14. -/
def reduceSelectors (selectors : List Bool) (bytes : List Byte) : List Byte :=
  List.zipWith (fun selects b => if selects then b % 14 else b) selectors bytes

/-- Nothing changes if and only if the selectors are small. -/
lemma reduceSelectors_eq_self {selectors : List Bool} {bytes : List Byte}
    (h : selectors.length = bytes.length) :
    reduceSelectors selectors bytes = bytes ↔
      ∀ x ∈ selectors.zip bytes, x.1 = true → x.2 < 14 := by
  induction bytes generalizing selectors with
  | nil =>
    rw [List.length_nil, List.length_eq_zero_iff] at h
    simp [h, reduceSelectors]
  | cons b bytes ih =>
    cases selectors with
    | nil => cases h
    | cons selects selectors =>
      have hb : (if selects then b % 14 else b) = b ↔ (selects = true → b < 14) := by
        cases selects with
        | false => simp
        | true =>
          simp only [if_true, forall_const]
          rw [← UInt8.toNat_inj, UInt8.toNat_mod, UInt8.lt_iff_toNat_lt]
          exact Nat.mod_eq_iff_lt (by decide)
      have htail := ih (Nat.succ.inj h)
      rw [reduceSelectors] at htail ⊢
      rw [List.zipWith_cons_cons, List.cons.injEq, hb, htail, List.zip_cons_cons, List.forall_mem_cons]

/-- What the bytes `raw` with these selectors are encoded to again. -/
structure Reencoded (selectors : List Bool) (raw encoded : List Byte) : Prop where
  length_eq : selectors.length = raw.length
  encoded_eq : encoded = reduceSelectors selectors raw

lemma Reencoded.append {selectors selectors' : List Bool} {raw raw' encoded encoded' : List Byte}
    (h : Reencoded selectors raw encoded) (h' : Reencoded selectors' raw' encoded') :
    Reencoded (selectors ++ selectors') (raw ++ raw') (encoded ++ encoded') := by
  refine ⟨by simp [h.length_eq, h'.length_eq], ?_⟩
  rw [h.encoded_eq, h'.encoded_eq]
  exact (List.zipWith_append h.length_eq).symm

lemma Register.selector_ofSelector (b : Byte) : (ofSelector b).selector = b % 14 := by
  apply UInt8.toNat_inj.mp
  rw [selector, index_ofSelector, UInt8.toNat_mod, UInt8.toNat_ofNat']
  have : b.toNat % 14 < 14 := Nat.mod_lt _ (by decide)
  exact Nat.mod_eq_of_lt (by omega)

namespace Operand

lemma reencoded_of_decode? {s : Slot} {bs rest : List Byte} {o : Operand Word}
    (h : decode? s bs = some (o, rest)) :
    o.slot = s ∧ o.Fits ∧ ∃ raw, bs = raw ++ rest ∧ Reencoded s.selectors raw o.encode := by
  have hword (high low : Byte) : Reencoded [false, false] [high, low] (Word.bytes (Word.ofBytes high low)) :=
    ⟨rfl, by simp [Word.bytes, reduceSelectors]⟩
  have hregister (b : Byte) : Reencoded [true] [b] [(Register.ofSelector b).selector] :=
    ⟨rfl, by simp [reduceSelectors, Register.selector_ofSelector]⟩
  cases s with
  | literal =>
    obtain - | ⟨high, - | ⟨low, bs⟩⟩ := bs <;> cases h
    exact ⟨rfl, trivial, [high, low], rfl, hword high low⟩
  | address =>
    obtain - | ⟨high, - | ⟨low, bs⟩⟩ := bs <;> cases h
    exact ⟨rfl, trivial, [high, low], rfl, hword high low⟩
  | byte =>
    obtain - | ⟨b, bs⟩ := bs <;> cases h
    have hfits : b.toUInt16.toNat < 256 := by
      rw [UInt8.toNat_toUInt16]
      exact b.toNat_lt
    have hlow : Word.low b.toUInt16 = b := by simp [Word.low]
    exact ⟨rfl, hfits, [b], rfl, rfl, by simp [encode, hlow, reduceSelectors, Slot.selectors]⟩
  | register | pointer | indirect =>
    obtain - | ⟨b, bs⟩ := bs <;> cases h
    exact ⟨rfl, trivial, [b], rfl, hregister b⟩

lemma reencoded_of_decodeAll? {f : Format} {bs rest : List Byte} {os : List (Operand Word)}
    (h : decodeAll? f bs = some (os, rest)) :
    os.map slot = f ∧ (∀ o ∈ os, o.Fits) ∧
      ∃ raw, bs = raw ++ rest ∧ Reencoded (f.flatMap Slot.selectors) raw (os.flatMap encode) := by
  induction f generalizing bs os with
  | nil =>
    cases h
    exact ⟨rfl, fun _ ho => absurd ho List.not_mem_nil, [], rfl, rfl, rfl⟩
  | cons s f ih =>
    simp only [decodeAll?, Option.pure_def, Option.bind_eq_bind, Option.bind_eq_some_iff] at h
    obtain ⟨⟨o, mid⟩, ho, ⟨os', rest'⟩, hos, heq⟩ := h
    cases heq
    obtain ⟨hslot, hfits, raw, rfl, hraw⟩ := reencoded_of_decode? ho
    obtain ⟨hslots, hall, raws, rfl, hraws⟩ := ih hos
    exact ⟨by rw [List.map_cons, hslot, hslots], List.forall_mem_cons.mpr ⟨hfits, hall⟩, raw ++ raws,
      (List.append_assoc ..).symm, hraw.append hraws⟩

end Operand

namespace Instruction

/-- An instruction that can stand in a listing. -/
structure Listable (i : Instruction Word) : Prop where
  format_eq : i.format = i.opcode.format
  fits : ∀ o ∈ i.operands, o.Fits

lemma reencoded_of_decode {address : Word} {code : Byte} {bs rest : List Byte} {i : Instruction Word}
    (h : decode address code bs = .ok (i, rest)) :
    i.Listable ∧ ∃ raw, code :: bs = raw ++ rest ∧ Reencoded i.selectors raw i.encode := by
  unfold decode at h
  split at h
  · cases h
  · rename_i op hop
    split at h
    · cases h
    · rename_i os rest' hos
      cases h
      obtain ⟨hslots, hfits, raw, rfl, hraw⟩ := Operand.reencoded_of_decodeAll? hos
      refine ⟨⟨hslots, hfits⟩, code :: raw, rfl, ?_⟩
      have hcode : Reencoded [false] [code] [op.code] :=
        ⟨rfl, by simp [reduceSelectors, Opcode.code_of_ofByte? hop]⟩
      rw [← hslots] at hraw
      exact hcode.append hraw

end Instruction

namespace Listing

/-- The bytes at `address` and the instructions that they are. -/
inductive Lists : Word → List Byte → List (Word × Instruction Word) → Prop
  | nil {address} : Lists address [] []
  | cons {address code bs i rest is} (decoded : Instruction.decode address code bs = .ok (i, rest))
      (tail : Lists (address + UInt16.ofNat i.opcode.size) rest is) :
      Lists address (code :: bs) ((address, i) :: is)

lemma disassembleAt_eq_ok {before is : List (Word × Instruction Word)} {address : Word} {bytes : List Byte} :
    disassembleAt before address bytes = .ok is ↔
      ∃ is', Lists address bytes is' ∧ is = before.reverse ++ is' := by
  fun_induction disassembleAt before address bytes with
  | case1 before address =>
    constructor
    · intro h
      cases h
      exact ⟨[], .nil, (List.append_nil _).symm⟩
    · rintro ⟨_, ⟨⟩, rfl⟩
      rw [List.append_nil]
  | case2 before address code bs e hdecode =>
    constructor
    · exact fun h => nomatch h
    · rintro ⟨_, hlists, rfl⟩
      cases hlists with
      | cons hdecode' _ => cases hdecode.symm.trans hdecode'
  | case3 before address code bs i rest hdecode _ ih =>
    rw [ih]
    constructor
    · rintro ⟨is', hlists, rfl⟩
      exact ⟨(address, i) :: is', .cons hdecode hlists, by simp⟩
    · rintro ⟨_, hlists, rfl⟩
      cases hlists with
      | cons hdecode' htail =>
        cases hdecode.symm.trans hdecode'
        exact ⟨_, htail, by simp⟩

lemma disassemble_eq_ok {bytes : List Byte} {is : List (Word × Instruction Word)} :
    disassemble bytes = .ok is ↔ Lists 0 bytes is := by
  rw [disassemble, disassembleAt_eq_ok]
  constructor
  · rintro ⟨is', h, rfl⟩
    exact h
  · exact fun h => ⟨is, h, rfl⟩

/-- The bytes that the instructions are encoded to. -/
def encode (is : List (Word × Instruction Word)) : List Byte := is.flatMap fun (_, i) => i.encode

/-- For each byte, whether it selects a register. -/
def selectors (is : List (Word × Instruction Word)) : List Bool := is.flatMap fun (_, i) => i.selectors

variable {address : Word} {bytes : List Byte} {is : List (Word × Instruction Word)}

lemma Lists.listable (h : Lists address bytes is) : ∀ x ∈ is, x.2.Listable := by
  induction h with
  | nil => exact fun _ hx => absurd hx List.not_mem_nil
  | cons hdecode _ ih => exact List.forall_mem_cons.mpr ⟨(Instruction.reencoded_of_decode hdecode).1, ih⟩

lemma Lists.reencoded (h : Lists address bytes is) : Reencoded (selectors is) bytes (encode is) := by
  induction h with
  | nil => exact ⟨rfl, rfl⟩
  | cons hdecode _ ih =>
    obtain ⟨-, raw, hraw, hreencoded⟩ := Instruction.reencoded_of_decode hdecode
    rw [hraw]
    exact hreencoded.append ih

/-- The instructions are listed from their own encoding too. -/
lemma Lists.encode (h : Lists address bytes is) : Lists address (encode is) is := by
  induction h with
  | nil => exact .nil
  | @cons address code bs i rest is hdecode _ ih =>
    obtain ⟨hformat, hfits⟩ := (Instruction.reencoded_of_decode hdecode).1
    exact .cons (Instruction.decode_encode hformat hfits address (Listing.encode is)) ih

end Listing

section Compilation

/-- A number has its own value, of which a literal of one byte needs no more than the low byte. -/
lemma Operand.Fits.evaluate {o : Operand Word} (ho : o.Fits) (scope : Scope) :
    scope.evaluateOperand (o.map fun w => .literal w.toUInt32) = .ok o := by
  have hword (w : Word) : w.toUInt32.toUInt16 = w := by simp
  cases o with
  | literal w => exact bind_eq_ok.mpr ⟨w, congrArg Except.ok (hword w), rfl⟩
  | address w => exact bind_eq_ok.mpr ⟨w, congrArg Except.ok (hword w), rfl⟩
  | byte w =>
    exact bind_eq_ok.mpr ⟨w, congrArg Except.ok (hword w),
      congrArg (Except.ok ∘ Operand.byte) (Word.toUInt16_low ho)⟩
  | register r | pointer r | indirect r => rfl

namespace Instruction.Listable

variable {i : Instruction Word}

lemma resolve_symbolic (hi : i.Listable) (scope : Scope) : scope.resolve i.symbolic = .ok i := by
  have hall {os : List (Operand Word)} (hos : ∀ o ∈ os, o.Fits) :
      (os.map (Operand.map fun w => Expression.literal w.toUInt32)).mapM scope.evaluateOperand = .ok os := by
    induction os with
    | nil => rfl
    | cons o os ih =>
      rw [List.forall_mem_cons] at hos
      rw [List.map_cons, List.mapM_cons]
      exact bind_eq_ok.mpr ⟨o, hos.1.evaluate scope, bind_eq_ok.mpr ⟨os, ih hos.2, rfl⟩⟩
  refine Scope.resolve_eq_ok.mpr ⟨?_, rfl, hall hi.fits⟩
  rw [symbolic, format_map, hi.format_eq]
  rfl

end Instruction.Listable

namespace Program

variable {is : List (Instruction Word)} {p : Program}

lemma bind_symbolic (hp : p.map Node.statement = is.map fun i => .instruction i.symbolic) (s : Scope) :
    ∃ s', p.foldlM Scope.bind s = .ok s' := by
  induction is generalizing p s with
  | nil =>
    obtain rfl := List.map_eq_nil_iff.mp hp
    exact ⟨s, rfl⟩
  | cons i is ih =>
    obtain ⟨n, p, rfl, hn, hp⟩ := List.map_eq_cons_iff.mp hp
    obtain ⟨s', hs'⟩ := ih hp (s.advance (UInt16.ofNat i.opcode.size))
    refine ⟨s', ?_⟩
    rw [List.foldlM_cons]
    refine bind_eq_ok.mpr ⟨_, ?_, hs'⟩
    rw [Scope.bind, hn]
    rfl

lemma encode_symbolic (his : ∀ i ∈ is, i.Listable)
    (hp : p.map Node.statement = is.map fun i => .instruction i.symbolic) (scope : Scope) (address : Word) :
    ∃ chunks, encode scope address p = .ok chunks ∧
      chunks.flatMap Chunk.bytes = is.flatMap Instruction.encode := by
  induction is generalizing p address with
  | nil =>
    obtain rfl := List.map_eq_nil_iff.mp hp
    exact ⟨[], rfl, rfl⟩
  | cons i is ih =>
    rw [List.forall_mem_cons] at his
    obtain ⟨n, p, rfl, hn, hp⟩ := List.map_eq_cons_iff.mp hp
    obtain ⟨chunks, hchunks, hbytes⟩ := ih his.2 hp (address + UInt16.ofNat i.encode.length)
    refine ⟨⟨n.span, address, i.encode⟩ :: chunks, ?_, by rw [List.flatMap_cons, List.flatMap_cons, hbytes]⟩
    rw [encode]
    have hstatement : n.statement.encode scope = .ok (some i.encode) := by
      rw [hn]
      exact bind_eq_ok.mpr ⟨i, his.1.resolve_symbolic scope, rfl⟩
    exact bind_eq_ok.mpr ⟨some i.encode, hstatement, bind_eq_ok.mpr ⟨chunks, hchunks, rfl⟩⟩

/-- Instructions on numbers compile to their encoding, wherever they stand in the source. -/
lemma compile_symbolic (his : ∀ i ∈ is, i.Listable)
    (hp : p.map Node.statement = is.map fun i => .instruction i.symbolic) :
    p.compile = .ok (is.flatMap Instruction.encode) := by
  obtain ⟨scope, hscope⟩ := bind_symbolic hp {}
  obtain ⟨chunks, hchunks, hbytes⟩ := encode_symbolic his hp scope 0
  exact compile_eq_ok.mpr ⟨scope, chunks, hscope, hchunks, hbytes⟩

end Program

end Compilation
end Machine16
