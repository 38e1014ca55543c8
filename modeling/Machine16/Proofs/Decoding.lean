import Machine16.Assembly.Listing
import Machine16.Proofs.Layout

/-! Decoding undoes encoding. An instruction is read back from wherever it has been laid out, with
the values of its operands, and a program without data is listed as it was written. -/
namespace Machine16

lemma Word.toUInt16_low {v : Word} (h : v.toNat < 256) : (Word.low v).toUInt16 = v := by
  apply UInt16.toNat_inj.mp
  rw [UInt8.toNat_toUInt16, Word.toNat_low]
  omega

namespace Operand

/-- A literal of one byte is below 256, as any that has been encoded is. -/
def Fits : Operand Word → Prop
  | byte v => v.toNat < 256
  | literal _ | address _ | register _ | pointer _ | indirect _ => True

lemma decode?_encode {o : Operand Word} (h : o.Fits) (rest : List Byte) :
    decode? o.slot (o.encode ++ rest) = some (o, rest) := by
  cases o with
  | literal v | address v => simp [decode?, slot, encode, Word.bytes]
  | byte v => simp [decode?, slot, encode, Word.toUInt16_low h]
  | register r | pointer r | indirect r => simp [decode?, slot, encode]

lemma decodeAll?_encode {os : List (Operand Word)} (h : ∀ o ∈ os, o.Fits) (rest : List Byte) :
    decodeAll? (os.map slot) (os.flatMap encode ++ rest) = some (os, rest) := by
  induction os with
  | nil => rfl
  | cons o os ih =>
    rw [List.forall_mem_cons] at h
    rw [List.map_cons, List.flatMap_cons, List.append_assoc, decodeAll?, decode?_encode h.1]
    simp [ih h.2]

end Operand

namespace Instruction

/-- The first byte names the opcode, which says how the others are to be read. -/
lemma decode_encode {r : Instruction Word} (hf : r.format = r.opcode.format)
    (h : ∀ o ∈ r.operands, o.Fits) (address : Word) (rest : List Byte) :
    decode address r.opcode.code (r.operands.flatMap Operand.encode ++ rest) = .ok (r, rest) := by
  rw [decode, Opcode.ofByte?_code]
  simp only [← hf, format, Operand.decodeAll?_encode h]

end Instruction

namespace Scope

/-- An operand as it is written and the same operand with its value. Of the value of a literal of
one byte the low byte counts. -/
inductive Denotes (s : Scope) : Operand Expression → Operand Word → Prop
  | literal {e w} (value : s.evaluate e = .ok w) : Denotes s (.literal e) (.literal w)
  | byte {e w} (value : s.evaluate e = .ok w) : Denotes s (.byte e) (.byte (w % 256))
  | address {e w} (value : s.evaluate e = .ok w) : Denotes s (.address e) (.address w)
  | register (r : Register) : Denotes s (.register r) (.register r)
  | pointer (r : Register) : Denotes s (.pointer r) (.pointer r)
  | indirect (r : Register) : Denotes s (.indirect r) (.indirect r)

/-- An instruction as it is written and the same instruction with the values of its operands. -/
structure Means (s : Scope) (i : Instruction Expression) (r : Instruction Word) : Prop where
  opcode : r.opcode = i.opcode
  operands : List.Forall₂ s.Denotes i.operands r.operands

lemma Denotes.fits {s : Scope} {o : Operand Expression} {w : Operand Word} (h : s.Denotes o w) :
    w.Fits := by
  cases h with
  | byte _ =>
    simp only [Operand.Fits, UInt16.toNat_mod]
    exact Nat.mod_lt _ (by decide)
  | literal _ | address _ | register _ | pointer _ | indirect _ => trivial

lemma denotes_of_evaluateOperand {s : Scope} {o : Operand Expression} {w : Operand Word}
    (h : s.evaluateOperand o = .ok w) : s.Denotes o w := by
  cases o with
  | literal e =>
    obtain ⟨v, hv, h⟩ := bind_eq_ok.mp h
    cases h
    exact .literal hv
  | byte e =>
    obtain ⟨v, hv, h⟩ := bind_eq_ok.mp h
    cases h
    have : (Word.low v).toUInt16 = v % 256 := by
      apply UInt16.toNat_inj.mp
      simp
    rw [this]
    exact .byte hv
  | address e =>
    obtain ⟨v, hv, h⟩ := bind_eq_ok.mp h
    cases h
    exact .address hv
  | register r =>
    cases h
    exact .register r
  | pointer r =>
    cases h
    exact .pointer r
  | indirect r =>
    cases h
    exact .indirect r

lemma forall₂_denotes {s : Scope} {os : List (Operand Expression)} {ws : List (Operand Word)}
    (h : os.mapM s.evaluateOperand = .ok ws) : List.Forall₂ s.Denotes os ws := by
  induction os generalizing ws with
  | nil =>
    cases h
    exact .nil
  | cons o os ih =>
    rw [List.mapM_cons] at h
    obtain ⟨w, hw, h⟩ := bind_eq_ok.mp h
    obtain ⟨ws', hws, h⟩ := bind_eq_ok.mp h
    cases h
    exact .cons (denotes_of_evaluateOperand hw) (ih hws)

lemma means_of_resolve {s : Scope} {i : Instruction Expression} {r : Instruction Word}
    (h : s.resolve i = .ok r) : s.Means i r := by
  obtain ⟨-, hop, hos⟩ := resolve_eq_ok.mp h
  exact ⟨hop, forall₂_denotes hos⟩

lemma fits_of_forall₂ {s : Scope} {os : List (Operand Expression)} {ws : List (Operand Word)}
    (h : List.Forall₂ s.Denotes os ws) : ∀ w ∈ ws, w.Fits := by
  induction h with
  | nil => exact fun _ hw => absurd hw List.not_mem_nil
  | cons hw _ ih => exact List.forall_mem_cons.mpr ⟨hw.fits, ih⟩

/-- The bytes of an instruction, whatever follows them, are read as what it means. -/
lemma decode_resolve {s : Scope} {i : Instruction Expression} {r : Instruction Word}
    (h : s.resolve i = .ok r) :
    ∃ operands, r.encode = r.opcode.code :: operands ∧ ∀ address rest,
      Instruction.decode address r.opcode.code (operands ++ rest) = .ok (r, rest) := by
  obtain ⟨hf, hop, hos⟩ := resolve_eq_ok.mp h
  have hformat : r.format = r.opcode.format := by
    rw [hop, ← hf]
    exact slots_mapM_evaluateOperand hos
  have hfits := fits_of_forall₂ (means_of_resolve h).operands
  exact ⟨_, rfl, fun address rest => Instruction.decode_encode hformat hfits address rest⟩

end Scope

namespace Listing

lemma validateAt_of_decode {address : Word} {code : Byte} {bs rest : List Byte}
    {i : Instruction Word} (h : Instruction.decode address code bs = .ok (i, rest)) :
    validateAt address (code :: bs) = validateAt (address + UInt16.ofNat i.opcode.size) rest := by
  rw [validateAt]
  split
  · rename_i h'
    rw [h] at h'
    cases h'
  · rename_i h'
    rw [h] at h'
    cases h'
    rfl

lemma disassembleAt_of_decode {address : Word} {code : Byte} {bs rest : List Byte}
    {i : Instruction Word} (before : List (Word × Instruction Word))
    (h : Instruction.decode address code bs = .ok (i, rest)) :
    disassembleAt before address (code :: bs) =
      disassembleAt ((address, i) :: before) (address + UInt16.ofNat i.opcode.size) rest := by
  rw [disassembleAt]
  split
  · rename_i h'
    rw [h] at h'
    cases h'
  · rename_i h'
    rw [h] at h'
    cases h'
    rfl

end Listing

namespace Program

/-- The instructions of statements that begin after `offset` bytes, each with the number of bytes
before it. -/
def instructions (offset : Nat) : Program → List (Nat × Instruction Expression)
  | [] => []
  | ⟨.instruction i, _⟩ :: p => (offset, i) :: instructions (offset + i.opcode.size) p
  | ⟨s, _⟩ :: p => instructions (offset + s.size) p

/-- Whether the blocks of a program are all empty. -/
def DataFree (p : Program) : Prop :=
  ∀ n ∈ p, ∀ ex w name vs, n.statement = .data ex w name vs → vs = []

end Program

/-- How an instruction of a program is listed. -/
def Listed (scope : Scope) (source : Nat × Instruction Expression)
    (entry : Word × Instruction Word) : Prop :=
  entry.1 = UInt16.ofNat source.1 ∧ scope.Means source.2 entry.2

/-- The loops of validation and listing go through the chunks of a program without data. -/
lemma list_layout {scope : Scope} {offset : Nat} {p : Program} {cs : List Chunk}
    (h : Layout scope offset p cs) (hp : p.DataFree) (before : List (Word × Instruction Word)) :
    Listing.validateAt (UInt16.ofNat offset) (cs.flatMap Chunk.bytes) = .ok () ∧
      ∃ entries, List.Forall₂ (Listed scope) (p.instructions offset) entries ∧
        Listing.disassembleAt before (UInt16.ofNat offset) (cs.flatMap Chunk.bytes) =
          .ok (before.reverse ++ entries) := by
  induction h generalizing before with
  | nil => exact ⟨by simp [Listing.validateAt], [], .nil, by simp [Listing.disassembleAt]⟩
  | @cons offset n p here rest laid tail ih =>
    obtain ⟨hn, hp⟩ := List.forall_mem_cons.mp hp
    have htail := ih hp
    rw [laid.length_bytes] at htail
    cases laid with
    | label _ | constant | struct => simpa [Program.instructions, Statement.size] using htail before
    | data _ =>
      obtain rfl := hn _ _ _ _ rfl
      simpa [Program.instructions, Statement.size] using htail before
    | @instruction i r span resolved length =>
      obtain ⟨operands, henc, hdec⟩ := Scope.decode_resolve resolved
      have hmeans := Scope.means_of_resolve resolved
      have hdec := hdec (UInt16.ofNat offset) (rest.flatMap Chunk.bytes)
      have hbytes : (([⟨span, UInt16.ofNat offset, r.encode⟩] : List Chunk) ++ rest).flatMap
          Chunk.bytes = r.opcode.code :: (operands ++ rest.flatMap Chunk.bytes) := by
        simp [henc]
      rw [hbytes, Listing.validateAt_of_decode hdec, Listing.disassembleAt_of_decode before hdec,
        hmeans.opcode, ← UInt16.ofNat_add]
      obtain ⟨hvalid, entries, hlisted, hdis⟩ := htail ((UInt16.ofNat offset, r) :: before)
      refine ⟨hvalid, (UInt16.ofNat offset, r) :: entries, .cons ⟨rfl, hmeans⟩ hlisted, ?_⟩
      simpa [Statement.size] using hdis

/-- Decoding undoes encoding. At the place of an instruction the bytes of a compiled program are
read as that instruction with the values of its operands, and as long as the opcode says. If there
are no data in between, the whole program is valid, and its listing has the instructions in the
order of the source, each with its place modulo 64 KiB. -/
theorem decode_compile {p : Program} {bytes : List Byte} (h : p.compile = .ok bytes) :
    ∃ scope, Scope.ofProgram p = .ok scope ∧
      (∀ (before : Program) i span after, p = before ++ ⟨.instruction i, span⟩ :: after →
        ∃ code rest r, bytes.drop before.size = code :: rest ∧ scope.Means i r ∧
          Instruction.decode (UInt16.ofNat before.size) code rest =
            .ok (r, bytes.drop (before.size + i.opcode.size))) ∧
      (p.DataFree → Listing.validate bytes = .ok () ∧
        ∃ entries, Listing.disassemble bytes = .ok entries ∧
          List.Forall₂ (Listed scope) (p.instructions 0) entries) := by
  obtain ⟨scope, chunks, hs, hencode, rfl⟩ := compile_eq_ok.mp h
  have hstart : ({} : Scope).address = UInt16.ofNat 0 := rfl
  obtain ⟨hlayout, -⟩ := layout_of_passes hstart hs hencode
  refine ⟨scope, hs, ?_, ?_⟩
  · rintro before i span after rfl
    obtain ⟨r, start, rest, hr, hlength, hbytes, hstart⟩ := hlayout.encoded
    obtain ⟨operands, henc, hdec⟩ := Scope.decode_resolve hr
    refine ⟨r.opcode.code, operands ++ rest, r, ?_, Scope.means_of_resolve hr, ?_⟩
    · rw [hbytes, ← hstart, List.drop_left, henc, List.cons_append]
    · rw [hdec, hbytes, ← hstart, ← hlength, ← List.drop_drop, List.drop_left, List.drop_left]
  · intro hp
    obtain ⟨hvalid, entries, hlisted, hdis⟩ := list_layout hlayout hp []
    exact ⟨hvalid, entries, hdis, hlisted⟩

theorem decode_compile_sample :
    ∃ scope, Scope.ofProgram (Program.sample.eraseIdx 1) = .ok scope ∧
      (∃ r, scope.Means ⟨.lsfRegLit, [.register .r1, .byte (.literal 0x101)]⟩ r ∧
        Instruction.decode 3 0x26 [0, 1, 0xFF] = .ok (r, [0xFF])) ∧
      ∃ entries, Listing.disassemble [0x4A, 0, 3, 0x26, 0, 1, 0xFF] = .ok entries ∧
        List.Forall₂ (Listed scope) (Program.instructions 0 (Program.sample.eraseIdx 1)) entries := by
  have h : Program.compile (Program.sample.eraseIdx 1) =
      .ok [0x4A, 0, 3, 0x26, 0, 1, 0xFF] := rfl
  have hfree : Program.DataFree (Program.sample.eraseIdx 1) := by
    simp [Program.DataFree, Program.sample]
  obtain ⟨scope, hs, hdecode, hlist⟩ := decode_compile h
  obtain ⟨code, rest, r, hbytes, hmeans, hdec⟩ :=
    hdecode [⟨.instruction ⟨.jmp, [.address (.symbol "end")]⟩, ⟨0, 10⟩⟩, ⟨.label "end", ⟨41, 45⟩⟩]
      ⟨.lsfRegLit, [.register .r1, .byte (.literal 0x101)]⟩ ⟨46, 58⟩ _ rfl
  cases hbytes
  exact ⟨scope, hs, ⟨r, hmeans, hdec⟩, (hlist hfree).2⟩

end Machine16
