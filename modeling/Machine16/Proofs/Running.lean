import Machine16.Proofs.Decoding
import Machine16.Proofs.Execution
import Machine16.Proofs.FlatMemory

/-! A compiled program runs as it is written. As long as its bytes are what they were when they were
loaded, a machine that comes to the place of an instruction does what the source says there, and
goes on where the source goes on. -/
namespace Machine16

/-- The bytes lie in memory from the first address on. -/
def Holds {μ : Type} [Device μ] (memory : μ) (bytes : List Byte) : Prop :=
  ∀ k (h : k < bytes.length), Device.readByte memory (UInt16.ofNat k) = .ok bytes[k]

lemma View.bytesFrom?_of_holds {μ : Type} [Device μ] {v : View μ} {start bs rest : List Byte}
    (h : Holds v.memory (start ++ (bs ++ rest))) :
    v.bytesFrom? (UInt16.ofNat start.length) bs.length = some bs := by
  induction bs generalizing start with
  | nil => rfl
  | cons b bs ih =>
    have hb : v.readByte? (UInt16.ofNat start.length) = some b := by
      have hk : start.length < (start ++ (b :: bs ++ rest)).length := by simp
      rw [readByte?, h start.length hk]
      simp
      rfl
    have hbs : v.bytesFrom? (UInt16.ofNat start.length + 1) bs.length = some bs := by
      have h' : Holds v.memory ((start ++ [b]) ++ (bs ++ rest)) := by simpa using h
      simpa using ih h'
    simp [bytesFrom?, hb, hbs]

namespace Operand

/-- The register that an operand names, if it names one. -/
def register? {ε : Type} : Operand ε → Option Register
  | register r | pointer r | indirect r => some r
  | literal _ | byte _ | address _ => none

/-- Only `ip` moves while operands are read. -/
lemma readings_of_ne {os : List (Operand Word)} (h : ∀ o ∈ os, o.register? ≠ some .ip)
    (reg : Register → Word) (ip : Word) : readings reg ip os = os.map fun o => (o, o.word reg) := by
  induction os generalizing ip with
  | nil => rfl
  | cons o os ih =>
    rw [List.forall_mem_cons] at h
    have hword (w : Word) : o.word (Function.update reg .ip w) = o.word reg := by
      cases o with
      | register r | pointer r | indirect r =>
        have hr : r ≠ .ip := fun hr => h.1 (congrArg some hr)
        exact Function.update_of_ne hr _ _
      | literal _ | byte _ | address _ => rfl
    rw [readings, List.map_cons, hword, ih h.2]

end Operand

lemma Scope.register?_of_forall₂ {s : Scope} {os : List (Operand Expression)}
    {ws : List (Operand Word)} (h : List.Forall₂ s.Denotes os ws)
    (hos : ∀ o ∈ os, o.register? ≠ some .ip) : ∀ w ∈ ws, w.register? ≠ some .ip := by
  induction h with
  | nil => exact fun _ hw => absurd hw List.not_mem_nil
  | cons hw _ ih =>
    rw [List.forall_mem_cons] at hos
    refine List.forall_mem_cons.mpr ⟨?_, ih hos.2⟩
    cases hw <;> exact hos.1

namespace Program

/-- The place where the statements behind `before` begin to emit bytes: that of the first block or
instruction among them, or the end of the program if there is none. -/
def startAfter (before after : Program) : Nat :=
  size (before ++ after.takeWhile fun n => !n.statement.emits)

lemma startAfter_eq_size (before after : Program) : startAfter before after = before.size := by
  have hskip : size (after.takeWhile fun n => !n.statement.emits) = 0 := by
    induction after with
    | nil => rfl
    | cons n after ih =>
      rw [List.takeWhile_cons]
      split_ifs with hn
      · rw [size_cons, ih, Statement.size_eq_zero (by simpa using hn)]
      · rfl
  rw [startAfter, size_append, hskip, Nat.add_zero]

end Program

namespace Opcode

/-- The jumps that depend on the accumulator. -/
def branches : Opcode → Bool
  | jneLit | jneReg | jeqReg | jeqLit | jltReg | jltLit | jgtReg | jgtLit | jleReg | jleLit
  | jgeReg | jgeLit => true
  | _ => false

end Opcode

namespace Instruction

/-- Where a jump or a call goes, as far as it is written in the instruction. -/
def target? {ε : Type} (i : Instruction ε) : Option ε :=
  match i.operands with
  | [.address e] => if i.opcode = .jmp then some e else none
  | [.literal e] => if i.opcode = .calLit then some e else none
  | [_, .address e] => if i.opcode.branches then some e else none
  | _ => none

lemma target?_of_means {s : Scope} {i : Instruction Expression} {r : Instruction Word}
    (h : s.Means i r) {e : Expression} (he : i.target? = some e) :
    ∃ w, s.evaluate e = .ok w ∧ r.target? = some w := by
  obtain ⟨op, os⟩ := i
  obtain ⟨_, ws⟩ := r
  obtain ⟨rfl, hos⟩ := h
  unfold target? at he
  split at he
  · rename_i e' hos'
    obtain rfl : os = [.address e'] := hos'
    split_ifs at he with hop
    cases he
    cases hos with
    | cons hw hnil =>
      cases hw with
      | address hv =>
        cases hnil
        exact ⟨_, hv, if_pos hop⟩
  · rename_i e' hos'
    obtain rfl : os = [.literal e'] := hos'
    split_ifs at he with hop
    cases he
    cases hos with
    | cons hw hnil =>
      cases hw with
      | literal hv =>
        cases hnil
        exact ⟨_, hv, if_pos hop⟩
  · rename_i o e' hos'
    obtain rfl : os = [o, .address e'] := hos'
    split_ifs at he with hop
    cases he
    cases hos with
    | cons ho htail =>
      cases htail with
      | cons hw hnil =>
        cases hw with
        | address hv =>
          cases hnil
          cases ho <;> exact ⟨_, hv, if_pos hop⟩
  · cases he

/-- An instruction with a target goes there or nowhere. -/
lemma action?_of_target? {r : Instruction Word} {w : Word} (hw : r.target? = some w)
    (reg : Register → Word) :
    r.action? reg = some (.jump w) ∨ r.action? reg = some .stay ∨ r.action? reg = some (.call w) := by
  obtain ⟨op, os⟩ := r
  unfold target? at hw
  split at hw
  · rename_i w' hos
    obtain rfl : os = [.address w'] := hos
    split_ifs at hw with hop
    cases hw
    obtain rfl : op = .jmp := hop
    exact .inl rfl
  · rename_i w' hos
    obtain rfl : os = [.literal w'] := hos
    split_ifs at hw with hop
    cases hw
    obtain rfl : op = .calLit := hop
    exact .inr (.inr rfl)
  · rename_i o w' hos
    obtain rfl : os = [o, .address w'] := hos
    split_ifs at hw with hop
    cases hw
    have hbranch : ∃ (c : Prop) (_ : Decidable c),
        (⟨op, [o, .address w]⟩ : Instruction Word).action? reg =
          some (if c then .jump w else .stay) := by
      cases op with
      | jneLit | jneReg | jeqReg | jeqLit | jltReg | jltLit | jgtReg | jgtLit | jleReg | jleLit
      | jgeReg | jgeLit => exact ⟨_, _, rfl⟩
      | _ => cases hop
    obtain ⟨c, _, hc⟩ := hbranch
    by_cases h : c
    · rw [hc, if_pos h]
      exact .inl rfl
    · rw [hc, if_neg h]
      exact .inr (.inl rfl)
  · cases hw

variable {μ : Type} [Device μ]

/-- Where a jump that is taken or a call goes on. -/
lemma reg_ip_of_target? {i : Instruction Word} {v v' : View μ} {s : Step}
    (h : i.effect? v = some (s, v')) {w : Word} (hw : i.target? = some w) {a : Action}
    (ha : i.action? v.reg = some a) (hr : a.redirects v = true) : v'.reg .ip = w := by
  obtain ⟨a', ha', h⟩ := Option.bind_eq_some_iff.mp h
  obtain ⟨u, hu, h⟩ := Option.bind_eq_some_iff.mp h
  cases h
  cases ha.symm.trans ha'
  obtain hjump | hstay | hcall := action?_of_target? hw v.reg
  · cases ha.symm.trans hjump
    cases hu
    simp
  · cases ha.symm.trans hstay
    cases hr
  · cases ha.symm.trans hcall
    obtain ⟨u', _, h⟩ := Option.bind_eq_some_iff.mp hu
    cases h
    simp

end Instruction

/-- A label stands for the place where it is declared. -/
lemma evaluate_label {scope : Scope} {before after : Program} {name : String} {span : Span}
    {cs : List Chunk} (h : Layout scope 0 (before ++ ⟨.label name, span⟩ :: after) cs) :
    scope.evaluate (.symbol name) = .ok (UInt16.ofNat before.size) := by
  obtain ⟨_, _, _, _, _, laid⟩ := h.split
  cases laid with
  | label bound => simp only [Scope.evaluate, SymbolTable.resolve, bound]

lemma step_of_holds {μ : Type} [Device μ] [Bytewise μ] {m : Machine μ} {scope : Scope}
    {before after : Program} {i : Instruction Expression} {span : Span} {cs : List Chunk}
    (hlayout : Layout scope 0 (before ++ ⟨.instruction i, span⟩ :: after) cs)
    (hlength : (cs.flatMap Chunk.bytes).length ≤ 0x10000)
    (hm : Holds m.memory (cs.flatMap Chunk.bytes)) (hrun : m.cpu.halted = false)
    (hip : m.view.reg .ip = UInt16.ofNat before.size) :
    ∃ r, scope.Means i r ∧ Exec.observe (Exec.step m) = r.effect? m.view := by
  obtain ⟨r, start, rest, hr, hsize, hbytes, hstart⟩ := hlayout.encoded
  obtain ⟨operands, henc, hdec⟩ := Scope.decode_resolve hr
  have hmeans := Scope.means_of_resolve hr
  rw [hbytes] at hm hlength
  have hwidth : operands.length = r.opcode.format.width := by
    rw [henc, ← hmeans.opcode, Opcode.size, Format.size_eq, List.length_cons] at hsize
    exact Nat.succ.inj hsize
  have hall : m.view.bytesFrom? (UInt16.ofNat start.length) r.encode.length = some r.encode :=
    View.bytesFrom?_of_holds hm
  rw [henc, hstart, List.length_cons] at hall
  obtain ⟨code, hcode, hall⟩ := Option.bind_eq_some_iff.mp hall
  obtain ⟨bs, hoperands, hall⟩ := Option.bind_eq_some_iff.mp hall
  cases hall
  rw [hwidth] at hoperands
  have hend : (UInt16.ofNat before.size).toNat + r.opcode.size ≤ 0x10000 := by
    rw [List.length_append, List.length_append, hstart, hsize, ← hmeans.opcode] at hlength
    rw [UInt16.toNat_ofNat']
    omega
  obtain ⟨r', hdec', -, hstep⟩ :=
    Exec.step_of_some hrun hip hcode (Opcode.ofByte?_code _) hend hoperands
  have hdec := hdec (UInt16.ofNat before.size) []
  rw [List.append_nil, hdec'] at hdec
  cases hdec
  exact ⟨r, hmeans, hstep⟩

/-- A step from one machine to another is what the source says: the instruction `i` behind `before`
with the values of its operands, which are those of the registers before the step unless `ip` is one
of them. Where it does not redirect the program, what lies behind it is next; where it jumps to a
label or calls it, what lies behind the label is. -/
structure StepsAsWritten {μ : Type} [Device μ] (scope : Scope) (p before after : Program)
    (i : Instruction Expression) (span : Span) (m m' : Machine μ) (r : Instruction Word) (a : Action)
    (s : Step) : Prop where
  means : scope.Means i r
  step : Exec.step m = .ok s m'
  effect : r.effect? m.view = some (s, m'.view)
  action : r.action? m.view.reg = some a
  values : (∀ o ∈ i.operands, o.register? ≠ some .ip) →
    Operand.readings m.view.reg (m.view.reg .ip + 1) r.operands =
      r.operands.map fun o => (o, o.word m.view.reg)
  next : a.redirects m.view = false →
    m'.view.reg .ip = UInt16.ofNat (Program.startAfter (before ++ [⟨.instruction i, span⟩]) after)
  label : ∀ above name labelSpan below, p = above ++ ⟨.label name, labelSpan⟩ :: below →
    i.target? = some (.symbol name) → a.redirects m.view = true →
      m'.view.reg .ip = UInt16.ofNat (Program.startAfter (above ++ [⟨.label name, labelSpan⟩]) below)

lemma stepsAsWritten_of_holds {m : Machine (Bus Peripheral)} (hflat : m.memory.IsFlat)
    {scope : Scope} {p before after : Program} {i : Instruction Expression} {span : Span}
    {cs : List Chunk} (hp : p = before ++ ⟨.instruction i, span⟩ :: after)
    (hlayout : Layout scope 0 p cs) (hlength : (cs.flatMap Chunk.bytes).length ≤ 0x10000)
    (hm : Holds m.memory (cs.flatMap Chunk.bytes)) (hrun : m.cpu.halted = false)
    (hip : m.view.reg .ip = UInt16.ofNat before.size) :
    ∃ m' r a s, StepsAsWritten scope p before after i span m m' r a s := by
  obtain ⟨s, m', hstep, -⟩ := Exec.Total.step Bus.reliable_isFlat m hflat
  obtain ⟨r, hmeans, heffect⟩ := step_of_holds (hp ▸ hlayout) hlength hm hrun hip
  rw [hstep] at heffect
  obtain ⟨a, ha, -⟩ := Option.bind_eq_some_iff.mp heffect.symm
  refine ⟨m', r, a, s, hmeans, hstep, heffect.symm, ha, fun h => ?_, ?_, ?_⟩
  · exact Operand.readings_of_ne (Scope.register?_of_forall₂ hmeans.operands h) _ _
  · intro hr
    rw [Instruction.reg_ip_of_effect? heffect.symm ha hr, hip, ← UInt16.ofNat_add, hmeans.opcode,
      Program.startAfter_eq_size]
    simp [Statement.size]
  · intro above name labelSpan below hsplit htarget hr
    obtain ⟨w, hw, htarget⟩ := Instruction.target?_of_means hmeans htarget
    cases hw.symm.trans (evaluate_label (hsplit ▸ hlayout))
    rw [Instruction.reg_ip_of_target? heffect.symm htarget ha hr, Program.startAfter_eq_size]
    simp [Statement.size]

lemma Bus.holds_fill {ram : Ram} (hram : ram.size = 0x10000) {bytes : List Byte}
    (hlength : bytes.length ≤ 0x10000) : Holds (Bus.flat (ram.fill 0 bytes)) bytes := by
  intro k hk
  have hsize : (ram.fill 0 bytes).size = 0x10000 := by rw [Ram.size_fill, hram]
  have hk' : (UInt16.ofNat k).toNat = k := by
    rw [UInt16.toNat_ofNat']
    omega
  have hbyte : (ram.fill 0 bytes).byte (0 + k) = bytes[k] := Ram.byte_fill (by omega) hk
  rw [Nat.zero_add] at hbyte
  refine (Bus.readByte_flat hsize _).trans ?_
  rw [hk', hbyte]

/-- What is loaded at the first address lies there. -/
lemma Bus.bytesFrom?_fill {ram : Ram} (hram : ram.size = 0x10000) {bytes : List Byte}
    (hlength : bytes.length ≤ 0x10000) (cpu : Cpu) :
    (⟨cpu, .flat (ram.fill 0 bytes)⟩ : Machine (Bus Peripheral)).view.bytesFrom? 0 bytes.length =
      some bytes := by
  have hholds : Holds (Bus.flat (ram.fill 0 bytes)) ([] ++ (bytes ++ [])) := by
    simpa using Bus.holds_fill hram hlength
  exact View.bytesFrom?_of_holds (v := Machine.view ⟨cpu, _⟩) hholds

/-- A compiled program runs as it is written. It is loaded into a memory over all addresses, and the
machine may have made any number of steps; if it has not halted, the bytes of the program are what
they were and `ip` is the place of an instruction, then the next step is that instruction. -/
theorem step_compile {p : Program} {bytes : List Byte} (hp : p.compile = .ok bytes)
    (hlength : bytes.length ≤ 0x10000) {ram : Ram} (hram : ram.size = 0x10000) (cpu : Cpu) :
    ∃ scope bus, Scope.ofProgram p = .ok scope ∧
      (do let _ ← Bus.map 0 0 0xFFFF true; Bus.load 0 bytes : Update (Bus Peripheral) Unit)
        (Bus.attach {} (.ram ram)) = .ok () bus ∧ Holds bus bytes ∧
      ∀ n m, Machine.next^[n] ⟨cpu, bus⟩ = m → m.cpu.halted = false → Holds m.memory bytes →
        ∀ before i span after, p = before ++ ⟨.instruction i, span⟩ :: after →
          m.view.reg .ip = UInt16.ofNat before.size →
            ∃ m' r a s, StepsAsWritten scope p before after i span m m' r a s := by
  obtain ⟨scope, chunks, hs, hencode, rfl⟩ := compile_eq_ok.mp hp
  have hstart : ({} : Scope).address = UInt16.ofNat 0 := rfl
  obtain ⟨hlayout, -⟩ := layout_of_passes hstart hs hencode
  refine ⟨scope, .flat (ram.fill 0 _), hs, Bus.map_load_flat hram _, Bus.holds_fill hram hlength, ?_⟩
  intro n m hn hrun hm before i span after hsplit hip
  have hloaded : Bus.IsFlat (.flat (ram.fill 0 (chunks.flatMap Chunk.bytes))) :=
    ⟨_, (Ram.size_fill _ _ _).trans hram, rfl⟩
  have hflat : m.memory.IsFlat := by
    rw [← hn]
    exact Machine.iterate_next Bus.reliable_isFlat hloaded n
  exact stepsAsWritten_of_holds hflat hsplit hlayout hlength hm hrun hip

theorem step_compile_sample :
    ∃ scope, ∃ (bus : Bus Peripheral), ∃ m' r a s,
      StepsAsWritten scope .sample [] Program.sample.tail
        ⟨.jmp, [.address (.symbol "end")]⟩ ⟨0, 10⟩ ⟨.initial 0x1000, bus⟩ m' r a s ∧
        m'.view.reg .ip = 7 := by
  have hp : Program.sample.compile = .ok [0x4A, 0, 7, 0, 1, 0, 2, 0x26, 0, 1, 0xFF] := rfl
  obtain ⟨scope, bus, -, -, hbytes, h⟩ :=
    step_compile hp (by decide) (Ram.size_zeros 0x10000) (.initial 0x1000)
  obtain ⟨m', ⟨op, os⟩, a, s, hstep⟩ := h 0 _ rfl rfl hbytes [] _ _ _ rfl rfl
  refine ⟨scope, bus, m', _, a, s, hstep, ?_⟩
  obtain ⟨hop, hos⟩ := hstep.means
  obtain rfl : op = .jmp := hop
  cases hos with
  | cons hw hnil =>
    cases hw
    cases hnil
    have hr : a.redirects (Machine.view ⟨.initial 0x1000, bus⟩) = true := by
      cases hstep.action
      rfl
    exact hstep.label (Program.sample.take 2) "end" ⟨41, 45⟩ _ rfl rfl hr

end Machine16
