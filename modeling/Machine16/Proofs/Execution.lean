import Machine16.Proofs.Fetching
import Machine16.Proofs.Frames

/-! Execution and decoding agree. A step fetches its operands as a listing decodes them, and does
what the reference says of the instruction that the listing has there. -/
namespace Machine16

variable {μ : Type}

namespace Exec

lemma shiftLeft_eq (amount : Word) : shiftLeft amount = Word.shiftedLeft amount := by
  funext w
  apply UInt16.toNat_inj.mp
  simp only [shiftLeft, Word.shiftedLeft, UInt32.toNat_toUInt16, UInt32.toNat_shiftLeft,
    UInt16.toNat_toUInt32, UInt16.toNat_ofNat']
  omega

lemma shiftRight_eq (amount : Word) : shiftRight amount = Word.shiftedRight amount := by
  funext w
  apply UInt16.toNat_inj.mp
  simp only [shiftRight, Word.shiftedRight, UInt32.toNat_toUInt16, UInt32.toNat_shiftRight,
    UInt16.toNat_toUInt32, UInt16.toNat_ofNat']

end Exec

/-- What the processor does for an action. -/
def Action.perform [Device μ] : Action → Exec μ Unit
  | assign r w => Exec.set r w
  | change r f => Exec.change r f
  | load r address => do Exec.set r (← Exec.readWord address)
  | store address w => Exec.store address w
  | jump address => Exec.set .ip address
  | stay => return
  | push w => Exec.push w
  | pop r => do Exec.set r (← Exec.pop)
  | call address => Exec.call address
  | ret => Exec.popState
  | interrupt vector => Exec.interrupt vector
  | rti => do
    Exec.modifyCpu fun c => { c with inHandler := false }
    Exec.popState
  | sleep milliseconds => Exec.emit (.sleep milliseconds)
  | halt => do
    Exec.modifyCpu fun c => { c with halted := true }
    Exec.emit .halt

/-- Ending a frame has nothing to do with the handler. -/
lemma View.leave?_inHandler [Device μ] (v : View μ) (b : Bool) :
    leave? { v with inHandler := b } = v.leave?.map fun v => { v with inHandler := b } := by
  have hwords (address : Word) (n : Nat) :
      ({ v with inHandler := b } : View μ).wordsFrom? address n = v.wordsFrom? address n := by
    apply wordsFrom?_congr
    rfl
  unfold leave?
  simp only [hwords]
  split
  · rename_i arguments _
    cases v.wordsFrom? (v.reg .fp + 24) arguments.toNat <;> rfl
  · rfl

namespace Exec

variable [Device μ]

lemma Refines.perform (act : Action) : Refines (act.perform : Exec μ Unit) fun v =>
    (act.run? v).map fun v => ((), v) := by
  cases act with
  | assign r w => exact set r w
  | change r f => exact (get r).bind fun w => set r (f w)
  | load r address =>
    refine ((readWord address).bind fun w => set r w).congr fun v => ?_
    cases h : v.readWord? address <;> simp [Action.run?, h]
  | store address w => exact store address w
  | jump address => exact set .ip address
  | stay => exact pure ()
  | push w => exact push w
  | pop r =>
    refine (pop.bind fun w => set r w).congr fun v => ?_
    cases h : v.readWord? (v.reg .sp + 2) with
    | none => simp [Action.run?, h]
    | some w => simp [Action.run?, h, View.dropped]
  | call address => exact call address
  | ret => exact popState
  | interrupt vector => exact interrupt vector
  | rti =>
    refine ((setHandler false).bind fun _ => popState).congr fun v => ?_
    simp only [Option.bind_some, View.leave?_inHandler, Action.run?]
    cases v.leave? <;> rfl
  | sleep milliseconds => exact emit _
  | halt =>
    have hhalt : Refines (modifyCpu fun c => { c with halted := true } : Exec μ Unit) fun v =>
        some ((), { v with halted := true }) := fun _ => rfl
    exact hhalt.bind fun _ => emit .halt

lemma Refines.perform_asks (act : Action) : Refines (do act.perform; return act.asks : Exec μ Step)
    fun v => (act.run? v).map fun v => (act.asks, v) := by
  refine ((perform act).bind fun _ => pure act.asks).congr fun v => ?_
  cases act.run? v <;> rfl

lemma jumpIf_eq {relation : Word → Word → Bool} {w address : Word} {c : Prop} [Decidable c]
    {m : Machine μ} (h : relation w (m.cpu.get .acc) = decide c) :
    jumpIf relation w address m = (if c then Action.jump address else .stay).perform m := by
  change (if relation w (m.cpu.get .acc) = true then Exec.set .ip address else pure ()) m = _
  rw [h]
  by_cases hc : c
  · simp [hc, Action.perform]
  · simp [hc, Action.perform]

/-- Once the operands have been fetched, an instruction does what its action says. The accumulator
has not changed since the step began. -/
lemma perform_eq (op : Opcode) (a : op.format.Fetched) {reg : Register → Word}
    {os : List (Operand Word)} (hread : op.format.readings a = Operand.readings reg (reg .ip + 1) os) :
    ∃ act, (⟨op, os⟩ : Instruction Word).action? reg = some act ∧ act.asks = outcome op a ∧
      ∀ m : Machine μ, m.cpu.get .acc = reg .acc → perform op a m = act.perform m := by
  unfold Instruction.action?
  rw [← hread]
  -- shifts and jumps are written otherwise, all the others are the same on both sides
  cases op with
  | lsfRegLit | lsfRegReg =>
    refine ⟨_, rfl, rfl, fun m _ => ?_⟩
    rw [← shiftLeft_eq]
    rfl
  | rsfRegLit | rsfRegReg =>
    refine ⟨_, rfl, rfl, fun m _ => ?_⟩
    rw [← shiftRight_eq]
    rfl
  | jneLit | jneReg =>
    refine ⟨_, rfl, ?_, fun m hacc => ?_⟩
    · split_ifs <;> rfl
    · unfold perform
      refine jumpIf_eq ?_
      rw [hacc, bne, beq_eq_decide, decide_not]
  | jeqLit | jeqReg =>
    refine ⟨_, rfl, ?_, fun m hacc => ?_⟩
    · split_ifs <;> rfl
    · unfold perform
      refine jumpIf_eq ?_
      rw [hacc, beq_eq_decide]
  | jltLit | jltReg | jgtLit | jgtReg | jleLit | jleReg | jgeLit | jgeReg =>
    refine ⟨_, rfl, ?_, fun m hacc => ?_⟩
    · split_ifs <;> rfl
    · unfold perform
      refine jumpIf_eq ?_
      rw [hacc]
  | _ => exact ⟨_, rfl, rfl, fun _ _ => rfl⟩

omit [Device μ] in
lemma bind_congr_at {α β : Type} {x x' : Exec μ α} {y : α → Exec μ β} {m : Machine μ}
    (h : x m = x' m) : (x >>= y) m = (x' >>= y) m := by
  change EStateM.bind x y m = EStateM.bind x' y m
  simp only [EStateM.bind, h]

lemma step_of_halted {m : Machine μ} (h : m.cpu.halted = true) : step m = .ok .halt m := by
  change (if m.cpu.halted = true then pure .halt else fetchByte >>= execute : Exec μ Step) m = _
  rw [h, if_pos rfl]
  rfl

lemma step_of_running {m : Machine μ} (h : m.cpu.halted = false) :
    step m = (fetchByte >>= execute) m := by
  change (if m.cpu.halted = true then pure .halt else fetchByte >>= execute : Exec μ Step) m = _
  rw [h, if_neg Bool.false_ne_true]

/-- A step begins with the byte at `ip`. -/
lemma step_eq_execute {m : Machine μ} (hrun : m.cpu.halted = false) {ip : Word}
    (hip : m.view.reg .ip = ip) {code : Byte} (hcode : m.view.readByte? ip = some code) :
    ∃ m', m'.view = m.view.set .ip (ip + 1) ∧ step m = execute code m' := by
  subst hip
  obtain ⟨m', hm, hview⟩ := observe_eq_some.mp
    ((Refines.fetchByte m).trans (congrArg (Option.map _) hcode))
  exact ⟨m', hview, (step_of_running hrun).trans (bind_of_ok hm)⟩

omit [Device μ] in
/-- Operands are read as at the beginning of the step, also once the opcode has been fetched. -/
lemma readings_of_view_eq {m m₁ : Machine μ}
    (h : m₁.view = m.view.set .ip (m.view.reg .ip + 1)) (os : List (Operand Word)) :
    Operand.readings m₁.view.reg (m₁.view.reg .ip) os =
      Operand.readings m.view.reg (m.view.reg .ip + 1) os := by
  have hip : m₁.view.reg .ip = m.view.reg .ip + 1 := by simp [h]
  have hreg : m₁.view.reg = Function.update m.view.reg .ip (m.view.reg .ip + 1) := by
    rw [h]
    rfl
  rw [hip, hreg, Operand.readings_update]

/-- Once its operands have been fetched, a step is the effect of the instruction that they make. -/
lemma execute_of_fetch {m m₁ m₂ : Machine μ} {code : Byte} (hstep : step m = execute code m₁)
    {op : Opcode} (hop : Opcode.ofByte? code = some op)
    (hview₁ : m₁.view = m.view.set .ip (m.view.reg .ip + 1)) {a : op.format.Fetched}
    (hfetch : fetch op.format m₁ = .ok a m₂)
    (hview₂ : m₂.view = m₁.view.set .ip (m₁.view.reg .ip + UInt16.ofNat op.format.width))
    {os : List (Operand Word)}
    (hread : op.format.readings a = Operand.readings m₁.view.reg (m₁.view.reg .ip) os) :
    observe (step m) = (⟨op, os⟩ : Instruction Word).effect? m.view := by
  rw [readings_of_view_eq hview₁] at hread
  obtain ⟨act, hact, hasks, hperform⟩ := perform_eq (μ := μ) op a hread
  have hview : m₂.view = m.view.set .ip (m.view.reg .ip + UInt16.ofNat op.size) := by
    rw [hview₂, hview₁, View.set_set, View.reg_set, if_pos rfl, UInt16.add_assoc, Opcode.size,
      Format.size_eq, Nat.add_comm _ 1, UInt16.ofNat_add]
    rfl
  have hacc : m₂.cpu.get .acc = m.view.reg .acc := by
    change m₂.view.reg .acc = m.view.reg .acc
    simp [hview]
  have hexecute : step m = (do act.perform; return act.asks : Exec μ Step) m₂ := by
    rw [hstep, execute, hop, hasks]
    exact (bind_of_ok hfetch).trans (bind_congr_at (hperform m₂ hacc))
  rw [hexecute]
  refine (Refines.perform_asks act m₂).trans ?_
  simp only [Instruction.effect?, hact, ← hview, Option.bind_eq_bind, Option.bind_some]
  cases act.run? m₂.view <;> rfl

variable [Bytewise μ]

/-- A step at an opcode is the effect of the instruction that is decoded there, if its bytes can be
read. -/
lemma step_of_some {m : Machine μ} (hrun : m.cpu.halted = false) {ip : Word}
    (hip : m.view.reg .ip = ip) {code : Byte} (hcode : m.view.readByte? ip = some code) {op : Opcode}
    (hop : Opcode.ofByte? code = some op) (hend : ip.toNat + op.size ≤ 0x10000) {bs : List Byte}
    (h : m.view.bytesFrom? (ip + 1) op.format.width = some bs) :
    ∃ i, Instruction.decode ip code bs = .ok (i, []) ∧ i.opcode = op ∧
      observe (step m) = i.effect? m.view := by
  obtain ⟨m₁, hview₁, hstep⟩ := step_eq_execute hrun hip hcode
  rw [Opcode.size, Format.size_eq, Nat.add_comm _ 1] at hend
  rw [← View.bytesFrom?_set _ .ip (ip + 1), ← hview₁] at h
  have hip₁ : m₁.view.reg .ip = ip + 1 := by simp [hview₁]
  have hend₁ : (ip + 1).toNat + op.format.width ≤ 0x10000 := add_le_of_add_le hend
  obtain ⟨a, os, hfetch, hdecode, hread⟩ := fetch_of_some op.format m₁ hip₁ hend₁ h
  obtain ⟨m₂, hm₂, hview₂⟩ := observe_eq_some.mp hfetch
  subst hip
  refine ⟨⟨op, os⟩, ?_, rfl, execute_of_fetch hstep hop hview₁ hm₂ ?_ ?_⟩
  · simp only [Instruction.decode, hop, hdecode]
  · rw [hview₂, hip₁]
  · rw [hread, hip₁]

lemma step_of_none {m : Machine μ} (hrun : m.cpu.halted = false) {ip : Word}
    (hip : m.view.reg .ip = ip) {code : Byte} (hcode : m.view.readByte? ip = some code) {op : Opcode}
    (hop : Opcode.ofByte? code = some op) (hend : ip.toNat + op.size ≤ 0x10000)
    (h : m.view.bytesFrom? (ip + 1) op.format.width = none) : observe (step m) = none := by
  obtain ⟨m₁, hview₁, hstep⟩ := step_eq_execute hrun hip hcode
  rw [Opcode.size, Format.size_eq, Nat.add_comm _ 1] at hend
  rw [← View.bytesFrom?_set _ .ip (ip + 1), ← hview₁] at h
  have hip₁ : m₁.view.reg .ip = ip + 1 := by simp [hview₁]
  have hend₁ : (ip + 1).toNat + op.format.width ≤ 0x10000 := add_le_of_add_le hend
  rw [hstep, execute, hop]
  exact observe_bind_of_none (fetch_of_none op.format m₁ hip₁ hend₁ h)

end Exec
namespace Action

variable [Device μ]

/-- An action that does not redirect the program leaves `ip` where it is. -/
lemma reg_ip_of_run? {a : Action} {v v' : View μ} (h : a.run? v = some v')
    (ha : a.redirects v = false) : v'.reg .ip = v.reg .ip := by
  cases a with
  | assign r w | change r f =>
    cases h
    have hr : r ≠ .ip := of_decide_eq_false ha
    simp [hr.symm]
  | load r address =>
    obtain ⟨w, _, h⟩ := Option.bind_eq_some_iff.mp h
    cases h
    have hr : r ≠ .ip := of_decide_eq_false ha
    simp [hr.symm]
  | pop r =>
    obtain ⟨w, _, h⟩ := Option.bind_eq_some_iff.mp h
    cases h
    have hr : r ≠ .ip := of_decide_eq_false ha
    simp [hr.symm]
  | store address w => rw [View.writeWord?_eq_some h]
  | push w =>
    rw [View.pushAll?_eq_some h]
    simp
  | interrupt vector =>
    have hv : v.enabled vector = false := ha
    simp only [run?, View.interrupt?, hv] at h
    cases h
    rfl
  | stay | sleep _ | halt =>
    cases h
    rfl
  | jump _ | call _ | ret | rti => cases ha

end Action

/-- An instruction that does not redirect the program is followed by what lies behind it. -/
lemma Instruction.reg_ip_of_effect? [Device μ] {i : Instruction Word} {v v' : View μ} {s : Step}
    (h : i.effect? v = some (s, v')) {a : Action} (ha : i.action? v.reg = some a)
    (hr : a.redirects v = false) : v'.reg .ip = v.reg .ip + UInt16.ofNat i.opcode.size := by
  obtain ⟨a', ha', h⟩ := Option.bind_eq_some_iff.mp h
  obtain ⟨u, hu, h⟩ := Option.bind_eq_some_iff.mp h
  cases h
  cases ha.symm.trans ha'
  have hr' : a.redirects (v.set .ip (v.reg .ip + UInt16.ofNat i.opcode.size)) = false := by
    rw [← hr]
    cases a with
    | interrupt vector => simp [Action.redirects, View.enabled]
    | _ => rfl
  rw [Action.reg_ip_of_run? hu hr', View.reg_set, if_pos rfl]

/-- A machine does at `ip` what is decoded there: it succeeds if all bytes of the instruction can be
read and the instruction has an effect, and then that is what it does. -/
def Machine.ExecutesAsDecoded [Device μ] (m : Machine μ) : Prop :=
  ∀ code op, m.view.readByte? (m.view.reg .ip) = some code → Opcode.ofByte? code = some op →
    (m.view.reg .ip).toNat + op.size ≤ 0x10000 → ∀ s v,
      (∃ m', Exec.step m = .ok s m' ∧ m'.view = v) ↔
        ∃ operands i, m.view.bytesFrom? (m.view.reg .ip) op.size = some (code :: operands) ∧
          Instruction.decode (m.view.reg .ip) code operands = .ok (i, []) ∧ i.opcode = op ∧
          i.effect? m.view = some (s, v) ∧ ∀ a, i.action? m.view.reg = some a →
            a.redirects m.view = false → v.reg .ip = m.view.reg .ip + UInt16.ofNat op.size

lemma Machine.executesAsDecoded [Device μ] [Bytewise μ] {m : Machine μ}
    (hrun : m.cpu.halted = false) : m.ExecutesAsDecoded := by
  intro code op hcode hop hend s v
  have hbytes : m.view.bytesFrom? (m.view.reg .ip) op.size =
      (m.view.bytesFrom? (m.view.reg .ip + 1) op.format.width).map (code :: ·) := by
    rw [Opcode.size, Format.size_eq]
    simp only [View.bytesFrom?, hcode, Option.bind_eq_bind, Option.bind_some]
    cases m.view.bytesFrom? (m.view.reg .ip + 1) op.format.width <;> rfl
  rw [← Exec.observe_eq_some, hbytes]
  constructor
  · intro h
    cases hbs : m.view.bytesFrom? (m.view.reg .ip + 1) op.format.width with
    | none =>
      rw [Exec.step_of_none hrun rfl hcode hop hend hbs] at h
      cases h
    | some bs =>
      obtain ⟨i, hi, hiop, hstep⟩ := Exec.step_of_some hrun rfl hcode hop hend hbs
      rw [hstep] at h
      refine ⟨bs, i, rfl, hi, hiop, h, fun a ha hr => ?_⟩
      rw [← hiop]
      exact Instruction.reg_ip_of_effect? h ha hr
  · rintro ⟨bs, i, hbs, hi, -, h, -⟩
    obtain ⟨bs', hbs', heq⟩ := Option.map_eq_some_iff.mp hbs
    cases heq
    obtain ⟨i', hi', -, hstep⟩ := Exec.step_of_some hrun rfl hcode hop hend hbs'
    rw [hi] at hi'
    cases hi'
    rw [hstep, h]

/-- Execution and decoding agree, on a plain memory and on any bus. -/
theorem step_decodes :
    (∀ m : Machine Ram, m.cpu.halted = false → m.ExecutesAsDecoded) ∧
      ∀ (δ : Type) [Device δ] (m : Machine (Bus δ)), m.cpu.halted = false → m.ExecutesAsDecoded :=
  ⟨fun _ h => Machine.executesAsDecoded h, fun _ _ _ h => Machine.executesAsDecoded h⟩

/-- Selector 29 names the register that selector 1 names. -/
theorem step_decodes_selector :
    let m : Machine Ram := ⟨.initial 0x1000, ⟨#[0x35, 29]⟩⟩
    ∃ m', Exec.step m = .ok .next m' ∧ m'.view = (m.view.set .ip 2).set .r2 1 :=
  (step_decodes.1 _ rfl 0x35 .incReg rfl rfl (by decide) .next _).mpr
    ⟨[29], ⟨.incReg, [.register .r2]⟩, rfl, rfl, rfl, rfl, fun _ _ _ => rfl⟩

end Machine16
