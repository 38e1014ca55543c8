import Machine16.Proofs.Moves
import Machine16.Proofs.Running

/-! The size of the current frame. The processor counts it apart from `fp` and `sp`, and a return
relies on it to find the frame before. Whatever is pushed, popped, called and interrupted, the counter
is the distance between the two registers, unless a program writes one of them itself. -/
namespace Machine16

variable {μ α β : Type}

/-- The size of the frame is the distance from `sp` up to `fp`. -/
def View.Balanced (v : View μ) : Prop := v.reg .fp - v.reg .sp = v.frameSize

/-- The register that an instruction names for its result. -/
def Instruction.destination? {ε : Type} (i : Instruction ε) : Option Register :=
  match i.opcode, i.operands with
  | .movLitReg, [_, .register r] | .movRegReg, [_, .register r] | .movMemReg, [_, .register r]
  | .movRegPtrReg, [_, .register r] | .movLitOffReg, [_, _, .register r]
  | .incReg, [.register r] | .decReg, [.register r] | .pop, [.register r]
  | .lsfRegLit, [.register r, _] | .lsfRegReg, [.register r, _]
  | .rsfRegLit, [.register r, _] | .rsfRegReg, [.register r, _] => some r
  | _, _ => none

namespace Action

/-- The register that receives the result of an action. -/
def result? : Action → Option Register
  | assign r _ | change r _ | load r _ | pop r => some r
  | _ => none

end Action

/-- Results that do not go to the destination go to the accumulator. -/
lemma Instruction.result?_of_readings {op : Opcode} {a : op.format.Fetched} {reg : Register → Word}
    {os : List (Operand Word)} (hread : op.format.readings a = Operand.readings reg (reg .ip + 1) os)
    {act : Action} (h : (⟨op, os⟩ : Instruction Word).action? reg = some act) :
    act.result? = none ∨ act.result? = some .acc ∨
      act.result? = (⟨op, os⟩ : Instruction Word).destination? := by
  unfold action? at h
  rw [← hread] at h
  obtain rfl : (op.format.readings a).map Prod.fst = os := by rw [hread, Operand.map_fst_readings]
  cases op with
  | movLitReg | movRegReg | movMemReg | movRegPtrReg | movLitOffReg | incReg | decReg | pop
  | lsfRegLit | lsfRegReg | rsfRegLit | rsfRegReg =>
    obtain rfl := Option.some.inj h
    exact .inr (.inr rfl)
  | addRegReg | addLitReg | subLitReg | subRegLit | subRegReg | mulLitReg | mulRegReg | andRegLit
  | andRegReg | orRegLit | orRegReg | xorRegLit | xorRegReg | not =>
    obtain rfl := Option.some.inj h
    exact .inr (.inl rfl)
  | jneLit | jneReg | jeqLit | jeqReg | jltLit | jltReg | jgtLit | jgtReg | jleLit | jleReg | jgeLit
  | jgeReg =>
    obtain rfl := Option.some.inj h
    split_ifs <;> exact .inl rfl
  | _ =>
    obtain rfl := Option.some.inj h
    exact .inl rfl

namespace View.Balanced

variable {v v' : View μ}

lemma set (h : v.Balanced) {r : Register} (hsp : r ≠ .sp) (hfp : r ≠ .fp) (w : Word) :
    (v.set r w).Balanced := by
  simpa [Balanced, hsp.symm, hfp.symm] using h

lemma dropped (h : v.Balanced) (n : Nat) : (v.dropped n).Balanced := by
  simp [Balanced, View.dropped] at h ⊢
  grind

variable [Device μ]

lemma of_pushAll? (h : v.Balanced) {ws : List Word} (hv : v.pushAll? ws = some v') :
    v'.Balanced := by
  rw [pushAll?_eq_some hv]
  simp [Balanced] at h ⊢
  grind

/-- A frame that begins is empty. -/
lemma of_enter? {address : Word} (hv : v.enter? address = some v') : v'.Balanced := by
  rw [enter?_eq_some hv]
  simp [Balanced]

/-- However a frame ends, the size of the one before is the distance again. -/
lemma of_leave? (hv : v.leave? = some v') : v'.Balanced := by
  rw [leave?_eq_some hv]
  rfl

lemma of_interrupt? (h : v.Balanced) {vector : Word} (hv : v.interrupt? vector = some v') :
    v'.Balanced := by
  unfold interrupt? at hv
  split_ifs at hv with henabled
  · obtain ⟨handler, _, hv⟩ := Option.bind_eq_some_iff.mp hv
    unfold handle? at hv
    split_ifs at hv with hhandler
    · cases hv
      exact h.set (by decide) (by decide) handler
    · obtain ⟨u, _, hv⟩ := Option.bind_eq_some_iff.mp hv
      obtain ⟨u', hu', hv⟩ := Option.bind_eq_some_iff.mp hv
      cases hv
      have hentered : u'.Balanced := of_enter? hu'
      exact hentered
  · cases hv
    exact h

/-- Actions with a result other than `sp` and `fp` preserve the balance. -/
lemma of_run? (h : v.Balanced) {a : Action} (hv : a.run? v = some v')
    (hsp : a.result? ≠ some .sp) (hfp : a.result? ≠ some .fp) : v'.Balanced := by
  have hset {u : View μ} (hu : u.Balanced) {r : Register} (hr : a.result? = some r) (w : Word) :
      (u.set r w).Balanced :=
    hu.set (fun hsp' => hsp (hsp' ▸ hr)) (fun hfp' => hfp (hfp' ▸ hr)) w
  cases a with
  | assign r w | change r f =>
    cases hv
    exact hset h rfl _
  | load r address =>
    obtain ⟨w, _, heq⟩ := Option.bind_eq_some_iff.mp hv
    cases heq
    exact hset h rfl w
  | pop r =>
    obtain ⟨w, _, heq⟩ := Option.bind_eq_some_iff.mp hv
    cases heq
    exact hset (h.dropped 1) rfl w
  | store address w =>
    rw [writeWord?_eq_some hv]
    exact h
  | jump address =>
    cases hv
    exact h.set (by decide) (by decide) address
  | push w => exact h.of_pushAll? hv
  | call address => exact of_enter? hv
  | ret => exact of_leave? hv
  | interrupt vector => exact h.of_interrupt? hv
  | rti =>
    obtain ⟨u, hu, heq⟩ := Option.bind_eq_some_iff.mp hv
    cases heq
    have hleft : u.Balanced := of_leave? hu
    exact hleft
  | stay | sleep _ | halt =>
    cases hv
    exact h

end View.Balanced

namespace Exec

/-- The machine after an operation, also after one that has failed. -/
def after : EStateM.Result MemoryError (Machine μ) α → Machine μ
  | .ok _ m | .error _ m => m

/-- An operation preserves a property, whether it succeeds or fails. -/
def Keeps (P : View μ → Prop) (x : Exec μ α) : Prop := ∀ m, P m.view → P (after (x m)).view

namespace Keeps

variable {P : View μ → Prop}

lemma of_refines {x : Exec μ α} {f : View μ → Option (α × View μ)} (hx : Refines x f)
    (hf : ∀ v, P v → ∃ a v', f v = some (a, v') ∧ P v') : Keeps P x := by
  intro m h
  obtain ⟨a, v', hv, h'⟩ := hf m.view h
  obtain ⟨m', hm, rfl⟩ := observe_eq_some.mp ((hx m).trans hv)
  rwa [hm]

lemma bind {x : Exec μ α} {y : α → Exec μ β} (hx : Keeps P x) (hy : ∀ a, Keeps P (y a)) :
    Keeps P (x >>= y) := by
  intro m h
  have h' := hx m h
  cases hm : x m with
  | ok a m' =>
    rw [hm] at h'
    rw [bind_of_ok hm]
    exact hy a m' h'
  | error e m' =>
    rw [hm] at h'
    rwa [bind_of_error hm]

lemma get (r : Register) : Keeps P (get r) := fun _ h => h

lemma cpu : Keeps P cpu := fun _ h => h

variable [Device μ]

lemma readWord (address : Word) : Keeps P (readWord address : Exec μ Word) := by
  intro m h
  have hsame : after (Exec.readWord address m) = m := by
    rw [Exec.readWord_eq]
    cases Device.readWord m.memory address <;> rfl
  rwa [hsame]

lemma store (hP : ∀ v memory, P v → P { v with memory }) (address w : Word) :
    Keeps P (store address w : Exec μ Unit) := by
  have hwrite : Keeps P (writeWord address w : Exec μ Unit) := by
    rintro ⟨c, memory⟩ h
    cases hw : Device.writeWord address w memory <;>
    · simp only [Exec.writeWord_eq, hw]
      exact hP _ _ h
  exact hwrite.bind fun _ _ h => h

/-- A word that cannot be written is not pushed. -/
lemma push (w : Word) : Keeps View.Balanced (push w : Exec μ Unit) := by
  intro m h
  cases hm : Exec.push w m with
  | ok a m' =>
    exact h.of_pushAll? ((Refines.push w).view_of_ok hm)
  | error e m' =>
    have hstored := store (fun _ _ h => h) (m.cpu.get .sp) w m h
    change (Exec.store (m.cpu.get .sp) w >>= fun _ => _) m = _ at hm
    cases hstore : Exec.store (m.cpu.get .sp) w m with
    | ok _ u =>
      -- what comes after the write does not fail
      rw [bind_of_ok hstore] at hm
      cases hm
    | error e' u =>
      rw [bind_of_error hstore] at hm
      cases hm
      rwa [hstore] at hstored

/-- A word that cannot be read has left the stack all the same. -/
lemma pop : Keeps View.Balanced (pop : Exec μ Word) := by
  intro m h
  have hmove : Refines (do
      let sp ← Exec.get .sp
      Exec.set .sp (sp + 2)
      Exec.resizeFrame (· - 2) : Exec μ Unit) fun v => some ((), v.dropped 1) := by
    refine ((Refines.get .sp).bind fun sp => (Refines.set .sp (sp + 2)).bind fun _ =>
      Refines.resizeFrame (· - 2)).congr fun v => ?_
    simp [View.dropped]
  obtain ⟨u, hu, hview⟩ := observe_eq_some.mp (hmove m)
  have hpop : Exec.pop m = Exec.readWord (m.cpu.get .sp + 2) u :=
    bind_of_ok (y := fun _ => Exec.readWord (m.cpu.get .sp + 2)) hu
  rw [hpop]
  refine readWord _ u ?_
  rw [hview]
  exact h.dropped 1

lemma pushRegisters (rs : List Register) :
    Keeps View.Balanced (pushRegisters rs : Exec μ Unit) := by
  induction rs with
  | nil => exact fun _ h => h
  | cons r rs ih => exact (get r).bind fun w => (push w).bind fun _ => ih

/-- The new frame begins only when everything has been saved. -/
lemma pushState : Keeps View.Balanced (pushState : Exec μ Unit) := by
  have hbegin : Refines (do
      Exec.set .fp (← Exec.get .sp)
      Exec.resizeFrame fun _ => 0 : Exec μ Unit) fun v =>
        some ((), (v.set .fp (v.reg .sp)).withStack (v.reg .sp) 0) := by
    refine ((Refines.get .sp).bind fun sp => (Refines.set .fp sp).bind fun _ =>
      Refines.resizeFrame fun _ => 0).congr fun v => ?_
    simp
  exact (pushRegisters _).bind fun _ => (get .ip).bind fun ip => (push ip).bind fun _ =>
    cpu.bind fun c => (push _).bind fun _ =>
      of_refines hbegin fun v _ => ⟨_, _, rfl, by simp [View.Balanced]⟩

end Keeps
end Exec

/-- A move that a program makes without writing `sp` or `fp` itself. Moves of the host do not. -/
def Machine.LeavesStack [Device μ] (m : Machine μ) (a : Move) : Prop :=
  a = .step → ∀ i, m.Executes i → i.destination? ≠ some .sp ∧ i.destination? ≠ some .fp

section

variable [Device μ] {m m' : Machine μ}

lemma Exec.balanced_of_popState (h : Exec.popState m = .ok () m') : m'.view.Balanced :=
  .of_leave? (Refines.popState.view_of_ok h)

lemma Exec.balanced_of_step {s : Step} (h : m.view.Balanced) (hm : m.LeavesStack .step)
    (hstep : Exec.step m = .ok s m') : m'.view.Balanced := by
  obtain rfl | hview | ⟨i, a, hi, hv⟩ := step_cases hstep
  · exact h
  · rw [hview]
    exact h.set (by decide) (by decide) _
  · obtain ⟨hsp, hfp⟩ := hm rfl i hi.toExecutes
    obtain ⟨operands, hread⟩ := hi.readings
    have hresult : a.result? = none ∨ a.result? = some .acc ∨ a.result? = i.destination? :=
      Instruction.result?_of_readings hread hi.action
    refine (h.set (by decide) (by decide) _).of_run? hv ?_ ?_
    · obtain hr | hr | hr := hresult <;> rw [hr] <;> first | decide | exact hsp
    · obtain hr | hr | hr := hresult <;> rw [hr] <;> first | decide | exact hfp

lemma Move.balanced_of_perform {a : Move} (h : m.view.Balanced) (hm : m.LeavesStack a)
    (hperform : a.perform m = .ok () m') : m'.view.Balanced := by
  have hkept {α : Type} {x : Exec μ α} (hx : Exec.Keeps View.Balanced x) {b : α}
      (hm' : x m = .ok b m') : m'.view.Balanced := by
    have := hx m h
    rwa [hm'] at this
  cases a with
  | step =>
    obtain ⟨s, hstep⟩ := Exec.discard_eq_ok.mp hperform
    exact Exec.balanced_of_step h hm hstep
  | push w => exact hkept (.push w) hperform
  | pop =>
    obtain ⟨w, hpop⟩ := Exec.discard_eq_ok.mp hperform
    exact hkept .pop hpop
  | pushState => exact hkept .pushState hperform
  | popState => exact Exec.balanced_of_popState hperform
  | interrupt vector => exact h.of_interrupt? ((Exec.Refines.interrupt vector).view_of_ok hperform)

/-- Returns restore the balance from any state. -/
lemma Exec.balanced_of_return {i : Instruction Word} {s : Step} (hi : m.Does i .ret ∨ m.Does i .rti)
    (hstep : Exec.step m = .ok s m') : m'.view.Balanced := by
  obtain hret | hrti := hi
  · exact .of_leave? (hret.run? hstep)
  · obtain ⟨v, hv, heq⟩ := Option.bind_eq_some_iff.mp (hrti.run? hstep)
    rw [← Option.some.inj heq]
    have hleft : v.Balanced := .of_leave? hv
    exact hleft

omit [Device μ] in
lemma View.balanced_initial (memory : μ) (table : Word) :
    (⟨.initial table, memory⟩ : Machine μ).view.Balanced := by
  simp [Balanced, Machine.view, Cpu.initial, Cpu.get, Registers.get_set]

end

/-- The size of the frame is the distance from `sp` to `fp` after every move of a run from a new
machine, if no instruction that is executed names one of them for its result. The end of a frame
restores this from any state, and an access to the stack that fails preserves it. -/
theorem balanced_of_run {μ : Type} [Device μ] :
    (∀ (memory : μ) (table : Word) (m : Machine μ),
      Run Machine.LeavesStack ⟨.initial table, memory⟩ m → m.view.Balanced) ∧
    (∀ m m' : Machine μ, Exec.popState m = .ok () m' → m'.view.Balanced) ∧
    (∀ (m m' : Machine μ) i s, m.Does i .ret ∨ m.Does i .rti → Exec.step m = .ok s m' →
      m'.view.Balanced) ∧
    ∀ m m' : Machine μ, m.view.Balanced → ∀ e,
      (∃ w, Exec.push w m = .error e m') ∨ Exec.pop m = .error e m' ∨
        Exec.pushState m = .error e m' → m'.view.Balanced := by
  refine ⟨fun memory table m run => ?_, fun m m' => Exec.balanced_of_popState,
    fun m m' i s => Exec.balanced_of_return, fun m m' h e hfail => ?_⟩
  · exact run.preserves (P := fun m => m.view.Balanced)
      (fun m a m' ok hperform h => Move.balanced_of_perform h ok hperform)
      (View.balanced_initial memory table)
  · obtain ⟨w, hpush⟩ | hpop | hpush := hfail
    · have := Exec.Keeps.push w m h
      rwa [hpush] at this
    · have := Exec.Keeps.pop m h
      rwa [hpop] at this
    · have := Exec.Keeps.pushState m h
      rwa [hpush] at this

/-- A return to a frame that nobody has begun, and a push onto a memory that is too small. -/
theorem balanced_of_run_sample :
    (∃ m m' : Machine (Bus Peripheral), ∃ s, m.Does ⟨.ret, []⟩ .ret ∧ Exec.step m = .ok s m' ∧
      Run Machine.LeavesStack m m' ∧ m'.view.Balanced ∧
      ∃ u, Exec.popState m' = .ok () u ∧ u.view.Balanced) ∧
    ∃ m : Machine Ram, Exec.push 7 ⟨.initial 0x1000, .zeros 2⟩ = .error (.outOfBounds 0xFFFE 2) m ∧
      m.view.Balanced := by
  have hram : (Ram.zeros 0x10000).size = 0x10000 := Ram.size_zeros _
  let m : Machine (Bus Peripheral) :=
    ⟨.initial 0x1000, .flat ((Ram.zeros 0x10000).fill 0 [0x60])⟩
  have hbytes : m.view.bytesFrom? 0 1 = some [0x60] := Bus.bytesFrom?_fill hram (by decide) _
  have hret : m.Does ⟨.ret, []⟩ .ret :=
    ⟨Machine.executes_of_decode rfl rfl (by decide) hbytes rfl, rfl⟩
  obtain ⟨s, m', hstep, hflat⟩ := Exec.Total.step Bus.reliable_isFlat m ⟨_, by simp, rfl⟩
  obtain ⟨_, u, hpop, -⟩ := Exec.Total.popState Bus.reliable_isFlat m' hflat
  have hm : m.LeavesStack .step := by
    intro _ i hi
    cases hi.instruction.symm.trans hret.instruction
    exact ⟨by decide, by decide⟩
  have run : Run Machine.LeavesStack m m' :=
    .move (.refl m) hm (Exec.discard_eq_ok.mpr ⟨s, hstep⟩)
  have hbalanced := balanced_of_run.1 _ _ _ run
  refine ⟨⟨m, m', s, hret, hstep, run, hbalanced, u, hpop, ?_⟩, ?_⟩
  · exact balanced_of_run.2.1 _ _ hpop
  · have hinitial := balanced_of_run.1 (Ram.zeros 2) 0x1000 _ (.refl _)
    exact ⟨_, rfl, balanced_of_run.2.2.2 _ _ hinitial _ (.inl ⟨7, rfl⟩)⟩

end Machine16
