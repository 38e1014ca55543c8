import Machine16.Proofs.Calls

/-! Interrupts and returns from them. The first interrupt begins a frame, to which no arguments
belong; those that come before its handler returns only redirect the handler. So one return is enough
to go back to what was interrupted, whatever came in between. -/
namespace Machine16

variable {μ : Type} [Device μ]

namespace View

variable {v v' : View μ}

omit [Device μ] in
@[simp] lemma enabled_set_ip (v : View μ) (ip vector : Word) :
    (v.set .ip ip).enabled vector = v.enabled vector := by simp [enabled]

/-- In a handler, an interrupt that is let through is a jump. -/
lemma interrupt?_of_inHandler (h : v.inHandler = true) {vector handler : Word}
    (hvector : v.enabled vector = true)
    (hhandler : v.readWord? (v.vectorTable + 2 * (vector % 16)) = some handler) :
    v.interrupt? vector = some (v.set .ip handler) := by
  rw [interrupt?, if_pos hvector, hhandler]
  exact if_pos h

lemma inHandler_of_interrupt? (h : v.inHandler = true) {vector : Word}
    (hv : v.interrupt? vector = some v') : v'.inHandler = true := by
  unfold interrupt? at hv
  split_ifs at hv
  · obtain ⟨handler, _, hv⟩ := Option.bind_eq_some_iff.mp hv
    rw [handle?, if_pos h] at hv
    cases hv
    exact h
  · cases hv
    exact h

end View

/-- Nothing but a return from an interrupt leaves the handler. -/
lemma Action.inHandler_of_run? {a : Action} (ha : a ≠ .rti) {v v' : View μ}
    (h : v.inHandler = true) (hv : a.run? v = some v') : v'.inHandler = true := by
  cases a with
  | load r address | pop r =>
    obtain ⟨w, _, heq⟩ := Option.bind_eq_some_iff.mp hv
    cases heq
    exact h
  | store address w =>
    rw [View.writeWord?_eq_some hv]
    exact h
  | push w =>
    rw [View.pushAll?_eq_some hv]
    exact h
  | call address =>
    rw [View.enter?_eq_some hv]
    exact h
  | ret =>
    rw [View.leave?_eq_some hv]
    exact h
  | interrupt vector => exact View.inHandler_of_interrupt? h hv
  | rti => exact absurd rfl ha
  | assign r w | change r f | jump address | stay | sleep _ | halt =>
    cases hv
    exact h

namespace Machine

variable {m m' : Machine μ}

/-- A move that is not a return from an interrupt. -/
def StaysInHandler (m : Machine μ) (a : Move) : Prop := a = .step → ∀ i, ¬ m.Does i .rti

/-- A move that raises an interrupt, with the place that is interrupted. The host does it between two
steps, or the program with an instruction. -/
inductive Raises (m : Machine μ) (vector : Word) : Word → Move → Prop
  | host : Raises m vector (m.view.reg .ip) (.interrupt vector)
  | program {i : Instruction Word} (h : m.Does i (.interrupt vector)) :
      Raises m vector (m.view.reg .ip + UInt16.ofNat i.opcode.size) .step

lemma Raises.perform {vector ip : Word} {a : Move} (h : m.Raises vector ip a) {v : View μ}
    (hv : (m.view.set .ip ip).interrupt? vector = some v) :
    ∃ m', a.perform m = .ok () m' ∧ m'.view = v := by
  cases h with
  | host =>
    rw [View.set_reg] at hv
    exact Exec.observe_eq_some.mp
      ((Exec.Refines.interrupt vector m).trans (congrArg (Option.map _) hv))
  | program h =>
    obtain ⟨m', hstep, hview⟩ := h.step hv
    exact ⟨m', Exec.discard_eq_ok.mpr ⟨_, hstep⟩, hview⟩

end Machine

lemma Move.inHandler_of_perform {m m' : Machine μ} {a : Move} (ha : m.StaysInHandler a)
    (h : m.view.inHandler = true) (hm : a.perform m = .ok () m') : m'.view.inHandler = true := by
  cases a with
  | step =>
    obtain ⟨s, hstep⟩ := Exec.discard_eq_ok.mp hm
    obtain rfl | hview | ⟨i, a, hi, hv⟩ := Exec.step_cases hstep
    · exact h
    · rw [hview]
      exact h
    · have h' : (m.view.past i).inHandler = true := h
      refine Action.inHandler_of_run? ?_ h' hv
      rintro rfl
      exact ha rfl i hi
  | push w =>
    rw [View.pushAll?_eq_some ((Exec.Refines.push w).view_of_ok hm)]
    exact h
  | pop =>
    obtain ⟨_, hpop⟩ := Exec.discard_eq_ok.mp hm
    obtain ⟨_, _, heq⟩ := Option.map_eq_some_iff.mp (Exec.Refines.pop.of_ok hpop)
    rw [← (Prod.mk.inj heq).2]
    exact h
  | pushState =>
    obtain ⟨v, hv, heq⟩ := Option.map_eq_some_iff.mp (Exec.Refines.pushState.of_ok hm)
    rw [← (Prod.mk.inj heq).2, View.pushAll?_eq_some hv]
    exact h
  | popState =>
    rw [View.leave?_eq_some (Exec.Refines.popState.view_of_ok hm)]
    exact h
  | interrupt vector =>
    exact View.inHandler_of_interrupt? h ((Exec.Refines.interrupt vector).view_of_ok hm)

section

variable {m entered ending : Machine (Bus Peripheral)} {vector ip : Word}

/-- How an interrupt begins. A frame to which no arguments belong is laid down for its handler. -/
lemma View.exists_interrupt? {v : View (Bus Peripheral)} (hspan : v.memory.IsSpanned)
    (hidle : v.inHandler = false) (henabled : v.enabled vector = true) :
    ∃ u w handler, v.readWord? (v.vectorTable + 2 * (vector % 16)) = some handler ∧
      v.pushAll? [0] = some u ∧ u.enter? handler = some w ∧
      v.interrupt? vector = some { w with inHandler := true } := by
  obtain ⟨handler, hhandler⟩ :=
    exists_readWord? Bus.reliable_isSpanned hspan (v.vectorTable + 2 * (vector % 16))
  obtain ⟨u, hu, huspan⟩ := exists_pushAll? Bus.reliable_isSpanned hspan [0]
  obtain ⟨w, hw⟩ := exists_enter? Bus.reliable_isSpanned huspan handler
  refine ⟨u, w, handler, hhandler, hu, hw, ?_⟩
  rw [interrupt?, if_pos henabled, hhandler]
  simp only [Option.bind_eq_bind, Option.bind_some, handle?, hidle, hu, hw, Option.pure_def]
  rfl

lemma View.prepared_of_pushAll? {v u : View (Bus Peripheral)} (hspan : v.memory.IsSpanned)
    (heven : v.reg .sp % 2 = 0) (hu : v.pushAll? [0] = some u) : v.Prepared u 0 := by
  refine ⟨?_, ?_, ?_, readWord?_of_pushAll? hspan heven hu⟩
  all_goals
    rw [pushAll?_eq_some hu]
    simp

/-- The return from a handler whose frame is there still. -/
lemma Machine.exists_rti (heven : m.view.reg .sp % 2 = 0) (balanced : m.view.Balanced)
    (hspan : m.memory.IsSpanned) {u w : View (Bus Peripheral)} {handler : Word}
    (hu : (m.view.set .ip ip).pushAll? [0] = some u) (hw : u.enter? handler = some w)
    (hspan' : ending.memory.IsSpanned) (keeps : w.KeepsFrame ending.view) {i : Instruction Word}
    (hrti : ending.Does i .rti) :
    ∃ after, Exec.step ending = .ok .next after ∧
      m.view.Restored (m.view.set .ip ip) ending.view after.view ∧ after.view.inHandler = false := by
  have heven' : (m.view.set .ip ip).reg .sp % 2 = 0 := by simpa using heven
  have balanced' : (m.view.set .ip ip).Balanced := balanced.set (by decide) (by decide) ip
  have prepared := View.prepared_of_pushAll? hspan heven' hu
  obtain ⟨v, hv, restored, -⟩ := (keeps.past i).exists_leave? hspan'
    (View.isSpanned_of_pushAll? hspan hu) heven' balanced' prepared hw
  have hreg : ∀ r ≠ .sp, u.reg r = (m.view.set .ip ip).reg r := by
    intro r hr
    rw [View.pushAll?_eq_some hu]
    simp [hr]
  have hgeneral : ∀ r ∈ Register.general, r ≠ .sp := by decide
  have hrun : Action.run? (ending.view.past i) .rti = some { v with inHandler := false } := by
    simp only [Action.run?, hv]
    rfl
  obtain ⟨after, hstep, hview⟩ := hrti.step hrun
  refine ⟨after, hstep, ?_, by rw [hview]⟩
  rw [hview]
  exact { restored.of_past with
    general := fun r hr => (restored.general r hr).trans (hreg r (hgeneral r hr))
    ip := restored.ip.trans (hreg .ip (by decide)) }

/-- Any interrupt that is let through pushes nothing: it redirects `ip` to its handler. -/
def Machine.OnlyRedirects (m : Machine (Bus Peripheral)) : Prop :=
  ∀ vector ip a, m.Raises vector ip a → m.view.enabled vector = true →
    ∃ m' handler, a.perform m = .ok () m' ∧
      m.view.readWord? (m.view.vectorTable + 2 * (vector % 16)) = some handler ∧
      m'.view = m.view.set .ip handler

lemma Machine.onlyRedirects_of_inHandler (hspan : m.memory.IsSpanned)
    (hhandler : m.view.inHandler = true) : m.OnlyRedirects := by
  intro vector ip a raises henabled
  obtain ⟨handler, hread⟩ := View.exists_readWord? (v := m.view) Bus.reliable_isSpanned hspan
    (m.view.vectorTable + 2 * (vector % 16))
  have hjump : (m.view.set .ip ip).interrupt? vector = some ((m.view.set .ip ip).set .ip handler) :=
    View.interrupt?_of_inHandler (v := m.view.set .ip ip) hhandler (by simpa using henabled) hread
  obtain ⟨m', hm', hview⟩ := raises.perform hjump
  exact ⟨m', handler, hm', hread, by rw [hview, View.set_set]⟩

end

/-- An interrupt that is not let through changes nothing at all. -/
lemma Exec.interrupt_of_masked {m : Machine μ} {vector : Word} (h : m.view.enabled vector = false) :
    Exec.interrupt vector m = .ok () m := by
  have hmask := (Exec.Refines.and_mask_eq_zero_iff m.view vector).mpr h
  change (if m.view.reg .im &&& (1 <<< (vector &&& 0xF)) = 0 then pure () else _ : Exec μ Unit) m = _
  rw [if_pos hmask]
  rfl

/-- Interrupts are transparent. The first one that is let through is dispatched; from then on until a
return from an interrupt, others only redirect `ip`; and that return, if the frame is there still,
goes back to what was interrupted. Interrupts that are not let through change nothing. -/
theorem interrupt_transparent :
    (∀ (m : Machine (Bus Peripheral)) vector ip a, m.memory.IsSpanned → m.view.inHandler = false →
      m.view.reg .sp % 2 = 0 → m.view.Balanced → m.view.enabled vector = true →
      m.Raises vector ip a →
        ∃ entered, a.perform m = .ok () entered ∧
          (∀ u, Run Machine.StaysInHandler entered u → u.OnlyRedirects) ∧
          ∀ ending, Run Machine.StaysInHandler entered ending →
            entered.view.KeepsFrame ending.view → ∀ i, ending.Does i .rti →
              ∃ after, Exec.step ending = .ok .next after ∧
                m.view.Restored (m.view.set .ip ip) ending.view after.view ∧
                after.view.inHandler = false) ∧
    ∀ (μ : Type) [Device μ] (m : Machine μ) vector, m.view.enabled vector = false →
      Exec.interrupt vector m = .ok () m := by
  refine ⟨fun m vector ip a hspan hidle heven balanced henabled raises => ?_,
    fun μ _ m vector => Exec.interrupt_of_masked⟩
  have henabled' : (m.view.set .ip ip).enabled vector = true := by simpa using henabled
  obtain ⟨u, w, handler, -, hu, hw, hv⟩ :=
    View.exists_interrupt? (v := m.view.set .ip ip) hspan hidle henabled'
  obtain ⟨entered, hm, hview⟩ := raises.perform hv
  have hentered : entered.memory.IsSpanned := by
    have run : m.Reaches entered := .move (.refl m) trivial hm
    exact run.isSpanned hspan
  have hhandler : entered.view.inHandler = true := by rw [hview]
  refine ⟨entered, hm, fun u run => ?_, fun ending run keeps i hrti => ?_⟩
  · have hstays : u.view.inHandler = true :=
      run.preserves (P := fun m => m.view.inHandler = true)
        (fun _ _ _ ok hm h => Move.inHandler_of_perform ok h hm) hhandler
    exact Machine.onlyRedirects_of_inHandler (run.memory Bus.reliable_isSpanned hentered) hstays
  · have keeps' : w.KeepsFrame ending.view := by
      rw [hview] at keeps
      exact ⟨keeps.fp, keeps.bytes.trans (View.bytesFrom?_congr rfl _ _)⟩
    exact Machine.exists_rti heven balanced hspan hu hw (run.memory Bus.reliable_isSpanned hentered)
      keeps' hrti

/-- A program that interrupts itself. Its handler is the return behind the interrupt, and before the
return the host raises another one. -/
theorem interrupt_transparent_sample :
    (∃ m entered again after : Machine (Bus Peripheral), m = ⟨.initial 4,
        .flat ((Ram.zeros 0x10000).fill 0 [0xFD, 0, 0, 0xFC, 0, 3])⟩ ∧
      Move.step.perform m = .ok () entered ∧ (Move.interrupt 16).perform entered = .ok () again ∧
      Exec.step again = .ok .next after ∧ after.view.reg .ip = 3 ∧ after.view.reg .sp = 0xFFFE ∧
      after.view.inHandler = false) ∧
    ∃ m : Machine Ram, m.view.enabled 0 = false ∧ Exec.interrupt 0 m = .ok () m := by
  constructor
  · let ram : Ram := (Ram.zeros 0x10000).fill 0 [0xFD, 0, 0, 0xFC, 0, 3]
    let m : Machine (Bus Peripheral) := ⟨.initial 4, .flat ram⟩
    have hspan : m.memory.IsSpanned := Bus.isSpanned_flat (by simp [ram])
    have hsp : m.view.reg .sp = 0xFFFE := rfl
    have hcode : m.view.bytesFrom? 0 6 = some [0xFD, 0, 0, 0xFC, 0, 3] :=
      Bus.bytesFrom?_fill (Ram.size_zeros _) (by decide) _
    have him : m.view.reg .im = 0xFFFF := rfl
    have hint : m.Does ⟨.int, [.literal 0]⟩ (.interrupt 0) := by
      have hbytes := (View.bytesFrom?_append [0xFD, 0, 0] [0xFC, 0, 3] hcode).1
      exact ⟨Machine.executes_of_decode rfl rfl (by decide) hbytes rfl, rfl⟩
    have heven : m.view.reg .sp % 2 = 0 := by rw [hsp]; rfl
    have henabled : m.view.enabled 0 = true := by rw [View.enabled, him]; decide
    obtain ⟨entered, hm, hredirect, hreturn⟩ := interrupt_transparent.1 m 0 _ .step hspan rfl heven
      (View.balanced_initial _ _) henabled (.program hint)
    obtain ⟨hrun, him', htable, hcode'⟩ : entered.view.halted = false ∧
        entered.view.reg .im = 0xFFFF ∧ entered.view.vectorTable = 4 ∧
        entered.view.bytesFrom? 0 6 = some [0xFD, 0, 0, 0xFC, 0, 3] := by
      obtain ⟨_, hstep⟩ := Exec.discard_eq_ok.mp hm
      obtain ⟨u, w, handler, -, hu, hw, hv⟩ :=
        View.exists_interrupt? (v := m.view.past ⟨.int, [.literal 0]⟩) hspan rfl
          (by simpa using henabled)
      have hview := Option.some.inj ((hint.run? hstep).symm.trans hv)
      have husp : u.reg .sp = 0xFFFC := by
        rw [View.pushAll?_eq_some hu]
        simp [hsp]
      have hcode' : w.bytesFrom? 0 6 = some [0xFD, 0, 0, 0xFC, 0, 3] := by
        rw [View.bytesFrom?_of_enter? (View.isSpanned_of_pushAll? hspan hu) (by simp [husp]) hw
          (by simp [husp]), View.bytesFrom?_of_pushAll? (v := m.view.past _) hspan (by simp [hsp]) hu
          (by simp [hsp])]
        simpa using hcode
      rw [hview]
      refine ⟨?_, ?_, ?_, ?_⟩
      · rw [View.enter?_eq_some hw, View.pushAll?_eq_some hu]
        rfl
      · rw [View.enter?_eq_some hw, View.pushAll?_eq_some hu]
        rfl
      · rw [View.enter?_eq_some hw, View.pushAll?_eq_some hu]
        rfl
      · exact (View.bytesFrom?_congr (by rfl) _ _).trans hcode'
    have henabled' : entered.view.enabled 16 = true := by rw [View.enabled, him']; decide
    obtain ⟨again, handler, hagain, hread, hview⟩ :=
      hredirect entered (.refl _) 16 _ _ .host henabled'
    have hhandler : handler = 3 := by
      have hbytes := (View.bytesFrom?_append [0xFD, 0, 0, 0xFC] [0, 3] hcode').2
      obtain ⟨high, low, heq, hw⟩ := View.bytesFrom?_two_eq_some (by decide) hbytes
      cases heq
      rw [htable] at hread
      exact (Option.some.inj (hw.symm.trans hread)).symm
    have hrti : again.Does ⟨.rti, []⟩ .rti := by
      have hbytes := (View.bytesFrom?_append [0xFC] [0, 3]
        (View.bytesFrom?_append [0xFD, 0, 0] [0xFC, 0, 3] hcode').2).1
      rw [← View.bytesFrom?_set _ .ip handler, ← hview] at hbytes
      have hrun' : again.view.halted = false := by rw [hview]; exact hrun
      have hip' : again.view.reg .ip = 3 := by simp [hview, hhandler]
      exact ⟨Machine.executes_of_decode hrun' hip' (by decide) hbytes rfl, rfl⟩
    have run : Run Machine.StaysInHandler entered again :=
      .move (.refl entered) (fun h => by cases h) hagain
    have keeps : entered.view.KeepsFrame again.view := by
      rw [hview]
      exact ⟨by simp, by simp⟩
    obtain ⟨after, hstep, restored, hidle⟩ := hreturn again run keeps _ hrti
    refine ⟨m, entered, again, after, rfl, hm, hagain, hstep, restored.ip.trans ?_,
      restored.sp.trans hsp, hidle⟩
    simp
    rfl
  · let m : Machine Ram := ⟨{ registers := .zeros }, .zeros 0⟩
    have him : m.view.reg .im = 0 := rfl
    have hmasked : m.view.enabled 0 = false := by rw [View.enabled, him]; decide
    exact ⟨m, hmasked, interrupt_transparent.2 Ram m 0 hmasked⟩

end Machine16
