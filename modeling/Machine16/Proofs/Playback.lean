import Machine16.Proofs.EventLog

/-! Runs, played back from what their listeners have heard. Every move is one of fetching, which nobody hears
of and which moves `ip` alone, and one of doing, which the events tell completely. -/
namespace Machine16

variable {μ α β : Type} [Device μ]

/-- Whether an operand can be read at an address. -/
def Slot.readable (memory : μ) (address : Word) : Slot → Bool
  | literal | .address => (Device.readWord memory address).isOk
  | byte | register | pointer | indirect => (Device.readByte memory address).isOk

/-- The number of bytes that are fetched for operands, from an address up to the first one that cannot
be read. -/
def Format.fetched (memory : μ) (address : Word) : Format → Nat
  | [] => 0
  | s :: f =>
    if s.readable memory address then s.width + Format.fetched memory (address + UInt16.ofNat s.width) f
    else 0

/-- The signal of a move, if the move succeeds. -/
def Move.signal? (m : Machine μ) : Move → Option Event
  | step => if m.cpu.halted then none else m.instruction?.bind fun i => i.signal? m.view
  | interrupt vector => if m.view.enabled vector then some (.interrupt (vector &&& 0xF)) else none
  | push _ | pop | pushState | popState => none

namespace Machine

/-- The number of bytes that the next step fetches. -/
def fetched (m : Machine μ) : Nat :=
  if m.cpu.halted then 0
  else
    match Device.readByte m.memory (m.cpu.get .ip) with
    | .error _ => 0
    | .ok code =>
      match Opcode.ofByte? code with
      | none => 1
      | some op => 1 + Format.fetched m.memory (m.cpu.get .ip + 1) op.format

/-- The machine after moves, each of them made whether or not the one before has failed. -/
def play (m : Machine μ) (as : List Move) : Machine μ := as.foldl (fun m a => Exec.after (a.perform m)) m

/-- The signals of moves. -/
def signals (m : Machine μ) : List Move → List Event
  | [] => []
  | a :: as => Exec.signalled (a.signal? m) (a.perform m) ++ (Exec.after (a.perform m)).signals as

/-- The machine with `ip` past some bytes. -/
def advance (m : Machine μ) (n : Nat) : Machine μ :=
  ⟨m.cpu.set .ip (m.cpu.get .ip + UInt16.ofNat n), m.memory⟩

section

omit [Device μ]

@[simp] lemma memory_advance (m : Machine μ) (n : Nat) : (m.advance n).memory = m.memory := rfl

@[simp] lemma get_ip_advance (m : Machine μ) (n : Nat) :
    (m.advance n).cpu.get .ip = m.cpu.get .ip + UInt16.ofNat n := Registers.get_set_self _ _ _

@[simp] lemma advance_zero (m : Machine μ) : m.advance 0 = m := by
  simp [advance, Cpu.set, Cpu.get]

@[simp] lemma advance_advance (m : Machine μ) (n k : Nat) :
    (m.advance n).advance k = m.advance (n + k) := by
  simp [advance, Cpu.set, Cpu.get, UInt16.ofNat_add, UInt16.add_assoc]

end

lemma next_eq_after (m : Machine μ) : m.next = Exec.after (Exec.step m) := by
  rw [next]
  cases Exec.step m <;> rfl

/-- Nobody hears of what is fetched. -/
lemma Logs.hears {m m' : Machine μ} {n : Nat} {es : List Event} (h : (m.advance n).Logs m' es) :
    m.Hears m' es := ⟨h.listeners, h.events⟩

end Machine

namespace Exec

section

variable {read : Word → Exec μ α} {m : Machine μ} (n : Nat)

omit [Device μ]

lemma advancing_of_ok {a : α} (h : read (m.cpu.get .ip) m = .ok a m) :
    (do let ip ← get .ip; let a ← read ip; assign .ip (ip + UInt16.ofNat n); return a) m =
      .ok a (m.advance n) :=
  (bind_of_ok rfl).trans (bind_of_ok h)

lemma advancing_of_error {e : MemoryError} (h : read (m.cpu.get .ip) m = .error e m) :
    (do let ip ← get .ip; let a ← read ip; assign .ip (ip + UInt16.ofNat n); return a) m = .error e m :=
  (bind_of_ok rfl).trans (bind_of_error h)

end

section

variable {m : Machine μ} {s : Slot} {e : MemoryError}

lemma fetchByte_of_ok {b : Byte} (h : Device.readByte m.memory (m.cpu.get .ip) = .ok b) :
    fetchByte m = .ok b (m.advance 1) :=
  advancing_of_ok 1 (by rw [readByte_eq, h]; rfl)

lemma fetchByte_of_error (h : Device.readByte m.memory (m.cpu.get .ip) = .error e) :
    fetchByte m = .error e m :=
  advancing_of_error 1 (by rw [readByte_eq, h]; rfl)

/-- An operand is fetched if it can be read. -/
lemma fetchSlot_cases (s : Slot) (m : Machine μ) :
    (s.readable m.memory (m.cpu.get .ip) = true ∧ ∃ a, fetchSlot s m = .ok a (m.advance s.width)) ∨
      s.readable m.memory (m.cpu.get .ip) = false ∧ ∃ e, fetchSlot s m = .error e m := by
  cases s with
  | literal | address =>
    rw [Slot.readable]
    cases hw : Device.readWord m.memory (m.cpu.get .ip) with
    | ok w => exact .inl ⟨rfl, w, advancing_of_ok 2 (by rw [readWord_eq, hw]; rfl)⟩
    | error e => exact .inr ⟨rfl, e, advancing_of_error 2 (by rw [readWord_eq, hw]; rfl)⟩
  | byte =>
    rw [Slot.readable]
    cases hb : Device.readByte m.memory (m.cpu.get .ip) with
    | ok b => exact .inl ⟨rfl, b, fetchByte_of_ok hb⟩
    | error e => exact .inr ⟨rfl, e, fetchByte_of_error hb⟩
  | register | pointer | indirect =>
    rw [Slot.readable]
    cases hb : Device.readByte m.memory (m.cpu.get .ip) with
    | ok b =>
      have hr : fetchRegister m = .ok (Register.ofSelector b) (m.advance 1) :=
        bind_of_ok (fetchByte_of_ok hb)
      exact .inl ⟨rfl, _, bind_of_ok hr⟩
    | error e => exact .inr ⟨rfl, e, bind_of_error (bind_of_error (fetchByte_of_error hb))⟩

end

/-- Fetching moves `ip` past what it has fetched, and does nothing else. -/
lemma after_fetch (f : Format) (m : Machine μ) :
    after (fetch f m) = m.advance (f.fetched m.memory (m.cpu.get .ip)) := by
  induction f generalizing m with
  | nil => exact m.advance_zero.symm
  | cons s f ih =>
    rw [Format.fetched]
    obtain ⟨hs, a, ha⟩ | ⟨hs, e, he⟩ := fetchSlot_cases s m
    · rw [if_pos hs, fetch, bind_of_ok ha, after_map, ih, m.advance_advance]
      simp
    · rw [if_neg (by simp [hs]), fetch, bind_of_error he]
      exact m.advance_zero.symm

/-- What the events tell of a step, once the bytes that it fetches are known. -/
def StepLogs (m : Machine μ) : Prop := ∃ es, (∀ e ∈ es, e.isSignal = false) ∧
  (m.advance m.fetched).Logs (after (step m)) (es ++ signalled (Move.step.signal? m) (step m))

section

variable {m : Machine μ} (hrun : m.cpu.halted = false) {code : Byte}
  (hcode : Device.readByte m.memory (m.cpu.get .ip) = .ok code)

include hrun hcode

/-- What a step fetches is the opcode with what is fetched of its operands. -/
lemma advance_fetched {op : Opcode} (hop : Opcode.ofByte? code = some op) :
    m.advance m.fetched = after (fetch op.format (m.advance 1)) := by
  rw [after_fetch, m.advance_advance]
  simp [Machine.fetched, hrun, hcode, hop]

lemma stepLogs_of_opcode {op : Opcode} (hop : Opcode.ofByte? code = some op) : StepLogs m := by
  have hfetched := advance_fetched hrun hcode hop
  have hsignal : Move.step.signal? m = m.instruction?.bind fun i => i.signal? m.view :=
    if_neg (by simp [hrun])
  rw [StepLogs, step_of_running hrun, bind_of_ok (fetchByte_of_ok hcode), execute, hop, hfetched]
  cases ha : fetch op.format (m.advance 1) with
  | error e u =>
    simp only [bind_of_error ha]
    exact ⟨[], by simp, .refl _⟩
  | ok a u =>
    have hi : m.instruction? = some ⟨op, (op.format.readings a).map Prod.fst⟩ :=
      Machine.instruction?_eq_some.mpr ⟨code, _, a, u, fetchByte_of_ok hcode, hop, ha, rfl⟩
    have hu : m.advance m.fetched = u := hfetched.trans (congrArg after ha)
    have him : m.view.reg .im = u.view.reg .im := by
      rw [← hu]
      exact (Registers.get_set_of_ne _ (by decide) _).symm
    simp only [bind_of_ok ha]
    rw [hsignal, hi, Option.bind_some, Instruction.signal?_congr _ him]
    exact (Logs.perform op a).map fun _ => outcome op a

/-- A byte that is no opcode is passed over. -/
lemma stepLogs_of_not_opcode (hop : Opcode.ofByte? code = none) : StepLogs m := by
  have hstep : step m = .ok .next (m.advance 1) := by
    rw [step_of_running hrun, bind_of_ok (fetchByte_of_ok hcode), execute, hop]
    rfl
  have hfetched : m.fetched = 1 := by simp [Machine.fetched, hrun, hcode, hop]
  have hnone : m.instruction? = none := by
    cases hi : m.instruction? with
    | none => rfl
    | some i =>
      obtain ⟨_, _, _, _, hcode', hop', -⟩ := Machine.instruction?_eq_some.mp hi
      cases (fetchByte_of_ok hcode).symm.trans hcode'
      cases hop.symm.trans hop'
  have hsignal : Move.step.signal? m = none := by simp [Move.signal?, hrun, hnone]
  rw [StepLogs, hstep, hfetched, hsignal]
  exact ⟨[], by simp, .refl _⟩

end

/-- A step fetches without a word about it, and tells of all that it does then. -/
lemma stepLogs (m : Machine μ) : StepLogs m := by
  cases hrun : m.cpu.halted with
  | true =>
    have hfetched : m.fetched = 0 := if_pos hrun
    have hsignal : Move.step.signal? m = none := if_pos hrun
    rw [StepLogs, step_of_halted hrun, hfetched, hsignal, m.advance_zero]
    exact ⟨[], by simp, .refl m⟩
  | false =>
    cases hcode : Device.readByte m.memory (m.cpu.get .ip) with
    | error e =>
      have hstep : step m = .error e m := by
        rw [step_of_running hrun, bind_of_error (fetchByte_of_error hcode)]
      have hfetched : m.fetched = 0 := by simp [Machine.fetched, hrun, hcode]
      rw [StepLogs, hstep, hfetched, m.advance_zero]
      exact ⟨[], by simp, .refl m⟩
    | ok code =>
      cases hop : Opcode.ofByte? code with
      | none => exact stepLogs_of_not_opcode hrun hcode hop
      | some op => exact stepLogs_of_opcode hrun hcode hop

end Exec

namespace Move

/-- Whatever the move, the events tell what happens to the machine, but for the bytes that it fetches. -/
lemma logs (a : Move) (m : Machine μ) : ∃ n es, (∀ e ∈ es, e.isSignal = false) ∧
    (m.advance n).Logs (Exec.after (a.perform m)) (es ++ Exec.signalled (a.signal? m) (a.perform m)) := by
  have hnone {x : Exec μ Unit} (hx : Exec.Logs (a.signal? m) x m) : ∃ n es,
      (∀ e ∈ es, e.isSignal = false) ∧
      (m.advance n).Logs (Exec.after (x m)) (es ++ Exec.signalled (a.signal? m) (x m)) :=
    ⟨0, by rwa [m.advance_zero]⟩
  cases a with
  | step =>
    refine ⟨m.fetched, ?_⟩
    rw [perform, Exec.after_map, Exec.signalled_map]
    exact Exec.stepLogs m
  | push w => exact hnone (.of_works (.push w))
  | pop => exact hnone ((Exec.Logs.of_works .pop).map fun _ => ())
  | pushState => exact hnone (.of_works .pushState)
  | popState => exact hnone (.of_works .popState)
  | interrupt vector => exact hnone (.interrupt vector)

lemma isSignal_of_signal? {a : Move} {m : Machine μ} {e : Event} (h : a.signal? m = some e) :
    e.isSignal = true := by
  cases a with
  | step =>
    obtain ⟨-, h⟩ := Option.ite_none_left_eq_some.mp h
    obtain ⟨i, -, hi⟩ := Option.bind_eq_some_iff.mp h
    obtain ⟨_, -, rfl⟩ | ⟨-, rfl⟩ | ⟨_, -, rfl⟩ := Instruction.signal?_eq_some hi <;> rfl
  | interrupt vector =>
    obtain ⟨-, h⟩ := Option.ite_none_right_eq_some.mp h
    cases h
    rfl
  | push _ | pop | pushState | popState => cases h

/-- What is heard of a move. -/
lemma hears (a : Move) (m : Machine μ) : ∃ es, m.Hears (Exec.after (a.perform m)) es ∧
    (Device.Atomic μ → AgreeButIp (replay es m.state) (Exec.after (a.perform m)).state) ∧
    es.filter Event.isSignal = Exec.signalled (a.signal? m) (a.perform m) := by
  obtain ⟨n, es, hes, hlogs⟩ := a.logs m
  refine ⟨_, hlogs.hears, fun hμ => ?_, ?_⟩
  · have hagree : AgreeButIp m.state (m.advance n).state :=
      ⟨fun r hr => (Registers.get_set_of_ne _ hr.symm _).symm, rfl⟩
    rw [← hlogs.replay hμ]
    exact hagree.replay _
  · have hsignal : ∀ e ∈ Exec.signalled (a.signal? m) (a.perform m), e.isSignal = true := by
      intro e he
      cases ha : a.perform m with
      | ok _ u =>
        rw [ha] at he
        exact isSignal_of_signal? (Option.mem_toList.mp he)
      | error _ u =>
        rw [ha] at he
        cases he
    rw [List.filter_append, List.filter_eq_nil_iff.mpr (by simpa using hes), List.nil_append,
      List.filter_eq_self.mpr hsignal]

end Move

namespace Machine

/-- What is heard of a run. -/
lemma hears_play (m : Machine μ) (as : List Move) : ∃ es, m.Hears (m.play as) es ∧
    (Device.Atomic μ → AgreeButIp (replay es m.state) (m.play as).state) ∧
    es.filter Event.isSignal = m.signals as := by
  induction as generalizing m with
  | nil => exact ⟨[], .refl m, fun _ => ⟨fun _ _ => rfl, rfl⟩, rfl⟩
  | cons a as ih =>
    obtain ⟨es, hes, hreplay, hsignals⟩ := a.hears m
    obtain ⟨es', hes', hreplay', hsignals'⟩ := ih (Exec.after (a.perform m))
    refine ⟨es ++ es', hes.trans hes', fun hμ => ?_, ?_⟩
    · rw [replay_append]
      exact ((hreplay hμ).replay es').trans (hreplay' hμ)
    · rw [List.filter_append, hsignals, hsignals', signals]

/-- Where `ip` is after a step. -/
lemma get_ip_next (hμ : Device.Atomic μ) {m : Machine μ} (hm : 0 < m.cpu.listeners) {es : List Event}
    (h : m.Hears m.next es) : m.next.cpu.get .ip =
      (Event.lastWord? .ip es).getD (m.cpu.get .ip + UInt16.ofNat m.fetched) := by
  obtain ⟨es', -, hlogs⟩ := Exec.stepLogs m
  rw [← next_eq_after] at hlogs
  obtain rfl := h.unique hm hlogs.hears
  calc m.next.cpu.get .ip = (replay _ (m.advance m.fetched).state).1.get .ip := by
        rw [hlogs.replay hμ]
        rfl
    _ = (Event.lastWord? .ip _).getD ((m.advance m.fetched).cpu.get .ip) := get_replay _ _ _
    _ = _ := by rw [get_ip_advance]

end Machine

/-- The events that a listener hears are complete. Played back on the registers and the memory from before a
run, whatever in it succeeds or fails, they leave all registers but `ip` and the memory as the run does, and
the signals among them are those of the moves. What they say of `ip` holds, or else a step has moved it past
the bytes that it has fetched. -/
theorem replay_heard {m : Machine Ram} (hm : 0 < m.cpu.listeners) :
    (∀ as, ∃ es, m.Hears (m.play as) es) ∧
    (∀ as es, m.Hears (m.play as) es → (∀ r ≠ .ip, (replay es m.state).1.get r = (m.play as).cpu.get r) ∧
      (replay es m.state).2 = (m.play as).memory ∧ es.filter Event.isSignal = m.signals as) ∧
    ∀ es, m.Hears m.next es → m.next.cpu.get .ip =
      (Event.lastWord? .ip es).getD (m.cpu.get .ip + UInt16.ofNat m.fetched) := by
  refine ⟨fun as => ?_, fun as es h => ?_, fun es h => m.get_ip_next Ram.atomic hm h⟩
  · obtain ⟨es, h, -⟩ := m.hears_play as
    exact ⟨es, h⟩
  · obtain ⟨es', h', hreplay, hsignals⟩ := m.hears_play as
    obtain rfl := h.unique hm h'
    exact ⟨(hreplay Ram.atomic).1, (hreplay Ram.atomic).2, hsignals⟩

/-- A machine with a listener. Its program pauses and halts. -/
def Machine.overheard : Machine Ram :=
  ⟨{ (Cpu.initial 0).set .sp 30 with listeners := 1 }, (Ram.zeros 32).fill 0 [0x50, 0x00, 0x05, 0xFF]⟩

/-- An interrupt still gets through after the end of the program, but there is no room for another frame. -/
theorem replay_heard_overheard : 0 < Machine.overheard.cpu.listeners ∧
    ∃ es, Machine.overheard.Hears
        (Machine.overheard.play [.step, .step, .interrupt 0x12, .pushState]) es ∧
      es.filter Event.isSignal = [.sleep 5, .halt, .interrupt 2] := by
  have hlisteners : 0 < Machine.overheard.cpu.listeners := by decide
  have hsignals : Machine.overheard.signals [.step, .step, .interrupt 0x12, .pushState] =
      [.sleep 5, .halt, .interrupt 2] := by decide +kernel
  obtain ⟨hheard, hreplay, -⟩ := replay_heard hlisteners
  obtain ⟨es, hes⟩ := hheard [.step, .step, .interrupt 0x12, .pushState]
  obtain ⟨-, -, hfilter⟩ := hreplay _ es hes
  exact ⟨hlisteners, es, hes, hfilter.trans hsignals⟩

end Machine16
