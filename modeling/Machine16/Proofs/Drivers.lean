import Machine16.Cpu.Run
import Machine16.Proofs.Playback

/-! The ways to run a machine agree. A limited run can be cut anywhere, and the unlimited one ends as long
enough limited ones do. The end is final: a halted machine stays as it is, and nobody hears of the end twice. -/
namespace Machine16

variable {μ α : Type} [Device μ] {m m' u : Machine μ}

namespace Exec

/-- Only a machine that has halted asks for no further step. -/
lemma halted_of_step (h : step m = .ok .halt m') : m'.cpu.halted = true := by
  cases hrun : m.cpu.halted with
  | true =>
    cases (step_of_halted hrun).symm.trans h
    exact hrun
  | false =>
    obtain ⟨code, u, -, h⟩ := bind_eq_ok.mp ((step_of_running hrun).symm.trans h)
    rw [execute] at h
    cases hop : Opcode.ofByte? code with
    | none =>
      rw [hop] at h
      cases h
    | some op =>
      rw [hop] at h
      obtain ⟨a, v, -, h⟩ := bind_eq_ok.mp h
      obtain ⟨_, w, hperform, h⟩ := bind_eq_ok.mp h
      cases op with
      | hlt =>
        cases hperform
        cases h
        rfl
      | _ => cases h

/-- What is left of a run once some of its steps have been made. -/
lemma run_add (n k : Nat) (m : Machine μ) : run (n + k) m =
    match run n m with
    | .ok false u => run k u
    | r => r := by
  induction n generalizing m with
  | zero =>
    rw [Nat.zero_add]
    rfl
  | succ n ih =>
    rw [Nat.succ_add, run, run]
    cases hm : step m with
    | error e u => rw [bind_of_error hm, bind_of_error hm]
    | ok s u =>
      rw [bind_of_ok hm, bind_of_ok hm]
      cases s with
      | halt => rfl
      | next | sleep _ => exact ih u

/-- A limited run also looks whether the machine has halted when its steps are used up. -/
lemma runFor_eq (n : Nat) (m : Machine μ) : runFor n m =
    match run n m with
    | .ok false u => .ok u.cpu.halted u
    | r => r := by
  induction n generalizing m with
  | zero => rfl
  | succ n ih =>
    rw [runFor, run]
    cases hm : step m with
    | error e u => rw [bind_of_error hm, bind_of_error hm]
    | ok s u =>
      rw [bind_of_ok hm, bind_of_ok hm]
      cases s with
      | halt => rfl
      | next | sleep _ => exact ih u

lemma run_of_halted (h : m.cpu.halted = true) (n : Nat) : run (n + 1) m = .ok true m := by
  rw [run, bind_of_ok (step_of_halted h)]
  rfl

lemma halted_of_run {n : Nat} (h : run n m = .ok true m') : m'.cpu.halted = true := by
  induction n generalizing m with
  | zero => cases h
  | succ n ih =>
    obtain ⟨s, u, hs, h⟩ := bind_eq_ok.mp h
    cases s with
    | halt =>
      cases h
      exact halted_of_step hs
    | next | sleep _ => exact ih h

lemma runFor_of_halted (h : m.cpu.halted = true) (n : Nat) : runFor n m = .ok true m := by
  rw [runFor_eq]
  cases n with
  | zero => exact congrArg (EStateM.Result.ok · m) h
  | succ n => rw [run_of_halted h]

lemma runFor_add {n : Nat} {b : Bool} (h : runFor n m = .ok b u) (k : Nat) :
    runFor (n + k) m = runFor k u := by
  rw [runFor_eq] at h
  rw [runFor_eq, run_add]
  cases hn : run n m with
  | error e v =>
    rw [hn] at h
    cases h
  | ok b' v =>
    rw [hn] at h
    cases b' with
    | true =>
      cases h
      exact (runFor_of_halted (halted_of_run hn) k).symm
    | false =>
      cases h
      exact (runFor_eq k _).symm

lemma runFor_add_of_error {n : Nat} {e : MemoryError} (h : runFor n m = .error e u) (k : Nat) :
    runFor (n + k) m = .error e u := by
  rw [runFor_eq] at h
  rw [runFor_eq, run_add]
  cases hn : run n m with
  | error e' v =>
    rw [hn] at h
    exact h
  | ok b v =>
    rw [hn] at h
    cases b with
    | true => cases h
    | false => cases h

/-- The run without a limit returns. -/
def Returns (m : Machine μ) (r : EStateM.Result MemoryError (Machine μ) Bool) : Prop :=
  ∃ fuel, run fuel m = r ∧ ∀ u, r ≠ .ok false u

/-- Limits that are large enough make no difference. -/
lemma Returns.runFor {r : EStateM.Result MemoryError (Machine μ) Bool} (h : Returns m r) :
    ∃ n, ∀ k ≥ n, runFor k m = r := by
  obtain ⟨n, hn, hr⟩ := h
  refine ⟨n, fun k hk => ?_⟩
  obtain ⟨j, rfl⟩ := Nat.exists_eq_add_of_le hk
  rw [runFor_eq, run_add, hn]
  cases r with
  | error e u => rfl
  | ok b u =>
    cases b with
    | true => rfl
    | false => exact absurd rfl (hr u)

lemma returns_ok_iff : Returns m (.ok true m') ↔ ∃ k, runFor k m = .ok true m' := by
  constructor
  · intro h
    obtain ⟨n, hn⟩ := h.runFor
    exact ⟨n, hn n (Nat.le_refl n)⟩
  · rintro ⟨k, hk⟩
    -- one more step is enough to see that the machine has halted
    refine ⟨k + 1, ?_, by simp⟩
    rw [runFor_eq] at hk
    rw [run_add]
    cases hrun : run k m with
    | error e u =>
      rw [hrun] at hk
      cases hk
    | ok b u =>
      rw [hrun] at hk
      cases b with
      | true => exact hk
      | false =>
        obtain ⟨hhalted, rfl⟩ := EStateM.Result.ok.inj hk
        exact run_of_halted hhalted 0

lemma returns_error_iff {e : MemoryError} :
    Returns m (.error e m') ↔ ∃ k, runFor k m = .error e m' := by
  constructor
  · intro h
    obtain ⟨n, hn⟩ := h.runFor
    exact ⟨n, hn n (Nat.le_refl n)⟩
  · rintro ⟨k, hk⟩
    refine ⟨k, ?_, by simp⟩
    rw [runFor_eq] at hk
    cases hrun : run k m with
    | error e u =>
      rw [hrun] at hk
      exact hk
    | ok b u =>
      rw [hrun] at hk
      cases b <;> cases hk

/-- What is done at the end is done once, and only there. -/
lemma runThen_eq (onHalt : Exec μ α) (fuel : Nat) (m : Machine μ) : runThen onHalt fuel m =
    match run fuel m with
    | .ok true u => (some <$> onHalt) u
    | .ok false u => .ok none u
    | .error e u => .error e u := by
  rw [runThen]
  cases hrun : run fuel m with
  | error e u => rw [bind_of_error hrun]
  | ok b u =>
    rw [bind_of_ok hrun]
    cases b with
    | true => exact (congrFun (map_eq_pure_bind some onHalt) u).symm
    | false => rfl

lemma halts_of_executes (h : m.Executes ⟨.hlt, []⟩) :
    ∃ m', step m = .ok .halt m' ∧ m'.cpu.halted = true := by
  obtain ⟨m', hm, -⟩ := Machine.Does.step ⟨h, rfl⟩ rfl
  exact ⟨m', hm, halted_of_step hm⟩

end Exec

namespace Machine

lemma next_of_ok {s : Step} (h : Exec.step m = .ok s u) : m.next = u := by
  rw [next, h]

lemma iterate_next_of_halted (h : m.cpu.halted = true) (n : Nat) : next^[n] m = m :=
  Function.iterate_fixed (next_of_ok (Exec.step_of_halted h)) n

omit [Device μ] in
lemma not_mem_dropLast_append {a : α} {as bs : List α} (has : a ∉ as) (hbs : a ∉ bs.dropLast) :
    a ∉ (as ++ bs).dropLast := by
  cases bs with
  | nil =>
    rw [List.append_nil]
    exact fun h => has (List.dropLast_subset _ h)
  | cons b bs =>
    rw [List.dropLast_append_of_ne_nil (List.cons_ne_nil b bs), List.mem_append]
    exact fun h => h.elim has hbs

lemma executes_of_signal? (h : Move.step.signal? m = some .halt) : m.Executes ⟨.hlt, []⟩ := by
  obtain ⟨hrun, h⟩ := Option.ite_none_left_eq_some.mp h
  obtain ⟨i, hi, hsignal⟩ := Option.bind_eq_some_iff.mp h
  obtain ⟨_, -, heq⟩ | ⟨rfl, -⟩ | ⟨_, -, heq⟩ := Instruction.signal?_eq_some hsignal
  · cases heq
  · exact ⟨by simpa using hrun, hi⟩
  · cases heq

/-- A step that tells of the end tells of it last, and the machine has halted. -/
lemma hears_next (m : Machine μ) : ∃ es, m.Hears m.next es ∧ .halt ∉ es.dropLast ∧
    (.halt ∈ es → m.next.cpu.halted = true) := by
  obtain ⟨es, hes, hlogs⟩ := Exec.stepLogs m
  rw [← next_eq_after] at hlogs
  have hmem : .halt ∉ es := fun h => Bool.noConfusion (hes _ h)
  refine ⟨_, hlogs.hears, not_mem_dropLast_append hmem ?_, fun h => ?_⟩
  · -- there is one signal at most
    cases Exec.step m with
    | ok _ _ => cases Move.step.signal? m <;> exact List.not_mem_nil
    | error _ _ => exact List.not_mem_nil
  · have hsignalled := (List.mem_append.mp h).resolve_left hmem
    cases hm : Exec.step m with
    | ok s u =>
      rw [hm] at hsignalled
      have hhlt := executes_of_signal? (Option.mem_toList.mp hsignalled)
      obtain ⟨m', hm', hhalted⟩ := Exec.halts_of_executes hhlt
      rwa [next_of_ok hm']
    | error e u =>
      rw [hm] at hsignalled
      cases hsignalled

lemma hears_iterate_next (m : Machine μ) (n : Nat) : ∃ es, m.Hears (next^[n] m) es ∧
    .halt ∉ es.dropLast := by
  induction n generalizing m with
  | zero => exact ⟨[], .refl m, by simp⟩
  | succ n ih =>
    rw [Function.iterate_succ_apply]
    obtain ⟨es, hes, hlast, hhalted⟩ := m.hears_next
    by_cases hmem : .halt ∈ es
    · rw [iterate_next_of_halted (hhalted hmem)]
      exact ⟨es, hes, hlast⟩
    · obtain ⟨es', hes', hlast'⟩ := ih m.next
      exact ⟨es ++ es', hes.trans hes', not_mem_dropLast_append hmem hlast'⟩

end Machine

/-- All drivers do the same steps. A limited run goes on as a longer one does and passes on a failure; the run
without a limit returns as limited ones do, as soon as their limits are large enough; and what is done at
the end is done once, on the machine that has halted. After `hlt` every step asks for none and leaves the
machine as it is, so that the end is told once at most, and last. -/
theorem drivers_agree (m : Machine μ) :
    (∀ n k b u, Exec.runFor n m = .ok b u → Exec.runFor (n + k) m = Exec.runFor k u) ∧
    (∀ n k e u, Exec.runFor n m = .error e u → Exec.runFor (n + k) m = .error e u) ∧
    (∀ u, Exec.Returns m (.ok true u) ↔ ∃ k, Exec.runFor k m = .ok true u) ∧
    (∀ e u, Exec.Returns m (.error e u) ↔ ∃ k, Exec.runFor k m = .error e u) ∧
    (∀ r, Exec.Returns m r → ∃ n, ∀ k ≥ n, Exec.runFor k m = r) ∧
    (∀ (α : Type) (onHalt : Exec μ α) fuel, Exec.runThen onHalt fuel m =
      match Exec.run fuel m with
      | .ok true u => (some <$> onHalt) u
      | .ok false u => .ok none u
      | .error e u => .error e u) ∧
    (m.Executes ⟨.hlt, []⟩ → ∃ m', Exec.step m = .ok .halt m' ∧
      ∀ n, Exec.step (Machine.next^[n] m') = .ok .halt m') ∧
    ∀ n es, 0 < m.cpu.listeners → m.Hears (Machine.next^[n] m) es → .halt ∉ es.dropLast := by
  refine ⟨fun n k b u h => Exec.runFor_add h k, fun n k e u h => Exec.runFor_add_of_error h k,
    fun u => Exec.returns_ok_iff, fun e u => Exec.returns_error_iff, fun r h => h.runFor,
    fun α onHalt fuel => Exec.runThen_eq onHalt fuel m, fun h => ?_, fun n es hlisteners hes => ?_⟩
  · obtain ⟨m', hm, hhalted⟩ := Exec.halts_of_executes h
    refine ⟨m', hm, fun n => ?_⟩
    rw [Machine.iterate_next_of_halted hhalted]
    exact Exec.step_of_halted hhalted
  · obtain ⟨es', hes', hlast⟩ := m.hears_iterate_next n
    rwa [hes.unique hlisteners hes']

/-- Two steps are just enough for this program. -/
theorem drivers_agree_overheard : ∃ u v, Exec.runFor 1 Machine.overheard = .ok false u ∧
    Exec.runFor (1 + 1) Machine.overheard = Exec.runFor 1 u ∧
    Exec.runFor 2 Machine.overheard = .ok true v ∧ Exec.Returns Machine.overheard (.ok true v) := by
  obtain ⟨u, hu⟩ : ∃ u, Exec.runFor 1 Machine.overheard = .ok false u := ⟨_, by rfl⟩
  obtain ⟨v, hv⟩ : ∃ v, Exec.runFor 2 Machine.overheard = .ok true v := ⟨_, by rfl⟩
  obtain ⟨hadd, -, hreturns, -⟩ := drivers_agree Machine.overheard
  exact ⟨u, v, hu, hadd 1 1 false u hu, hv, (hreturns v).mpr ⟨2, hv⟩⟩

end Machine16
