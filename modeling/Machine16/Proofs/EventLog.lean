import Machine16.Proofs.Balance
import Machine16.Proofs.Commands

/-! What listeners hear of is what happens to registers and memory. Played back on the registers and the
memory from before, the events of an operation leave what the operation leaves, wherever it fails. Only
fetching moves `ip` without an event. An interrupt, a pause and the end of the program are told last. -/
namespace Machine16

variable {μ α β : Type}

namespace Registers

@[simp] lemma set_set (rs : Registers) (r : Register) (w w' : Word) :
    (rs.set r w).set r w' = rs.set r w' := by
  simp [set]

@[simp] lemma set_get (rs : Registers) (r : Register) : rs.set r (rs.get r) = rs := by
  simp [set, get]

end Registers

/-- Whether an event tells of something else than a register or a word of memory. -/
def Event.isSignal : Event → Bool
  | register .. | memory .. => false
  | interrupt _ | sleep _ | halt => true

/-- The registers and the memory after an event, for someone who only hears of it. -/
def Event.replay [Device μ] (s : Registers × μ) : Event → Registers × μ
  | register r w => (s.1.set r w, s.2)
  | memory address w =>
    match Device.writeWord address w s.2 with
    | .ok () written => (s.1, written)
    | .error _ _ => s
  | interrupt _ | sleep _ | halt => s

/-- The registers and the memory after events. -/
def replay [Device μ] (es : List Event) (s : Registers × μ) : Registers × μ := es.foldl Event.replay s

/-- A write that fails leaves the memory as it is. -/
def Device.Atomic (μ : Type) [Device μ] : Prop :=
  ∀ (memory : μ) address w e memory', writeWord address w memory = .error e memory' → memory' = memory

lemma Ram.atomic : Device.Atomic Ram := by
  rintro ⟨bytes⟩ address w e memory' h
  change writeWord address.toUInt64 w ⟨bytes⟩ = _ at h
  rw [writeWord] at h
  split at h
  · cases h
  · cases h
    rfl

/-- The last word that events give a register. -/
def Event.lastWord? (r : Register) (es : List Event) : Option Word :=
  (es.filterMap fun
    | .register s w => if s = r then some w else none
    | _ => none).getLast?

section

variable [Device μ]

lemma replay_append (es es' : List Event) (s : Registers × μ) :
    replay (es ++ es') s = replay es' (replay es s) := List.foldl_append

/-- A register holds the last word that it was given. -/
lemma get_replay (r : Register) (es : List Event) (s : Registers × μ) :
    (replay es s).1.get r = (Event.lastWord? r es).getD (s.1.get r) := by
  induction es generalizing s with
  | nil => rfl
  | cons e es ih =>
    refine (ih _).trans ?_
    cases e with
    | register t w =>
      simp only [Event.lastWord?, List.filterMap_cons]
      by_cases ht : t = r
      · subst ht
        rw [if_pos rfl, List.getLast?_cons]
        exact congrArg _ (Registers.get_set_self _ _ _)
      · rw [if_neg ht]
        exact congrArg _ (Registers.get_set_of_ne _ ht w)
    | memory address w =>
      simp only [Event.replay]
      split <;> rfl
    | interrupt _ | sleep _ | halt => rfl

/-- The same registers but for `ip`, and the same memory. -/
def AgreeButIp (s t : Registers × μ) : Prop := (∀ r ≠ .ip, s.1.get r = t.1.get r) ∧ s.2 = t.2

omit [Device μ] in
lemma AgreeButIp.trans {s t u : Registers × μ} (h : AgreeButIp s t) (h' : AgreeButIp t u) :
    AgreeButIp s u :=
  ⟨fun r hr => (h.1 r hr).trans (h'.1 r hr), h.2.trans h'.2⟩

lemma AgreeButIp.replay {s t : Registers × μ} (h : AgreeButIp s t) (es : List Event) :
    AgreeButIp (replay es s) (Machine16.replay es t) := by
  induction es generalizing s t with
  | nil => exact h
  | cons e es ih =>
    refine ih ?_
    obtain ⟨rs, memory⟩ := s
    obtain ⟨rs', memory'⟩ := t
    obtain ⟨hregisters, rfl⟩ := h
    cases e with
    | register t w =>
      refine ⟨fun r hr => ?_, rfl⟩
      simp only [Event.replay, Registers.get_set, hregisters r hr]
    | memory address w =>
      simp only [Event.replay]
      split <;> exact ⟨hregisters, rfl⟩
    | interrupt _ | sleep _ | halt => exact ⟨hregisters, rfl⟩

end

lemma flatMap_replicate_injective {k : Nat} (hk : 0 < k) :
    Function.Injective fun as : List α => as.flatMap (List.replicate k) := by
  intro as bs h
  induction as generalizing bs with
  | nil =>
    cases bs with
    | nil => rfl
    | cons b bs =>
      have := congrArg List.length h
      simp at this
      omega
  | cons a as ih =>
    cases bs with
    | nil =>
      have := congrArg List.length h
      simp at this
      omega
    | cons b bs =>
      simp only [List.flatMap_cons] at h
      obtain ⟨hhead, htail⟩ := List.append_inj h (by simp)
      rw [ih htail, ((List.replicate_inj.mp hhead).2.resolve_left (by omega))]

namespace Machine

/-- From one machine to the other, every listener hears of the events. -/
structure Hears (m m' : Machine μ) (es : List Event) : Prop where
  listeners : m'.cpu.listeners = m.cpu.listeners
  events : m'.cpu.events = m.cpu.events ++ (es.flatMap (List.replicate m.cpu.listeners)).toArray

namespace Hears

variable {m u m' : Machine μ} {es es' : List Event}

/-- Who does not touch the listeners tells them nothing. -/
lemma silent (hlisteners : m'.cpu.listeners = m.cpu.listeners) (hevents : m'.cpu.events = m.cpu.events) :
    m.Hears m' [] := ⟨hlisteners, hevents.trans Array.append_empty.symm⟩

lemma refl (m : Machine μ) : m.Hears m [] := silent rfl rfl

lemma trans (h : m.Hears u es) (h' : u.Hears m' es') : m.Hears m' (es ++ es') := by
  refine ⟨h'.listeners.trans h.listeners, ?_⟩
  rw [h'.events, h.events, h.listeners, List.flatMap_append, ← List.append_toArray, Array.append_assoc]

lemma hear {c : Cpu} (hlisteners : c.listeners = m.cpu.listeners) (hevents : c.events = m.cpu.events)
    (memory : μ) (e : Event) : m.Hears ⟨c.hear e, memory⟩ [e] := by
  refine ⟨hlisteners, ?_⟩
  simp [Cpu.hear, hlisteners, hevents]

/-- A listener knows what it has heard. -/
lemma unique (hm : 0 < m.cpu.listeners) (h : m.Hears m' es) (h' : m.Hears m' es') : es = es' := by
  have heq := h.events.symm.trans h'.events
  rw [Array.append_right_inj] at heq
  exact flatMap_replicate_injective hm (Array.mk.inj heq)

end Hears

/-- What events are played back on. -/
def state (m : Machine μ) : Registers × μ := (m.cpu.registers, m.memory)

/-- From one machine to the other, the events are heard of and tell everything. -/
structure Logs [Device μ] (m m' : Machine μ) (es : List Event) : Prop extends m.Hears m' es where
  replay : Device.Atomic μ → replay es m.state = m'.state

namespace Logs

variable [Device μ] {m u m' : Machine μ} {es es' : List Event}

lemma refl (m : Machine μ) : m.Logs m [] := ⟨.refl m, fun _ => rfl⟩

lemma trans (h : m.Logs u es) (h' : u.Logs m' es') : m.Logs m' (es ++ es') := by
  refine ⟨h.toHears.trans h'.toHears, fun hμ => ?_⟩
  rw [replay_append, h.replay hμ, h'.replay hμ]

end Logs

end Machine

namespace Instruction

/-- The signal that an instruction gives, if it succeeds. -/
def signal? (i : Instruction Word) (v : View μ) : Option Event :=
  match i.opcode, i.operands with
  | .slp, [.literal w] => some (.sleep w)
  | .hlt, [] => some .halt
  | .int, [.literal w] => if v.enabled w then some (.interrupt (w &&& 0xF)) else none
  | _, _ => none

/-- Only three instructions give signals. -/
lemma signal?_eq_some {i : Instruction Word} {v : View μ} {e : Event} (h : i.signal? v = some e) :
    (∃ w, i = ⟨.slp, [.literal w]⟩ ∧ e = .sleep w) ∨ i = ⟨.hlt, []⟩ ∧ e = .halt ∨
      ∃ w, i = ⟨.int, [.literal w]⟩ ∧ e = .interrupt (w &&& 0xF) := by
  obtain ⟨op, os⟩ := i
  cases op with
  | slp =>
    rcases os with _ | ⟨_ | _, _ | _⟩ <;> cases h
    exact .inl ⟨_, rfl, rfl⟩
  | hlt =>
    rcases os with _ | _ <;> cases h
    exact .inr (.inl ⟨rfl, rfl⟩)
  | int =>
    rcases os with _ | ⟨_ | _, _ | _⟩ <;> try cases h
    obtain ⟨-, h⟩ := Option.ite_none_right_eq_some.mp h
    cases h
    exact .inr (.inr ⟨_, rfl, rfl⟩)
  | _ => cases h

/-- Of the registers only `im` decides. -/
lemma signal?_congr (i : Instruction Word) {v w : View μ} (h : v.reg .im = w.reg .im) :
    i.signal? v = i.signal? w := by
  have henabled : v.enabled = w.enabled := by
    funext vector
    rw [View.enabled, View.enabled, h]
  rw [signal?, signal?, henabled]

end Instruction

namespace Exec

/-- The signal of an operation, if the operation succeeds. -/
def signalled (signal? : Option Event) : EStateM.Result MemoryError (Machine μ) α → List Event
  | .ok _ _ => signal?.toList
  | .error _ _ => []

lemma after_map (x : Exec μ α) (f : α → β) (m : Machine μ) :
    after ((x >>= fun a => pure (f a)) m) = after (x m) := by
  cases hm : x m with
  | ok a u => rw [bind_of_ok hm]; rfl
  | error e u => rw [bind_of_error hm]; rfl

lemma signalled_map (signal? : Option Event) (x : Exec μ α) (f : α → β) (m : Machine μ) :
    signalled signal? ((x >>= fun a => pure (f a)) m) = signalled signal? (x m) := by
  cases hm : x m with
  | ok a u => rw [bind_of_ok hm]; rfl
  | error e u => rw [bind_of_error hm]; rfl

variable [Device μ]

/-- What an operation does to a machine is told by events. All of them are about registers and memory, but
for a signal at the end of an operation that succeeds. -/
def Logs (signal? : Option Event) (x : Exec μ α) (m : Machine μ) : Prop :=
  ∃ es, (∀ e ∈ es, e.isSignal = false) ∧ m.Logs (after (x m)) (es ++ signalled signal? (x m))

namespace Logs

variable {m : Machine μ} {signal? : Option Event}

lemma pure (a : α) : Logs none (pure a) m := ⟨[], by simp, .refl m⟩

lemma bind {x : Exec μ α} {y : α → Exec μ β} (hx : Logs none x m)
    (hy : ∀ a u, x m = .ok a u → Logs signal? (y a) u) : Logs signal? (x >>= y) m := by
  obtain ⟨es, hes, hlogs⟩ := hx
  cases hm : x m with
  | ok a u =>
    obtain ⟨es', hes', hlogs'⟩ := hy a u hm
    rw [hm] at hlogs
    rw [Exec.Logs, bind_of_ok hm]
    refine ⟨es ++ es', fun e he => (List.mem_append.mp he).elim (hes e) (hes' e), ?_⟩
    have := hlogs.trans hlogs'
    simpa [signalled, after] using this
  | error e u =>
    rw [hm] at hlogs
    rw [Exec.Logs, bind_of_error hm]
    exact ⟨es, hes, hlogs⟩

lemma map {x : Exec μ α} (hx : Logs signal? x m) (f : α → β) :
    Logs signal? (x >>= fun a => Pure.pure (f a)) m := by
  rwa [Exec.Logs, after_map, signalled_map]

lemma modifyCpu {f : Cpu → Cpu} (hregisters : ∀ c, (f c).registers = c.registers)
    (hlisteners : ∀ c, (f c).listeners = c.listeners) (hevents : ∀ c, (f c).events = c.events) :
    Logs none (modifyCpu f) m := by
  refine ⟨[], by simp, .silent (hlisteners _) (hevents _), fun _ => ?_⟩
  exact congrArg (·, m.memory) (hregisters _).symm

lemma emit {e : Event} (he : e.isSignal) : Logs (some e) (emit e) m := by
  refine ⟨[], by simp, .hear rfl rfl _ e, fun _ => ?_⟩
  cases e with
  | register _ _ | memory _ _ => cases he
  | interrupt _ | sleep _ | halt => rfl

lemma set (r : Register) (w : Word) : Logs none (set r w) m := by
  have hheard : m.Hears ⟨(m.cpu.set r w).hear (.register r w), m.memory⟩ [.register r w] :=
    .hear (c := m.cpu.set r w) rfl rfl _ _
  exact ⟨[.register r w], by simp [Event.isSignal], hheard, fun _ => rfl⟩

lemma readWord (address : Word) : Logs none (readWord address) m := by
  refine ⟨[], by simp, ?_⟩
  cases h : Device.readWord m.memory address with
  | ok w =>
    simp only [Exec.readWord_eq, h]
    exact .refl m
  | error e =>
    simp only [Exec.readWord_eq, h]
    exact .refl m

lemma store (address w : Word) : Logs none (store address w) m := by
  obtain ⟨c, memory⟩ := m
  cases h : Device.writeWord address w memory with
  | ok _ memory' =>
    have hwrite : writeWord address w (⟨c, memory⟩ : Machine μ) = .ok () ⟨c, memory'⟩ := by
      simp only [writeWord_eq, h, Update.within_ok]
    rw [Exec.Logs, Exec.store, bind_of_ok hwrite]
    have hheard : (⟨c, memory⟩ : Machine μ).Hears ⟨c.hear (.memory address w), memory'⟩
        [.memory address w] := .hear rfl rfl _ _
    refine ⟨[.memory address w], by simp [Event.isSignal], hheard, fun _ => ?_⟩
    change Event.replay (c.registers, memory) (.memory address w) = (c.registers, memory')
    simp only [Event.replay, h]
  | error e memory' =>
    have hwrite : writeWord address w (⟨c, memory⟩ : Machine μ) = .error e ⟨c, memory'⟩ := by
      simp only [writeWord_eq, h, Update.within_error]
    rw [Exec.Logs, Exec.store, bind_of_error hwrite]
    refine ⟨[], by simp, .silent rfl rfl, fun hμ => ?_⟩
    exact congrArg (c.registers, ·) (hμ _ _ _ _ _ h).symm

lemma command {c : Command} (hc : c.Works) : Logs none c.exec m := by
  cases c with
  | look => exact ⟨[], by simp, .refl m⟩
  | load address => exact readWord address
  | store address w => exact store address w
  | set r w => exact set r w
  | resize _ | handle _ =>
    simp only [Command.exec, Exec.resizeFrame]
    exact modifyCpu (fun _ => rfl) (fun _ => rfl) fun _ => rfl
  | fetchByte | fetchWord | halt | signal _ => exact hc.elim

/-- What does nothing but work gives no signal. -/
lemma of_works {x : (μ : Type) → [Device μ] → Exec μ α} (hx : MadeOf Command.Works x) :
    Logs none (x μ) m :=
  hx.preserves (P := fun x => ∀ m, Logs none x m) (fun a _ => pure a) (fun _ hc _ => command hc)
    (fun hx hy m => (hx m).bind fun a u _ => hy a u) m

/-- An interrupt that is let through is told once it is at its handler. -/
lemma interrupt (vector : Word) :
    Logs (if m.view.enabled vector then some (.interrupt (vector &&& 0xF)) else none)
      (interrupt vector) m := by
  have htail (handler : Word) {u : Machine μ} : Logs (some (.interrupt (vector &&& 0xF))) (do
      Exec.modifyCpu fun c => { c with inHandler := true }
      Exec.set .ip handler
      Exec.emit (.interrupt (vector &&& 0xF))) u :=
    (of_works (.handle true)).bind fun _ _ _ => (set .ip handler).bind fun _ _ _ => emit rfl
  have hmask : m.cpu.get .im &&& (1 <<< (vector &&& 0xF)) = 0 ↔ m.view.enabled vector = false :=
    Refines.and_mask_eq_zero_iff m.view vector
  refine (of_works (.get .im)).bind fun _ _ him => ?_
  cases him
  cases henabled : m.view.enabled vector with
  | false =>
    rw [if_pos (hmask.mpr henabled), if_neg Bool.false_ne_true]
    exact .pure ()
  | true =>
    have hpass : ¬m.cpu.get .im &&& (1 <<< (vector &&& 0xF)) = 0 := by simp [hmask, henabled]
    rw [if_pos rfl, if_neg hpass]
    refine (of_works .cpu).bind fun _ _ _ => (of_works (.readWord _)).bind fun handler _ _ =>
      (of_works .cpu).bind fun c _ _ => ?_
    split
    · exact (of_works (.push 0)).bind fun _ _ _ => (of_works .pushState).bind fun _ _ _ => htail handler
    · exact htail handler

/-- The signal that an instruction gives when it succeeds. -/
lemma perform (op : Opcode) (a : op.format.Fetched) :
    Logs ((⟨op, (op.format.readings a).map Prod.fst⟩ : Instruction Word).signal? m.view)
      (perform op a) m := by
  by_cases hslp : op = .slp
  · subst hslp
    exact emit rfl
  by_cases hhlt : op = .hlt
  · subst hhlt
    exact Logs.bind (modifyCpu (fun _ => rfl) (fun _ => rfl) fun _ => rfl) fun _ _ _ => emit rfl
  by_cases hint : op = .int
  · subst hint
    exact interrupt _
  · have hnone : (⟨op, (op.format.readings a).map Prod.fst⟩ : Instruction Word).signal? m.view = none := by
      cases op <;> first | rfl | contradiction
    rw [hnone]
    exact of_works (.perform_works hslp hhlt hint a)

end Logs

end Exec

end Machine16
