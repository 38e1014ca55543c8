import Mathlib.Data.List.Infix
import Machine16.Proofs.Stack

/-! The stack that a host works on. Whatever it pushes and pops, the machine answers as a list does whose
last element comes off first. The list lies in memory downwards from where `sp` was at first; it may go
around the end of the address space, and has room for as many words as there are in it. -/
namespace Machine16

/-- What a host asks of the stack. -/
inductive StackCall
  | push (w : Word)
  | pop
  deriving DecidableEq, Repr

namespace StackCall

/-- Makes a call. The answer is the word that comes off the stack. -/
def perform {μ : Type} [Device μ] : StackCall → Exec μ (Option Word)
  | push w => do
    Exec.push w
    return none
  | pop => do return some (← Exec.pop)

def performAll {μ : Type} [Device μ] : List StackCall → Exec μ (List (Option Word))
  | [] => return []
  | c :: cs => do
    let answer ← c.perform
    return answer :: (← performAll cs)

/-- The values that are outstanding after a call, the oldest first. -/
def after (ws : List Word) : StackCall → List Word
  | push w => ws ++ [w]
  | pop => ws.dropLast

/-- A pop is answered by the latest value that is outstanding. -/
def answer (ws : List Word) : StackCall → Option Word
  | push _ => none
  | pop => ws.getLast?

/-- The values that are outstanding after calls. -/
def outstanding (ws : List Word) (cs : List StackCall) : List Word := cs.foldl after ws

def answers (ws : List Word) : List StackCall → List (Option Word)
  | [] => []
  | c :: cs => c.answer ws :: answers (c.after ws) cs

/-- The addresses of the words that calls push, from where `sp` is before them. -/
def pushedAt (sp : Word) : List StackCall → List Word
  | [] => []
  | push _ :: cs => sp :: pushedAt (sp - 2) cs
  | pop :: cs => pushedAt (sp + 2) cs

/-- With so many values outstanding at first, the calls never pop more than there is and never leave more
than the address space has words. -/
def Fits (outstanding : Nat) (cs : List StackCall) : Prop := ∀ done ∈ cs.inits,
  done.count .pop ≤ outstanding + done.countP (· ≠ .pop) ∧
    outstanding + done.countP (· ≠ .pop) ≤ done.count .pop + 0x8000

instance (outstanding : Nat) (cs : List StackCall) : Decidable (Fits outstanding cs) :=
  inferInstanceAs (Decidable (∀ done ∈ cs.inits, _))

namespace Fits

variable {n : Nat} {w : Word} {cs cs' : List StackCall}

lemma of_isPrefix (h : Fits n cs) (hcs : cs' <+: cs) : Fits n cs' := fun done hdone =>
  h done ((List.mem_inits _ _).mpr (((List.mem_inits _ _).mp hdone).trans hcs))

lemma of_cons {c : StackCall} (h : Fits n (c :: cs)) {done : List StackCall} (hdone : done ∈ cs.inits) :
    (c :: done).count .pop ≤ n + (c :: done).countP (· ≠ .pop) ∧
      n + (c :: done).countP (· ≠ .pop) ≤ (c :: done).count .pop + 0x8000 :=
  h _ ((List.mem_inits _ _).mpr (List.cons_prefix_cons.mpr ⟨rfl, (List.mem_inits _ _).mp hdone⟩))

lemma push (h : Fits n (push w :: cs)) : n < 0x8000 ∧ Fits (n + 1) cs := by
  constructor
  · have := h.of_cons (List.mem_inits _ _ |>.mpr cs.nil_prefix)
    simp at this
    omega
  · intro done hdone
    have := h.of_cons hdone
    simp at this ⊢
    omega

lemma pop (h : Fits n (pop :: cs)) : 0 < n ∧ Fits (n - 1) cs := by
  have hn : 0 < n := by
    have := h.of_cons (List.mem_inits _ _ |>.mpr cs.nil_prefix)
    simp at this
    omega
  refine ⟨hn, fun done hdone => ?_⟩
  have := h.of_cons hdone
  simp at this ⊢
  omega

end Fits

end StackCall

namespace View

/-- Where a word is pushed when so many others are outstanding. -/
def slot {μ : Type} (v : View μ) (i : Nat) : Word := v.reg .sp - 2 * UInt16.ofNat i

section

variable {μ : Type} {v : View μ}

lemma slot_succ (i : Nat) : v.slot (i + 1) = v.slot i - 2 := by
  simp [slot]
  grind

lemma slot_ne_last (heven : v.reg .sp % 2 = 0) (i : Nat) : v.slot i ≠ 0xFFFF :=
  Word.ne_last_of_even (Word.even_sub heven _)

/-- As long as there is room, words do not meet around the address space. -/
lemma slot_disjoint {i j : Nat} (hij : i < j) (hj : j < 0x8000) :
    v.slot i ≠ v.slot j ∧ v.slot i ≠ v.slot j + 1 ∧
      v.slot i + 1 ≠ v.slot j ∧ v.slot i + 1 ≠ v.slot j + 1 := by
  -- the distance is at least two, and at least two short of the whole address space
  obtain ⟨k, rfl⟩ := Nat.exists_eq_add_of_lt hij
  have hslot : v.slot i = v.slot (i + k + 1) + UInt16.ofNat (2 * (k + 1)) := by
    simp [slot]
    grind
  have hdistance : (UInt16.ofNat (2 * (k + 1))).toNat = 2 * (k + 1) := by
    rw [UInt16.toNat_ofNat']
    omega
  have hne {d : Word} (hd : d.toNat < 2 ∨ d.toNat = 0xFFFF) : UInt16.ofNat (2 * (k + 1)) ≠ d := by
    rintro rfl
    omega
  have h₀ := hne (d := 0) (.inl (by decide))
  have h₁ := hne (d := 1) (.inl (by decide))
  have h₂ := hne (d := 0xFFFF) (.inr (by decide))
  rw [hslot]
  refine ⟨?_, ?_, ?_, ?_⟩ <;> grind

end

/-- The bytes after a word has been pushed. -/
lemma readByte?_of_push {v v' : View (Bus Peripheral)} (hspan : v.memory.IsSpanned)
    (hlast : v.reg .sp ≠ 0xFFFF) {w : Word} (hv : v.pushAll? [w] = some v') (a : Word) :
    v'.readByte? a = if a = v.reg .sp then some (Word.high w)
      else if a = v.reg .sp + 1 then some (Word.low w) else v.readByte? a := by
  obtain ⟨u, hu, heq⟩ := Option.bind_eq_some_iff.mp hv
  cases heq
  exact readByte?_of_writeWord? hspan hlast hu a

/-- Since `v` values have been pushed; those that are outstanding lie in memory from its `sp` downwards,
the oldest first. -/
structure Stacked (v v' : View (Bus Peripheral)) (ws : List Word) : Prop where
  sp : v'.reg .sp = v.slot ws.length
  frameSize : v'.frameSize = v.frameSize + 2 * UInt16.ofNat ws.length
  bytes : ∀ i (hi : i < ws.length), v'.bytesFrom? (v.slot i) 2 = some (Word.bytes ws[i])

namespace Stacked

variable {v v' : View (Bus Peripheral)} {ws : List Word}

lemma refl (v : View (Bus Peripheral)) : v.Stacked v [] := ⟨by simp [slot], by simp, by simp⟩

/-- A value that is pushed lies below those that are outstanding, which stay. -/
lemma push (h : v.Stacked v' ws) (hspan : v'.memory.IsSpanned) (heven : v.reg .sp % 2 = 0)
    (hroom : ws.length < 0x8000) (w : Word) :
    ∃ u, v'.pushAll? [w] = some u ∧ u.memory.IsSpanned ∧ v.Stacked u (ws ++ [w]) ∧
      ∀ a, a ≠ v'.reg .sp → a ≠ v'.reg .sp + 1 → u.readByte? a = v'.readByte? a := by
  have hlast : v'.reg .sp ≠ 0xFFFF := h.sp ▸ slot_ne_last heven _
  obtain ⟨u, hu, hspan'⟩ := exists_pushAll? Bus.reliable_isSpanned hspan [w]
  have hbyte := readByte?_of_push hspan hlast hu
  have hview := pushAll?_eq_some hu
  refine ⟨u, hu, hspan', ⟨?_, ?_, fun i hi => ?_⟩, fun a hfirst hsecond => ?_⟩
  · rw [hview]
    simp [h.sp, slot_succ]
  · rw [hview]
    simp [h.frameSize]
    grind
  · rw [List.length_append, List.length_singleton] at hi
    simp only [bytesFrom?, hbyte, h.sp]
    -- an older value shares no byte with the new one
    rcases Nat.lt_succ_iff_lt_or_eq.mp hi with hi | rfl
    · obtain ⟨h₁, h₂, h₃, h₄⟩ := slot_disjoint (v := v) hi hroom
      rw [List.getElem_append_left hi, ← h.bytes i hi]
      simp [bytesFrom?, h₁, h₂, h₃, h₄]
    · simp [Word.bytes]
  · rw [hbyte, if_neg hfirst, if_neg hsecond]

/-- The latest value comes off, and those before it stay where they are. -/
lemma pop {w : Word} (h : v.Stacked v' (ws ++ [w])) (heven : v.reg .sp % 2 = 0) :
    v'.readWord? (v'.reg .sp + 2) = some w ∧ v.Stacked (v'.dropped 1) ws := by
  have hsp : v'.reg .sp + 2 = v.slot ws.length := by
    rw [h.sp, List.length_append, List.length_singleton, slot_succ]
    grind
  refine ⟨?_, ?_, ?_, fun i hi => ?_⟩
  · have hbytes := h.bytes ws.length (by simp)
    obtain ⟨high, low, heq, hw⟩ := bytesFrom?_two_eq_some (slot_ne_last heven _) hbytes
    cases heq
    rw [hsp, hw]
    simp
  · simpa [dropped] using hsp
  · simp [dropped, h.frameSize]
    grind
  · have hbytes := h.bytes i (by simp; omega)
    rw [List.getElem_append_left hi] at hbytes
    exact hbytes

end Stacked

end View

namespace StackCall

variable {m m' : Machine (Bus Peripheral)} {ws : List Word}

/-- A call is answered as the list answers it, and leaves the list as it is after the call. -/
lemma exists_perform (h : m.view.Stacked m'.view ws) (hspan : m'.memory.IsSpanned)
    (heven : m.view.reg .sp % 2 = 0) {c : StackCall} {cs : List StackCall}
    (hfits : Fits ws.length (c :: cs)) :
    ∃ u, c.perform m' = .ok (c.answer ws) u ∧ u.memory.IsSpanned ∧
      m.view.Stacked u.view (c.after ws) ∧ Fits (c.after ws).length cs ∧
      (∀ s ∈ pushedAt (u.view.reg .sp) cs, s ∈ pushedAt (m'.view.reg .sp) (c :: cs)) ∧
      ∀ a, (∀ s ∈ pushedAt (m'.view.reg .sp) (c :: cs), a ≠ s ∧ a ≠ s + 1) →
        u.view.readByte? a = m'.view.readByte? a := by
  cases c with
  | push w =>
    obtain ⟨hroom, hrest⟩ := hfits.push
    obtain ⟨v, hv, hspan', hstacked, hbyte⟩ := h.push hspan heven hroom w
    obtain ⟨u, hu, rfl⟩ := Exec.observe_eq_some.mp
      ((Exec.Refines.push w m').trans (congrArg (Option.map _) hv))
    have hsp : u.view.reg .sp = m'.view.reg .sp - 2 := by
      rw [View.pushAll?_eq_some hv]
      simp
    refine ⟨u, Exec.bind_of_ok hu, hspan', hstacked, ?_, fun s hs => ?_, fun a ha => ?_⟩
    · simpa [after] using hrest
    · rw [hsp] at hs
      exact List.mem_cons_of_mem _ hs
    · obtain ⟨hfirst, hsecond⟩ := ha _ List.mem_cons_self
      exact hbyte a hfirst hsecond
  | pop =>
    obtain ⟨hsome, hrest⟩ := hfits.pop
    obtain ⟨ws, w, rfl⟩ := ws.eq_nil_or_concat'.resolve_left (List.ne_nil_of_length_pos hsome)
    obtain ⟨hw, hstacked⟩ := h.pop heven
    obtain ⟨u, hu, hview⟩ := Exec.observe_eq_some.mp
      ((Exec.Refines.pop m').trans (congrArg (Option.map _) hw))
    have hsp : u.view.reg .sp = m'.view.reg .sp + 2 := by
      rw [hview]
      simp [View.dropped]
    have hmemory : u.memory = m'.memory := congrArg View.memory hview
    refine ⟨u, ?_, hmemory ▸ hspan, ?_, ?_, fun s hs => ?_, fun a _ => ?_⟩
    · rw [answer, List.getLast?_concat]
      exact Exec.bind_of_ok hu
    · rw [after, List.dropLast_concat, hview]
      exact hstacked
    · simpa [after] using hrest
    · rwa [hsp] at hs
    · rw [hview]
      rfl

/-- The answers to all calls, and what they leave. -/
lemma exists_performAll (h : m.view.Stacked m'.view ws) (hspan : m'.memory.IsSpanned)
    (heven : m.view.reg .sp % 2 = 0) {cs : List StackCall} (hfits : Fits ws.length cs) :
    ∃ u, performAll cs m' = .ok (answers ws cs) u ∧ m.view.Stacked u.view (outstanding ws cs) ∧
      ∀ a, (∀ s ∈ pushedAt (m'.view.reg .sp) cs, a ≠ s ∧ a ≠ s + 1) →
        u.view.readByte? a = m'.view.readByte? a := by
  induction cs generalizing m' ws with
  | nil => exact ⟨m', rfl, h, fun _ _ => rfl⟩
  | cons c cs ih =>
    obtain ⟨u, hu, hspan', hstacked, hrest, hslots, hbyte⟩ := exists_perform h hspan heven hfits
    obtain ⟨u', hu', hstacked', hbyte'⟩ := ih hstacked hspan' hrest
    refine ⟨u', ?_, hstacked', fun a ha => ?_⟩
    · exact (Exec.bind_of_ok hu).trans (Exec.bind_of_ok hu')
    · rw [hbyte' a fun s hs => ha s (hslots s hs), hbyte a ha]

end StackCall

/-- A machine whose memory spans all addresses, with an even `sp`, has a stack. Whatever a host pushes and
pops, as long as it pops no more than it has pushed and leaves no more than the address space has words, all
calls succeed, and every pop gives the latest value that is outstanding. Wherever the host stops, `sp` and
the size of the frame have moved by two for every value outstanding, these values lie downwards from where
`sp` was at first, with their high bytes first, and all bytes are as they were but for those of words that
have been pushed. -/
theorem stackCalls_refine_list {m : Machine (Bus Peripheral)} (hspan : m.memory.IsSpanned)
    (heven : m.view.reg .sp % 2 = 0) {calls : List StackCall} (hfits : StackCall.Fits 0 calls)
    {done : List StackCall} (hdone : done <+: calls) :
    ∃ m', StackCall.performAll done m = .ok (StackCall.answers [] done) m' ∧
      m.view.Stacked m'.view (StackCall.outstanding [] done) ∧
      ∀ a, (∀ s ∈ StackCall.pushedAt (m.view.reg .sp) done, a ≠ s ∧ a ≠ s + 1) →
        m'.view.readByte? a = m.view.readByte? a :=
  StackCall.exists_performAll (.refl m.view) hspan heven (hfits.of_isPrefix hdone)

/-- A stack that goes around the end of the address space. -/
theorem stackCalls_refine_list_around : ∃ m m' : Machine (Bus Peripheral),
    m = ⟨(Cpu.initial 0).set .sp 0, .flat (Ram.zeros 0x10000)⟩ ∧
    StackCall.performAll [.push 0x1234, .push 0x5678, .push 9, .pop] m =
      .ok [none, none, none, some 9] m' ∧
    m'.view.reg .sp = 0xFFFC ∧ m'.view.frameSize = 4 ∧ m'.view.bytesFrom? 0 2 = some [0x12, 0x34] ∧
    m'.view.bytesFrom? 0xFFFE 2 = some [0x56, 0x78] ∧ m'.view.readByte? 2 = m.view.readByte? 2 := by
  let m : Machine (Bus Peripheral) := ⟨(Cpu.initial 0).set .sp 0, .flat (Ram.zeros 0x10000)⟩
  have hspan : m.memory.IsSpanned := Bus.isSpanned_flat (by simp)
  have hfits : StackCall.Fits 0 [.push 0x1234, .push 0x5678, .push 9, .pop] := by decide
  obtain ⟨m', hm', hstacked, hbyte⟩ :=
    stackCalls_refine_list (m := m) hspan (by decide) hfits List.prefix_rfl
  have hfirst : m'.view.bytesFrom? (m.view.slot 0) 2 = _ := hstacked.bytes 0 (by decide)
  have hsecond : m'.view.bytesFrom? (m.view.slot 1) 2 = _ := hstacked.bytes 1 (by decide)
  have hslots : m.view.slot 0 = 0 ∧ m.view.slot 1 = 0xFFFE := by decide
  rw [hslots.1] at hfirst
  rw [hslots.2] at hsecond
  have hpushed : StackCall.pushedAt 0 [.push 0x1234, .push 0x5678, .push 9, .pop] =
      [0, 0xFFFE, 0xFFFC] := by decide
  have hthird : m'.view.readByte? 2 = m.view.readByte? 2 := hbyte 2 <| by
    change ∀ s ∈ StackCall.pushedAt 0 _, _
    rw [hpushed]
    simp
  exact ⟨m, m', rfl, hm', hstacked.sp, hstacked.frameSize, hfirst, hsecond, hthird⟩

end Machine16
