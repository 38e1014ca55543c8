import Machine16.Proofs.Stack

/-! Calls and returns. Whoever calls pushes the arguments and their number first; what is called may
do anything, as long as it leaves the frame of the call alone, and then its return gives back to the
caller its registers and its stack. Calls nest to any depth. -/
namespace Machine16

namespace View

variable {μ : Type}

/-- The registers of the stack are the same. -/
structure SameStack (v v' : View μ) : Prop where
  sp : v'.reg .sp = v.reg .sp
  fp : v'.reg .fp = v.reg .fp
  frameSize : v'.frameSize = v.frameSize

lemma KeepsFrame.past [Device μ] {v v' : View μ} (keeps : v.KeepsFrame v') (i : Instruction Word) :
    v.KeepsFrame (v'.past i) where
  fp := by simpa using keeps.fp
  bytes := by simpa using keeps.bytes

lemma Restored.of_past {before calling ending after : View μ} {i : Instruction Word}
    (h : before.Restored calling (ending.past i) after) : before.Restored calling ending after :=
  { h with
    acc := by simpa using h.acc
    mb := by simpa using h.mb
    im := by simpa using h.im }

end View

namespace Machine

variable {μ : Type} [Device μ]

/-- Whatever happens. -/
abbrev Reaches (m m' : Machine μ) : Prop := Run (fun _ _ => True) m m'

lemma Reaches.of_step {m m' : Machine μ} {s : Step} (h : Exec.step m = .ok s m') : m.Reaches m' := by
  have hmove : Move.step.perform m = .ok () m' := Exec.discard_eq_ok.mpr ⟨s, h⟩
  exact .move (.refl m) trivial hmove

/-- A move that pushes a word. It is made by the host or by the program. -/
inductive Pushes (m : Machine μ) (w : Word) : Move → Prop
  | host : Pushes m w (.push w)
  | program {i : Instruction Word} (h : m.Does i (.push w)) : Pushes m w .step

/-- Words are pushed one after the other. What happens in between does not move the stack. -/
inductive PushesAll : Machine μ → List Word → Machine μ → Prop
  | nil (m : Machine μ) : PushesAll m [] m
  | cons {m u u' m' : Machine μ} {w : Word} {ws : List Word} {a : Move} (run : m.Reaches u)
      (same : m.view.SameStack u.view) (pushes : u.Pushes w a) (h : a.perform u = .ok () u')
      (rest : PushesAll u' ws m') : PushesAll m (w :: ws) m'

lemma Pushes.pushAll? {m m' : Machine μ} {w : Word} {a : Move} (h : m.Pushes w a)
    (hm : a.perform m = .ok () m') : ∃ ip, (m.view.set .ip ip).pushAll? [w] = some m'.view := by
  cases h with
  | host =>
    have hpush := (Exec.Refines.push w).view_of_ok hm
    exact ⟨m.view.reg .ip, by rwa [View.set_reg]⟩
  | program h =>
    obtain ⟨s, hstep⟩ := Exec.discard_eq_ok.mp hm
    exact ⟨_, h.run? hstep⟩

namespace PushesAll

lemma append {m m' : Machine μ} {ws us : List Word} (h : PushesAll m (ws ++ us) m') :
    ∃ u, PushesAll m ws u ∧ PushesAll u us m' := by
  induction ws generalizing m with
  | nil => exact ⟨m, .nil m, h⟩
  | cons w ws ih =>
    cases h with
    | cons run same pushes hm rest =>
      obtain ⟨u, hws, hus⟩ := ih rest
      exact ⟨u, .cons run same pushes hm hws, hus⟩

/-- What has been pushed is counted. -/
lemma registers {m m' : Machine μ} {ws : List Word} (h : PushesAll m ws m') :
    m'.view.reg .sp = m.view.reg .sp - 2 * UInt16.ofNat ws.length ∧
      m'.view.reg .fp = m.view.reg .fp ∧
      m'.view.frameSize = m.view.frameSize + 2 * UInt16.ofNat ws.length := by
  induction h with
  | nil => simp
  | cons run same pushes hm rest ih =>
    obtain ⟨ip, hpush⟩ := pushes.pushAll? hm
    obtain ⟨hsp, hfp, hsize⟩ := ih
    rw [View.pushAll?_eq_some hpush] at hsp hfp hsize
    simp only [View.reg_withStack, View.reg_set, View.frameSize_withStack, View.frameSize_set,
      reduceIte, reduceCtorEq, List.length_cons, List.length_nil, same.sp, same.fp,
      same.frameSize] at hsp hfp hsize
    refine ⟨?_, hfp, ?_⟩
    · rw [hsp]
      simp
      grind
    · rw [hsize]
      simp
      grind

lemma reaches {m m' : Machine μ} {ws : List Word} (h : PushesAll m ws m') : m.Reaches m' := by
  induction h with
  | nil m => exact .refl m
  | cons run same pushes hm rest ih => exact (run.move trivial hm).trans ih

end PushesAll
end Machine

variable {before calling entered ending : Machine (Bus Peripheral)}

lemma Machine.Reaches.isSpanned {m m' : Machine (Bus Peripheral)} (run : m.Reaches m')
    (h : m.memory.IsSpanned) : m'.memory.IsSpanned :=
  Run.memory Bus.reliable_isSpanned run h

/-- The host can push any words. -/
lemma Machine.exists_pushesAll {m : Machine (Bus Peripheral)} (hspan : m.memory.IsSpanned) (ws : List Word) :
    ∃ u, m.PushesAll ws u ∧ m.view.pushAll? ws = some u.view := by
  induction ws generalizing m with
  | nil => exact ⟨m, .nil m, rfl⟩
  | cons w ws ih =>
    obtain ⟨_, u, hpush, hu⟩ := Exec.Total.push Bus.reliable_isSpanned w m hspan
    obtain ⟨u', hall, hview⟩ := ih hu
    refine ⟨u', .cons (.refl m) ⟨rfl, rfl, rfl⟩ .host hpush hall, ?_⟩
    rw [← List.singleton_append, View.pushAll?_append, (Exec.Refines.push w).view_of_ok hpush]
    exact hview

/-- The number of arguments is pushed last. -/
lemma Machine.PushesAll.prepared {args : List Word}
    (h : PushesAll before (args ++ [UInt16.ofNat args.length]) calling)
    (hspan : before.memory.IsSpanned) (heven : before.view.reg .sp % 2 = 0) :
    before.view.Prepared calling.view (UInt16.ofNat args.length) := by
  obtain ⟨hsp, hfp, hsize⟩ := h.registers
  rw [List.length_append, UInt16.ofNat_add] at hsp hsize
  refine ⟨hsp, hfp, hsize, ?_⟩
  obtain ⟨u, hargs, hcount⟩ := h.append
  have hu : u.memory.IsSpanned := hargs.reaches.isSpanned hspan
  cases hcount with
  | cons run same pushes hm rest =>
    cases rest
    obtain ⟨ip, hpush⟩ := pushes.pushAll? hm
    have heven' : u.view.reg .sp % 2 = 0 := by
      rw [hargs.registers.1]
      exact Word.even_sub heven _
    exact View.readWord?_of_pushAll? (run.isSpanned hu) (by simpa [same.sp] using heven') hpush

/-- The arguments and their number are pushed, and then an instruction calls. -/
structure Machine.Calls (before calling : Machine (Bus Peripheral)) (i : Instruction Word) :
    Prop where
  even : before.view.reg .sp % 2 = 0
  balanced : before.view.Balanced
  pushed : ∃ args : List Word, before.PushesAll (args ++ [UInt16.ofNat args.length]) calling
  call : ∃ target, calling.Does i (.call target)

namespace Machine.Calls

variable {i : Instruction Word} (calls : before.Calls calling i) (hspan : before.memory.IsSpanned)

include calls hspan

lemma isSpanned : calling.memory.IsSpanned := by
  obtain ⟨args, hpush⟩ := calls.pushed
  exact hpush.reaches.isSpanned hspan

lemma enters : ∃ entered, Exec.step calling = .ok .next entered := by
  obtain ⟨target, hcall⟩ := calls.call
  obtain ⟨v, hv⟩ := View.exists_enter? (v := calling.view.past i) Bus.reliable_isSpanned
    (calls.isSpanned hspan) target
  obtain ⟨entered, hstep, -⟩ := hcall.step hv
  exact ⟨entered, hstep⟩

/-- The return from a call whose frame is there still. -/
lemma returns {s : Step} (henter : Exec.step calling = .ok s entered)
    (hspan' : ending.memory.IsSpanned) (keeps : entered.view.KeepsFrame ending.view)
    {j : Instruction Word} (hret : ending.Does j .ret) :
    ∃ after, Exec.step ending = .ok .next after ∧
      before.view.Restored (calling.view.past i) ending.view after.view ∧
      after.view.inHandler = ending.view.inHandler := by
  obtain ⟨args, hpush⟩ := calls.pushed
  obtain ⟨target, hcall⟩ := calls.call
  have prepared := hpush.prepared hspan calls.even
  have prepared' : before.view.Prepared (calling.view.past i) (UInt16.ofNat args.length) :=
    ⟨by simpa using prepared.sp, by simpa using prepared.fp, prepared.frameSize,
      by simpa using prepared.arguments⟩
  obtain ⟨v, hv, restored, hhandler⟩ := (keeps.past j).exists_leave? hspan' (calls.isSpanned hspan)
    calls.even calls.balanced prepared' (hcall.run? henter)
  obtain ⟨after, hstep, rfl⟩ := hret.step hv
  exact ⟨after, hstep, restored.of_past, hhandler⟩

end Machine.Calls

/-- A call with what there was before its arguments, at the call, at the beginning and at the end of
what is called, and after the return. -/
structure Call where
  before : Machine (Bus Peripheral)
  calling : Machine (Bus Peripheral)
  instruction : Instruction Word
  entered : Machine (Bus Peripheral)
  ending : Machine (Bus Peripheral)
  after : Machine (Bus Peripheral)

/-- What a caller can rely on. -/
structure Call.Restored (c : Call) : Prop where
  view : c.before.view.Restored (c.calling.view.past c.instruction) c.ending.view c.after.view
  inHandler : c.after.view.inHandler = c.ending.view.inHandler

/-- A run in which each call is made in what the one before it has called, the outermost one first.
Between calls and returns anything happens that ends with the same `fp`, and no frame is overwritten
before it ends. -/
inductive Nested : List Call → Machine (Bus Peripheral) → Machine (Bus Peripheral) → Prop
  | body {m m' : Machine (Bus Peripheral)} (run : m.Reaches m')
      (fp : m'.view.reg .fp = m.view.reg .fp) : Nested [] m m'
  | call {c : Call} {cs : List Call} {m m' : Machine (Bus Peripheral)} {i : Instruction Word}
      (first : m.Reaches c.before) (fp : c.before.view.reg .fp = m.view.reg .fp)
      (calls : c.before.Calls c.calling c.instruction)
      (enters : Exec.step c.calling = .ok .next c.entered)
      (body : Nested cs c.entered c.ending)
      (bytes : c.ending.view.bytesFrom? (c.entered.view.reg .fp + 2) 22 =
        c.entered.view.bytesFrom? (c.entered.view.reg .fp + 2) 22)
      (ret : c.ending.Does i .ret) (returns : Exec.step c.ending = .ok .next c.after)
      (last : c.after.Reaches m') (fp' : m'.view.reg .fp = c.after.view.reg .fp) :
      Nested (c :: cs) m m'

namespace Nested

variable {m m' : Machine (Bus Peripheral)} {cs : List Call}

lemma restored (nested : Nested cs m m') (hspan : m.memory.IsSpanned) :
    m'.memory.IsSpanned ∧ m'.view.reg .fp = m.view.reg .fp ∧ ∀ c ∈ cs, c.Restored := by
  induction nested with
  | body run fp => exact ⟨run.isSpanned hspan, fp, by simp⟩
  | call first fp calls enters body bytes ret returns last fp' ih =>
    have hbefore := first.isSpanned hspan
    have hentered := (Machine.Reaches.of_step enters).isSpanned (calls.isSpanned hbefore)
    obtain ⟨hending, hfp, hall⟩ := ih hentered
    obtain ⟨after, hstep, restored, hhandler⟩ :=
      calls.returns hbefore enters hending ⟨hfp, bytes⟩ ret
    cases hstep.symm.trans returns
    have hafter := (Machine.Reaches.of_step returns).isSpanned hending
    refine ⟨last.isSpanned hafter, ?_, ?_⟩
    · rw [fp', restored.fp, fp]
    · exact List.forall_mem_cons.mpr ⟨⟨restored, hhandler⟩, hall⟩

end Nested

/-- A return gives back what there was before the call. A call succeeds, and whatever happens until a
return with the frame of the call still there, the return succeeds; calls that are nested to any
depth restore each caller. -/
theorem return_restores_caller :
    (∀ before calling i, before.memory.IsSpanned → before.Calls calling i →
      ∃ entered, Exec.step calling = .ok .next entered ∧ ∀ ending, entered.Reaches ending →
        entered.view.KeepsFrame ending.view → ∀ j, ending.Does j .ret →
          ∃ after, Exec.step ending = .ok .next after ∧
            (⟨before, calling, i, entered, ending, after⟩ : Call).Restored) ∧
    ∀ cs m m', m.memory.IsSpanned → Nested cs m m' → ∀ c ∈ cs, c.Restored := by
  constructor
  · intro before calling i hspan calls
    obtain ⟨entered, henter⟩ := calls.enters hspan
    refine ⟨entered, henter, fun ending run keeps j hret => ?_⟩
    have hentered := (Machine.Reaches.of_step henter).isSpanned (calls.isSpanned hspan)
    obtain ⟨after, hstep, restored, hhandler⟩ :=
      calls.returns hspan henter (run.isSpanned hentered) keeps hret
    exact ⟨after, hstep, restored, hhandler⟩
  · intro cs m m' hspan nested
    exact (nested.restored hspan).2.2

/-- A call with one argument. What is called changes a register and returns. -/
theorem return_restores_caller_sample : ∃ c : Call,
    c.before = ⟨.initial 0x1000, .flat ((Ram.zeros 0x10000).fill 0 [0x5E, 0, 4, 0xFF, 0x35, 0, 0x60])⟩ ∧
      c.before.PushesAll [7, 1] c.calling ∧ Nested [c] c.before c.after ∧ c.ending.view.reg .r1 = 1 ∧
      c.after.view.reg .r1 = 0 ∧ c.after.view.reg .ip = 3 ∧ c.after.view.reg .sp = 0xFFFE ∧
      c.after.view.reg .fp = 0xFFFE := by
  let m : Machine (Bus Peripheral) :=
    ⟨.initial 0x1000, .flat ((Ram.zeros 0x10000).fill 0 [0x5E, 0, 4, 0xFF, 0x35, 0, 0x60])⟩
  have hspan : m.memory.IsSpanned := Bus.isSpanned_flat (by simp)
  have hsp : m.view.reg .sp = 0xFFFE := rfl
  have heven : m.view.reg .sp % 2 = 0 := by rw [hsp]; rfl
  have hcode : m.view.bytesFrom? 0 7 = some [0x5E, 0, 4, 0xFF, 0x35, 0, 0x60] :=
    Bus.bytesFrom?_fill (Ram.size_zeros _) (by decide) _
  -- the argument and the number of arguments are pushed
  obtain ⟨u, pushed, hu⟩ := Machine.exists_pushesAll hspan [7, 1]
  have huspan : u.memory.IsSpanned := pushed.reaches.isSpanned hspan
  have husp : u.view.reg .sp = 0xFFFA := pushed.registers.1.trans (by rw [hsp]; rfl)
  have hucode : u.view.bytesFrom? 0 7 = some [0x5E, 0, 4, 0xFF, 0x35, 0, 0x60] := by
    rw [View.bytesFrom?_of_pushAll? hspan heven hu (by rw [hsp]; decide), hcode]
  have hcall : u.Does ⟨.calLit, [.literal 4]⟩ (.call 4) := by
    have hbytes := (View.bytesFrom?_append [0x5E, 0, 4] [0xFF, 0x35, 0, 0x60] hucode).1
    have hrun : u.view.halted = false := by rw [View.pushAll?_eq_some hu]; rfl
    have hip : u.view.reg .ip = 0 := by rw [View.pushAll?_eq_some hu]; rfl
    exact ⟨Machine.executes_of_decode hrun hip (by decide) hbytes rfl, rfl⟩
  have calls : m.Calls u ⟨.calLit, [.literal 4]⟩ :=
    ⟨heven, View.balanced_initial _ _, ⟨[7], pushed⟩, ⟨4, hcall⟩⟩
  obtain ⟨entered, henter, h⟩ := return_restores_caller.1 m u _ hspan calls
  have hview := hcall.run? henter
  have hecode : entered.view.bytesFrom? 0 7 = some [0x5E, 0, 4, 0xFF, 0x35, 0, 0x60] := by
    rw [View.bytesFrom?_of_enter? (v := u.view.past _) huspan (by simp [husp]) hview (by simp [husp])]
    simpa using hucode
  -- the register is changed
  have hbody := (View.bytesFrom?_append [0x5E, 0, 4, 0xFF] [0x35, 0, 0x60] hecode).2
  have hinc : entered.Does ⟨.incReg, [.register .r1]⟩ (.change .r1 (· + 1)) := by
    have hbytes := (View.bytesFrom?_append [0x35, 0] [0x60] hbody).1
    have hrun : entered.view.halted = false := by
      rw [View.enter?_eq_some hview, View.pushAll?_eq_some hu]
      rfl
    have hip : entered.view.reg .ip = 4 := by
      rw [View.enter?_eq_some hview]
      simp
    exact ⟨Machine.executes_of_decode hrun hip (by decide) hbytes rfl, rfl⟩
  obtain ⟨ending, hstep, hending⟩ := hinc.step rfl
  have keeps : entered.view.KeepsFrame ending.view := by
    rw [hending]
    exact ⟨by simp, by simp⟩
  have hret : ending.Does ⟨.ret, []⟩ .ret := by
    have hbytes : ending.view.bytesFrom? 6 1 = some [0x60] := by
      rw [hending]
      simpa using (View.bytesFrom?_append [0x35, 0] [0x60] hbody).2
    have hrun : ending.view.halted = false := by
      rw [hending, View.enter?_eq_some hview, View.pushAll?_eq_some hu]
      rfl
    have hip : ending.view.reg .ip = 6 := by
      rw [hending, View.enter?_eq_some hview]
      simp
      rfl
    exact ⟨Machine.executes_of_decode hrun hip (by decide) hbytes rfl, rfl⟩
  have run : entered.Reaches ending := .of_step hstep
  obtain ⟨after, hafter, -⟩ := h ending run keeps _ hret
  have nested : Nested [⟨m, u, _, entered, ending, after⟩] m after :=
    .call (.refl m) rfl calls henter (.body run keeps.fp) keeps.bytes hret hafter (.refl after) rfl
  have restored := return_restores_caller.2 _ m after hspan nested _ (List.mem_singleton_self _)
  refine ⟨⟨m, u, _, entered, ending, after⟩, rfl, pushed, nested, ?_, ?_, ?_, restored.view.sp,
    restored.view.fp⟩
  · rw [hending, View.enter?_eq_some hview, View.pushAll?_eq_some hu]
    rfl
  · refine (restored.view.general .r1 (by simp [Register.general])).trans ?_
    rw [View.pushAll?_eq_some hu]
    rfl
  · refine restored.view.ip.trans ?_
    rw [View.pushAll?_eq_some hu]
    rfl

end Machine16
