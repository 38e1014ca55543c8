import Mathlib.Data.Nat.Bitwise
import Machine16.Proofs.Refinement

/-! The stack in closed form. Frames are begun by writing eleven or ten words downwards, and ended
by reading eleven words upwards; what the processor does word by word comes to that. -/
namespace Machine16

variable {μ : Type} [Device μ]

namespace View

lemma writeWord?_eq_some {v v' : View μ} {address w : Word} (h : v.writeWord? address w = some v') :
    v' = { v with memory := v'.memory } := by
  unfold writeWord? at h
  split at h
  · cases h
    rfl
  · cases h

lemma pushAll?_append (ws us : List Word) (v : View μ) :
    pushAll? (ws ++ us) v = (pushAll? ws v).bind (pushAll? us) := by
  induction ws generalizing v with
  | nil => rfl
  | cons w ws ih =>
    simp only [List.cons_append, pushAll?, Option.bind_eq_bind, Option.bind_assoc]
    exact congrArg _ (funext fun v => ih _)

/-- Pushing moves `sp`, counts what has been pushed and writes to memory. -/
lemma pushAll?_eq_some {ws : List Word} {v v' : View μ} (h : pushAll? ws v = some v') :
    v' = { v.withStack (v.reg .sp - 2 * UInt16.ofNat ws.length)
      (v.frameSize + 2 * UInt16.ofNat ws.length) with memory := v'.memory } := by
  induction ws generalizing v with
  | nil =>
    cases h
    apply ext <;> simp
  | cons w ws ih =>
    obtain ⟨u, hu, h⟩ := Option.bind_eq_some_iff.mp h
    have hv := ih h
    have hu := writeWord?_eq_some hu
    rw [hv, hu]
    apply ext
    · intro r
      by_cases hr : r = .sp
      · simp [hr]
        grind
      · simp [hr]
    · simp
      grind
    all_goals rfl

omit [Device μ] in
lemma length_frame (v : View μ) : v.frame.length = 10 := rfl

/-- A frame begins with the stack pointer below what has been saved, and is empty. -/
lemma enter?_eq_some {v v' : View μ} {address : Word} (h : v.enter? address = some v') :
    v' = { ((v.withStack (v.reg .sp - 20) 0).set .fp (v.reg .sp - 20)).set .ip address with
      memory := v'.memory } := by
  obtain ⟨u, hu, heq⟩ := Option.bind_eq_some_iff.mp h
  have hsp : v.reg .sp - 2 * UInt16.ofNat 10 = v.reg .sp - 20 := rfl
  cases heq
  rw [pushAll?_eq_some hu, length_frame, hsp]
  apply ext
  · intro r
    by_cases hr : r = .sp <;> simp [hr]
  all_goals rfl

/-- The end of a frame sets registers, and the size of the frame with them. -/
lemma leave?_eq_some {v v' : View μ} (h : v.leave? = some v') :
    v' = { v with reg := v'.reg, frameSize := v'.reg .fp - v'.reg .sp } := by
  unfold leave? at h
  dsimp only at h
  split at h
  · obtain ⟨_, _, heq⟩ := Option.bind_eq_some_iff.mp h
    cases heq
    rfl
  · cases h

lemma wordsFrom?_congr {v v' : View μ} (h : v.memory = v'.memory) (address : Word) (n : Nat) :
    v.wordsFrom? address n = v'.wordsFrom? address n := by
  induction n generalizing address with
  | zero => rfl
  | succ n ih => simp only [wordsFrom?, readWord?, h, ih]

@[simp] lemma wordsFrom?_set (v : View μ) (r : Register) (w address : Word) (n : Nat) :
    (v.set r w).wordsFrom? address n = v.wordsFrom? address n :=
  wordsFrom?_congr (v.memory_set r w) address n

@[simp] lemma wordsFrom?_withStack (v : View μ) (sp frameSize address : Word) (n : Nat) :
    (v.withStack sp frameSize).wordsFrom? address n = v.wordsFrom? address n :=
  wordsFrom?_congr (v.memory_withStack sp frameSize) address n

lemma length_wordsFrom? {v : View μ} {address : Word} {n : Nat} {ws : List Word}
    (h : v.wordsFrom? address n = some ws) : ws.length = n := by
  induction n generalizing address ws with
  | zero =>
    cases h
    rfl
  | succ n ih =>
    obtain ⟨w, _, h⟩ := Option.bind_eq_some_iff.mp h
    obtain ⟨us, hus, h⟩ := Option.bind_eq_some_iff.mp h
    cases h
    exact congrArg Nat.succ (ih hus)

lemma wordsFrom?_succ (v : View μ) (address : Word) (n : Nat) :
    v.wordsFrom? address (n + 1) = (v.readWord? address).bind fun w =>
      (v.wordsFrom? (address + 2) n).map (w :: ·) := by
  simp only [wordsFrom?, Option.bind_eq_bind, Option.pure_def, Option.map_eq_bind]
  rfl

lemma wordsFrom?_one (v : View μ) (address : Word) :
    v.wordsFrom? address 1 = (v.readWord? address).map ([·]) := by
  rw [wordsFrom?_succ, Option.map_eq_bind]
  rfl

lemma wordsFrom?_add (v : View μ) (address : Word) (m n : Nat) :
    v.wordsFrom? address (m + n) = (v.wordsFrom? address m).bind fun ws =>
      (v.wordsFrom? (address + 2 * UInt16.ofNat m) n).map (ws ++ ·) := by
  induction m generalizing address with
  | zero => simp [wordsFrom?]
  | succ m ih =>
    have ha : address + 2 + 2 * UInt16.ofNat m = address + 2 * UInt16.ofNat (m + 1) := by
      simp
      grind
    rw [Nat.succ_add]
    simp only [wordsFrom?, ih, ha, Option.bind_eq_bind, Option.bind_assoc, Option.pure_def,
      Option.bind_some]
    congr
    funext w
    congr
    funext ws
    cases v.wordsFrom? (address + 2 * UInt16.ofNat (m + 1)) n <;> rfl

/-- The words of a frame, from its bottom upwards. -/
lemma wordsFrom?_frame (v : View μ) (base : Word) :
    v.wordsFrom? (base + 2) 11 = (v.readWord? (base + 2)).bind fun size =>
      (v.readWord? (base + 4)).bind fun ip => (v.wordsFrom? (base + 6) 8).bind fun ws =>
        (v.readWord? (base + 22)).map fun n => size :: ip :: (ws ++ [n]) := by
  have h₄ : base + 2 + 2 = base + 4 := by grind
  have h₆ : base + 4 + 2 = base + 6 := by grind
  have h₂₂ : base + 6 + 2 * UInt16.ofNat 8 = base + 22 := by grind
  rw [wordsFrom?_succ, wordsFrom?_succ, h₄, h₆, v.wordsFrom?_add _ 8 1, h₂₂, wordsFrom?_one]
  simp only [Option.map_bind, Option.map_map, Function.comp_def]

/-- The view after that many words have been popped. -/
def dropped (v : View μ) (n : Nat) : View μ :=
  v.withStack (v.reg .sp + 2 * UInt16.ofNat n) (v.frameSize - 2 * UInt16.ofNat n)

omit [Device μ] in
lemma dropped_dropped (v : View μ) (m n : Nat) : (v.dropped m).dropped n = v.dropped (m + n) := by
  apply ext
  · intro r
    by_cases hr : r = .sp
    · simp [dropped, hr]
      grind
    · simp [dropped, hr]
  · simp [dropped]
    grind
  all_goals rfl

/-- Sets registers one after the other. -/
def setAll : List Register → List Word → View μ → View μ
  | r :: rs, w :: ws, v => setAll rs ws (v.set r w)
  | _, _, v => v

end View

namespace Exec.Refines

open View

lemma push (w : Word) : Refines (push w : Exec μ Unit) fun v =>
    (v.pushAll? [w]).map fun v => ((), v) := by
  refine ((get .sp).bind fun sp => (store sp w).bind fun _ => (set .sp (sp - 2)).bind fun _ =>
    resizeFrame (· + 2)).congr fun v => ?_
  cases h : v.writeWord? (v.reg .sp) w with
  | none => simp [pushAll?, h]
  | some v' =>
    have hreg : v'.reg = v.reg := by rw [writeWord?_eq_some h]
    simp [pushAll?, h, hreg]

lemma pop : Refines (pop : Exec μ Word) fun v =>
    (v.readWord? (v.reg .sp + 2)).map fun w => (w, v.dropped 1) := by
  refine ((get .sp).bind fun sp => (set .sp (sp + 2)).bind fun _ =>
    (resizeFrame (· - 2)).bind fun _ => readWord (sp + 2)).congr fun v => ?_
  simp [dropped, readWord?]

lemma pushRegisters {rs : List Register} (h : .sp ∉ rs) :
    Refines (pushRegisters rs : Exec μ Unit) fun v =>
      (v.pushAll? (rs.map v.reg)).map fun v => ((), v) := by
  induction rs with
  | nil => exact pure ()
  | cons r rs ih =>
    rw [List.mem_cons, not_or] at h
    refine ((get r).bind fun w => (push w).bind fun _ => ih h.2).congr fun v => ?_
    rw [List.map_cons, ← List.singleton_append, pushAll?_append]
    cases hv : pushAll? [v.reg r] v with
    | none => simp [hv]
    | some v' =>
      -- what has been pushed so far has moved `sp` only
      have hreg : rs.map v'.reg = rs.map v.reg := by
        refine List.map_congr_left fun s hs => ?_
        have : s ≠ .sp := fun hsp => h.2 (hsp ▸ hs)
        rw [pushAll?_eq_some hv]
        simp [this]
      simp [hv, hreg]

lemma drop (n : Nat) : Refines (drop n : Exec μ Unit) fun v =>
    (v.wordsFrom? (v.reg .sp + 2) n).map fun _ => ((), v.dropped n) := by
  induction n with
  | zero =>
    refine (pure ()).congr fun v => ?_
    have : v.dropped 0 = v := by apply View.ext <;> simp [dropped]
    simp [wordsFrom?, this]
  | succ n ih =>
    refine (pop.bind fun _ => ih).congr fun v => ?_
    have hd : (v.dropped 1).dropped n = v.dropped (n + 1) := by
      rw [dropped_dropped, Nat.add_comm]
    have hw : (v.dropped 1).wordsFrom? ((v.dropped 1).reg .sp + 2) n =
        v.wordsFrom? (v.reg .sp + 2 + 2) n := by simp [dropped]
    cases hr : v.readWord? (v.reg .sp + 2) with
    | none => simp [wordsFrom?, hr]
    | some w =>
      simp only [wordsFrom?, hr, Option.map_some, Option.bind_some, hd, hw]
      cases v.wordsFrom? (v.reg .sp + 2 + 2) n <;> rfl

lemma popRegisters {rs : List Register} (h : .sp ∉ rs) :
    Refines (popRegisters rs : Exec μ Unit) fun v =>
      (v.wordsFrom? (v.reg .sp + 2) rs.length).map fun ws =>
        ((), setAll rs ws (v.dropped rs.length)) := by
  induction rs with
  | nil =>
    refine (pure ()).congr fun v => ?_
    have : v.dropped 0 = v := by apply View.ext <;> simp [dropped]
    simp [wordsFrom?, setAll, this]
  | cons r rs ih =>
    rw [List.mem_cons, not_or] at h
    refine (pop.bind fun w => (set r w).bind fun _ => ih h.2).congr fun v => ?_
    cases hr : v.readWord? (v.reg .sp + 2) with
    | none => simp [wordsFrom?, hr]
    | some w =>
      have hd : ((v.dropped 1).set r w).dropped rs.length = (v.dropped (rs.length + 1)).set r w := by
        rw [Nat.add_comm, ← dropped_dropped]
        apply View.ext
        · intro s
          by_cases hs : s = .sp
          · simp [dropped, hs, h.1]
          · simp [dropped, hs]
        all_goals rfl
      have hw : ((v.dropped 1).set r w).wordsFrom? (((v.dropped 1).set r w).reg .sp + 2) rs.length =
          v.wordsFrom? (v.reg .sp + 2 + 2) rs.length := by simp [dropped, h.1]
      simp only [List.length_cons, wordsFrom?, hr, Option.map_some, Option.bind_some, hd, hw]
      cases v.wordsFrom? (v.reg .sp + 2 + 2) rs.length <;> rfl

lemma pushState : Refines (pushState : Exec μ Unit) fun v =>
    (v.pushAll? v.frame).map fun v' => ((), (v'.withStack (v'.reg .sp) 0).set .fp (v'.reg .sp)) := by
  have hsp : .sp ∉ Register.general := by decide
  have htail (w : Word) : Refines (do
      Exec.push w
      Exec.set .fp (← Exec.get .sp)
      Exec.resizeFrame fun _ => 0 : Exec μ Unit) fun v => (v.pushAll? [w]).map fun v' =>
        ((), (v'.withStack (v'.reg .sp) 0).set .fp (v'.reg .sp)) := by
    refine ((push w).bind fun _ => (get .sp).bind fun sp => (set .fp sp).bind fun _ =>
      resizeFrame fun _ => 0).congr fun v => ?_
    cases v.pushAll? [w] with
    | none => rfl
    | some v' =>
      refine congrArg (fun v => some ((), v)) (View.ext (fun r => ?_) rfl rfl rfl rfl rfl)
      by_cases hr : r = .sp <;> simp [hr]
  have hsave : Refines (do
      Exec.push ((← Exec.cpu).frameSize + 2)
      Exec.set .fp (← Exec.get .sp)
      Exec.resizeFrame fun _ => 0 : Exec μ Unit) fun v =>
        (v.pushAll? [v.frameSize + 2]).map fun v' =>
          ((), (v'.withStack (v'.reg .sp) 0).set .fp (v'.reg .sp)) :=
    cpu_bind fun m => htail (m.cpu.frameSize + 2) m
  refine ((pushRegisters hsp).bind fun _ => (get .ip).bind fun ip => (push ip).bind fun _ =>
    hsave).congr fun v => ?_
  rw [frame, pushAll?_append]
  cases h₁ : v.pushAll? (Register.general.map v.reg) with
  | none => rfl
  | some v₁ =>
    have hip : v₁.reg .ip = v.reg .ip := by
      rw [pushAll?_eq_some h₁]
      simp
    have hsplit : [v.reg .ip, v.frameSize + 20] = [v.reg .ip] ++ [v.frameSize + 20] := rfl
    simp only [Option.map_some, Option.bind_some, hip, hsplit, pushAll?_append]
    cases h₂ : v₁.pushAll? [v.reg .ip] with
    | none => rfl
    | some v₂ =>
      -- nine words have been pushed, the tenth is still to come
      have hsize : v₂.frameSize + 2 = v.frameSize + 20 := by
        rw [pushAll?_eq_some h₂, pushAll?_eq_some h₁]
        simp [Register.general]
        grind
      simp only [Option.map_some, Option.bind_some, hsize]

lemma call (address : Word) : Refines (call address : Exec μ Unit) fun v =>
    (v.enter? address).map fun v => ((), v) := by
  refine (pushState.bind fun _ => set .ip address).congr fun v => ?_
  unfold enter?
  cases v.pushAll? v.frame <;> rfl

lemma popState : Refines (popState : Exec μ Unit) fun v => v.leave?.map fun v => ((), v) := by
  have hsp : .sp ∉ Register.general.reverse := by decide
  refine ((get .fp).bind fun base => (set .sp base).bind fun _ => pop.bind fun size =>
    (resizeFrame fun _ => size).bind fun _ => pop.bind fun ip => (set .ip ip).bind fun _ =>
    (popRegisters hsp).bind fun _ => pop.bind fun arguments => (drop arguments.toNat).bind fun _ =>
    (set .fp (base + size)).bind fun _ => (get .sp).bind fun sp =>
    resizeFrame fun _ => base + size - sp).congr fun v => ?_
  -- where `sp` stands when the next word is read, seen from the bottom of the frame
  have h₄ : v.reg .fp + 2 * UInt16.ofNat 1 + 2 = v.reg .fp + 4 := by grind
  have h₆ : v.reg .fp + 2 * UInt16.ofNat 1 + 2 * UInt16.ofNat 1 + 2 = v.reg .fp + 6 := by grind
  have h₂₂ : v.reg .fp + 2 * UInt16.ofNat 1 + 2 * UInt16.ofNat 1 + 2 * UInt16.ofNat 8 + 2 =
      v.reg .fp + 22 := by grind
  have h₂₄ : v.reg .fp + 2 * UInt16.ofNat 1 + 2 * UInt16.ofNat 1 + 2 * UInt16.ofNat 8 +
      2 * UInt16.ofNat 1 + 2 = v.reg .fp + 24 := by grind
  have hgeneral : Register.general.reverse = [.r8, .r7, .r6, .r5, .r4, .r3, .r2, .r1] := rfl
  have hlength : Register.general.reverse.length = 8 := rfl
  unfold leave?
  simp only [wordsFrom?_frame, hlength, dropped, Option.bind_some, reg_set, reg_withStack, readWord?_set,
    readWord?_withStack, wordsFrom?_set, withStack_set_sp, withStack_withStack,
    reduceIte, reduceCtorEq]
  cases hsize : v.readWord? (v.reg .fp + 2) with
  | none => rfl
  | some size =>
    simp only [Option.map_some, Option.bind_some, reg_withStack, readWord?_withStack, reduceIte, h₄]
    cases hip : v.readWord? (v.reg .fp + 4) with
    | none => rfl
    | some ip =>
      simp only [Option.map_some, Option.bind_some, reg_withStack, wordsFrom?_withStack, reduceIte, h₆]
      cases hws : v.wordsFrom? (v.reg .fp + 6) 8 with
      | none => rfl
      | some ws =>
        obtain ⟨r8, r7, r6, r5, r4, r3, r2, r1, rfl⟩ : ∃ r8 r7 r6 r5 r4 r3 r2 r1,
            ws = [r8, r7, r6, r5, r4, r3, r2, r1] :=
          match ws, length_wordsFrom? hws with
          | [_, _, _, _, _, _, _, _], _ => ⟨_, _, _, _, _, _, _, _, rfl⟩
        simp only [Option.map_some, Option.bind_some, hgeneral, setAll, reg_set, reg_withStack,
          readWord?_set, readWord?_withStack, reduceIte, reduceCtorEq, h₂₂]
        cases hn : v.readWord? (v.reg .fp + 22) with
        | none => rfl
        | some n =>
          simp only [Option.map_some, Option.bind_some, reg_set, reg_withStack, wordsFrom?_set,
            wordsFrom?_withStack, reduceIte, reduceCtorEq, h₂₄]
          cases hargs : v.wordsFrom? (v.reg .fp + 24) n.toNat with
          | none => simp [hargs]
          | some args =>
            have hsp : v.reg .fp + 2 * UInt16.ofNat 1 + 2 * UInt16.ofNat 1 + 2 * UInt16.ofNat 8 +
                2 * UInt16.ofNat 1 + 2 * n = v.reg .fp + 22 + 2 * n := by grind
            have hn : UInt16.ofNat n.toNat = n := UInt16.ofNat_toNat
            rw [hn]
            simp only [Option.map_some, Option.bind_some, Option.bind_eq_bind, Option.pure_def,
              List.cons_append, List.nil_append, reg_withStack, reduceIte, hsp, hargs]
            refine congrArg (fun v => some ((), v)) (View.ext (fun r => ?_) rfl rfl rfl rfl rfl)
            cases r <;> simp only [reg_set, reg_withStack, reduceIte, reduceCtorEq]

/-- The way into a handler. -/
lemma enterHandler (handler : Word) (e : Event) : Refines (do
    if !(← Exec.cpu).inHandler then
      Exec.push 0
      Exec.pushState
    modifyCpu fun c => { c with inHandler := true }
    Exec.set .ip handler
    Exec.emit e : Exec μ Unit) fun v => (v.handle? handler).map fun v => ((), v) := by
  have htail : Refines (do
      modifyCpu fun c => { c with inHandler := true }
      Exec.set .ip handler
      Exec.emit e : Exec μ Unit) fun v => some ((), { v.set .ip handler with inHandler := true }) :=
    (setHandler true).bind fun _ => (set .ip handler).bind fun _ => emit e
  have hnew : Refines (do
      Exec.push 0
      Exec.pushState
      modifyCpu fun c => { c with inHandler := true }
      Exec.set .ip handler
      Exec.emit e : Exec μ Unit) fun v => (do
        let v ← v.pushAll? [0]
        let v ← v.enter? handler
        return { v with inHandler := true } : Option (View μ)).map fun v => ((), v) := by
    refine ((push 0).bind fun _ => pushState.bind fun _ => htail).congr fun v => ?_
    cases v.pushAll? [0] with
    | none => rfl
    | some v =>
      simp only [Option.map_some, Option.bind_some, Option.bind_eq_bind, enter?]
      cases v.pushAll? v.frame <;> rfl
  refine cpu_bind fun m => ?_
  unfold handle?
  by_cases hm : m.cpu.inHandler = true
  · have hv : m.view.inHandler = true := hm
    rw [hm, if_pos hv]
    refine (htail m).trans (congrArg (fun v => some ((), v)) ?_)
    apply View.ext <;> simp [hv]
  · have hv : m.view.inHandler ≠ true := hm
    rw [Bool.not_eq_true] at hm
    rw [hm, if_neg hv]
    exact hnew m

omit [Device μ] in
/-- The bit of `im` is tested with a mask. -/
lemma and_mask_eq_zero_iff (v : View μ) (vector : Word) :
    v.reg .im &&& (1 <<< (vector &&& 0xF)) = 0 ↔ v.enabled vector = false := by
  have hv : (vector &&& 0xF).toNat = vector.toNat % 16 := Nat.and_two_pow_sub_one_eq_mod _ 4
  have hmask : ((1 : Word) <<< (vector &&& 0xF)).toNat = 2 ^ (vector.toNat % 16) := by
    have : 2 ^ (vector.toNat % 16) < 2 ^ 16 := Nat.pow_lt_pow_right (by decide) (by omega)
    rw [UInt16.toNat_shiftLeft, hv]
    simp [Nat.shiftLeft_eq]
    omega
  rw [← UInt16.toNat_inj, UInt16.toNat_and, hmask, Nat.and_two_pow, enabled]
  cases (v.reg .im).toNat.testBit (vector.toNat % 16) <;> simp

lemma interrupt (vector : Word) : Refines (interrupt vector : Exec μ Unit) fun v =>
    (v.interrupt? vector).map fun v => ((), v) := by
  have hv : vector &&& 0xF = vector % 16 := by
    apply UInt16.toNat_inj.mp
    rw [UInt16.toNat_and, UInt16.toNat_mod]
    exact Nat.and_two_pow_sub_one_eq_mod _ 4
  have hbody (index : Word) : Refines (do
      let handler ← Exec.readWord ((← Exec.cpu).vectorTable + 2 * index)
      if !(← Exec.cpu).inHandler then
        Exec.push 0
        Exec.pushState
      modifyCpu fun c => { c with inHandler := true }
      Exec.set .ip handler
      Exec.emit (.interrupt index) : Exec μ Unit) fun v =>
        (v.readWord? (v.vectorTable + 2 * index)).bind fun handler =>
          (v.handle? handler).map fun v => ((), v) := by
    refine cpu_bind fun m => ?_
    have h := (readWord (μ := μ) (m.cpu.vectorTable + 2 * index)).bind fun handler =>
      enterHandler handler (.interrupt index)
    refine (h m).trans ?_
    change ((m.view.readWord? (m.cpu.vectorTable + 2 * index)).map _).bind _ =
      (m.view.readWord? (m.cpu.vectorTable + 2 * index)).bind _
    cases m.view.readWord? (m.cpu.vectorTable + 2 * index) <;> rfl
  refine ((get .im).bind fun im => ite (pure ()) (hbody (vector &&& 0xF))).congr fun v => ?_
  rw [View.interrupt?]
  by_cases hc : v.enabled vector = true
  · have hmask : ¬ v.reg .im &&& (1 <<< (vector &&& 0xF)) = 0 := by
      rw [and_mask_eq_zero_iff, hc]
      simp
    rw [if_pos hc, Option.bind_some, if_neg hmask, hv]
    cases v.readWord? (v.vectorTable + 2 * (vector % 16)) <;> rfl
  · have hmask := (and_mask_eq_zero_iff v vector).mpr (by simpa using hc)
    rw [if_neg hc, Option.bind_some, if_pos hmask]
    rfl

end Exec.Refines
end Machine16
