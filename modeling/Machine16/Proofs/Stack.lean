import Machine16.Proofs.Balance

/-! Frames on a bus with one memory of 64 KiB over all addresses. The stack may lie around the end of
the address space; as long as `sp` is even no word does, and a frame that nobody has touched gives back
what was saved in it. -/
namespace Machine16

namespace Word

lemma toNat_mod_two {a : Word} (h : a % 2 = 0) : a.toNat % 2 = 0 := by
  simpa [UInt16.toNat_mod] using congrArg UInt16.toNat h

lemma ne_last_of_even {a : Word} (h : a % 2 = 0) : a ≠ 0xFFFF := by
  rintro rfl
  exact absurd h (by decide)

lemma even_add {a : Word} (h : a % 2 = 0) (w : Word) : (a + 2 * w) % 2 = 0 := by
  have := toNat_mod_two h
  apply UInt16.toNat_inj.mp
  simp only [UInt16.toNat_mod, UInt16.toNat_add, UInt16.toNat_mul]
  change (a.toNat + 2 * w.toNat % 65536) % 65536 % 2 = 0
  omega

lemma even_sub {a : Word} (h : a % 2 = 0) (w : Word) : (a - 2 * w) % 2 = 0 := by
  have heq : a - 2 * w = a + 2 * -w := by grind
  rw [heq]
  exact even_add h _

end Word

namespace View

section

variable {μ : Type} [Device μ] {P : μ → Prop} (hP : Reliable P) {v : View μ} (h : P v.memory)

include hP h

lemma exists_readByte? (address : Word) : ∃ b, v.readByte? address = some b := by
  obtain ⟨b, hb⟩ := hP.readByte h address
  exact ⟨b, by rw [readByte?, hb]; rfl⟩

lemma exists_readWord? (address : Word) : ∃ w, v.readWord? address = some w := by
  obtain ⟨w, hw⟩ := hP.readWord h address
  exact ⟨w, by rw [readWord?, hw]; rfl⟩

lemma exists_bytesFrom? (address : Word) (n : Nat) : ∃ bs, v.bytesFrom? address n = some bs := by
  induction n generalizing address with
  | zero => exact ⟨[], rfl⟩
  | succ n ih =>
    obtain ⟨b, hb⟩ := exists_readByte? hP h address
    obtain ⟨bs, hbs⟩ := ih (address + 1)
    exact ⟨b :: bs, by simp [bytesFrom?, hb, hbs]⟩

lemma exists_wordsFrom? (address : Word) (n : Nat) : ∃ ws, v.wordsFrom? address n = some ws := by
  induction n generalizing address with
  | zero => exact ⟨[], rfl⟩
  | succ n ih =>
    obtain ⟨w, hw⟩ := exists_readWord? hP h address
    obtain ⟨ws, hws⟩ := ih (address + 2)
    exact ⟨w :: ws, by simp [wordsFrom?, hw, hws]⟩

lemma exists_writeWord? (address w : Word) : ∃ v', v.writeWord? address w = some v' ∧ P v'.memory := by
  obtain ⟨memory, hw, h'⟩ := hP.writeWord h address w
  exact ⟨{ v with memory }, by simp only [writeWord?, hw], h'⟩

lemma exists_pushAll? (ws : List Word) : ∃ v', v.pushAll? ws = some v' ∧ P v'.memory := by
  induction ws generalizing v with
  | nil => exact ⟨v, rfl, h⟩
  | cons w ws ih =>
    obtain ⟨u, hu, h'⟩ := exists_writeWord? hP h (v.reg .sp) w
    obtain ⟨v', hv', h''⟩ := @ih (u.withStack (u.reg .sp - 2) (u.frameSize + 2)) h'
    exact ⟨v', by rw [pushAll?, hu]; exact hv', h''⟩

lemma exists_enter? (address : Word) : ∃ v', v.enter? address = some v' := by
  obtain ⟨u, hu, -⟩ := exists_pushAll? hP h v.frame
  exact ⟨_, by rw [enter?, hu]; rfl⟩

end

/-- Words that do not lie around the end of the address space are determined by their bytes. -/
lemma wordsFrom?_of_bytesFrom? {μ : Type} [Device μ] [Bytewise μ] {v v' : View μ} {address : Word}
    (ha : address % 2 = 0) {n : Nat} {bs : List Byte} (h : v.bytesFrom? address (2 * n) = some bs)
    (h' : v'.bytesFrom? address (2 * n) = some bs) :
    v.wordsFrom? address n = v'.wordsFrom? address n := by
  induction n generalizing address bs with
  | zero => rfl
  | succ n ih =>
    have hsplit (v : View μ) := v.bytesFrom?_add address 2 (2 * n)
    rw [Nat.mul_succ, Nat.add_comm, hsplit] at h h'
    obtain ⟨word, hword, h⟩ := Option.bind_eq_some_iff.mp h
    obtain ⟨rest, hrest, rfl⟩ := Option.map_eq_some_iff.mp h
    obtain ⟨word', hword', h'⟩ := Option.bind_eq_some_iff.mp h'
    obtain ⟨rest', hrest', heq⟩ := Option.map_eq_some_iff.mp h'
    obtain ⟨high, low, rfl, hw⟩ := bytesFrom?_two_eq_some (Word.ne_last_of_even ha) hword
    obtain ⟨high', low', rfl, hw'⟩ := bytesFrom?_two_eq_some (Word.ne_last_of_even ha) hword'
    cases heq
    rw [wordsFrom?_succ, wordsFrom?_succ, hw, hw']
    have hnext := ih (Word.even_add ha 1) hrest hrest'
    rw [UInt16.mul_one] at hnext
    simp only [Option.bind_some, hnext]

variable {v v' : View (Bus Peripheral)}

/-- A word that is written is found again; no other byte changes. -/
lemma readByte?_of_writeWord? (h : v.memory.IsSpanned) {address w : Word} (ha : address ≠ 0xFFFF)
    (hv : v.writeWord? address w = some v') (a : Word) :
    v'.readByte? a = if a = address then some (Word.high w)
      else if a = address + 1 then some (Word.low w) else v.readByte? a := by
  obtain ⟨r, m, h⟩ := h
  have hbyte {b : Bus Peripheral} {m : Ram} (h : b.Spans r m) :
      (Device.readByte b a).toOption = some (m.byte a.toNat) :=
    congrArg Except.toOption (h.readByte a)
  have hwrite : Device.writeWord address w v.memory = .ok () _ := h.writeWord address w
  simp only [writeWord?, hwrite] at hv
  cases hv
  have hnext : address.toNat + 1 < m.size := by
    have := Word.toNat_lt_of_ne ha
    have := h.size
    omega
  simp only [readByte?]
  rw [hbyte (h.withDevice (by simp)), hbyte h, Ram.byte_set (by simpa using hnext),
    Ram.byte_set (Nat.lt_of_succ_lt hnext)]
  have hfirst : a.toNat = address.toNat ↔ a = address := UInt16.toNat_inj
  have hsecond : a.toNat = address.toNat + 1 ↔ a = address + 1 := by
    rw [← Word.toNat_add_one ha, UInt16.toNat_inj]
  simp only [hfirst, hsecond]
  split_ifs with h₁ h₂
  · subst h₁
    have := Word.toNat_add_one ha
    rw [h₂] at this
    omega
  all_goals rfl

lemma readWord?_of_writeWord? (h : v.memory.IsSpanned) {address w : Word} (ha : address ≠ 0xFFFF)
    (hv : v.writeWord? address w = some v') : v'.readWord? address = some w := by
  have hne : address + 1 ≠ address := by
    intro heq
    have := Word.toNat_add_one ha
    rw [heq] at this
    omega
  rw [readWord?_eq ha, readByte?_of_writeWord? h ha hv, readByte?_of_writeWord? h ha hv, if_pos rfl,
    if_neg hne, if_pos rfl]
  simp

lemma isSpanned_of_writeWord? (h : v.memory.IsSpanned) {address w : Word}
    (hv : v.writeWord? address w = some v') : v'.memory.IsSpanned := by
  obtain ⟨u, hu, h'⟩ := exists_writeWord? Bus.reliable_isSpanned h address w
  cases hv.symm.trans hu
  exact h'

lemma isSpanned_of_pushAll? (h : v.memory.IsSpanned) {ws : List Word}
    (hv : v.pushAll? ws = some v') : v'.memory.IsSpanned := by
  obtain ⟨u, hu, h'⟩ := exists_pushAll? Bus.reliable_isSpanned h ws
  cases hv.symm.trans hu
  exact h'

/-- The first word that is pushed lies at `sp`; the others are pushed below it. -/
lemma exists_of_pushAll?_cons (h : v.memory.IsSpanned) (heven : v.reg .sp % 2 = 0) {w : Word}
    {ws : List Word} (hv : v.pushAll? (w :: ws) = some v') :
    ∃ u : View (Bus Peripheral), u.memory.IsSpanned ∧ u.reg .sp = v.reg .sp - 2 ∧
      u.pushAll? ws = some v' ∧ u.readWord? (v.reg .sp) = some w ∧
      ∀ a, a ≠ v.reg .sp → a ≠ v.reg .sp + 1 → u.readByte? a = v.readByte? a := by
  obtain ⟨u, hu, hv⟩ := Option.bind_eq_some_iff.mp hv
  have hlast := Word.ne_last_of_even heven
  have hsp : u.reg .sp = v.reg .sp := by rw [writeWord?_eq_some hu]
  have hspan : u.memory.IsSpanned := isSpanned_of_writeWord? h hu
  have hw : u.readWord? (v.reg .sp) = some w := readWord?_of_writeWord? h hlast hu
  refine ⟨u.withStack (u.reg .sp - 2) (u.frameSize + 2), hspan, by simp [hsp], hv, hw, ?_⟩
  intro a hfirst hsecond
  exact (readByte?_of_writeWord? h hlast hu a).trans (by rw [if_neg hfirst, if_neg hsecond])

/-- Pushing changes the bytes of the words that are pushed and no others. -/
lemma readByte?_of_pushAll? (h : v.memory.IsSpanned) (heven : v.reg .sp % 2 = 0) {ws : List Word}
    (hv : v.pushAll? ws = some v') {a : Word} (ha : 2 * ws.length ≤ (v.reg .sp + 1 - a).toNat) :
    v'.readByte? a = v.readByte? a := by
  induction ws generalizing v with
  | nil =>
    cases hv
    rfl
  | cons w ws ih =>
    obtain ⟨u, hspan, hsp, hv, -, hbyte⟩ := exists_of_pushAll?_cons h heven hv
    rw [List.length_cons] at ha
    have hdistance : v.reg .sp + 1 - a = u.reg .sp + 1 - a + 2 := by grind
    have hbelow : 2 * ws.length ≤ (u.reg .sp + 1 - a).toNat := by
      rw [hdistance, UInt16.toNat_add] at ha
      change _ ≤ (_ + 2) % 65536 at ha
      omega
    have hne {k : Word} (hk : k.toNat < 2) : v.reg .sp + 1 - a ≠ k := by
      intro heq
      rw [heq] at ha
      omega
    have hfirst : a ≠ v.reg .sp := fun heq => hne (k := 1) (by decide) (by grind)
    have hsecond : a ≠ v.reg .sp + 1 := fun heq => hne (k := 0) (by decide) (by grind)
    have heven' : u.reg .sp % 2 = 0 := hsp ▸ Word.even_sub heven 1
    rw [ih hspan heven' hv hbelow, hbyte a hfirst hsecond]

lemma bytesFrom?_of_pushAll? (h : v.memory.IsSpanned) (heven : v.reg .sp % 2 = 0) {ws : List Word}
    (hv : v.pushAll? ws = some v') {a : Word} {n : Nat}
    (ha : 2 * ws.length + n ≤ (v.reg .sp + 1 - a).toNat + 1) :
    v'.bytesFrom? a n = v.bytesFrom? a n := by
  induction n generalizing a with
  | zero => rfl
  | succ n ih =>
    have hnext : 2 * ws.length + n ≤ (v.reg .sp + 1 - (a + 1)).toNat + 1 := by
      have heq : v.reg .sp + 1 - a = v.reg .sp + 1 - (a + 1) + 1 := by grind
      rw [heq, UInt16.toNat_add] at ha
      change _ ≤ (_ + 1) % 65536 + 1 at ha
      omega
    simp only [bytesFrom?, readByte?_of_pushAll? h heven hv (a := a) (by omega), ih hnext]

lemma bytesFrom?_of_enter? (h : v.memory.IsSpanned) (heven : v.reg .sp % 2 = 0) {address : Word}
    (hv : v.enter? address = some v') {a : Word} {n : Nat}
    (ha : 20 + n ≤ (v.reg .sp + 1 - a).toNat + 1) : v'.bytesFrom? a n = v.bytesFrom? a n := by
  obtain ⟨u, hu, heq⟩ := Option.bind_eq_some_iff.mp hv
  cases heq
  refine Eq.trans ?_ (bytesFrom?_of_pushAll? h heven hu ha)
  exact bytesFrom?_congr (by rfl) a n

/-- The word that was pushed before others is still there. -/
lemma readWord?_above_of_pushAll? (h : v.memory.IsSpanned) (heven : v.reg .sp % 2 = 0)
    {ws : List Word} (hv : v.pushAll? ws = some v') (hlength : ws.length < 0x8000) :
    v'.readWord? (v.reg .sp + 2) = v.readWord? (v.reg .sp + 2) := by
  have hlast : v.reg .sp + 2 ≠ 0xFFFF := Word.ne_last_of_even (Word.even_add heven 1)
  have hfirst : v.reg .sp + 1 - (v.reg .sp + 2) = 0xFFFF := by grind
  have hsecond : v.reg .sp + 1 - (v.reg .sp + 2 + 1) = 0xFFFE := by grind
  rw [readWord?_eq hlast, readWord?_eq hlast,
    readByte?_of_pushAll? h heven hv (by rw [hfirst]; change _ ≤ 65535; omega),
    readByte?_of_pushAll? h heven hv (by rw [hsecond]; change _ ≤ 65534; omega)]

/-- The words that have been pushed lie above `sp`, the last one first, as long as they do not meet
around the address space. -/
lemma wordsFrom?_of_pushAll? (h : v.memory.IsSpanned) (heven : v.reg .sp % 2 = 0) {ws : List Word}
    (hv : v.pushAll? ws = some v') (hlength : ws.length ≤ 0x8000) :
    v'.wordsFrom? (v'.reg .sp + 2) ws.length = some ws.reverse := by
  induction ws generalizing v with
  | nil => rfl
  | cons w ws ih =>
    obtain ⟨u, hspan, hsp, hv, hw, -⟩ := exists_of_pushAll?_cons h heven hv
    rw [List.length_cons] at hlength
    have heven' : u.reg .sp % 2 = 0 := hsp ▸ Word.even_sub heven 1
    have habove : v'.reg .sp + 2 + 2 * UInt16.ofNat ws.length = v.reg .sp := by
      have : v'.reg .sp = u.reg .sp - 2 * UInt16.ofNat ws.length := by
        rw [pushAll?_eq_some hv]
        simp
      grind
    have hword : v'.readWord? (v.reg .sp) = some w := by
      have hnext : v.reg .sp = u.reg .sp + 2 := by grind
      rw [hnext] at hw ⊢
      rw [readWord?_above_of_pushAll? hspan heven' hv (by omega), hw]
    rw [List.length_cons, wordsFrom?_add, ih hspan heven' hv (by omega), habove, Option.bind_some,
      wordsFrom?_one, hword]
    simp

lemma readWord?_of_pushAll? (h : v.memory.IsSpanned) (heven : v.reg .sp % 2 = 0) {w : Word}
    (hv : v.pushAll? [w] = some v') : v'.readWord? (v'.reg .sp + 2) = some w := by
  have hwords := wordsFrom?_of_pushAll? h heven hv (by simp)
  rw [List.length_singleton, wordsFrom?_one] at hwords
  obtain ⟨_, hw, heq⟩ := Option.map_eq_some_iff.mp hwords
  cases heq
  exact hw

/-- The frame that has been begun is there still, with what was saved in it. -/
structure KeepsFrame {μ : Type} [Device μ] (v v' : View μ) : Prop where
  fp : v'.reg .fp = v.reg .fp
  bytes : v'.bytesFrom? (v.reg .fp + 2) 22 = v.bytesFrom? (v.reg .fp + 2) 22

/-- The arguments of a call and their number have been pushed. -/
structure Prepared {μ : Type} [Device μ] (before calling : View μ) (n : Word) : Prop where
  sp : calling.reg .sp = before.reg .sp - 2 * (n + 1)
  fp : calling.reg .fp = before.reg .fp
  frameSize : calling.frameSize = before.frameSize + 2 * (n + 1)
  arguments : calling.readWord? (calling.reg .sp + 2) = some n

/-- What is left after the end of a frame: the general registers as they were at its beginning, the
stack as it was `before` the arguments, and the rest as it was at the end. -/
structure Restored {μ : Type} (before calling ending after : View μ) : Prop where
  general : ∀ r ∈ Register.general, after.reg r = calling.reg r
  ip : after.reg .ip = calling.reg .ip
  sp : after.reg .sp = before.reg .sp
  fp : after.reg .fp = before.reg .fp
  frameSize : after.frameSize = before.frameSize
  acc : after.reg .acc = ending.reg .acc
  mb : after.reg .mb = ending.reg .mb
  im : after.reg .im = ending.reg .im
  halted : after.halted = ending.halted
  vectorTable : after.vectorTable = ending.vectorTable
  memory : after.memory = ending.memory

lemma KeepsFrame.wordsFrom? (keeps : v.KeepsFrame v') (h : v'.memory.IsSpanned)
    (heven : v.reg .fp % 2 = 0) :
    v'.wordsFrom? (v'.reg .fp + 2) 11 = v.wordsFrom? (v.reg .fp + 2) 11 := by
  obtain ⟨bs, hbs⟩ := exists_bytesFrom? Bus.reliable_isSpanned h (v.reg .fp + 2) 22
  rw [keeps.fp]
  exact wordsFrom?_of_bytesFrom? (Word.even_add heven 1) hbs (keeps.bytes ▸ hbs)

/-- Where a frame begins, and the words in it. -/
lemma frame_of_enter? (h : v.memory.IsSpanned) (heven : v.reg .sp % 2 = 0) {n address : Word}
    (hn : v.readWord? (v.reg .sp + 2) = some n) (hv : v.enter? address = some v') :
    v'.reg .fp = v.reg .sp - 20 ∧
      v'.wordsFrom? (v'.reg .fp + 2) 11 = some (v.frame.reverse ++ [n]) := by
  obtain ⟨u, hu, heq⟩ := Option.bind_eq_some_iff.mp hv
  cases heq
  have hsp : u.reg .sp = v.reg .sp - 20 := by
    rw [pushAll?_eq_some hu, length_frame]
    simp
  have hwords : u.wordsFrom? (u.reg .sp + 2) 10 = some v.frame.reverse :=
    wordsFrom?_of_pushAll? h heven hu (by rw [length_frame]; decide)
  have hcount : u.readWord? (v.reg .sp + 2) = some n :=
    (readWord?_above_of_pushAll? h heven hu (by rw [length_frame]; decide)).trans hn
  have htop : v.reg .sp - 20 + 2 + 2 * UInt16.ofNat 10 = v.reg .sp + 2 := by grind
  constructor
  · simpa using hsp
  · simp only [reg_set, wordsFrom?_set, wordsFrom?_withStack, reduceIte, reduceCtorEq]
    rw [u.wordsFrom?_add _ 10 1, hwords, hsp, htop, wordsFrom?_one, hcount]
    rfl

/-- The end of a frame that holds what was saved in it. -/
lemma exists_leave? {before calling ending : View (Bus Peripheral)} (balanced : before.Balanced)
    {n : Word} (prepared : before.Prepared calling n) (h : ending.memory.IsSpanned)
    (hfp : ending.reg .fp = calling.reg .sp - 20)
    (hframe : ending.wordsFrom? (ending.reg .fp + 2) 11 = some (calling.frame.reverse ++ [n])) :
    ∃ after, ending.leave? = some after ∧ before.Restored calling ending after ∧
      after.inHandler = ending.inHandler := by
  obtain ⟨args, hargs⟩ :=
    exists_wordsFrom? Bus.reliable_isSpanned h (ending.reg .fp + 24) n.toNat
  have hsp := prepared.sp
  have hsize := prepared.frameSize
  have hsp' : ending.reg .fp + 22 + 2 * n = before.reg .sp := by grind
  have hfp' : ending.reg .fp + (calling.frameSize + 20) = before.reg .fp := by
    unfold Balanced at balanced
    grind
  unfold leave?
  simp only [hframe, frame, Register.general, List.map_cons, List.map_nil, List.cons_append,
    List.nil_append, List.reverse_cons, List.reverse_nil, hargs, Option.bind_eq_bind,
    Option.bind_some, Option.pure_def]
  refine ⟨_, rfl, ?_, rfl⟩
  constructor
  case sp => exact hsp'
  case fp => exact hfp'
  case frameSize =>
    unfold Balanced at balanced
    change ending.reg .fp + (calling.frameSize + 20) - (ending.reg .fp + 22 + 2 * n) = before.frameSize
    rw [hsp', hfp', balanced]
  case general => simp [Register.general]
  all_goals rfl

/-- A frame that is there still at its end restores what was there at its beginning. -/
lemma KeepsFrame.exists_leave? {before calling entered ending : View (Bus Peripheral)}
    (keeps : entered.KeepsFrame ending) (h' : ending.memory.IsSpanned) (h : calling.memory.IsSpanned)
    (heven : before.reg .sp % 2 = 0) (balanced : before.Balanced) {n address : Word}
    (prepared : before.Prepared calling n) (henter : calling.enter? address = some entered) :
    ∃ after, ending.leave? = some after ∧ before.Restored calling ending after ∧
      after.inHandler = ending.inHandler := by
  have heven' : calling.reg .sp % 2 = 0 := prepared.sp ▸ Word.even_sub heven (n + 1)
  obtain ⟨hfp, hframe⟩ := frame_of_enter? h heven' prepared.arguments henter
  have hbase : entered.reg .fp % 2 = 0 := hfp ▸ Word.even_sub heven' 10
  refine View.exists_leave? balanced prepared h' (keeps.fp.trans hfp) ?_
  rw [keeps.wordsFrom? h' hbase, hframe]

end View
end Machine16
