import Machine16.Proofs.Stack

/-! A machine that works on a memory of 64 KiB and one that works on a bus which such a memory spans. They
do the same step by step, until the first access to a word at the last address: half of this word lies
behind the memory. The bus lets it pass, the memory does not. -/
namespace Machine16

variable {α β : Type}

/-- The word that the command reads or writes, if it does. -/
def Command.word? (c : Cpu) : Command → Option Word
  | fetchWord => some (c.get .ip)
  | load address | store address _ => some address
  | look | fetchByte | set .. | resize _ | handle _ | halt | signal _ => none

namespace Procedure

/-- The machine right before it accesses the word at an address for the first time. -/
def firstWordAt {μ : Type} [Device μ] (address : Word) : Procedure α → Machine μ → Option (Machine μ)
  | done _, _ => none
  | step c next, m =>
    if c.word? m.cpu = some address then some m
    else
      match c.exec m with
      | .ok a m' => (next a).firstWordAt address m'
      | .error _ _ => none

/-- The procedure is a step, on whatever memory. -/
def IsStep (d : Procedure Step) : Prop := ∀ (μ : Type) [Device μ], (Exec.step : Exec μ Step) = d.exec

end Procedure

/-- That many steps, with what they ask for. -/
def Exec.steps {μ : Type} [Device μ] : Nat → Exec μ (List Step)
  | 0 => pure []
  | n + 1 => do
    let s ← step
    return s :: (← steps n)

/-- Equal machines, but for the bus between the second one and its memory. -/
structure Machine.Mirrors (a : Machine Ram) (b : Machine (Bus Peripheral)) : Prop where
  cpu : a.cpu = b.cpu
  memory : ∃ r, b.memory.Spans r a.memory

namespace Machine.Mirrors

variable {a : Machine Ram} {b : Machine (Bus Peripheral)}

lemma reg (h : a.Mirrors b) : a.view.reg = b.view.reg := congrArg Cpu.get h.cpu

lemma size (h : a.Mirrors b) : a.memory.size = 0x10000 := by
  obtain ⟨r, hspans⟩ := h.memory
  exact hspans.size

lemma isSpanned (h : a.Mirrors b) : b.memory.IsSpanned := by
  obtain ⟨r, hspans⟩ := h.memory
  exact ⟨r, _, hspans⟩

lemma readByte (h : a.Mirrors b) (address : Word) :
    ∃ v, Device.readByte a.memory address = .ok v ∧ Device.readByte b.memory address = .ok v := by
  obtain ⟨r, hspans⟩ := h.memory
  refine ⟨_, Ram.readByte_eq_byte ?_, hspans.readByte address⟩
  rw [UInt16.toNat_toUInt64]
  exact hspans.toNat_lt_size address

lemma bytesFrom? (h : a.Mirrors b) (address : Word) (n : Nat) :
    a.view.bytesFrom? address n = b.view.bytesFrom? address n := by
  induction n generalizing address with
  | zero => rfl
  | succ n ih =>
    obtain ⟨v, ha, hb⟩ := h.readByte address
    simp only [View.bytesFrom?, View.readByte?, view, ha, hb]
    rw [← view, ← view, ih]

end Machine.Mirrors

namespace Ram

variable {m : Ram} (hm : m.size = 0x10000)

include hm

lemma readWord_last : Device.readWord m 0xFFFF = .error (.outOfBounds 0xFFFF 0x10000) := by
  have hm : m.bytes.size = 0x10000 := hm
  have hnot : ¬(0xFFFF : Word).toUInt64.toNat + 2 ≤ m.bytes.size := by
    rw [hm]
    decide
  change m.readWord (0xFFFF : Word).toUInt64 = _
  rw [readWord, dif_neg hnot, fault, size, hm]
  rfl

lemma writeWord_last (w : Word) :
    Device.writeWord 0xFFFF w m = .error (.outOfBounds 0xFFFF 0x10000) m := by
  obtain ⟨bytes⟩ := m
  have hm : bytes.size = 0x10000 := hm
  have hnot : ¬(0xFFFF : Word).toUInt64.toNat + 2 ≤ bytes.size := by
    rw [hm]
    decide
  change writeWord (0xFFFF : Word).toUInt64 w ⟨bytes⟩ = _
  rw [writeWord, dif_neg hnot, fault, size, hm]
  rfl

end Ram

namespace View

variable {v : View Ram} (hv : v.memory.size = 0x10000)

include hv

lemma exists_push? (h : v.reg .sp ≠ 0xFFFF) (w : Word) : ∃ v', v.pushAll? [w] = some v' := by
  have hv : v.memory.bytes.size = 0x10000 := hv
  have hend : (v.reg .sp).toUInt64.toNat + 2 ≤ v.memory.bytes.size := by
    have hlt := Word.toNat_lt_of_ne h
    rw [UInt16.toNat_toUInt64]
    omega
  have hwrite : Device.writeWord (v.reg .sp) w v.memory = _ := Ram.writeWord_eq_set hend w
  rw [pushAll?, writeWord?, hwrite]
  exact ⟨_, rfl⟩

lemma writeWord?_last (w : Word) : v.writeWord? 0xFFFF w = none := by
  rw [writeWord?, Ram.writeWord_last hv]

end View

namespace Exec

lemma steps_succ {μ : Type} [Device μ] {m u m' : Machine μ} {s : Step} {ss : List Step} {n : Nat}
    (h : step m = .ok s u) (hs : steps n u = .ok ss m') : steps (n + 1) m = .ok (s :: ss) m' :=
  (bind_of_ok h).trans (bind_of_ok hs)

/-- Both operations succeed with the same result, and the machines stay alike. -/
def Alike (x : Exec Ram α) (y : Exec (Bus Peripheral) α) (a : Machine Ram)
    (b : Machine (Bus Peripheral)) : Prop :=
  ∃ c a' b', x a = .ok c a' ∧ y b = .ok c b' ∧ a'.Mirrors b'

namespace Alike

variable {a : Machine Ram} {b : Machine (Bus Peripheral)}

lemma pure (h : a.Mirrors b) (c : α) : Alike (pure c) (pure c) a b := ⟨c, a, b, rfl, rfl, h⟩

lemma bind {x : Exec Ram α} {y : Exec (Bus Peripheral) α} {f : α → Exec Ram β}
    {g : α → Exec (Bus Peripheral) β} (hxy : Alike x y a b)
    (hfg : ∀ c a' b', a'.Mirrors b' → Alike (f c) (g c) a' b') : Alike (x >>= f) (y >>= g) a b := by
  obtain ⟨c, a', b', hx, hy, h'⟩ := hxy
  obtain ⟨e, a'', b'', hf, hg, h''⟩ := hfg c a' b' h'
  exact ⟨e, a'', b'', (bind_of_ok hx).trans hf, (bind_of_ok hy).trans hg, h''⟩

section

variable (h : a.Mirrors b)

include h

lemma cpu : Alike cpu cpu a b := by
  refine ⟨b.cpu, a, b, ?_, rfl, h⟩
  rw [Exec.cpu, h.cpu]

lemma get (r : Register) : Alike (get r) (get r) a b := by
  refine ⟨b.cpu.get r, a, b, ?_, rfl, h⟩
  rw [Exec.get, h.cpu]

lemma modifyCpu (f : Cpu → Cpu) : Alike (modifyCpu f) (modifyCpu f) a b :=
  ⟨(), _, _, rfl, rfl, congrArg f h.cpu, h.memory⟩

lemma set (r : Register) (w : Word) : Alike (set r w) (set r w) a b :=
  (modifyCpu h _).bind fun _ _ _ h' => modifyCpu h' _

lemma readByte (address : Word) : Alike (readByte address) (readByte address) a b := by
  obtain ⟨v, ha, hb⟩ := h.readByte address
  refine ⟨v, a, b, ?_, ?_, h⟩
  · rw [Exec.readByte_eq, ha, Update.ofExcept_ok]
  · rw [Exec.readByte_eq, hb, Update.ofExcept_ok]

lemma readWord {address : Word} (haddress : address ≠ 0xFFFF) :
    Alike (readWord address) (readWord address) a b := by
  obtain ⟨r, hspans⟩ := h.memory
  have hlt := hspans.toNat_lt_size (address + 1)
  rw [Word.toNat_add_one haddress] at hlt
  have ha : Device.readWord a.memory address =
      .ok (Word.ofBytes (a.memory.byte address.toNat) (a.memory.byte (address.toNat + 1))) :=
    Ram.readWord_eq_bytes (by rw [UInt16.toNat_toUInt64]; exact hlt)
  have hb : Device.readWord b.memory address = _ := hspans.readWord address
  refine ⟨Word.ofBytes (a.memory.byte address.toNat) (a.memory.byte (address.toNat + 1)), a, b, ?_, ?_, h⟩
  · rw [Exec.readWord_eq, ha, Update.ofExcept_ok]
  · rw [Exec.readWord_eq, hb, Update.ofExcept_ok]

lemma store {address : Word} (haddress : address ≠ 0xFFFF) (w : Word) :
    Alike (store address w) (store address w) a b := by
  obtain ⟨r, hspans⟩ := h.memory
  have hlt := hspans.toNat_lt_size (address + 1)
  rw [Word.toNat_add_one haddress] at hlt
  have ha : Device.writeWord address w a.memory = .ok ()
      ((a.memory.set address.toNat (Word.high w)).set (address.toNat + 1) (Word.low w)) :=
    Ram.writeWord_eq_set (by rw [UInt16.toNat_toUInt64]; exact hlt) w
  have hb : Device.writeWord address w b.memory = _ := hspans.writeWord address w
  generalize hm : (a.memory.set address.toNat (Word.high w)).set (address.toNat + 1) (Word.low w) = m
    at ha hb
  have hsize : m.size = a.memory.size := by rw [← hm, Ram.size_set, Ram.size_set]
  have hwrite : Alike (writeWord address w) (writeWord address w) a b := by
    refine ⟨(), ⟨a.cpu, m⟩, ⟨b.cpu, b.memory.withDevice r.device (.ram m)⟩, ?_, ?_, h.cpu, r,
      hspans.withDevice hsize⟩
    · rw [Exec.writeWord_eq, ha, Update.within_ok]
    · rw [Exec.writeWord_eq, hb, Update.within_ok]
  exact hwrite.bind fun _ _ _ h' => modifyCpu h' _

end

end Alike

end Exec

namespace Command

variable {c : Command} {a : Machine Ram} {b : Machine (Bus Peripheral)}

/-- Only a word at the last address tells the machines apart. -/
lemma exec_alike (h : a.Mirrors b) (hc : c.word? b.cpu ≠ some 0xFFFF) : Exec.Alike c.exec c.exec a b := by
  have hassign (w : Word) (a' b') (h' : Machine.Mirrors a' b') :
      Exec.Alike (Exec.assign .ip w) (Exec.assign .ip w) a' b' := .modifyCpu h' _
  cases c with
  | look => exact .cpu h
  | fetchByte =>
    exact (Exec.Alike.get h .ip).bind fun ip _ _ h' => (Exec.Alike.readByte h' ip).bind fun _ _ _ h' =>
      (hassign _ _ _ h').bind fun _ _ _ h' => .pure h' _
  | fetchWord =>
    have hip : b.cpu.get .ip ≠ 0xFFFF := fun heq => hc (congrArg some heq)
    obtain ⟨w, a₁, b₁, hread, hread', h₁⟩ := Exec.Alike.readWord h hip
    obtain ⟨_, a₂, b₂, hip₁, hip₁', h₂⟩ := hassign (b.cpu.get .ip + 2) a₁ b₁ h₁
    refine ⟨w, a₂, b₂, ?_, ?_, h₂⟩
    · rw [← h.cpu] at hread hip₁
      exact (Exec.bind_of_ok hread).trans (Exec.bind_of_ok hip₁)
    · exact (Exec.bind_of_ok hread').trans (Exec.bind_of_ok hip₁')
  | load address => exact .readWord h fun heq => hc (congrArg some heq)
  | store address w => exact .store h (fun heq => hc (congrArg some heq)) w
  | set r w => exact .set h r w
  | resize _ | handle _ | halt | signal _ =>
    simp only [exec, Exec.resizeFrame, Exec.emit]
    exact .modifyCpu h _

/-- The memory has no word at the last address, and nothing has been done yet when it says so. -/
lemma exec_last (h : a.Mirrors b) (hc : c.word? b.cpu = some 0xFFFF) :
    c.exec a = .error (.outOfBounds 0xFFFF 0x10000) a := by
  obtain ⟨r, hspans⟩ := h.memory
  have hread : Exec.readWord 0xFFFF a = .error (.outOfBounds 0xFFFF 0x10000) a := by
    rw [Exec.readWord_eq, Ram.readWord_last hspans.size, Update.ofExcept_error]
  cases c with
  | fetchWord =>
    have hip : a.cpu.get .ip = 0xFFFF := by
      rw [h.cpu]
      exact Option.some.inj hc
    rw [← hip] at hread
    exact (Exec.bind_of_ok rfl).trans (Exec.bind_of_error hread)
  | load address =>
    cases hc
    exact hread
  | store address w =>
    cases hc
    have hwrite : Exec.writeWord 0xFFFF w a = .error (.outOfBounds 0xFFFF 0x10000) a := by
      rw [Exec.writeWord_eq, Ram.writeWord_last hspans.size, Update.within_error]
    exact Exec.bind_of_error hwrite
  | look | fetchByte | set _ _ | resize _ | handle _ | halt | signal _ => cases hc

end Command

namespace Procedure

variable {d : Procedure α} {a : Machine Ram} {b v : Machine (Bus Peripheral)}

lemma exec_alike (h : a.Mirrors b) (hd : d.firstWordAt 0xFFFF b = none) :
    Exec.Alike d.exec d.exec a b := by
  induction d generalizing a b with
  | done c => exact .pure h c
  | step c next ih =>
    rw [firstWordAt] at hd
    split at hd
    · cases hd
    · rename_i hc
      obtain ⟨answer, a', b', ha, hb, h'⟩ := Command.exec_alike h hc
      rw [hb] at hd
      obtain ⟨e, a'', b'', ha', hb', h''⟩ := ih answer h' hd
      exact ⟨e, a'', b'', (Exec.bind_of_ok ha).trans ha', (Exec.bind_of_ok hb).trans hb', h''⟩

lemma exec_last (h : a.Mirrors b) (hd : d.firstWordAt 0xFFFF b = some v) :
    ∃ u, d.exec a = .error (.outOfBounds 0xFFFF 0x10000) u ∧ u.Mirrors v := by
  induction d generalizing a b with
  | done c => cases hd
  | step c next ih =>
    rw [firstWordAt] at hd
    split at hd
    · rename_i hc
      cases hd
      exact ⟨a, Exec.bind_of_error (Command.exec_last h hc), h⟩
    · rename_i hc
      obtain ⟨answer, a', b', ha, hb, h'⟩ := Command.exec_alike h hc
      rw [hb] at hd
      obtain ⟨u, ha', hu⟩ := ih answer h' hd
      exact ⟨u, (Exec.bind_of_ok ha).trans ha', hu⟩

/-- The next step of the first machine fails, right where the second one goes on to access the word at
the last address. -/
def Parts (d : Procedure Step) (a : Machine Ram) (b : Machine (Bus Peripheral)) : Prop :=
  ∃ u v, Exec.step a = .error (.outOfBounds 0xFFFF 0x10000) u ∧ d.firstWordAt 0xFFFF b = some v ∧
    u.Mirrors v

lemma IsStep.alike {d : Procedure Step} (hd : d.IsStep) (h : a.Mirrors b)
    (hfirst : d.firstWordAt 0xFFFF b = none) : Exec.Alike Exec.step Exec.step a b := by
  rw [hd Ram, hd (Bus Peripheral)]
  exact exec_alike h hfirst

lemma IsStep.last {d : Procedure Step} (hd : d.IsStep) (h : a.Mirrors b)
    (hfirst : d.firstWordAt 0xFFFF b = some v) :
    ∃ u, Exec.step a = .error (.outOfBounds 0xFFFF 0x10000) u ∧ u.Mirrors v := by
  rw [hd Ram]
  exact exec_last h hfirst

/-- After some steps the machines are alike, or they have been so until a step that parted them. -/
lemma IsStep.steps {d : Procedure Step} (hd : d.IsStep) (h : a.Mirrors b) (n : Nat) :
    Exec.Alike (Exec.steps n) (Exec.steps n) a b ∨ ∃ k < n, ∃ ss a' b',
      Exec.steps k a = .ok ss a' ∧ Exec.steps k b = .ok ss b' ∧ a'.Mirrors b' ∧ d.Parts a' b' := by
  induction n generalizing a b with
  | zero => exact .inl (.pure h [])
  | succ n ih =>
    cases hfirst : d.firstWordAt 0xFFFF b with
    | none =>
      obtain ⟨s, a₁, b₁, ha, hb, h₁⟩ := hd.alike h hfirst
      obtain ⟨ss, a', b', ha', hb', h'⟩ | ⟨k, hk, ss, a', b', ha', hb', h', hparts⟩ := ih h₁
      · exact .inl ⟨s :: ss, a', b', Exec.steps_succ ha ha', Exec.steps_succ hb hb', h'⟩
      · exact .inr ⟨k + 1, Nat.succ_lt_succ hk, s :: ss, a', b', Exec.steps_succ ha ha',
          Exec.steps_succ hb hb', h', hparts⟩
    | some v =>
      obtain ⟨u, hu, huv⟩ := hd.last h hfirst
      exact .inr ⟨0, Nat.succ_pos n, [], a, b, rfl, rfl, h, u, v, hu, hfirst, huv⟩

end Procedure

/-- A machine on a memory of 64 KiB and one on a bus which such a memory spans do the same in a step that
accesses no word at the last address. In any other step the machine on the memory fails, where the other one
is about to access this word. So after every number of steps they are alike, unless an earlier step was the
first such step. -/
theorem steps_alike_until_last_word :
    (∃ d : Procedure Step, d.IsStep) ∧ ∀ d : Procedure Step, d.IsStep → ∀ a b, a.Mirrors b →
      (d.firstWordAt 0xFFFF b = none → Exec.Alike Exec.step Exec.step a b) ∧
      (∀ v, d.firstWordAt 0xFFFF b = some v →
        ∃ u, Exec.step a = .error (.outOfBounds 0xFFFF 0x10000) u ∧ u.Mirrors v) ∧
      ∀ n, Exec.Alike (Exec.steps n) (Exec.steps n) a b ∨ ∃ k < n, ∃ ss a' b',
        Exec.steps k a = .ok ss a' ∧ Exec.steps k b = .ok ss b' ∧ a'.Mirrors b' ∧ d.Parts a' b' := by
  obtain ⟨d, -, hstep⟩ := Exec.MadeOf.step
  refine ⟨⟨d, hstep⟩, fun d hd a b h => ⟨fun hfirst => hd.alike h hfirst, fun v hfirst => hd.last h hfirst,
    fun n => hd.steps h n⟩⟩

namespace Exec

/-- Steps that are followed by one that fails. -/
lemma steps_succ_of_error {μ : Type} [Device μ] {m u u' : Machine μ} {ss : List Step} {n : Nat}
    {e : MemoryError} (h : steps n m = .ok ss u) (he : step u = .error e u') :
    steps (n + 1) m = .error e u' := by
  induction n generalizing m ss with
  | zero =>
    cases h
    exact bind_of_error he
  | succ n ih =>
    obtain ⟨s, m', hm', h⟩ := bind_eq_ok.mp h
    obtain ⟨ss', u₁, hu, h⟩ := bind_eq_ok.mp h
    cases h
    exact (bind_of_ok hm').trans (bind_of_error (ih hu))

end Exec

namespace Machine.Mirrors

variable {a a' : Machine Ram} {b : Machine (Bus Peripheral)} {i : Instruction Word} {act : Action}

/-- What is decoded on the bus is executed on both machines. -/
lemma does (h : a.Mirrors b) (ip : Word) (i : Instruction Word) (act : Action)
    (hrun : b.view.halted = false) (hip : b.view.reg .ip = ip)
    (hend : ip.toNat + i.opcode.size ≤ 0x10000) {code : Byte} {bs : List Byte}
    (hbytes : b.view.bytesFrom? ip i.opcode.size = some (code :: bs))
    (hi : Instruction.decode ip code bs = .ok (i, [])) (hact : i.action? b.view.reg = some act) :
    a.Does i act ∧ b.Does i act := by
  have hrun' : a.view.halted = false := (congrArg Cpu.halted h.cpu).trans hrun
  have hbytes' := (h.bytesFrom? ip _).trans hbytes
  exact ⟨⟨executes_of_decode hrun' (h.reg ▸ hip) hend hbytes' hi, h.reg ▸ hact⟩,
    executes_of_decode hrun hip hend hbytes hi, hact⟩

/-- The bus takes what the memory takes. -/
lemma step_of_does {d : Procedure Step} (hd : d.IsStep) (h : a.Mirrors b) (hdoes : a.Does i act ∧ b.Does i act)
    {v : View Ram} (hv : act.run? (a.view.past i) = some v) :
    ∃ a' b', Exec.step a = .ok act.asks a' ∧ Exec.step b = .ok act.asks b' ∧ a'.Mirrors b' ∧
      act.run? (b.view.past i) = some b'.view := by
  obtain ⟨a', ha, -⟩ := hdoes.1.step hv
  cases hfirst : d.firstWordAt 0xFFFF b with
  | none =>
    obtain ⟨s, a'', b', ha', hb, h'⟩ := hd.alike h hfirst
    cases ha.symm.trans ha'
    exact ⟨a', b', ha, hb, h', hdoes.2.run? hb⟩
  | some _ =>
    obtain ⟨u, hu, -⟩ := hd.last h hfirst
    cases ha.symm.trans hu

end Machine.Mirrors

/-- A program that pushes a word, and then stores it at the last address. Two instructions are executed
alike. The third one parts the machines: the memory refuses the word, and the bus goes on. -/
theorem steps_alike_until_store : ∃ d : Procedure Step, d.IsStep ∧
    let ram := (Ram.zeros 0x10000).fill 0 [0x10, 0x12, 0x34, 0, 0x18, 0, 0x12, 0, 0xFF, 0xFF]
    let a : Machine Ram := ⟨.initial 0x1000, ram⟩
    let b : Machine (Bus Peripheral) := ⟨.initial 0x1000, .flat ram⟩
    a.Mirrors b ∧ ¬ Exec.Alike (Exec.steps 3) (Exec.steps 3) a b ∧ ∃ a' b',
      Exec.steps 2 a = .ok [.next, .next] a' ∧ Exec.steps 2 b = .ok [.next, .next] b' ∧ a'.Mirrors b' ∧
        b'.view.readWord? 0xFFFE = some 0x1234 ∧ d.Parts a' b' ∧ ∃ s b'', Exec.step b' = .ok s b'' := by
  obtain ⟨⟨d, hd⟩, hsteps⟩ := steps_alike_until_last_word
  refine ⟨d, hd, ?_⟩
  intro ram a b
  have h : a.Mirrors b := ⟨rfl, _, Bus.spans_flat (by simp [ram])⟩
  have hcode : b.view.bytesFrom? 0 10 = some [0x10, 0x12, 0x34, 0, 0x18, 0, 0x12, 0, 0xFF, 0xFF] :=
    Bus.bytesFrom?_fill (Ram.size_zeros _) (by decide) _
  -- the word is moved to a register
  have hmov := (View.bytesFrom?_append [0x10, 0x12, 0x34, 0] [0x18, 0, 0x12, 0, 0xFF, 0xFF] hcode).1
  obtain ⟨a₁, b₁, ha₁, hb₁, h₁, hmoved⟩ := h.step_of_does hd (h.does 0
    ⟨.movLitReg, [.literal 0x1234, .register .r1]⟩ (.assign .r1 0x1234) rfl rfl (by decide) hmov rfl rfl) rfl
  have hview₁ := Option.some.inj hmoved
  have hcode₁ : b₁.view.bytesFrom? 0 10 = some [0x10, 0x12, 0x34, 0, 0x18, 0, 0x12, 0, 0xFF, 0xFF] := by
    rw [← hview₁]
    exact hcode
  have hsp₁ : b₁.view.reg .sp = 0xFFFE := by
    rw [← hview₁]
    rfl
  -- the register is pushed
  have hrest₁ := (View.bytesFrom?_append [0x10, 0x12, 0x34, 0] [0x18, 0, 0x12, 0, 0xFF, 0xFF] hcode₁).2
  have hpsh := (View.bytesFrom?_append [0x18, 0] [0x12, 0, 0xFF, 0xFF] hrest₁).1
  obtain ⟨v, hv⟩ := View.exists_push? (v := a₁.view.past ⟨.pshReg, [.register .r1]⟩) h₁.size
    (by simp [h₁.reg, hsp₁]) 0x1234
  obtain ⟨a₂, b₂, ha₂, hb₂, h₂, hview₂⟩ := h₁.step_of_does hd (h₁.does 4
    ⟨.pshReg, [.register .r1]⟩ (.push 0x1234) (by rw [← hview₁]; rfl) (by rw [← hview₁]; rfl) (by decide)
    hpsh rfl (by rw [← hview₁]; rfl)) hv
  have hsp₂ : b₂.view.reg .sp + 2 = 0xFFFE := by
    rw [View.pushAll?_eq_some hview₂]
    simp [hsp₁]
  have hcode₂ : b₂.view.bytesFrom? 0 10 = some [0x10, 0x12, 0x34, 0, 0x18, 0, 0x12, 0, 0xFF, 0xFF] := by
    rw [View.bytesFrom?_of_pushAll? (v := b₁.view.past _) h₁.isSpanned (by simp [hsp₁]) hview₂
      (by simp [hsp₁])]
    simpa using hcode₁
  have hword : b₂.view.readWord? 0xFFFE = some 0x1234 :=
    hsp₂ ▸ View.readWord?_of_pushAll? h₁.isSpanned (by simp [hsp₁]) hview₂
  -- the register is stored
  have hrest₂ := (View.bytesFrom?_append [0x10, 0x12, 0x34, 0, 0x18, 0] [0x12, 0, 0xFF, 0xFF] hcode₂).2
  rw [← hview₁] at hview₂
  obtain ⟨hstore, -⟩ := h₂.does 6 ⟨.movRegMem, [.register .r1, .address 0xFFFF]⟩ (.store 0xFFFF 0x1234)
    (by rw [View.pushAll?_eq_some hview₂]; rfl) (by rw [View.pushAll?_eq_some hview₂]; rfl) (by decide)
    hrest₂ rfl (by rw [View.pushAll?_eq_some hview₂]; rfl)
  obtain ⟨e, u₂, hu₂⟩ : ∃ e u, Exec.step a₂ = .error e u := by
    cases hs : Exec.step a₂ with
    | ok s a' => cases (View.writeWord?_last h₂.size 0x1234).symm.trans (hstore.run? hs)
    | error e u => exact ⟨e, u, rfl⟩
  have hsteps₂ := Exec.steps_succ ha₁ (Exec.steps_succ (n := 0) ha₂ rfl)
  have hsteps₂' := Exec.steps_succ hb₁ (Exec.steps_succ (n := 0) hb₂ rfl)
  have hapart : ¬ Exec.Alike (Exec.steps 3) (Exec.steps 3) a b := by
    rintro ⟨ss, a', b', ha, -⟩
    cases ha.symm.trans (Exec.steps_succ_of_error hsteps₂ hu₂)
  refine ⟨h, hapart, ?_⟩
  obtain halike | ⟨k, hk, ss, a', b', ha', hb', h', hparts⟩ := (hsteps d hd a b h).2.2 3
  · exact absurd halike hapart
  obtain ⟨u, v, hu, hfirst, huv⟩ := hparts
  -- the machines part no earlier
  obtain rfl | rfl | rfl : k = 0 ∨ k = 1 ∨ k = 2 := by omega
  · have ha : Exec.steps 0 a = .ok [] a := rfl
    obtain ⟨-, rfl⟩ := EStateM.Result.ok.inj (ha.symm.trans ha')
    cases ha₁.symm.trans hu
  · cases ha'.symm.trans (Exec.steps_succ (n := 0) ha₁ rfl)
    cases ha₂.symm.trans hu
  · cases ha'.symm.trans hsteps₂
    cases hb'.symm.trans hsteps₂'
    obtain ⟨s, b₃, hb₃, -⟩ := Exec.Total.step Bus.reliable_isSpanned b₂ h₂.isSpanned
    exact ⟨a₂, b₂, hsteps₂, hsteps₂', h₂, hword, ⟨u, v, hu, hfirst, huv⟩, s, b₃, hb₃⟩

end Machine16
