import Mathlib.Data.List.TakeWhile
import Machine16.Assembly.Grammar.Instruction
import Machine16.Proofs.Outcomes

/-! The forms of operands exclude each other. The first characters of an operand tell its kind, and a
comma tells whether another one follows, so two formats of one mnemonic cannot both fit a text. -/
namespace Machine16

/-- What an operand looks like. A literal of one byte looks like any other. -/
inductive Kind
  | value | address | register | pointer | indirect
  deriving DecidableEq, Repr

def Slot.kind : Slot → Kind
  | literal | byte => .value
  | address => .address
  | register => .register
  | pointer => .pointer
  | indirect => .indirect

def Format.kinds (f : Format) : List Kind := f.map Slot.kind

/-- Opcodes of one mnemonic differ in what their operands look like, and if there is more than one of
them they all have operands. -/
lemma Opcode.eq_of_mnemonic {op op' : Opcode} (hmnemonic : op.mnemonic = op'.mnemonic)
    (h : op.format.kinds = op'.format.kinds ∨ op.format = [] ∨ op'.format = []) : op = op' := by
  have hall : ∀ op ∈ all, ∀ op' ∈ all, op.mnemonic = op'.mnemonic →
      op.format.kinds = op'.format.kinds ∨ op.format = [] ∨ op'.format = [] → op = op' := by
    decide +kernel
  exact hall op (mem_all op) op' (mem_all op') hmnemonic h

lemma Opcode.mem_ofMnemonic {op : Opcode} {mnemonic : String} :
    op ∈ Opcode.ofMnemonic mnemonic ↔ op.mnemonic.toList = mnemonic.toList.map Char.toLower := by
  simp [Opcode.ofMnemonic, Opcode.mem_all]

lemma Opcode.mnemonic_of_mem {op : Opcode} {mnemonic : String} (hop : op ∈ Opcode.ofMnemonic mnemonic) :
    op.mnemonic = String.ofList (mnemonic.toList.map Char.toLower) := by
  rw [← Opcode.mem_ofMnemonic.mp hop, String.ofList_toList]

namespace Grammar

open Machine16.Parser

/-- The kind of operand that a text may begin with. A register after the mark is a pointer. -/
def kindAt : List Char → Kind
  | '$' :: _ | '[' :: _ => .value
  | '&' :: '(' :: _ => .indirect
  | '&' :: cs =>
    match register cs with
    | .done _ _ => .pointer
    | .miss _ | .fail _ _ => .address
  | _ => .register

section

variable {cs unread mid : List Char} {s t : Slot} {f g : Format}

lemma bracketed_misses (h : cs.head? ≠ some '[') : bracketed.Misses cs := by
  refine ⟨cs, ?_⟩
  unfold bracketed
  split
  · exact absurd rfl h
  · rfl

/-- The bracket that closes an expression is the first one that can. -/
lemma bracketed_eq_done {e : Expression} : bracketed cs = .done e unread ↔
    ∃ inner, cs = '[' :: (inner ++ ']' :: unread) ∧ ']' ∉ inner ∧ Expression.parse inner = .ok e := by
  constructor
  · intro h
    unfold bracketed at h
    split at h
    · rename_i inner
      split at h
      · cases h
      · rename_i c rest hrest
        split at h <;> cases h
        obtain rfl : c = ']' := by
          have := List.head_dropWhile_not (· != ']') (l := inner) (by simp [hrest])
          simpa [hrest] using this
        refine ⟨inner.takeWhile (· != ']'), ?_, ?_, by assumption⟩
        · rw [← hrest, List.takeWhile_append_dropWhile]
        · intro hmem
          simpa using List.mem_takeWhile_imp hmem
    · cases h
  · rintro ⟨inner, rfl, hinner, he⟩
    have hall : ∀ c ∈ inner, (c != ']') = true := by
      intro c hc
      simpa using ne_of_mem_of_not_mem hc hinner
    have hdrop : (inner ++ ']' :: unread).dropWhile (· != ']') = ']' :: unread := by
      rw [List.dropWhile_append_of_pos hall]
      rfl
    have htake : (inner ++ ']' :: unread).takeWhile (· != ']') = inner := by
      rw [List.takeWhile_append_of_pos hall]
      simp
    simp only [bracketed, hdrop, htake, he]

lemma literal_misses (hdollar : cs.head? ≠ some '$') (hbracket : cs.head? ≠ some '[') :
    literal.Misses cs :=
  misses_orElse.mpr ⟨((char_misses hdollar).bind _).bind _, bracketed_misses hbracket⟩

lemma address_misses (h : cs.head? ≠ some '&') : address.Misses cs := (char_misses h).bind _

/-- After the mark, a register and a parenthesis lead elsewhere. -/
lemma address_misses_mark (h : (∃ r unread, register cs = .done r unread) ∨ cs.head? = some '(') :
    address.Misses ('&' :: cs) := by
  refine misses_bind_of_done (char_cons _ _) ?_
  obtain ⟨r, unread, hr⟩ | hparen := h
  · exact (misses_notBefore hr).bind _
  · cases cs with
    | nil => cases hparen
    | cons c cs =>
      cases hparen
      have hregister : register.Misses ('(' :: cs) := register_misses (stops_cons.mpr rfl)
      refine misses_bind_of_done (notBefore_of_misses hregister) (misses_orElse.mpr ⟨?_, ?_⟩)
      · exact (number_misses (stops_cons.mpr rfl)).bind _
      · exact bracketed_misses (by simp)

lemma kindAt_mark (h : cs.head? ≠ some '(') :
    kindAt ('&' :: cs) = .pointer ∧ (∃ r unread, register cs = .done r unread) ∨
      kindAt ('&' :: cs) = .address ∧ register.Misses cs := by
  have hkind : kindAt ('&' :: cs) = match register cs with
      | .done _ _ => .pointer
      | .miss _ | .fail _ _ => .address := by
    cases cs with
    | nil => rfl
    | cons c cs =>
      unfold kindAt
      split <;> simp_all
  obtain ⟨place, hmiss⟩ | ⟨r, unread, hr⟩ := register_misses_or_done cs
  · exact .inr ⟨by rw [hkind, hmiss], place, hmiss⟩
  · exact .inl ⟨by rw [hkind, hr], r, unread, hr⟩

/-- An operand of another kind is not read. -/
lemma operand_misses (h : kindAt cs ≠ s.kind) : (operand s).Misses cs := by
  cases s with
  | literal | byte =>
    refine (literal_misses ?_ ?_).bind _ <;>
    · intro hhead
      cases cs <;> cases hhead
      exact h rfl
  | register =>
    refine (register_misses fun c hc => ?_).bind _
    obtain - | ⟨d, cs⟩ := cs <;> cases hc
    cases hstart : isNameStart c with
    | false => rfl
    | true =>
      refine absurd ?_ h
      unfold kindAt
      split <;> simp_all [isNameStart, Slot.kind]
  | address =>
    refine Misses.bind ?_ _
    obtain - | ⟨c, cs⟩ := cs
    · exact address_misses (by simp)
    by_cases hc : c = '&'
    · subst hc
      by_cases hparen : cs.head? = some '('
      · exact address_misses_mark (.inr hparen)
      obtain ⟨-, r, unread, hr⟩ | ⟨hkind, -⟩ := kindAt_mark hparen
      · exact address_misses_mark (.inl ⟨r, unread, hr⟩)
      · exact absurd hkind h
    · exact address_misses (by simpa using hc)
  | pointer =>
    obtain - | ⟨c, cs⟩ := cs
    · exact (char_misses (by simp)).bind _
    by_cases hc : c = '&'
    · subst hc
      refine misses_bind_of_done (char_cons _ _) (Misses.bind ?_ _)
      by_cases hparen : cs.head? = some '('
      · exact register_misses (stops_of_head? hparen rfl)
      obtain ⟨hkind, -⟩ | ⟨-, hmiss⟩ := kindAt_mark hparen
      · exact absurd hkind h
      · exact hmiss
    · exact (char_misses (by simpa using hc)).bind _
  | indirect =>
    obtain - | ⟨c, cs⟩ := cs
    · exact (char_misses (by simp)).bind _
    by_cases hc : c = '&'
    · subst hc
      refine misses_bind_of_done (char_cons _ _) ((char_misses ?_).bind _)
      intro hparen
      obtain - | ⟨d, cs⟩ := cs <;> cases hparen
      exact h rfl
    · exact (char_misses (by simpa using hc)).bind _

lemma kindAt_of_done {o : Operand Expression} (h : operand s cs = .done o unread) :
    kindAt cs = s.kind := by
  by_cases hkind : kindAt cs = s.kind
  · exact hkind
  · obtain ⟨place, hmiss⟩ := operand_misses hkind
    cases hmiss.symm.trans h

/-- Slots of one kind differ in what becomes of the operand, not in the text of it. -/
lemma operand_of_kind_eq (hkind : s.kind = t.kind) {o : Operand Expression}
    (h : operand t cs = .done o unread) : ∃ o', operand s cs = .done o' unread := by
  have hvalue {make make' : Expression → Operand Expression} {p : Parser Expression}
      (h : (p >>= fun e => pure (make e) : Parser (Operand Expression)) cs = .done o unread) :
      ∃ o', (p >>= fun e => pure (make' e) : Parser (Operand Expression)) cs = .done o' unread := by
    obtain ⟨e, mid, hp, hpure⟩ := bind_eq_done.mp h
    obtain ⟨-, rfl⟩ := pure_eq_done.mp hpure
    exact ⟨make' e, bind_of_done hp _⟩
  cases s <;> cases t <;> first | exact ⟨o, h⟩ | exact hvalue h | cases hkind

lemma operands_cons (hf : f ≠ []) : operands (s :: f) = (do
    let o ← operand s
    comma
    return o :: (← operands f)) := by
  cases f with
  | nil => exact absurd rfl hf
  | cons t f => rfl

/-- The first operand is the only one, or others follow after a comma. -/
lemma operands_cons_eq_done {os : List (Operand Expression)}
    (h : operands (s :: f) cs = .done os unread) :
    ∃ o mid, operand s cs = .done o mid ∧
      (f = [] ∧ os = [o] ∧ mid = unread ∨
        f ≠ [] ∧ ∃ next os', comma mid = .done () next ∧ operands f next = .done os' unread ∧
          os = o :: os') := by
  by_cases hf : f = []
  · subst hf
    obtain ⟨o, mid, ho, hpure⟩ := bind_eq_done.mp h
    obtain ⟨rfl, rfl⟩ := pure_eq_done.mp hpure
    exact ⟨o, mid, ho, .inl ⟨rfl, rfl, rfl⟩⟩
  · rw [operands_cons hf] at h
    obtain ⟨o, mid, ho, h⟩ := bind_eq_done.mp h
    obtain ⟨_, next, hcomma, h⟩ := bind_eq_done.mp h
    obtain ⟨os', _, hos, hpure⟩ := bind_eq_done.mp h
    obtain ⟨rfl, rfl⟩ := pure_eq_done.mp hpure
    exact ⟨o, mid, ho, .inr ⟨hf, next, os', hcomma, hos, rfl⟩⟩

/-- The comma that belongs to another operand. -/
def commaAhead : Parser Unit := do
  spaces
  char ','

lemma comma_eq : comma = commaAhead >>= fun _ => spaces := by
  funext cs
  simp only [comma, commaAhead, bind_apply]
  cases spaces cs with
  | done u mid => cases char ',' mid <;> rfl
  | miss place => rfl
  | fail place reason => rfl

/-- Operands in one format, with no comma behind them, are not operands in a format of another look:
either reading them gets stuck, or it stops before a comma. -/
lemma operands_of_kinds_ne (hf : f ≠ []) (hg : g ≠ []) (hkinds : f.kinds ≠ g.kinds)
    {os : List (Operand Expression)} (h : operands g cs = .done os unread)
    (hend : commaAhead.Misses unread) :
    (operands f).Misses cs ∨ ∃ os mid end', operands f cs = .done os mid ∧
      commaAhead mid = .done () end' := by
  induction f generalizing g cs os with
  | nil => exact absurd rfl hf
  | cons s f ih =>
    obtain - | ⟨t, g⟩ := g
    · exact absurd rfl hg
    obtain ⟨o, mid, ho, hrest⟩ := operands_cons_eq_done h
    by_cases hkind : s.kind = t.kind
    · obtain ⟨o', ho'⟩ := operand_of_kind_eq hkind ho
      obtain - | ⟨s', f⟩ := f
      · obtain ⟨rfl, -⟩ | ⟨-, next, -, hcomma, -⟩ := hrest
        · exact absurd (by simp [Format.kinds, hkind]) hkinds
        · -- the other format goes on after a comma
          rw [comma_eq] at hcomma
          obtain ⟨_, end', hahead, -⟩ := bind_eq_done.mp hcomma
          exact .inr ⟨[o'], mid, end', bind_of_done ho' _, hahead⟩
      · rw [operands_cons (List.cons_ne_nil _ _)]
        obtain ⟨-, -, rfl⟩ | ⟨hg', next, os', hcomma, hos, -⟩ := hrest
        · refine .inl (misses_bind_of_done ho' (Misses.bind ?_ _))
          rw [comma_eq]
          exact hend.bind _
        · have hkinds' : Format.kinds (s' :: f) ≠ Format.kinds g := by
            intro heq
            exact hkinds (by simpa [Format.kinds, hkind] using heq)
          obtain hmiss | ⟨os', mid', end', hos', hahead⟩ := ih (List.cons_ne_nil _ _) hg' hkinds' hos
          · exact .inl (misses_bind_of_done ho' (misses_bind_of_done hcomma (hmiss.bind _)))
          · refine .inr ⟨o' :: os', mid', end', ?_, hahead⟩
            rw [bind_of_done ho', bind_of_done hcomma, bind_of_done hos']
            rfl
    · rw [← kindAt_of_done ho] at hkind
      have hmiss : (operand s).Misses cs := operand_misses (Ne.symm hkind)
      left
      cases f with
      | nil => exact hmiss.bind _
      | cons s' f => exact hmiss.bind _

end

/-- What an opcode and its operands are read as. -/
lemma form_eq_done {op : Opcode} {i : Instruction Expression} {cs unread : List Char} :
    form op cs = .done i unread ↔ i.opcode = op ∧ arguments op.format cs = .done i.operands unread ∧
      commaAhead.Misses unread := by
  constructor
  · intro h
    obtain ⟨os, mid, hos, h⟩ := bind_eq_done.mp h
    obtain ⟨_, _, hend, hpure⟩ := bind_eq_done.mp h
    obtain ⟨rfl, rfl⟩ := pure_eq_done.mp hpure
    obtain ⟨rfl, hend⟩ := notBefore_eq_done.mp hend
    exact ⟨rfl, hos, hend⟩
  · rintro ⟨rfl, hos, hend⟩
    refine (bind_of_done hos _).trans ((bind_of_done (notBefore_of_misses hend) _).trans rfl)

/-- A text that fits one opcode fits no other opcode of the mnemonic. -/
lemma form_misses {op op' : Opcode} {i : Instruction Expression} {cs unread : List Char}
    (h : form op cs = .done i unread) (hmnemonic : op'.mnemonic = op.mnemonic) (hne : op' ≠ op) :
    (form op').Misses cs := by
  obtain ⟨rfl, hos, hend⟩ := form_eq_done.mp h
  have hdiffer : ¬ (op'.format.kinds = i.opcode.format.kinds ∨ op'.format = [] ∨ i.opcode.format = []) :=
    fun hsame => hne (Opcode.eq_of_mnemonic hmnemonic hsame)
  rw [not_or, not_or] at hdiffer
  obtain ⟨hkinds, hf, hg⟩ := hdiffer
  rw [arguments, if_neg hg] at hos
  obtain ⟨blank, mid, hblank, hos⟩ := bind_eq_done.mp hos
  unfold form
  rw [arguments, if_neg hf]
  obtain hmiss | ⟨os', mid', end', hos', hahead⟩ := operands_of_kinds_ne hf hg hkinds hos hend
  · exact (misses_bind_of_done hblank hmiss).bind _
  · exact misses_bind_of_done ((bind_of_done hblank _).trans hos')
      ((misses_notBefore hahead).bind _)

/-- It does not matter in which order the opcodes of a mnemonic are tried. -/
lemma firstForm_eq_done {ops : List Opcode} {mnemonic : String}
    (hops : ∀ op ∈ ops, op.mnemonic = mnemonic) {i : Instruction Expression} {cs unread : List Char} :
    firstForm ops cs = .done i unread ↔ i.opcode ∈ ops ∧ form i.opcode cs = .done i unread := by
  induction ops with
  | nil =>
    simp only [List.not_mem_nil, false_and, iff_false]
    exact fun h => nomatch h
  | cons op ops ih =>
    rw [List.forall_mem_cons] at hops
    rw [firstForm, orElse_eq_done, ih hops.2, List.mem_cons]
    constructor
    · rintro (h | ⟨-, hmem, h⟩)
      · obtain rfl := (form_eq_done.mp h).1
        exact ⟨.inl rfl, h⟩
      · exact ⟨.inr hmem, h⟩
    · rintro ⟨hop, h⟩
      by_cases heq : op = i.opcode
      · exact .inl (heq ▸ h)
      · have hmem := hop.resolve_left (Ne.symm heq)
        exact .inr ⟨form_misses h (hops.1.trans (hops.2 _ hmem).symm) heq, hmem, h⟩

/-- Which opcode follows a mnemonic is decided by its own form. -/
lemma afterMnemonic_eq_done {mnemonic : String} {i : Instruction Expression} {cs unread : List Char} :
    afterMnemonic mnemonic cs = .done i unread ↔
      i.opcode ∈ Opcode.ofMnemonic mnemonic ∧ form i.opcode cs = .done i unread := by
  rw [← firstForm_eq_done fun _ => Opcode.mnemonic_of_mem, afterMnemonic]
  cases Opcode.ofMnemonic mnemonic with
  | nil => rfl
  | cons op ops =>
    simp only
    rw [orElse_eq_done, or_iff_left]
    rintro ⟨-, h⟩
    obtain ⟨_, _, _, h⟩ := bind_eq_done.mp h
    cases h

end Grammar
end Machine16
