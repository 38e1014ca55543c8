import Machine16.Assembly.Grammar.Statement
import Machine16.Proofs.Outcomes

/-! Programs are read node by node. The run over a text is a relation here, in which places are counted
back from the end of the text, so that it does not matter how much has been read before. -/
namespace Machine16

lemma dropBytes_append (cs ds : List Char) : dropBytes (byteLength cs) (cs ++ ds) = ds := by
  have h := takeBytes_append_dropBytes (byteLength cs) (cs ++ ds)
  rw [takeBytes_append] at h
  exact List.append_cancel_left h

lemma byteLength_le_of_suffix {cs ds : List Char} (h : cs <:+ ds) : byteLength cs ≤ byteLength ds := by
  obtain ⟨before, rfl⟩ := h
  rw [byteLength_append]
  exact Nat.le_add_left _ _

namespace Program

open Grammar

/-- The nodes of an ending of a text of `stop` bytes. -/
inductive Nodes (stop : Nat) : List Char → Program → Prop
  | nil {cs} (start : skipTrivia false cs = []) : Nodes stop cs []
  | cons {cs start s unread p} (start_eq : skipTrivia false cs = start)
      (read : statement start = .done s unread) (tail : Nodes stop unread p) :
      Nodes stop cs (⟨s, stop - byteLength start, stop - byteLength unread⟩ :: p)

/-- The run over an ending of a text of `stop` bytes that has come to `start` with these nodes. -/
inductive Reaches (stop : Nat) : List Char → Program → List Char → Prop
  | here {cs start} (start_eq : skipTrivia false cs = start) : Reaches stop cs [] start
  | cons {cs next s unread p start} (next_eq : skipTrivia false cs = next)
      (read : statement next = .done s unread) (tail : Reaches stop unread p start) :
      Reaches stop cs (⟨s, stop - byteLength next, stop - byteLength unread⟩ :: p) start

variable {offset stop : Nat} {cs start unread place : List Char} {s : Statement} {reason : Reason}

lemma byteLength_unread_le (hstart : skipTrivia false cs = start)
    (hs : statement start = .done s unread) :
    byteLength start ≤ byteLength cs ∧ byteLength unread ≤ byteLength start := by
  have hrest := byteLength_le_of_suffix (local_statement start)
  rw [hs, Outcome.stop] at hrest
  exact ⟨hstart ▸ byteLength_le_of_suffix (skipTrivia_suffix false cs), hrest⟩

lemma parseAt_of_nil (h : skipTrivia false cs = []) : parseAt offset cs = .ok [] := by
  rw [parseAt]
  split
  · rfl
  · simp_all

lemma parseAt_of_done (hstart : skipTrivia false cs = start) (hs : statement start = .done s unread)
    (hstop : offset + byteLength cs = stop) :
    parseAt offset cs = (⟨s, stop - byteLength start, stop - byteLength unread⟩ :: ·) <$>
      parseAt (stop - byteLength unread) unread := by
  obtain ⟨hcs, hrest⟩ := byteLength_unread_le hstart hs
  have hplace : stop - byteLength start = offset + (byteLength cs - byteLength start) := by omega
  have hplace' : stop - byteLength unread = offset + (byteLength cs - byteLength start) +
      (byteLength start - byteLength unread) := by omega
  rw [parseAt, hplace, hplace']
  split
  · rename_i hnil
    rw [hnil] at hstart
    subst hstart
    cases hs
  · rename_i c rest hcons
    obtain rfl := hcons.symm.trans hstart
    split
    · rename_i hs'
      cases hs'.symm.trans hs
      rfl
    · rename_i hs'
      cases hs'.symm.trans hs
    · rename_i hs'
      cases hs'.symm.trans hs

lemma parseAt_of_miss (hne : skipTrivia false cs ≠ [])
    (hs : statement (skipTrivia false cs) = .miss place) :
    parseAt offset cs = .error (place, ⟨.unexpectedInput, none⟩) := by
  rw [parseAt]
  split
  · contradiction
  · rename_i hcons
    rw [hcons] at hs
    split <;> simp_all

lemma parseAt_of_fail (hs : statement (skipTrivia false cs) = .fail place reason) :
    parseAt offset cs = .error (place, reason) := by
  rw [parseAt]
  split
  · rename_i hnil
    rw [hnil] at hs
    cases hs
  · rename_i hcons
    rw [hcons] at hs
    split <;> simp_all

/-- No statement can be read at the front of the text. -/
def Rejects (start place : List Char) (reason : Reason) : Prop :=
  statement start = .fail place reason ∨ statement start = .miss place ∧ reason = ⟨.unexpectedInput, none⟩

namespace Rejects

lemma suffix (h : Rejects start place reason) : place <:+ start := by
  have hlocal := local_statement start
  obtain h | ⟨h, -⟩ := h <;> rwa [h] at hlocal

lemma parseAt (h : Rejects start place reason) (hne : start ≠ []) (hstart : skipTrivia false cs = start) :
    parseAt offset cs = .error (place, reason) := by
  subst hstart
  obtain hs | ⟨hs, rfl⟩ := h
  · exact parseAt_of_fail hs
  · exact parseAt_of_miss hne hs

end Rejects

/-- Every run comes to the end of the text or to something that is no statement. -/
lemma exists_reaches (stop : Nat) (cs : List Char) : ∃ p start, Reaches stop cs p start ∧
    (start = [] ∨ start ≠ [] ∧ ∃ place reason, Rejects start place reason) := by
  induction hlength : cs.length using Nat.strongRecOn generalizing cs with
  | ind length ih =>
    by_cases hnil : skipTrivia false cs = []
    · exact ⟨[], [], .here hnil, .inl rfl⟩
    cases hs : statement (skipTrivia false cs) with
    | done s unread =>
      have hshorter := progresses_statement _ _ _ hs
      have hle := (skipTrivia_suffix false cs).length_le
      obtain ⟨p, start, hrun, hstart⟩ := ih unread.length (by omega) unread rfl
      exact ⟨_, start, .cons rfl hs hrun, hstart⟩
    | miss place => exact ⟨[], _, .here rfl, .inr ⟨hnil, place, _, .inr ⟨hs, rfl⟩⟩⟩
    | fail place reason => exact ⟨[], _, .here rfl, .inr ⟨hnil, place, reason, .inl hs⟩⟩

namespace Reaches

variable {p : Program}

lemma suffix (h : Reaches stop cs p start) : start <:+ cs := by
  induction h with
  | here hskip => exact hskip ▸ skipTrivia_suffix false _
  | @cons cs next s unread p start hskip hs _ ih =>
    have hlocal := local_statement next
    rw [hs] at hlocal
    exact ih.trans (hlocal.trans (hskip ▸ skipTrivia_suffix false cs))

lemma nodes (h : Reaches stop cs p start) (hnil : start = []) : Nodes stop cs p := by
  induction h with
  | here hskip => exact .nil (hskip.trans hnil)
  | cons hskip hs _ ih => exact .cons hskip hs (ih hnil)

lemma parseAt (h : Reaches stop cs p start) (hne : start ≠ []) (hstart : Rejects start place reason)
    (hstop : offset + byteLength cs = stop) : parseAt offset cs = .error (place, reason) := by
  induction h generalizing offset with
  | here hskip => exact hstart.parseAt hne hskip
  | cons hskip hs _ ih =>
    obtain ⟨hcs, hrest⟩ := byteLength_unread_le hskip hs
    rw [parseAt_of_done hskip hs hstop, ih hne hstart (by omega)]
    rfl

end Reaches

lemma Nodes.parseAt {p : Program} (h : Nodes stop cs p) (hstop : offset + byteLength cs = stop) :
    parseAt offset cs = .ok p := by
  induction h generalizing offset with
  | nil hnil => exact parseAt_of_nil hnil
  | cons hstart hs _ ih =>
    obtain ⟨hcs, hrest⟩ := byteLength_unread_le hstart hs
    rw [parseAt_of_done hstart hs hstop, ih (by omega)]
    rfl

lemma parseAt_eq_ok {p : Program} (hstop : offset + byteLength cs = stop) :
    parseAt offset cs = .ok p ↔ Nodes stop cs p := by
  refine ⟨fun h => ?_, fun h => h.parseAt hstop⟩
  obtain ⟨q, start, hrun, hnil | ⟨hne, place, reason, hstart⟩⟩ := exists_reaches stop cs
  · have hnodes := hrun.nodes hnil
    cases h.symm.trans (hnodes.parseAt hstop)
    exact hnodes
  · cases h.symm.trans (hrun.parseAt hne hstart hstop)

/-- A text is rejected where the run over it comes to something that is no statement. -/
lemma parseAt_eq_error (hstop : offset + byteLength cs = stop) : parseAt offset cs = .error (place, reason) ↔
    ∃ p start, Reaches stop cs p start ∧ start ≠ [] ∧ Rejects start place reason := by
  constructor
  · intro h
    obtain ⟨p, start, hrun, hnil | ⟨hne, place', reason', hstart⟩⟩ := exists_reaches stop cs
    · cases h.symm.trans ((hrun.nodes hnil).parseAt hstop)
    · cases h.symm.trans (hrun.parseAt hne hstart hstop)
      exact ⟨p, start, hrun, hne, hstart⟩
  · rintro ⟨p, start, hrun, hne, hstart⟩
    exact hrun.parseAt hne hstart hstop

/-- Only what is not blank and the place of the end count for what is read. -/
lemma parseAt_congr {offset' : Nat} {cs' : List Char}
    (htrivia : skipTrivia false cs = skipTrivia false cs')
    (hstop : offset + byteLength cs = offset' + byteLength cs') :
    parseAt offset cs = parseAt offset' cs' := by
  by_cases hnil : skipTrivia false cs' = []
  · rw [parseAt_of_nil hnil, parseAt_of_nil (htrivia.trans hnil)]
  · cases hs : statement (skipTrivia false cs') with
    | done s unread => rw [parseAt_of_done rfl hs rfl, parseAt_of_done htrivia hs hstop]
    | miss place =>
      rw [parseAt_of_miss hnil hs, parseAt_of_miss (htrivia ▸ hnil) (htrivia ▸ hs)]
    | fail place reason => rw [parseAt_of_fail hs, parseAt_of_fail (htrivia ▸ hs)]

lemma parse_eq_ok {source : String} {p : Program} :
    parse source = .ok p ↔ Nodes source.utf8ByteSize source.toList p := by
  rw [← parseAt_eq_ok (by rw [Nat.zero_add, byteLength_toList]), parse]
  split <;> rename_i h <;> rw [h] <;> simp

lemma parse_eq_error {source : String} {e : SyntaxError} :
    parse source = .error e ↔ ∃ unread reason, parseAt 0 source.toList = .error (unread, reason) ∧
      .locate source.toList unread reason = e := by
  rw [parse]
  constructor
  · intro h
    split at h
    · cases h
    · exact ⟨_, _, by assumption, Except.error.inj h⟩
  · rintro ⟨unread, reason, h, rfl⟩
    rw [h]

end Program
end Machine16
