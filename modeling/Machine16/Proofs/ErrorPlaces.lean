import Machine16.Proofs.Spans

/-! Where a source is not a program. The error lies in what is left of the source where it could not be read
on, be it inside of an operand or a list; what stands before the statement that failed is a program. Line and
column tell any two places of a text apart. -/
namespace Machine16

/-- The longest beginning of a text with at most twenty characters and no line break. -/
structure IsExcerpt (text excerpt : List Char) : Prop where
  begins : excerpt <+: text
  short : excerpt.length ≤ 20
  line : '\n' ∉ excerpt
  longest : ∀ other, other <+: text → other.length ≤ 20 → '\n' ∉ other → other <+: excerpt

lemma SyntaxError.isExcerpt_excerptOf (text : List Char) : IsExcerpt text (excerptOf text).toList := by
  rw [excerptOf, String.toList_ofList]
  refine ⟨(List.take_prefix 20 _).trans (List.takeWhile_prefix _), List.length_take_le 20 _, fun h => ?_,
    fun other hother hshort hline => ?_⟩
  · have hchar := List.all_takeWhile (p := (· != '\n')) (l := text)
    rw [List.all_eq_true] at hchar
    exact bne_iff_ne.mp (hchar _ (List.mem_of_mem_take h)) rfl
  · obtain ⟨rest, rfl⟩ := hother
    have hall : ∀ c ∈ other, (c != '\n') = true := fun c hc => bne_iff_ne.mpr fun heq => hline (heq ▸ hc)
    rw [List.takeWhile_append_of_pos hall]
    exact List.prefix_take_iff.mpr ⟨List.prefix_append other _, hshort⟩

namespace Program

open Grammar

lemma skipTrivia_of_append {cs mid behind : List Char} (h : skipTrivia false (cs ++ behind) = mid ++ behind) :
    skipTrivia false cs = mid := by
  have htrivia : trivia (cs ++ behind) = .done () (mid ++ behind) := congrArg _ h
  exact (Outcome.done.inj ((cuts_trivia (P := fun _ => True)).cut cs () mid behind htrivia trivial)).2

/-- A run does not look behind the place where it has come to. The nodes before it are those of the text
before it. -/
lemma Reaches.cut {stop : Nat} {cs start : List Char} {p : Program} (h : Reaches stop cs p start) :
    ∃ before, cs = before ++ start ∧ Nodes (stop - byteLength start) before p := by
  induction h with
  | @here cs start start_eq =>
    obtain ⟨gap, rfl⟩ : start <:+ cs := start_eq ▸ skipTrivia_suffix false cs
    exact ⟨gap, rfl, .nil (skipTrivia_of_append start_eq)⟩
  | @cons cs next s unread p start next_eq read _ ih =>
    obtain ⟨before, rfl, hnodes⟩ := ih
    obtain ⟨gap, rfl⟩ : next <:+ cs := next_eq ▸ skipTrivia_suffix false cs
    obtain ⟨text, rfl⟩ : before ++ start <:+ next := by
      have hlocal := local_statement next
      rwa [read] at hlocal
    rw [← List.append_assoc text] at next_eq read
    have hnext : skipTrivia false (gap ++ (text ++ before)) = text ++ before :=
      skipTrivia_of_append (by rwa [List.append_assoc gap])
    have hread : statement (text ++ before) = .done s before :=
      (cuts_statement (P := fun _ => True)).cut _ s before start read trivial
    have hplace (u : List Char) :
        stop - byteLength (u ++ start) = stop - byteLength start - byteLength u := by
      rw [byteLength_append]
      omega
    refine ⟨gap ++ (text ++ before), by simp only [List.append_assoc], ?_⟩
    rw [← List.append_assoc text, hplace, hplace]
    exact .cons hnext hread hnodes

end Program

/-- The error lies at the offset `place`. What begins at `start` and goes on over this place is no statement,
and comes after the nodes `before`, which are all nodes of the text before it. -/
structure SyntaxError.LiesAt (e : SyntaxError) (source : String) (place start : Nat) (before : Program) :
    Prop where
  place_boundary : IsBoundary source.toList place
  place_le : place ≤ source.utf8ByteSize
  location : Location.ofOffset? source.toList place = some e.location
  excerpt : IsExcerpt (dropBytes place source.toList) e.excerpt.toList
  start_boundary : IsBoundary source.toList start
  start_le : start ≤ place
  start_lt : start < source.utf8ByteSize
  reaches : Program.Reaches source.utf8ByteSize source.toList before (dropBytes start source.toList)
  rejects : Program.Rejects (dropBytes start source.toList) (dropBytes place source.toList) e.reason
  parse_before : Program.parse (.ofList (takeBytes start source.toList)) = .ok before

namespace Program

/-- Where the source is cut in front of the statement that failed and where it failed. -/
lemma liesAt_locate {source : String} {read taken unread : List Char} {reason : Reason} {before : Program}
    (hsource : source.toList = read ++ (taken ++ unread)) (hne : taken ++ unread ≠ [])
    (hrun : Reaches source.utf8ByteSize source.toList before (taken ++ unread))
    (hstart : Rejects (taken ++ unread) unread reason) (hnodes : Nodes (byteLength read) read before) :
    (SyntaxError.locate source.toList unread reason).LiesAt source (byteLength (read ++ taken))
      (byteLength read) before := by
  have hplace : source.toList = (read ++ taken) ++ unread := by rw [hsource, List.append_assoc]
  have hunread : dropBytes (byteLength (read ++ taken)) source.toList = unread := by
    rw [hplace, dropBytes_append]
  have hfailed : dropBytes (byteLength read) source.toList = taken ++ unread := by
    rw [hsource, dropBytes_append]
  have hlocate : SyntaxError.locate source.toList unread reason =
      ⟨Location.after ⟨1, 1⟩ (read ++ taken), reason, SyntaxError.excerptOf unread⟩ := by
    rw [hplace, SyntaxError.locate_of_append]
  have hsize : source.utf8ByteSize = byteLength read + byteLength (taken ++ unread) := by
    rw [← byteLength_toList, hsource, byteLength_append]
  rw [hlocate]
  constructor
  case place_boundary => exact ⟨_, _, hplace, rfl⟩
  case place_le =>
    simp only [byteLength_append] at hsize ⊢
    omega
  case location => rw [hplace, Location.ofOffset?_append]
  case excerpt =>
    rw [hunread]
    exact SyntaxError.isExcerpt_excerptOf unread
  case start_boundary => exact ⟨_, _, hsource, rfl⟩
  case start_le => simp
  case start_lt =>
    have hpos := byteLength_pos hne
    omega
  case reaches => rwa [hfailed]
  case rejects => rwa [hfailed, hunread]
  case parse_before =>
    rw [hsource, takeBytes_append, parse_eq_ok, ← byteLength_toList, String.toList_ofList]
    exact hnodes

/-- Syntax errors point into the source. Every error lies at a place of the source, inside of the first
statement that cannot be read, and the text before this statement is a program with the nodes that have been
read. Line and column increase strictly over the places of a text, so that they tell where the error lies. -/
theorem parse_error_place (source : String) :
    (∀ e, parse source = .error e → ∃ place start before, e.LiesAt source place start before ∧
      ∀ other, IsBoundary source.toList other →
        Location.ofOffset? source.toList other = some e.location → other = place) ∧
    ∀ a b, IsBoundary source.toList a → IsBoundary source.toList b → a < b →
      ∃ l m, Location.ofOffset? source.toList a = some l ∧
        Location.ofOffset? source.toList b = some m ∧ l < m := by
  refine ⟨fun e he => ?_, fun a b ha hb => ha.ofOffset?_lt hb⟩
  obtain ⟨unread, reason, herror, rfl⟩ := parse_eq_error.mp he
  have hsize := byteLength_toList source
  obtain ⟨before, start, hrun, hne, hstart⟩ := (parseAt_eq_error (by rw [Nat.zero_add, hsize])).mp herror
  obtain ⟨read, hsource, hnodes⟩ := hrun.cut
  obtain ⟨taken, rfl⟩ := hstart.suffix
  rw [← hsize, hsource, byteLength_append, Nat.add_sub_cancel] at hnodes
  have hlies := liesAt_locate hsource hne hrun hstart hnodes
  exact ⟨_, _, before, hlies, fun other hother h =>
    hother.eq_of_ofOffset?_eq hlies.place_boundary h hlies.location⟩

/-- A comment with a letter of two bytes, a label, and operands in no form of their mnemonic. -/
theorem parse_error_place_operands :
    parse "; é\nend:\n  mov $1, ?" = .error ⟨⟨3, 7⟩, ⟨.operands "mov", none⟩, "$1, ?"⟩ ∧
      ∃ start before, SyntaxError.LiesAt ⟨⟨3, 7⟩, ⟨.operands "mov", none⟩, "$1, ?"⟩
        "; é\nend:\n  mov $1, ?" 16 start before := by
  have herror : parse "; é\nend:\n  mov $1, ?" = .error ⟨⟨3, 7⟩, ⟨.operands "mov", none⟩, "$1, ?"⟩ := by
    decide +kernel
  obtain ⟨place, start, before, hlies, hplace⟩ := (parse_error_place _).1 _ herror
  have hboundary : IsBoundary "; é\nend:\n  mov $1, ?".toList 16 :=
    ⟨"; é\nend:\n  mov ".toList, "$1, ?".toList, by decide +kernel, by decide +kernel⟩
  obtain rfl := hplace 16 hboundary (by decide +kernel)
  exact ⟨herror, start, before, hlies⟩

end Program
end Machine16
