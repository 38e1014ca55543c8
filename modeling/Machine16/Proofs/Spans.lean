import Machine16.Proofs.CutTexts

/-! The spans of the nodes tile the source of a program. Between them there are only blanks and comments,
and the text under a span is the text of its node alone. -/
namespace Machine16

/-- Blanks, line breaks and comments. A comment ends with its line. -/
inductive Trivia : List Char → Prop
  | nil : Trivia []
  | blank {c cs} (mem : c ∈ [' ', '\t', '\r', '\n']) (tail : Trivia cs) : Trivia (c :: cs)
  | comment {text cs} (line : '\n' ∉ text) (later : LaterLines cs) (tail : Trivia cs) :
      Trivia (';' :: (text ++ cs))

/-- The text under a span. -/
def Span.slice (s : Span) (cs : List Char) : List Char :=
  takeBytes (s.stop - s.start) (dropBytes s.start cs)

lemma Span.slice_append (before cs after : List Char) :
    slice ⟨byteLength before, byteLength (before ++ cs)⟩ (before ++ (cs ++ after)) = cs := by
  rw [slice, dropBytes_append, byteLength_append, Nat.add_sub_cancel_left, takeBytes_append]

lemma byteLength_pos {cs : List Char} (h : cs ≠ []) : 0 < byteLength cs := by
  cases cs with
  | nil => exact absurd rfl h
  | cons c cs =>
    rw [byteLength_cons]
    exact Nat.add_pos_left c.utf8Size_pos _

namespace Grammar

lemma mem_of_isBlank {c : Char} (h : isBlank c = true) : c ∈ [' ', '\t', '\r', '\n'] := by
  simpa [isBlank, isSpace, or_assoc] using h

/-- What is skipped are blanks and comments, the first of which may have begun before. -/
lemma trivia_skipTrivia (inComment : Bool) (cs : List Char) :
    ∃ gap, cs = gap ++ skipTrivia inComment cs ∧ Trivia (if inComment then ';' :: gap else gap) := by
  induction cs generalizing inComment with
  | nil =>
    refine ⟨[], rfl, ?_⟩
    cases inComment with
    | false => exact .nil
    | true => exact .comment List.not_mem_nil trivial .nil
  | cons c cs ih =>
    rw [skipTrivia]
    split_ifs with hcomment hblank hstart
    · obtain ⟨gap, hgap, htrivia⟩ := ih (c != '\n')
      refine ⟨c :: gap, congrArg (c :: ·) hgap, ?_⟩
      by_cases hc : c = '\n'
      · subst hc
        exact .comment List.not_mem_nil rfl (.blank (by simp) htrivia)
      · rw [if_pos (bne_iff_ne.mpr hc)] at htrivia
        -- the character belongs to the same comment as the text behind it
        cases htrivia with
        | blank mem _ => simp at mem
        | @comment text cs line later tail =>
          exact .comment (List.not_mem_cons_of_ne_of_not_mem (Ne.symm hc) line) later tail
    · obtain ⟨gap, hgap, htrivia⟩ := ih false
      exact ⟨c :: gap, congrArg (c :: ·) hgap, .blank (mem_of_isBlank hblank) htrivia⟩
    · obtain ⟨gap, hgap, htrivia⟩ := ih true
      rw [eq_of_beq hstart]
      exact ⟨';' :: gap, congrArg (';' :: ·) hgap, htrivia⟩
    · exact ⟨[], rfl, .nil⟩

lemma stops_skipTrivia (inComment : Bool) (cs : List Char) : Stops isTrivia (skipTrivia inComment cs) := by
  induction cs generalizing inComment with
  | nil => exact stops_nil isTrivia
  | cons c cs ih =>
    rw [skipTrivia]
    split_ifs with hcomment hblank hstart
    · exact ih _
    · exact ih false
    · exact ih true
    · rw [Bool.not_eq_true] at hblank hstart
      rw [stops_cons, isTrivia, hblank, hstart, Bool.or_false]

end Grammar

namespace Program

open Grammar

/-- A text that holds a statement and nothing else. -/
structure Alone (text : List Char) (s : Statement) : Prop where
  nonempty : text ≠ []
  start : Stops isTrivia text
  read : statement text = .done s []

/-- The text `cs` behind the text `before`, cut into gaps and the texts of the nodes. -/
inductive Tiled : List Char → List Char → Program → Prop
  | nil {before cs} (gap : Trivia cs) : Tiled before cs []
  | cons {before gap text rest s p} (trivia : Trivia gap) (alone : Alone text s)
      (tail : Tiled (before ++ (gap ++ text)) rest p) :
      Tiled before (gap ++ (text ++ rest))
        (⟨s, byteLength (before ++ gap), byteLength (before ++ (gap ++ text))⟩ :: p)

/-- The spans before, between and behind the nodes of a text that ends at `stop`. -/
def gaps (stop start : Nat) : Program → List Span
  | [] => [⟨start, stop⟩]
  | n :: p => ⟨start, n.span.start⟩ :: gaps stop n.span.stop p

lemma Alone.parse {text : List Char} {s : Statement} (h : Alone text s) :
    Program.parse (String.ofList text) = .ok [⟨s, 0, byteLength text⟩] := by
  have hnodes : Nodes (byteLength text) text [⟨s, byteLength text - byteLength text, byteLength text - 0⟩] :=
    .cons (skipTrivia_of_stops h.start) h.read (.nil rfl)
  rw [Nat.sub_self, Nat.sub_zero] at hnodes
  rw [parse_eq_ok, ← byteLength_toList, String.toList_ofList]
  exact hnodes

/-- What is read node by node is cut into tiles, where each node has the text that its own parser took. -/
lemma Nodes.tiled {stop : Nat} {cs : List Char} {p : Program} (h : Nodes stop cs p) {before : List Char}
    (hstop : byteLength before + byteLength cs = stop) : Tiled before cs p := by
  induction h generalizing before with
  | @nil cs start =>
    obtain ⟨gap, hgap, htrivia⟩ := trivia_skipTrivia false cs
    rw [start, List.append_nil] at hgap
    exact .nil (hgap ▸ htrivia)
  | @cons cs start s unread p start_eq read _ ih =>
    obtain ⟨gap, hgap, htrivia⟩ := trivia_skipTrivia false cs
    have hstart := stops_skipTrivia false cs
    rw [start_eq] at hgap hstart
    obtain ⟨text, htext⟩ : unread <:+ start := by
      have hlocal := local_statement start
      rwa [read] at hlocal
    subst htext hgap
    have hread : statement text = .done s [] :=
      (cuts_statement (P := fun _ => True)).cut text s [] unread read trivial
    have halone : Alone text s := by
      refine ⟨?_, hstart.of_append, hread⟩
      rintro rfl
      exact absurd (progresses_statement _ _ _ hread) (Nat.not_lt_zero _)
    simp only [byteLength_append] at hstop
    have hfirst : stop - byteLength (text ++ unread) = byteLength (before ++ gap) := by
      simp only [byteLength_append]
      omega
    have hlast : stop - byteLength unread = byteLength (before ++ (gap ++ text)) := by
      simp only [byteLength_append]
      omega
    rw [hfirst, hlast]
    refine .cons htrivia halone (ih ?_)
    simp only [byteLength_append]
    omega

namespace Tiled

variable {before cs : List Char} {p : Program}

lemma le_start (h : Tiled before cs p) : ∀ n ∈ p, byteLength before ≤ n.span.start := by
  induction h with
  | nil => exact fun _ hn => absurd hn List.not_mem_nil
  | cons _ _ _ ih =>
    refine List.forall_mem_cons.mpr ⟨?_, fun n hn => ?_⟩
    · simp
    · have hle := ih n hn
      rw [byteLength_append] at hle
      omega

lemma pairwise (h : Tiled before cs p) : p.Pairwise fun m n => m.span.stop ≤ n.span.start := by
  induction h with
  | nil => exact .nil
  | cons _ _ tail ih => exact .cons tail.le_start ih

/-- Around a node the text is cut where its span begins and ends. -/
lemma split (h : Tiled before cs p) : ∀ n ∈ p, ∃ pre text post, before ++ cs = pre ++ (text ++ post) ∧
    n.span = ⟨byteLength pre, byteLength (pre ++ text)⟩ ∧ Alone text n.statement := by
  induction h with
  | nil => exact fun _ hn => absurd hn List.not_mem_nil
  | @cons before gap text rest s p _ alone _ ih =>
    refine List.forall_mem_cons.mpr ⟨⟨before ++ gap, text, rest, ?_, ?_, alone⟩, fun n hn => ?_⟩
    · rw [List.append_assoc]
    · rw [List.append_assoc]
    · obtain ⟨pre, own, post, hsplit, hn⟩ := ih n hn
      refine ⟨pre, own, post, ?_, hn⟩
      rw [← hsplit]
      simp only [List.append_assoc]

/-- Spans begin and end between characters. -/
lemma isBoundary (h : Tiled before cs p) : ∀ n ∈ p,
    IsBoundary (before ++ cs) n.span.start ∧ IsBoundary (before ++ cs) n.span.stop := by
  intro n hn
  obtain ⟨pre, text, post, hsplit, hspan, -⟩ := h.split n hn
  rw [hsplit, hspan]
  exact ⟨⟨pre, text ++ post, rfl, rfl⟩, ⟨pre ++ text, post, by rw [List.append_assoc], rfl⟩⟩

lemma trivia_gaps (h : Tiled before cs p) :
    ∀ gap ∈ gaps (byteLength (before ++ cs)) (byteLength before) p, Trivia (gap.slice (before ++ cs)) := by
  induction h with
  | @nil before cs gap =>
    refine List.forall_mem_singleton.mpr ?_
    have hslice := Span.slice_append before cs []
    rw [List.append_nil] at hslice
    rwa [hslice]
  | @cons before gap text rest s p trivia _ _ ih =>
    have htext : before ++ (gap ++ (text ++ rest)) = before ++ (gap ++ text) ++ rest := by
      simp only [List.append_assoc]
    refine List.forall_mem_cons.mpr ⟨?_, htext ▸ ih⟩
    rwa [Span.slice_append]

end Tiled

lemma tiled_of_parse {source : String} {p : Program} (h : parse source = .ok p) :
    Tiled [] source.toList p :=
  (parse_eq_ok.mp h).tiled (by simp [byteLength_toList])

lemma fits_of_parse {source : String} {p : Program} (h : parse source = .ok p) :
    ∀ n ∈ p, n.span.Fits source.toList := by
  intro n hn
  obtain ⟨hstart, hstop⟩ := (tiled_of_parse h).isBoundary n hn
  exact ⟨hstart.min_byteLength, hstop.min_byteLength⟩

/-- The spans of the nodes tile the source. No span is empty, each of them lies in the source and begins
and ends between characters, and they follow each other without overlap. The text between them, before
the first and behind the last are blanks and comments. The text under a span can be read on its own, as
the one node of that span. -/
theorem spans_tile {source : String} {p : Program} (h : parse source = .ok p) :
    (∀ n ∈ p, n.span.start < n.span.stop ∧ n.span.stop ≤ source.utf8ByteSize ∧
      IsBoundary source.toList n.span.start ∧ IsBoundary source.toList n.span.stop) ∧
    p.Pairwise (fun m n => m.span.stop ≤ n.span.start) ∧
    (∀ gap ∈ gaps source.utf8ByteSize 0 p, Trivia (gap.slice source.toList)) ∧
    ∀ n ∈ p, ∃ text : String, text.toList = n.span.slice source.toList ∧
      text.utf8ByteSize = n.span.stop - n.span.start ∧
      parse text = .ok [⟨n.statement, 0, text.utf8ByteSize⟩] := by
  have hbytes := byteLength_toList source
  have htiled := tiled_of_parse h
  have hgaps := htiled.trivia_gaps
  rw [List.nil_append, hbytes] at hgaps
  refine ⟨fun n hn => ?_, htiled.pairwise, hgaps, fun n hn => ?_⟩
  · obtain ⟨pre, text, post, hsource, hspan, halone⟩ := htiled.split n hn
    rw [List.nil_append] at hsource
    have hpos := byteLength_pos halone.nonempty
    have hboundary := htiled.isBoundary n hn
    rw [hspan] at hboundary ⊢
    refine ⟨?_, ?_, hboundary⟩
    · simpa using hpos
    · rw [← hbytes, hsource]
      simp only [byteLength_append]
      omega
  · obtain ⟨pre, text, post, hsource, hspan, halone⟩ := htiled.split n hn
    rw [List.nil_append] at hsource
    have hsize : (String.ofList text).utf8ByteSize = byteLength text := by
      rw [← byteLength_toList, String.toList_ofList]
    refine ⟨String.ofList text, ?_, ?_, ?_⟩
    · rw [hsource, hspan, Span.slice_append, String.toList_ofList]
    · rw [hsize, hspan, byteLength_append, Nat.add_sub_cancel_left]
    · rw [hsize, halone.parse]

theorem spans_tile_sample :
    parse "hlt ; stop\nend:" = .ok [⟨.instruction ⟨.hlt, []⟩, 0, 3⟩, ⟨.label "end", 11, 15⟩] ∧
      Trivia " ; stop\n".toList ∧ parse "end:" = .ok [⟨.label "end", 0, 4⟩] := by
  have h : parse "hlt ; stop\nend:" = .ok [⟨.instruction ⟨.hlt, []⟩, 0, 3⟩, ⟨.label "end", 11, 15⟩] := by
    decide +kernel
  obtain ⟨-, -, htrivia, halone⟩ := spans_tile h
  obtain ⟨text, htext, -, hparse⟩ := halone ⟨.label "end", 11, 15⟩ (by simp)
  obtain rfl : text = "end:" := String.toList_inj.mp (htext.trans (by decide +kernel))
  exact ⟨h, htrivia ⟨3, 11⟩ (by simp [gaps]), hparse⟩

end Program
end Machine16
