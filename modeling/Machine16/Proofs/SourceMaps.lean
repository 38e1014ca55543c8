import Mathlib.Data.List.Induction
import Machine16.Assembly.SourceMap
import Machine16.Proofs.Layout
import Machine16.Proofs.Spans

/-! Source maps name the node that every byte comes from. Where a program of more than 64 KiB wraps around,
an address has several bytes, and the map has the node of the last one. -/
namespace Machine16

/-- Of the bytes with the numbers below `n`, the last one that comes to lie at `address` has number `k`. -/
def LastAt (n : Nat) (address : Word) (k : Nat) : Prop :=
  k < n ∧ UInt16.ofNat k = address ∧ ∀ j, k < j → j < n → UInt16.ofNat j ≠ address

lemma lastAt_succ {n : Nat} {address : Word} {k : Nat} : LastAt (n + 1) address k ↔
    k = n ∧ UInt16.ofNat n = address ∨ UInt16.ofNat n ≠ address ∧ LastAt n address k := by
  constructor
  · rintro ⟨hk, haddress, hlast⟩
    by_cases hn : k = n
    · exact .inl ⟨hn, hn ▸ haddress⟩
    · exact .inr ⟨hlast n (by omega) (by omega), by omega, haddress, fun j hkj hj => hlast j hkj (by omega)⟩
  · rintro (⟨rfl, haddress⟩ | ⟨hn, hk, haddress, hlast⟩)
    · exact ⟨by omega, haddress, fun j hkj hj => absurd hkj (by omega)⟩
    · refine ⟨by omega, haddress, fun j hkj hj => ?_⟩
      by_cases hjn : j = n
      · exact hjn ▸ hn
      · exact hlast j hkj (by omega)

namespace SourceMap

variable {α : Type}

section

variable {text : List Char} {m : SourceMap Span} {lines : SourceMap LineSpan}

lemma lines?_eq_none :
    m.lines? text = none ↔ ∃ address span, m.get? address = some span ∧ ¬ span.Fits text := by
  simp only [lines?, ite_eq_right_iff, reduceCtorEq, imp_false, Bool.not_eq_true, get?,
    Std.HashMap.all_eq_false_iff_exists_mem_getElem, Option.isSome_eq_false_iff, Option.isNone_iff_eq_none,
    Span.lines?_eq_none, getElem?_eq_some_iff]
  constructor
  · rintro ⟨address, hmem, hfits⟩
    exact ⟨address, _, ⟨hmem, rfl⟩, hfits⟩
  · rintro ⟨address, _, ⟨hmem, rfl⟩, hfits⟩
    exact ⟨address, hmem, hfits⟩

variable (h : m.lines? text = some lines)
include h

lemma get?_lines (address : Word) : lines.get? address = (m.get? address).bind (Span.lines? text) := by
  rw [lines?] at h
  split_ifs at h
  cases h
  exact Std.HashMap.getElem?_filterMap'

lemma size_lines : lines.size = m.size := by
  rw [lines?] at h
  split_ifs at h with hall
  cases h
  rw [Std.HashMap.all_eq_true_iff_forall_mem_getElem] at hall
  exact Std.HashMap.size_filterMap_eq_size_iff.mpr hall

lemma get?_lines_eq_some {address : Word} {l : LineSpan} : lines.get? address = some l ↔
    ∃ span, m.get? address = some span ∧ l.start.IsAt text span.start ∧ l.stop.IsAt text span.stop := by
  rw [get?_lines h, Option.bind_eq_some_iff]
  simp only [Span.lines?_eq_some]

lemma get?_lines_eq_none {address : Word} : lines.get? address = none ↔ m.get? address = none := by
  rw [get?_lines h, Option.bind_eq_none_iff]
  constructor
  · intro hnone
    by_contra hsome
    obtain ⟨span, hspan⟩ := Option.ne_none_iff_exists'.mp hsome
    have hlines : m.lines? text = none :=
      lines?_eq_none.mpr ⟨address, span, hspan, Span.lines?_eq_none.mp (hnone span hspan)⟩
    cases hlines.symm.trans h
  · intro hnone span hspan
    cases hnone.symm.trans hspan

end

lemma get?_ofList_concat (es : List (Word × α)) (e : Word × α) (address : Word) :
    (ofList (es ++ [e])).get? address = if e.1 = address then some e.2 else (ofList es).get? address := by
  simp only [ofList, get?, List.foldl_append, List.foldl_cons, List.foldl_nil, Std.HashMap.getElem?_insert,
    beq_iff_eq]

lemma size_ofList_concat (es : List (Word × α)) (e : Word × α) : (ofList (es ++ [e])).size =
    if (ofList es).get? e.1 = none then (ofList es).size + 1 else (ofList es).size := by
  simp only [ofList, size, get?, List.foldl_append, List.foldl_cons, List.foldl_nil, Std.HashMap.size_insert,
    getElem?_eq_none_iff, ite_not]

/-- The entries for bytes that come from `spans`, if there are `start` bytes before them. -/
def numbered (start : Nat) (spans : List α) : List (Word × α) :=
  (spans.zipIdx start).map fun e => (UInt16.ofNat e.2, e.1)

lemma numbered_append (start : Nat) (spans spans' : List α) :
    numbered start (spans ++ spans') = numbered start spans ++ numbered (start + spans.length) spans' := by
  rw [numbered, List.zipIdx_append, List.map_append]
  rfl

lemma numbered_concat (spans : List α) (span : α) :
    numbered 0 (spans ++ [span]) = numbered 0 spans ++ [(UInt16.ofNat spans.length, span)] := by
  rw [numbered_append, Nat.zero_add]
  rfl

lemma get?_numbered {spans : List α} {address : Word} {span : α} :
    (ofList (numbered 0 spans)).get? address = some span ↔
      ∃ k, LastAt spans.length address k ∧ spans[k]? = some span := by
  induction spans using List.reverseRecOn with
  | nil => simp [numbered, ofList, get?]
  | append_singleton spans s ih =>
    rw [numbered_concat, get?_ofList_concat, List.length_append, List.length_singleton]
    simp only [lastAt_succ]
    by_cases hs : UInt16.ofNat spans.length = address
    · simp [hs]
    · rw [if_neg hs, ih]
      constructor
      · rintro ⟨k, hk, hspan⟩
        exact ⟨k, .inr ⟨hs, hk⟩, by rw [List.getElem?_append_left hk.1, hspan]⟩
      · rintro ⟨k, ⟨-, hs'⟩ | ⟨-, hk⟩, hspan⟩
        · exact absurd hs' hs
        · exact ⟨k, hk, by rwa [List.getElem?_append_left hk.1] at hspan⟩

lemma get?_numbered_eq_none {spans : List α} {address : Word} :
    (ofList (numbered 0 spans)).get? address = none ↔ ∀ k < spans.length, UInt16.ofNat k ≠ address := by
  induction spans using List.reverseRecOn with
  | nil => simp [numbered, ofList, get?]
  | append_singleton spans s ih =>
    rw [numbered_concat, get?_ofList_concat, List.length_append, List.length_singleton,
      Nat.forall_lt_succ_right, ← ih]
    by_cases hs : UInt16.ofNat spans.length = address
    · simp [hs]
    · simp [hs]

lemma ofNat_eq_ofNat {k n : Nat} : UInt16.ofNat k = UInt16.ofNat n ↔ k % 0x10000 = n % 0x10000 := by
  rw [← UInt16.toNat_inj, UInt16.toNat_ofNat', UInt16.toNat_ofNat']

/-- Addresses start over after 64 KiB. -/
lemma forall_ofNat_ne_iff {n : Nat} : (∀ k < n, UInt16.ofNat k ≠ UInt16.ofNat n) ↔ n < 0x10000 := by
  constructor
  · intro h
    by_contra hn
    exact h (n - 0x10000) (by omega) (ofNat_eq_ofNat.mpr (by omega))
  · intro hn k hk heq
    have hmod := ofNat_eq_ofNat.mp heq
    omega

lemma exists_ofNat_eq_iff {n : Nat} (hn : n ≤ 0x10000) (address : Word) :
    (∃ k < n, UInt16.ofNat k = address) ↔ address.toNat < n := by
  constructor
  · rintro ⟨k, hk, rfl⟩
    rw [UInt16.toNat_ofNat']
    omega
  · intro h
    exact ⟨address.toNat, h, UInt16.ofNat_toNat⟩

lemma size_numbered (spans : List α) : (ofList (numbered 0 spans)).size = min spans.length 0x10000 := by
  induction spans using List.reverseRecOn with
  | nil => rfl
  | append_singleton spans s ih =>
    rw [numbered_concat, size_ofList_concat, ih, List.length_append, List.length_singleton]
    simp only [get?_numbered_eq_none, forall_ofNat_ne_iff]
    split_ifs <;> omega

end SourceMap

namespace Program

/-- The second pass emits byte `k` of the program for the node `n`, and it is `b`. -/
inductive Emits (scope : Scope) : Program → Nat → Node → Byte → Prop
  | here {n p bytes k b} (encoded : n.statement.encode scope = .ok (some bytes)) (byte : bytes[k]? = some b) :
      Emits scope (n :: p) k n b
  | later {n p out k m b} (encoded : n.statement.encode scope = .ok out) (tail : Emits scope p k m b) :
      Emits scope (n :: p) ((out.getD []).length + k) m b

end Program

namespace Chunk

/-- For every byte of the chunks the span of its node. -/
def owners (cs : List Chunk) : List Span := cs.flatMap fun c => List.replicate c.bytes.length c.span

lemma owners_append (cs cs' : List Chunk) : owners (cs ++ cs') = owners cs ++ owners cs' :=
  List.flatMap_append

/-- The entries of a source map for the bytes of a chunk. -/
def entries (c : Chunk) : List (Word × Span) :=
  (List.range c.bytes.length).map fun i => (c.address + UInt16.ofNat i, c.span)

lemma entries_eq_numbered {c : Chunk} {offset : Nat} (h : c.address = UInt16.ofNat offset) :
    c.entries = SourceMap.numbered offset (List.replicate c.bytes.length c.span) := by
  apply List.ext_getElem
  · simp [entries, SourceMap.numbered]
  · intro i hi hi'
    simp [entries, SourceMap.numbered, h, UInt16.ofNat_add]

lemma length_owners (cs : List Chunk) : (owners cs).length = (cs.flatMap Chunk.bytes).length := by
  simp [owners, List.length_flatMap]

end Chunk

variable {scope : Scope} {p : Program} {cs : List Chunk} {address : Word} {k : Nat} {n : Node} {b : Byte}

/-- The chunk of a statement, if there is one, holds its bytes, all of which belong to it. -/
lemma chunk_toList (out : Option (List Byte)) (span : Span) (address : Word) :
    (out.toList.map (Chunk.mk span address)).flatMap Chunk.bytes = out.getD [] ∧
      Chunk.owners (out.toList.map (Chunk.mk span address)) = List.replicate (out.getD []).length span := by
  cases out with
  | none => exact ⟨rfl, rfl⟩
  | some bytes => simp [Chunk.owners]

namespace Program.Emits

lemma mem (h : p.Emits scope k n b) : n ∈ p := by
  induction h with
  | here => exact List.mem_cons_self
  | later _ _ ih => exact List.mem_cons_of_mem _ ih

lemma getElem? (h : p.Emits scope k n b) (hp : Program.encode scope address p = .ok cs) :
    (cs.flatMap Chunk.bytes)[k]? = some b ∧ (Chunk.owners cs)[k]? = some n.span := by
  induction h generalizing address cs with
  | @here n p bytes k b encoded byte =>
    obtain ⟨out, rest, hout, rfl, -⟩ := Program.encode_cons_eq_ok hp
    cases hout.symm.trans encoded
    obtain ⟨hbytes, howners⟩ := chunk_toList (some bytes) n.span address
    obtain ⟨hk, -⟩ := List.getElem?_eq_some_iff.mp byte
    rw [List.flatMap_append, Chunk.owners_append, hbytes, howners, Option.getD_some,
      List.getElem?_append_left hk, List.getElem?_append_left (by simpa using hk), List.getElem?_replicate]
    exact ⟨byte, if_pos hk⟩
  | @later n p out k m b encoded _ ih =>
    obtain ⟨out', rest, hout, rfl, hrest⟩ := Program.encode_cons_eq_ok hp
    cases hout.symm.trans encoded
    obtain ⟨hbytes, howners⟩ := chunk_toList out n.span address
    rw [List.flatMap_append, Chunk.owners_append, hbytes, howners, List.getElem?_append_right (by simp),
      List.getElem?_append_right (by simp), List.length_replicate, Nat.add_sub_cancel_left]
    exact ih hrest

end Program.Emits

/-- Every byte has been emitted for a node. -/
lemma Program.exists_emits (hp : Program.encode scope address p = .ok cs)
    (hk : k < (cs.flatMap Chunk.bytes).length) : ∃ n b, p.Emits scope k n b := by
  induction p generalizing address cs k with
  | nil =>
    cases hp
    cases hk
  | cons n p ih =>
    obtain ⟨out, rest, hout, rfl, hrest⟩ := Program.encode_cons_eq_ok hp
    rw [List.flatMap_append, (chunk_toList out n.span address).1, List.length_append] at hk
    by_cases hhere : k < (out.getD []).length
    · cases out with
      | none => cases hhere
      | some bytes => exact ⟨n, bytes[k], .here hout (List.getElem?_eq_getElem hhere)⟩
    · obtain ⟨m, b, hm⟩ := ih (k := k - (out.getD []).length) hrest (by omega)
      have hlater := Program.Emits.later hout hm
      rw [Nat.add_sub_cancel' (by omega)] at hlater
      exact ⟨m, b, hlater⟩

lemma Program.getElem?_bytes (hp : Program.encode scope address p = .ok cs) :
    (cs.flatMap Chunk.bytes)[k]? = some b ↔ ∃ n, p.Emits scope k n b := by
  constructor
  · intro h
    obtain ⟨hk, -⟩ := List.getElem?_eq_some_iff.mp h
    obtain ⟨n, b', hn⟩ := Program.exists_emits hp hk
    cases (hn.getElem? hp).1.symm.trans h
    exact ⟨n, hn⟩
  · rintro ⟨n, hn⟩
    exact (hn.getElem? hp).1

lemma Program.getElem?_owners (hp : Program.encode scope address p = .ok cs) {span : Span} :
    (Chunk.owners cs)[k]? = some span ↔ ∃ n b, p.Emits scope k n b ∧ n.span = span := by
  constructor
  · intro h
    obtain ⟨hk, -⟩ := List.getElem?_eq_some_iff.mp h
    rw [Chunk.length_owners] at hk
    obtain ⟨n, b, hn⟩ := Program.exists_emits hp hk
    cases (hn.getElem? hp).2.symm.trans h
    exact ⟨n, b, hn, rfl⟩
  · rintro ⟨n, b, hn, rfl⟩
    exact (hn.getElem? hp).2

/-- The entries of the chunks number the bytes through, modulo 64 KiB. -/
lemma Layout.entries {offset : Nat} (h : Layout scope offset p cs) :
    cs.flatMap Chunk.entries = SourceMap.numbered offset (Chunk.owners cs) := by
  induction h with
  | nil => rfl
  | @cons offset n p here rest laid _ ih =>
    have hhere : here.flatMap Chunk.entries = SourceMap.numbered offset (Chunk.owners here) := by
      cases laid with
      | label _ | constant | struct => rfl
      | data _ | instruction _ _ =>
        simp only [Chunk.owners, List.flatMap_singleton]
        exact Chunk.entries_eq_numbered rfl
    rw [List.flatMap_append, Chunk.owners_append, SourceMap.numbered_append, hhere, ih, Chunk.length_owners]

lemma compileMapped_eq_error {e : CompileError} : p.compileMapped = .error e ↔ p.compile = .error e := by
  rw [Program.compileMapped, Program.compile]
  cases p.chunks with
  | error e' =>
    constructor
    · intro h
      cases h
      rfl
    · intro h
      cases h
      rfl
  | ok cs =>
    constructor
    · intro h
      cases h
    · intro h
      cases h

/-- A program is compiled with its source map exactly if it is compiled without, to the same bytes or with
the same error. The map has for every address the span of the node that the last byte at this address has
been emitted for, and nothing where there is no byte. In a program that fits into memory every byte has an
entry of its own. Lines instead of offsets leave the addresses as they are, and every span begins and ends
at its own places in the text. They exist unless a span begins or ends inside of a character, which no span
does in the source that the program has been read from. -/
theorem compile_sources (p : Program) :
    (∀ e, p.compileMapped = .error e ↔ p.compile = .error e) ∧
    ∀ bytes, p.compile = .ok bytes → ∃ scope map, Scope.ofProgram p = .ok scope ∧
      p.compileMapped = .ok (bytes, map) ∧ p.sourceMap = .ok map ∧
      (∀ k b, bytes[k]? = some b ↔ ∃ n, p.Emits scope k n b) ∧
      (∀ address span, map.get? address = some span ↔
        ∃ k n b, LastAt bytes.length address k ∧ p.Emits scope k n b ∧ n.span = span) ∧
      (∀ address, map.get? address = none ↔ ∀ k < bytes.length, UInt16.ofNat k ≠ address) ∧
      (bytes.length ≤ 0x10000 →
        (∀ address, (map.get? address).isSome ↔ address.toNat < bytes.length) ∧
        ∀ k n b, p.Emits scope k n b → map.get? (UInt16.ofNat k) = some n.span) ∧
      map.size = min bytes.length 0x10000 ∧
      (∀ text, (map.lines? text = none ↔ ∃ address span, map.get? address = some span ∧ ¬ span.Fits text) ∧
        ∀ lines, map.lines? text = some lines → lines.size = map.size ∧ ∀ address,
          (lines.get? address = none ↔ map.get? address = none) ∧
          ∀ l, lines.get? address = some l ↔ ∃ span, map.get? address = some span ∧
            l.start.IsAt text span.start ∧ l.stop.IsAt text span.stop) ∧
      ∀ source, Program.parse source = .ok p → ∃ lines, map.lines? source.toList = some lines := by
  refine ⟨fun e => compileMapped_eq_error, fun bytes h => ?_⟩
  obtain ⟨scope, cs, hs, hencode, rfl⟩ := compile_eq_ok.mp h
  obtain ⟨hlayout, -⟩ := layout_of_passes (show ({} : Scope).address = UInt16.ofNat 0 from rfl) hs hencode
  have hchunks : p.chunks = .ok cs := bind_eq_ok.mpr ⟨scope, hs, hencode⟩
  have hmap : SourceMap.ofChunks cs = .ofList (SourceMap.numbered 0 (Chunk.owners cs)) :=
    congrArg SourceMap.ofList hlayout.entries
  have hget {address : Word} {span : Span} : (SourceMap.ofChunks cs).get? address = some span ↔
      ∃ k n b, LastAt (cs.flatMap Chunk.bytes).length address k ∧ p.Emits scope k n b ∧ n.span = span := by
    rw [hmap, SourceMap.get?_numbered, Chunk.length_owners]
    simp only [Program.getElem?_owners hencode, exists_and_left]
  have hnone {address : Word} : (SourceMap.ofChunks cs).get? address = none ↔
      ∀ k < (cs.flatMap Chunk.bytes).length, UInt16.ofNat k ≠ address := by
    rw [hmap, SourceMap.get?_numbered_eq_none, Chunk.length_owners]
  have hmapped : p.compileMapped = .ok (cs.flatMap Chunk.bytes, .ofChunks cs) :=
    bind_eq_ok.mpr ⟨cs, hchunks, rfl⟩
  refine ⟨scope, .ofChunks cs, hs, hmapped, ?_, fun k b => ?_, fun _ _ => hget,
    fun _ => hnone, fun hfits => ⟨fun address => ?_, fun k n b hn => ?_⟩, ?_,
    fun text => ⟨SourceMap.lines?_eq_none, fun lines hlines => ⟨SourceMap.size_lines hlines, fun address =>
      ⟨SourceMap.get?_lines_eq_none hlines, fun l => SourceMap.get?_lines_eq_some hlines⟩⟩⟩,
    fun source hsource => ?_⟩
  · rw [Program.sourceMap, hmapped]
    rfl
  · exact Program.getElem?_bytes hencode
  · rw [Option.isSome_iff_ne_none, ne_eq, hnone, ← SourceMap.exists_ofNat_eq_iff hfits]
    push Not
    rfl
  · obtain ⟨hk, -⟩ := List.getElem?_eq_some_iff.mp (hn.getElem? hencode).1
    refine hget.mpr ⟨k, n, b, ⟨hk, rfl, fun j hkj hj heq => ?_⟩, hn, rfl⟩
    have hmod := SourceMap.ofNat_eq_ofNat.mp heq
    omega
  · rw [hmap, SourceMap.size_numbered, Chunk.length_owners]
  · rw [← Option.ne_none_iff_exists', ne_eq, SourceMap.lines?_eq_none]
    rintro ⟨address, span, hspan, hfits⟩
    obtain ⟨k, n, b, -, hn, rfl⟩ := hget.mp hspan
    exact hfits (Program.fits_of_parse hsource n hn.mem)

/-- A comment with a letter of two bytes, a jump, and the label behind it. In another text the jump would
begin inside of a letter. -/
theorem compile_sources_sample : ∃ p map lines,
    Program.parse "; é\n jmp &[!end]\nend: hlt" = .ok p ∧ p.compileMapped = .ok ([0x4A, 0, 3, 0xFF], map) ∧
      map.get? 2 = some ⟨6, 17⟩ ∧ map.get? 4 = none ∧ map.size = 4 ∧
      map.lines? "; é\n jmp &[!end]\nend: hlt".toList = some lines ∧
      lines.get? 2 = some ⟨⟨2, 2⟩, ⟨2, 13⟩⟩ ∧ lines.get? 4 = none ∧ lines.size = 4 ∧
      map.lines? "hlt ;é".toList = none := by
  let p : Program := [⟨.instruction ⟨.jmp, [.address (.symbol "end")]⟩, ⟨6, 17⟩⟩, ⟨.label "end", ⟨18, 22⟩⟩,
    ⟨.instruction ⟨.hlt, []⟩, ⟨23, 26⟩⟩]
  have hparse : Program.parse "; é\n jmp &[!end]\nend: hlt" = .ok p := by decide +kernel
  have hcompile : p.compile = .ok [0x4A, 0, 3, 0xFF] := rfl
  obtain ⟨scope, map, hs, hmap, -, -, -, hnone, hfits, hsize, hlines, hplaces⟩ :=
    (compile_sources p).2 _ hcompile
  cases hs
  have hget : map.get? 2 = some ⟨6, 17⟩ :=
    (hfits (by decide)).2 2 _ 3 (@Program.Emits.here _ _ _ [0x4A, 0, 3] 2 _ rfl rfl)
  have hfour : map.get? 4 = none := (hnone 4).mpr (by decide)
  have hinside : ¬ Span.Fits ⟨6, 17⟩ "hlt ;é".toList := Span.lines?_eq_none.mp (by decide +kernel)
  obtain ⟨lines, hsome⟩ := hplaces _ hparse
  obtain ⟨hcount, haddress⟩ := (hlines _).2 lines hsome
  refine ⟨p, map, lines, hparse, hmap, hget, hfour, hsize, hsome, ?_, (haddress 4).1.mpr hfour,
    hcount.trans hsize, (hlines _).1.mpr ⟨2, _, hget, hinside⟩⟩
  exact ((haddress 2).2 _).mpr ⟨_, hget, Location.ofOffset?_eq_some.mp (by decide +kernel),
    Location.ofOffset?_eq_some.mp (by decide +kernel)⟩

end Machine16
