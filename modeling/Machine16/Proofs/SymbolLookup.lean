import Mathlib.Data.List.Induction
import Machine16.Proofs.ByteOrder
import Machine16.Proofs.Declarations
import Machine16.Proofs.Edits
import Machine16.Proofs.Suggestions

/-! Symbols that are defined one after the other and then looked up. A name has the value of its first
definition. One that has none is answered with the defined name that it is most likely a misspelling of,
and for that the order of the definitions does not matter. -/
namespace Machine16.SymbolTable

open EditDistance (levenshtein)

/-- The table after definitions. One that is refused leaves the table as it is. -/
def ofDefinitions (ds : List (String × Symbol)) : SymbolTable :=
  ds.foldl (fun t d => (t.define d.1 d.2).toOption.getD t) .empty

lemma ofDefinitions_concat (ds : List (String × Symbol)) (name : String) (s : Symbol) :
    ofDefinitions (ds ++ [(name, s)]) =
      ((ofDefinitions ds).define name s).toOption.getD (ofDefinitions ds) :=
  List.foldl_concat ..

section

variable {t : SymbolTable} {name : String}

lemma define_of_contains (h : t.contains name = true) (s : Symbol) :
    t.define name s = .error (.duplicateBinding name s.defined) := by
  have hdefine : t.define? name s = none := dif_pos h
  rw [define, hdefine]

lemma exists_define (h : t.contains name = false) (s : Symbol) :
    ∃ t', t.define name s = .ok t' ∧
      ∀ other, t'.get? other = if name = other then some s else t.get? other := by
  obtain ⟨t', ht', -⟩ := Bindings.define?_of_not_contains h s
  exact ⟨t', by rw [define, ht'], Bindings.get?_define? ht'⟩

end

/-- The first definition of a name counts. -/
lemma get?_ofDefinitions (ds : List (String × Symbol)) (name : String) :
    (ofDefinitions ds).get? name = ds.lookup name := by
  induction ds using List.reverseRecOn with
  | nil => rfl
  | append_singleton ds d ih =>
    obtain ⟨other, s⟩ := d
    rw [ofDefinitions_concat, List.lookup_append, ← ih]
    cases hcontains : (ofDefinitions ds).contains other with
    | true =>
      rw [define_of_contains hcontains]
      change (ofDefinitions ds).get? name = _
      by_cases hname : name = other
      · subst hname
        obtain ⟨s', hs'⟩ := Option.isSome_iff_exists.mp ((Bindings.contains_eq_isSome _ _).symm.trans hcontains)
        rw [hs', Option.some_or]
      · rw [List.lookup_cons, beq_false_of_ne hname]
        simp
    | false =>
      obtain ⟨t, ht, hget⟩ := exists_define hcontains s
      rw [ht]
      change t.get? name = _
      rw [hget]
      split_ifs with hname
      · subst hname
        rw [Bindings.contains_eq_isSome, Option.isSome_eq_false_iff, Option.isNone_iff_eq_none] at hcontains
        simp [hcontains]
      · rw [List.lookup_cons, beq_false_of_ne (Ne.symm hname)]
        simp

lemma mem_names_ofDefinitions {ds : List (String × Symbol)} {name : String} :
    name ∈ (ofDefinitions ds).names ↔ name ∈ ds.map Prod.fst := by
  rw [← Bindings.isSome_get?, get?_ofDefinitions, List.lookup_isSome_iff, List.mem_map]
  exact exists_congr fun d => and_congr_right fun _ => beq_iff_eq.trans eq_comm

/-- Of the names that a misspelled one may stand for, the nearest, and of those the first in the alphabet. -/
structure Corrects (name : String) (names : List String) (c : String) : Prop where
  mem : c ∈ names
  near : levenshtein name.toList c.toList ≤ max 2 (name.utf8ByteSize / 3)
  best : ∀ d ∈ names, levenshtein name.toList c.toList < levenshtein name.toList d.toList ∨
    levenshtein name.toList c.toList = levenshtein name.toList d.toList ∧
      (c = d ∨ ByteLess (utf8Bytes c) (utf8Bytes d))

lemma isNearest_iff_corrects {name c : String} {names : List String} :
    IsNearest name names c ↔ Corrects name names c := by
  have hmeasured (d : String) : measured name d = (levenshtein name.toList d.toList, d) := by
    rw [measured, EditDistance.distance_eq_levenshtein]
  have hprecedes (d : String) : Precedes (measured name c) (measured name d) ↔
      levenshtein name.toList c.toList < levenshtein name.toList d.toList ∨
        levenshtein name.toList c.toList = levenshtein name.toList d.toList ∧
          (c = d ∨ ByteLess (utf8Bytes c) (utf8Bytes d)) := by
    rw [hmeasured, hmeasured, ← le_iff_byteLess]
    rfl
  have hreach (d : String) : (measured name d).1 ≤ reach name ↔
      levenshtein name.toList d.toList ≤ max 2 (name.utf8ByteSize / 3) := by
    rw [hmeasured]
    rfl
  constructor
  · rintro ⟨hmem, hnear, hbest⟩
    refine ⟨hmem, (hreach c).mp hnear, fun d hd => ?_⟩
    by_cases hd' : (measured name d).1 ≤ reach name
    · exact (hprecedes d).mp (hbest d hd hd')
    · -- a name out of reach is farther away than any that is not
      rw [hreach] at hnear hd'
      exact .inl (by omega)
  · rintro ⟨hmem, hnear, hbest⟩
    exact ⟨hmem, (hreach c).mpr hnear, fun d hd _ => (hprecedes d).mpr (hbest d hd)⟩

/-- Names that have been defined have the value of their first definition, and cannot be defined again.
A name that has not been defined is reported with the defined name nearest to it, if one is near enough;
which one this is depends on nothing but what names have been defined. -/
theorem resolve_ofDefinitions (ds : List (String × Symbol)) (name : String) :
    (name ∈ ds.map Prod.fst → ∃ s, ds.lookup name = some s ∧
      (ofDefinitions ds).resolve name = .ok s.value ∧
      ∀ s', (ofDefinitions ds).define name s' = .error (.duplicateBinding name s'.defined) ∧
        ofDefinitions (ds ++ [(name, s')]) = ofDefinitions ds) ∧
    (name ∉ ds.map Prod.fst → ∃ suggestion,
      (ofDefinitions ds).resolve name = .error (.unresolvedSymbol name suggestion) ∧
      (∀ c, suggestion = some c ↔ Corrects name (ds.map Prod.fst) c) ∧
      (suggestion = none ↔ ∀ c ∈ ds.map Prod.fst,
        max 2 (name.utf8ByteSize / 3) < levenshtein name.toList c.toList) ∧
      ∀ ds' : List (String × Symbol), (∀ n, n ∈ ds'.map Prod.fst ↔ n ∈ ds.map Prod.fst) →
        (ofDefinitions ds').resolve name = .error (.unresolvedSymbol name suggestion)) := by
  have hunresolved {ds : List (String × Symbol)} (h : name ∉ ds.map Prod.fst) :
      (ofDefinitions ds).resolve name =
        .error (.unresolvedSymbol name (nearest? name (ds.map Prod.fst))) := by
    have hget : (ofDefinitions ds).get? name = none := by
      rw [← Option.not_isSome_iff_eq_none, Bindings.isSome_get?, mem_names_ofDefinitions]
      exact h
    rw [resolve, hget, nearest?_congr fun c => mem_names_ofDefinitions]
  constructor
  · intro h
    rw [← mem_names_ofDefinitions] at h
    obtain ⟨s, hs⟩ := Option.isSome_iff_exists.mp (Bindings.isSome_get?.mpr h)
    refine ⟨s, (get?_ofDefinitions ds name).symm.trans hs, by rw [resolve, hs], fun s' => ?_⟩
    have hrefused := define_of_contains (Bindings.contains_iff.mpr h) s'
    refine ⟨hrefused, ?_⟩
    rw [ofDefinitions_concat, hrefused]
    rfl
  · intro h
    refine ⟨_, hunresolved h, fun c => nearest?_eq_some_iff.trans isNearest_iff_corrects, ?_, ?_⟩
    · rw [nearest?_eq_none_iff]
      simp only [measured, EditDistance.distance_eq_levenshtein, reach]
    · intro ds' hds'
      rw [hunresolved (mt (hds' name).mp h), nearest?_congr hds']

/-- Two names are as near as each other; that they are defined in this order, and one of them twice, does not
matter. -/
theorem resolve_ofDefinitions_tie :
    ∃ loop lap : Symbol, (ofDefinitions [("loop", loop), ("lap", lap), ("loop", lap)]).resolve "loop" =
        .ok loop.value ∧ loop.value ≠ lap.value ∧
      (ofDefinitions [("loop", loop), ("lap", lap), ("loop", lap)]).resolve "lop" =
        .error (.unresolvedSymbol "lop" (some "lap")) ∧
      Corrects "lop" ["loop", "lap", "loop"] "lap" ∧
      (ofDefinitions [("lap", loop), ("loop", loop)]).resolve "lop" =
        .error (.unresolvedSymbol "lop" (some "lap")) := by
  let loop : Symbol := ⟨.label, 1, false, none⟩
  let lap : Symbol := ⟨.constant, 2, true, some ⟨0, 14⟩⟩
  let ds := [("loop", loop), ("lap", lap), ("loop", lap)]
  obtain ⟨s, hs, hbound, -⟩ := (resolve_ofDefinitions ds "loop").1 (by decide)
  cases hs
  obtain ⟨suggestion, hresolve, hcorrects, -, horder⟩ := (resolve_ofDefinitions ds "lop").2 (by decide)
  have hlap : suggestion = some "lap" := by
    have : (ofDefinitions ds).resolve "lop" = .error (.unresolvedSymbol "lop" (some "lap")) := by
      decide +kernel
    cases this.symm.trans hresolve
    rfl
  subst hlap
  refine ⟨loop, lap, hbound, by decide, hresolve, (hcorrects "lap").mp rfl, horder _ ?_⟩
  simp [ds, or_comm]

end Machine16.SymbolTable
