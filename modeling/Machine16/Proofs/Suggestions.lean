import Mathlib.Data.List.Basic
import Machine16.Assembly.Symbols

/-! The name that is suggested for another one depends on which names there are, and not on their order. -/
namespace Machine16.SymbolTable

/-- Of two names with their distances, `a` is at least as good a suggestion as `b`. -/
def Precedes (a b : Nat × String) : Prop := a.1 < b.1 ∨ a.1 = b.1 ∧ a.2 ≤ b.2

namespace Precedes

variable {a b c : Nat × String}

lemma refl (a : Nat × String) : Precedes a a := .inr ⟨rfl, String.le_refl a.2⟩

lemma trans (h : Precedes a b) (h' : Precedes b c) : Precedes a c := by
  obtain h | ⟨h, hname⟩ := h
  · obtain h' | ⟨h', -⟩ := h'
    · exact .inl (by omega)
    · exact .inl (by omega)
  · obtain h' | ⟨h', hname'⟩ := h'
    · exact .inl (by omega)
    · exact .inr ⟨h.trans h', String.le_trans hname hname'⟩

lemma antisymm (h : Precedes a b) (h' : Precedes b a) : a = b := by
  obtain h | ⟨h, hname⟩ := h
  · obtain h' | ⟨h', -⟩ := h' <;> omega
  · obtain h' | ⟨-, hname'⟩ := h'
    · omega
    · exact Prod.ext h (String.le_antisymm hname hname')

lemma of_not (h : ¬ Precedes a b) : Precedes b a := by
  obtain ⟨hlt, heq⟩ := not_or.mp h
  by_cases hdistance : a.1 = b.1
  · obtain hname | hname := String.le_total a.2 b.2
    · exact absurd ⟨hdistance, hname⟩ heq
    · exact .inr ⟨hdistance.symm, hname⟩
  · exact .inl (by omega)

end Precedes

lemma nearer_eq (a b : Nat × String) : (nearer a b = a ∨ nearer a b = b) ∧
    Precedes (nearer a b) a ∧ Precedes (nearer a b) b := by
  unfold nearer
  split_ifs with h
  · exact ⟨.inl rfl, .refl a, h⟩
  · exact ⟨.inr rfl, .of_not h, .refl b⟩

/-- What is left of the names is one of them, and the best one. -/
lemma foldl_nearer (n : Nat × String) (ns : List (Nat × String)) :
    ns.foldl nearer n ∈ n :: ns ∧ ∀ m ∈ n :: ns, Precedes (ns.foldl nearer n) m := by
  induction ns generalizing n with
  | nil => exact ⟨List.mem_cons_self, fun m hm => List.mem_singleton.mp hm ▸ .refl n⟩
  | cons m ns ih =>
    obtain ⟨hone, hn, hm⟩ := nearer_eq n m
    obtain ⟨hmem, hbest⟩ := ih (nearer n m)
    obtain ⟨hfirst, hrest⟩ := List.forall_mem_cons.mp hbest
    refine ⟨?_, List.forall_mem_cons.mpr ⟨hfirst.trans hn, List.forall_mem_cons.mpr ⟨hfirst.trans hm, hrest⟩⟩⟩
    obtain heq | hmem := List.mem_cons.mp hmem
    · rw [List.foldl_cons, heq]
      obtain hone | hone := hone
      · simp [hone]
      · simp [hone]
    · exact List.mem_cons_of_mem _ (List.mem_cons_of_mem _ hmem)

section Nearest

variable {name c : String} {cs ds : List String}

/-- How far a candidate is away. -/
def measured (name c : String) : Nat × String := (EditDistance.distance name.toList c.toList, c)

/-- The best of the candidates that are near enough. -/
structure IsNearest (name : String) (candidates : List String) (c : String) : Prop where
  mem : c ∈ candidates
  near : (measured name c).1 ≤ reach name
  best : ∀ d ∈ candidates, (measured name d).1 ≤ reach name → Precedes (measured name c) (measured name d)

lemma IsNearest.unique {d : String} (hc : IsNearest name cs c) (hd : IsNearest name cs d) : c = d :=
  congrArg Prod.snd ((hc.best d hd.mem hd.near).antisymm (hd.best c hc.mem hc.near))

lemma IsNearest.congr (h : ∀ c, c ∈ cs ↔ c ∈ ds) (hc : IsNearest name cs c) : IsNearest name ds c where
  mem := (h c).mp hc.mem
  near := hc.near
  best d hd := hc.best d ((h d).mpr hd)

/-- What is left of the candidates before one of them is chosen. -/
lemma mem_filterMap_measured {m : Nat × String} : m ∈ (cs.filterMap fun d =>
      if (measured name d).1 ≤ reach name then some (measured name d) else none) ↔
    ∃ d ∈ cs, measured name d = m ∧ m.1 ≤ reach name := by
  rw [List.mem_filterMap]
  refine exists_congr fun d => and_congr_right fun _ => ?_
  rw [Option.ite_none_right_eq_some, Option.some_inj, and_comm]
  exact and_congr_right fun heq => heq ▸ Iff.rfl

lemma nearest?_eq_some_iff : nearest? name cs = some c ↔ IsNearest name cs c := by
  unfold nearest?
  generalize hnear : cs.filterMap _ = near
  have hmem (m : Nat × String) : m ∈ near ↔ _ := hnear ▸ mem_filterMap_measured
  cases near with
  | nil =>
    constructor
    · intro h
      cases h
    · intro h
      cases (hmem (measured name c)).mpr ⟨c, h.mem, rfl, h.near⟩
  | cons n ns =>
    obtain ⟨hbest, hprecedes⟩ := foldl_nearer n ns
    obtain ⟨b, hb, hmeasured, hreach⟩ := (hmem _).mp hbest
    rw [← hmeasured] at hprecedes hreach
    have hnearest : IsNearest name cs b :=
      ⟨hb, hreach, fun d hd hdreach => hprecedes _ ((hmem _).mpr ⟨d, hd, rfl, hdreach⟩)⟩
    change some (ns.foldl nearer n).2 = some c ↔ _
    rw [← hmeasured, Option.some_inj]
    constructor
    · rintro rfl
      exact hnearest
    · exact hnearest.unique

lemma nearest?_eq_none_iff : nearest? name cs = none ↔ ∀ c ∈ cs, reach name < (measured name c).1 := by
  unfold nearest?
  generalize hnear : cs.filterMap _ = near
  have hmem (m : Nat × String) : m ∈ near ↔ _ := hnear ▸ mem_filterMap_measured
  cases near with
  | nil =>
    refine iff_of_true rfl fun d hd => Nat.lt_of_not_le fun hle => ?_
    cases (hmem _).mpr ⟨d, hd, rfl, hle⟩
  | cons n ns =>
    obtain ⟨d, hd, rfl, hle⟩ := (hmem n).mp List.mem_cons_self
    refine iff_of_false (by simp) fun hfar => ?_
    exact absurd hle (Nat.not_le_of_lt (hfar d hd))

/-- The order of the candidates does not matter. -/
lemma nearest?_congr (h : ∀ c, c ∈ cs ↔ c ∈ ds) : nearest? name cs = nearest? name ds := by
  ext c
  rw [nearest?_eq_some_iff, nearest?_eq_some_iff]
  exact ⟨.congr h, .congr fun c => (h c).symm⟩

end Nearest

end Machine16.SymbolTable
