import Mathlib.Order.Lattice.Nat
import Machine16.Text.EditDistance

/-! Texts that are edited character by character. The distance of two texts is the least number of edits
that lead from one to the other. -/
namespace Machine16.EditDistance

/-- One insertion, deletion or replacement of a character, at any place. -/
inductive Edit : List Char → List Char → Prop
  | insert (x : Char) (xs : List Char) : Edit xs (x :: xs)
  | delete (x : Char) (xs : List Char) : Edit (x :: xs) xs
  | replace (x y : Char) (xs : List Char) : Edit (x :: xs) (y :: xs)
  | later (x : Char) {xs ys : List Char} (edit : Edit xs ys) : Edit (x :: xs) (x :: ys)

/-- That many edits, one after the other. -/
inductive Edits : List Char → List Char → Nat → Prop
  | none (xs : List Char) : Edits xs xs 0
  | step {xs ys zs : List Char} {n : Nat} (edit : Edit xs ys) (edits : Edits ys zs n) : Edits xs zs (n + 1)

/-- The Levenshtein distance. -/
noncomputable def levenshtein (xs ys : List Char) : Nat := sInf {n | Edits xs ys n}

lemma distance_self (xs : List Char) : distance xs xs = 0 := by
  induction xs with
  | nil => rfl
  | cons x xs ih =>
    rw [distance_cons_cons, ih, if_pos rfl]
    omega

lemma distance_cons_left (x : Char) (xs ys : List Char) : distance (x :: xs) ys ≤ distance xs ys + 1 := by
  cases ys with
  | nil => simp only [distance_nil_right, List.length_cons, Nat.le_refl]
  | cons y ys =>
    rw [distance_cons_cons]
    omega

lemma distance_cons_right (xs : List Char) (y : Char) (ys : List Char) :
    distance xs (y :: ys) ≤ distance xs ys + 1 := by
  cases xs with
  | nil => simp only [distance_nil_left, List.length_cons, Nat.le_refl]
  | cons x xs =>
    rw [distance_cons_cons]
    omega

lemma distance_le_cons_left (x : Char) (xs ys : List Char) : distance xs ys ≤ distance (x :: xs) ys + 1 := by
  induction ys with
  | nil =>
    simp only [distance_nil_right, List.length_cons]
    omega
  | cons y ys ih =>
    have := distance_cons_right xs y ys
    rw [distance_cons_cons]
    omega

lemma distance_replace (x x' : Char) (xs ys : List Char) :
    distance (x :: xs) ys ≤ distance (x' :: xs) ys + 1 := by
  induction ys with
  | nil => simp only [distance_nil_right, List.length_cons, Nat.le_add_right]
  | cons y ys ih =>
    rw [distance_cons_cons, distance_cons_cons x']
    split_ifs <;> omega

/-- An edit changes the distance to any text by one at most. -/
lemma Edit.distance_le {xs xs' : List Char} (h : Edit xs xs') (ys : List Char) :
    distance xs ys ≤ distance xs' ys + 1 := by
  induction h generalizing ys with
  | insert x xs => exact distance_le_cons_left x xs ys
  | delete x xs => exact distance_cons_left x xs ys
  | replace x x' xs => exact distance_replace x x' xs ys
  | @later x xs xs' _ ih =>
    induction ys with
    | nil =>
      have := ih []
      simp only [distance_nil_right, List.length_cons] at this ⊢
      omega
    | cons y ys ihys =>
      have := ih ys
      have := ih (y :: ys)
      rw [distance_cons_cons, distance_cons_cons x y xs']
      omega

namespace Edits

variable {xs ys : List Char} {n : Nat}

/-- No edits lead from one text to the other that are fewer than their distance. -/
lemma distance_le (h : Edits xs ys n) : distance xs ys ≤ n := by
  induction h with
  | none xs => exact Nat.le_of_eq (distance_self xs)
  | @step xs _ zs n edit _ ih => exact (edit.distance_le zs).trans (Nat.succ_le_succ ih)

lemma later (x : Char) (h : Edits xs ys n) : Edits (x :: xs) (x :: ys) n := by
  induction h with
  | none xs => exact .none _
  | step edit _ ih => exact .step (edit.later x) ih

lemma of_nil (ys : List Char) : Edits [] ys ys.length := by
  induction ys with
  | nil => exact .none []
  | cons y ys ih => exact .step (.insert y []) (ih.later y)

lemma to_nil (xs : List Char) : Edits xs [] xs.length := by
  induction xs with
  | nil => exact .none []
  | cons x xs ih => exact .step (.delete x xs) ih

end Edits

/-- As many edits as the distance says are enough. -/
lemma edits_distance (xs ys : List Char) : Edits xs ys (distance xs ys) := by
  induction xs generalizing ys with
  | nil =>
    rw [distance_nil_left]
    exact .of_nil ys
  | cons x xs ihx =>
    induction ys with
    | nil =>
      rw [distance_nil_right]
      exact .to_nil (x :: xs)
    | cons y ys ihy =>
      have hdelete : Edits (x :: xs) (y :: ys) (distance xs (y :: ys) + 1) :=
        .step (.delete x xs) (ihx (y :: ys))
      have hinsert : Edits (x :: xs) (y :: ys) (distance (x :: xs) ys + 1) :=
        .step (.insert y _) (ihy.later y)
      have hreplace : Edits (x :: xs) (y :: ys) (distance xs ys + if x = y then 0 else 1) := by
        split_ifs with hxy
        · subst hxy
          exact (ihx ys).later x
        · exact .step (.replace x y xs) ((ihx ys).later y)
      rw [distance_cons_cons]
      obtain h | h := min_choice (min (distance xs (y :: ys) + 1) (distance (x :: xs) ys + 1))
        (distance xs ys + if x = y then 0 else 1)
      · obtain h' | h' := min_choice (distance xs (y :: ys) + 1) (distance (x :: xs) ys + 1)
        · rwa [h, h']
        · rwa [h, h']
      · rwa [h]

/-- The rows compute the Levenshtein distance. -/
lemma distance_eq_levenshtein (xs ys : List Char) : distance xs ys = levenshtein xs ys := by
  have hleast : IsLeast {n | Edits xs ys n} (distance xs ys) :=
    ⟨edits_distance xs ys, fun _ h => Edits.distance_le h⟩
  exact hleast.csInf_eq.symm

end Machine16.EditDistance
