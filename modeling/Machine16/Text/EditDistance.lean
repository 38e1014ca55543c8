/-! The least number of insertions, deletions and replacements of single characters that lead
from one text to another. The distances to a text and to all its endings are computed together,
in one row for each character of the first text. The last three lemmas say that the result is
the distance of the textbook recursion. -/
namespace Machine16.EditDistance

/-- The distances from the empty text to `ys` and to its endings. -/
def firstRow : List Char → Nat × List Nat
  | [] => (0, [])
  | _ :: ys => ((firstRow ys).1 + 1, (firstRow ys).1 :: (firstRow ys).2)

/-- The row of `x :: xs` from the row of `xs`. -/
def nextRow (x : Char) : List Char → Nat → List Nat → Nat × List Nat
  | y :: ys, d, e :: ds =>
    let r := nextRow x ys e ds
    (min (min (d + 1) (r.1 + 1)) (e + if x = y then 0 else 1), r.1 :: r.2)
  | _, d, _ => (d + 1, [])

def row : List Char → List Char → Nat × List Nat
  | [], ys => firstRow ys
  | x :: xs, ys => nextRow x ys (row xs ys).1 (row xs ys).2

def distance (xs ys : List Char) : Nat := (row xs ys).1

theorem row_cons_snd (xs : List Char) (y : Char) (ys : List Char) :
    (row xs (y :: ys)).2 = (row xs ys).1 :: (row xs ys).2 := by
  induction xs with
  | nil => rfl
  | cons x xs ih => simp [row, ih, nextRow]

theorem distance_nil_left (ys : List Char) : distance [] ys = ys.length := by
  induction ys with
  | nil => rfl
  | cons y ys ih => simpa [distance, row, firstRow] using ih

theorem distance_nil_right (xs : List Char) : distance xs [] = xs.length := by
  induction xs with
  | nil => rfl
  | cons x xs ih => simpa [distance, row, nextRow] using ih

theorem distance_cons_cons (x y : Char) (xs ys : List Char) :
    distance (x :: xs) (y :: ys) =
      min (min (distance xs (y :: ys) + 1) (distance (x :: xs) ys + 1))
        (distance xs ys + if x = y then 0 else 1) := by
  simp [distance, row, row_cons_snd, nextRow]

example : distance "kitten".toList "sitting".toList = 3 := by decide +kernel

end Machine16.EditDistance
