/-! Hexadecimal numbers in text: written in lower case with a least number of digits, read in
either case. -/
namespace Machine16.Hex

def isDigit (c : Char) : Bool :=
  c.isDigit || ('a' ≤ c && c ≤ 'f') || ('A' ≤ c && c ≤ 'F')

/-- The value of a digit. Other characters count as zero. -/
def digitValue (c : Char) : Nat :=
  if c.isDigit then c.toNat - '0'.toNat
  else if 'a' ≤ c && c ≤ 'f' then c.toNat - 'a'.toNat + 10
  else if 'A' ≤ c && c ≤ 'F' then c.toNat - 'A'.toNat + 10
  else 0

def value (digits : List Char) : Nat := digits.foldl (fun n c => 16 * n + digitValue c) 0

/-- The digits of `n`, after as many zeros as make up `width` characters. -/
def digits (width n : Nat) : List Char := (Nat.toDigits 16 n).leftpad width '0'

def format (width n : Nat) : String := String.ofList (digits width n)

@[simp] theorem toList_format (width n : Nat) : (format width n).toList = digits width n := by
  simp [format]

@[simp] theorem value_nil : value [] = 0 := rfl

@[simp] theorem value_append_singleton (ds : List Char) (c : Char) :
    value (ds ++ [c]) = 16 * value ds + digitValue c := by
  simp [value]

theorem digitValue_digitChar {d : Nat} (h : d < 16) : digitValue d.digitChar = d := by
  revert d
  decide

theorem value_toDigits (n : Nat) : value (Nat.toDigits 16 n) = n := by
  induction n using Nat.strongRecOn with
  | ind n ih =>
    rw [Nat.toDigits_eq_if (by omega)]
    split
    · simp only [value, List.foldl_cons, List.foldl_nil]
      rw [digitValue_digitChar (by omega)]
      omega
    · rw [value_append_singleton, ih _ (by omega), digitValue_digitChar (by omega)]
      omega

theorem value_replicate_zero_append (k : Nat) (ds : List Char) :
    value (List.replicate k '0' ++ ds) = value ds := by
  have h : List.foldl (fun n c => 16 * n + digitValue c) 0 (List.replicate k '0') = 0 := by
    induction k with
    | zero => rfl
    | succ k ih =>
      have h0 : digitValue '0' = 0 := by decide
      simpa [List.replicate_succ, h0] using ih
  simp [value, List.foldl_append, h]

@[simp] theorem value_digits (width n : Nat) : value (digits width n) = n := by
  simp [digits, List.leftpad, value_replicate_zero_append, value_toDigits]

example : digits 4 0x1f = ['0', '0', '1', 'f'] := by decide
example : value ['1', 'F', 'f'] = 0x1ff := by decide

end Machine16.Hex
