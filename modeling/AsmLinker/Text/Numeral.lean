/-!
# Numerals

Runs of digits in base ten and sixteen: writing a number with a least width, and reading a run of
digits as a number or as a 64-bit word.
-/

namespace AsmLinker.Numeral

/-- The upper-case hexadecimal digits of `n`, with zeros in front up to `width` digits. -/
def hexUpper (width n : Nat) : String :=
  let digits := (Nat.toDigits 16 n).map Char.toUpper
  String.ofList (List.replicate (width - digits.length) '0' ++ digits)

/-- The lower-case hexadecimal digits of `n`, without zeros in front. -/
def hexLower (n : Nat) : String :=
  String.ofList (Nat.toDigits 16 n)

/-- The value of a hexadecimal digit of either case. -/
def digit? (c : Char) : Option Nat :=
  if '0' ≤ c ∧ c ≤ '9' then some (c.toNat - '0'.toNat)
  else if 'a' ≤ c ∧ c ≤ 'f' then some (c.toNat - 'a'.toNat + 10)
  else if 'A' ≤ c ∧ c ≤ 'F' then some (c.toNat - 'A'.toNat + 10)
  else none

/-- The number that a run of digits spells in `base`, the most significant digit first. -/
def value (base : Nat) (digits : List Char) : Nat :=
  digits.foldl (fun n c => n * base + (digit? c).getD 0) 0

/-- The 64-bit word that a run of digits spells in `base`, if the number is below `2 ^ 64`. -/
def word? (base : Nat) (digits : List Char) : Option UInt64 :=
  let n := value base digits
  if n < UInt64.size then some (UInt64.ofNat n) else none

@[simp] theorem value_nil (base : Nat) : value base [] = 0 := rfl

/-- A further digit shifts the number by one place. -/
theorem value_concat (base : Nat) (digits : List Char) (c : Char) :
    value base (digits ++ [c]) = value base digits * base + (digit? c).getD 0 := by
  simp [value]

/-- A word is read exactly when the number fits, and it is that number. -/
theorem word?_eq_some_iff {base : Nat} {digits : List Char} {w : UInt64} :
    word? base digits = some w ↔ value base digits = w.toNat := by
  unfold word?
  constructor
  · intro h
    by_cases lt : value base digits < UInt64.size
    · simp only [lt, if_true, Option.some.injEq] at h
      rw [← h]
      exact (UInt64.toNat_ofNat_of_lt' lt).symm
    · simp [lt] at h
  · intro h
    have lt : value base digits < UInt64.size := h ▸ w.toNat_lt
    simp only [h] at lt ⊢
    simp [lt]

end AsmLinker.Numeral
