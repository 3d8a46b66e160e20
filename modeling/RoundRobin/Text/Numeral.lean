/-! Decimal numerals: ASCII digits behind an optional sign, read as a number of bounded range. The
written form of a number in range reads back. -/

namespace RoundRobin.Text

/-- The value of a nonempty run of digits. -/
def digits? (cs : List Char) : Option Nat :=
  if cs ≠ [] ∧ cs.all Char.isDigit then some (Nat.ofDigitChars 10 cs 0) else none

/-- The value of digits that a plus sign may precede. -/
def unsigned? : List Char → Option Nat
  | '+' :: cs => digits? cs
  | cs => digits? cs

/-- The value of digits that either sign may precede. -/
def signed? : List Char → Option Int
  | '-' :: cs => (digits? cs).map fun n : Nat => -(n : Int)
  | cs => (unsigned? cs).map Int.ofNat

/-- Reads a number below `limit`. -/
def natural? (limit : Nat) (cs : List Char) : Option Nat :=
  (unsigned? cs).filter fun n => n < limit

/-- Reads a number from `-limit` to `limit - 1`. -/
def integer? (limit : Nat) (cs : List Char) : Option Int :=
  (signed? cs).filter fun n => -(limit : Int) ≤ n ∧ n < limit

/-- Decimal digits stand for themselves, so a numeral starts with no sign. -/
theorem unsigned?_toDigits (n : Nat) : unsigned? (Nat.toDigits 10 n) = some n := by
  have hdigit : ∀ c ∈ Nat.toDigits 10 n, c.isDigit = true := fun _ hc =>
    Nat.isDigit_of_mem_toDigits (by decide) (by decide) hc
  have hvalue : digits? (Nat.toDigits 10 n) = some n := by
    simp [digits?, Nat.toDigits_ne_nil, List.all_eq_true.mpr hdigit]
  unfold unsigned?
  split
  · rename_i cs heq
    simpa using hdigit '+' (by simp [heq])
  · exact hvalue

theorem toList_toString (i : Int) :
    (toString i).toList =
      if i < 0 then '-' :: Nat.toDigits 10 i.natAbs else Nat.toDigits 10 i.natAbs := by
  cases i with
  | ofNat n => simp [toString, Int.repr]
  | negSucc n => simp [toString, Int.repr, Int.negSucc_lt_zero]

theorem signed?_toString (i : Int) : signed? (toString i).toList = some i := by
  rw [toList_toString]
  by_cases hi : i < 0
  · have hvalue := unsigned?_toDigits i.natAbs
    have hdigit : digits? (Nat.toDigits 10 i.natAbs) = some i.natAbs := by
      unfold unsigned? at hvalue
      split at hvalue
      · rename_i cs heq
        have := Nat.isDigit_of_mem_toDigits (b := 10) (n := i.natAbs) (c := '+') (by decide)
          (by decide) (by simp [heq])
        simp at this
      · exact hvalue
    have habs : -(i.natAbs : Int) = i := by omega
    rw [if_pos hi, signed?, hdigit, Option.map_some, habs]
  · simp only [hi, ↓reduceIte]
    unfold signed?
    split
    · rename_i cs heq
      have := Nat.isDigit_of_mem_toDigits (b := 10) (n := i.natAbs) (c := '-') (by decide)
        (by decide) (by simp [heq])
      simp at this
    · simp only [unsigned?_toDigits, Option.map_some, Option.some.injEq, Int.ofNat_eq_natCast]
      omega

theorem natural?_toString {limit n : Nat} (h : n < limit) :
    natural? limit (toString n).toList = some n := by
  simp [natural?, toString, unsigned?_toDigits, Option.filter, h]

theorem integer?_toString {limit : Nat} {i : Int} (h : -(limit : Int) ≤ i ∧ i < limit) :
    integer? limit (toString i).toList = some i := by
  rw [integer?, signed?_toString]
  simp [Option.filter, h]

end RoundRobin.Text
