/-!
# Numbers in JSON

A number keeps its decimal form. Whether it is in range is decided by reading it in double precision:
as many of its leading digits as 64 bits hold are rounded to a double, so is the power of ten that
they are to be multiplied by, and the product of the two has to be finite. Digits further back count
as zeros. Close to the largest double this differs from comparing the number itself: each of the two
roundings may carry the product past the bound, or keep it short of it.

Doubles large enough to matter here are natural numbers, so all of it is exact arithmetic.
-/

namespace Idl.Json

/-- A decimal number: `digits` times ten to the power `exponent`. -/
structure Number where
  /-- Whether a minus sign stands in front. -/
  negative : Bool
  /-- The digits, without the decimal point. -/
  digits : Nat
  /-- The power of ten. -/
  exponent : Int
  /-- Whether it is written with neither a fraction nor an exponent. -/
  plain : Bool
deriving DecidableEq

namespace Number

/-- The double nearest to a natural number, of unlimited exponent: a multiple of the power of two that
leaves it 53 bits. A tie goes to the even neighbour. -/
def nearestDouble (n : Nat) : Nat :=
  let gap := 1 <<< (n.log2 + 1 - 53)
  let below := n / gap
  if 2 * (n % gap) < gap ∨ 2 * (n % gap) = gap ∧ below % 2 = 0 then below * gap
  else (below + 1) * gap

/-- A natural number of at most 53 bits is a double. -/
theorem nearestDouble_eq_self {n : Nat} (h : n.log2 < 53) : nearestDouble n = n := by
  have hgap : n.log2 + 1 - 53 = 0 := by omega
  simp only [nearestDouble, hgap, Nat.shiftLeft_zero, Nat.mod_one, Nat.div_one, Nat.mul_one]
  exact if_pos (Or.inl (by omega))

/-- The leading decimal digits of a number that 64 bits hold, and how many digits are left off. -/
def leadingDigits (n : Nat) : Nat × Nat :=
  if n.log2 < 64 then (n, 0)
  else
    let (leading, leftOff) := leadingDigits (n / 10)
    (leading, leftOff + 1)
termination_by n
decreasing_by
  have hpos : n ≠ 0 := by
    rintro rfl
    contradiction
  exact Nat.div_lt_self (by omega) (by omega)

/-- The leading digits fit 64 bits, and are what is left when the others are cut off. -/
theorem leadingDigits_spec (n : Nat) :
    (leadingDigits n).1.log2 < 64 ∧
      (leadingDigits n).1 = n / Nat.pow 10 (leadingDigits n).2 := by
  fun_induction leadingDigits n with
  | case1 n h => exact ⟨h, (Nat.div_one n).symm⟩
  | case2 n _ leading leftOff heq ih =>
    rw [heq] at ih
    obtain ⟨hfits, hleading⟩ := ih
    refine ⟨hfits, ?_⟩
    show leading = n / (Nat.pow 10 leftOff * 10)
    rw [Nat.mul_comm, ← Nat.div_div_eq_div_mul]
    exact hleading

/-- The least number that rounds to no finite double: halfway between the largest double and the power
of two above it. -/
def doubleBound : Nat := 1 <<< 1024 - 1 <<< 970

/-- The largest power of ten that is a finite double. -/
def maxExponent : Nat := 308

/-- Whether the number is in range when it is read in double precision. -/
def inRange (n : Number) : Bool :=
  let (leading, leftOff) := leadingDigits n.digits
  match n.exponent + leftOff with
  | .negSucc _ => true
  | .ofNat exponent =>
    leading = 0 ||
      exponent ≤ maxExponent &&
        nearestDouble leading * nearestDouble (Nat.pow 10 exponent) < doubleBound

/-- Whether the number is the plain natural number `k`. -/
def isNat (n : Number) (k : Nat) : Bool := n = ⟨false, k, 0, true⟩

/-- The number in writing. -/
def text (n : Number) : String :=
  (if n.negative then "-" else "") ++ toString n.digits ++
    (if n.plain then "" else "e" ++ toString n.exponent)

end Number

end Idl.Json
