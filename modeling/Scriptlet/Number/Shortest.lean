import Scriptlet.Number.Double

/-!
The shortest decimal of a double: the fewest digits that still round to it, and among those the
nearest to it.
-/

namespace Scriptlet

/-- `coefficient * 10 ^ exponent`. -/
structure Decimal where
  coefficient : Nat
  exponent : Int
deriving DecidableEq

namespace Decimal

def toFraction (d : Decimal) : Fraction := (Fraction.ofNat d.coefficient).times 10 d.exponent

/-- The same number without zeros at the end of its coefficient. -/
def trim (d : Decimal) : Decimal :=
  if _h : d.coefficient ≠ 0 ∧ d.coefficient % 10 = 0 then
    trim ⟨d.coefficient / 10, d.exponent + 1⟩
  else d
termination_by d.coefficient
decreasing_by omega

theorem coefficient_trim (d : Decimal) :
    d.trim.coefficient = 0 ∨ d.trim.coefficient % 10 ≠ 0 := by
  fun_induction trim d with
  | case1 d h ih => exact ih
  | case2 d h => omega

/-- `mantissa * 2 ^ exponent`, written out in full: halves are fives of the next place. -/
def exact (mantissa : Nat) (exponent : Int) : Decimal :=
  if 0 ≤ exponent then ⟨mantissa * Nat.pow 2 exponent.toNat, 0⟩
  else ⟨mantissa * Nat.pow 5 (-exponent).toNat, exponent⟩

/-- The decimal for `mantissa * 2 ^ exponent` among the multiples of `10 ^ place`, if one of its
two neighbours there rounds to it. The nearer neighbour is tried first; of two equally near ones
that is the even one. -/
def onGrid (mantissa : Nat) (exponent place : Int) : Option Decimal :=
  let scaled := (Double.magnitude mantissa exponent).times 10 (-place)
  let near := scaled.round
  let far := 2 * scaled.floor + 1 - near
  [near, far].map (⟨·, place⟩) |>.find? fun d => Double.covers mantissa exponent d.toFraction

/-- The shortest decimal of a positive double `mantissa * 2 ^ exponent`: grids are tried from one
significant digit to seventeen, which always suffice. -/
def shortest (mantissa : Nat) (exponent : Int) : Decimal :=
  let lead := (Double.magnitude mantissa exponent).log 10
  let found := (List.range 17).findSome? fun (k : Nat) =>
    onGrid mantissa exponent (lead - k)
  (found.getD (exact mantissa exponent)).trim

end Decimal

end Scriptlet
