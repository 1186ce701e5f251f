import Scriptlet.Number.Double

/-!
Division of doubles. The division at hand fails on a zero divisor, for which the quotient is found
from the signs: it is no number if the dividend is a zero or none itself, and infinite otherwise.
-/

namespace Scriptlet.Double

/-- The magnitude of one double with the sign of another. -/
def copySign (x y : Float) : Float :=
  withSign (signBit ≤ y.toBits.toNat) (x.toBits.toNat % signBit)

/-- Fails on a zero divisor. -/
def divide? (x y : Float) : Option Float := if y == 0 then none else some (x / y)

/-- A quotient that is found without division where the divisor is a zero. -/
def quotient? (x y : Float) : Option Float :=
  if y == 0 then
    if x == 0 || x.isNaN then some (.ofBits nanBits)
    else some (copySign (withSign false infinityBits) x * copySign 1 y)
  else divide? x y

theorem isSome_quotient? (x y : Float) : (quotient? x y).isSome = true := by
  rw [quotient?, divide?]
  split
  · split <;> rfl
  · rfl

end Scriptlet.Double
