import Scriptlet.Number.Fraction

/-!
Doubles as exact numbers. A finite one is a whole number of at most 53 bits times a power of two;
every fraction has a nearest one.
-/

namespace Scriptlet

/-- What 64 bits stand for. The value of `finite` is `mantissa * 2 ^ exponent`, with its sign. -/
inductive Double where
  | nan
  | infinite (negative : Bool)
  | finite (negative : Bool) (mantissa : Nat) (exponent : Int)
deriving DecidableEq

namespace Double

/-- The exponent of the subnormal doubles, the least of all. -/
def leastExponent : Int := -1074

/-- The bits of positive infinity, and the bound of all finite magnitudes. -/
def infinityBits : Nat := 2047 * Nat.pow 2 52

def signBit : Nat := Nat.pow 2 63

/-- The bits of the double that is no number. -/
def nanBits : UInt64 := 0x7ff8000000000000

def ofBits (bits : UInt64) : Double :=
  let negative : Bool := signBit ≤ bits.toNat
  let exponent : Nat := bits.toNat / Nat.pow 2 52 % 2048
  let fraction : Nat := bits.toNat % Nat.pow 2 52
  if exponent = 2047 then
    if fraction = 0 then infinite negative else nan
  else if exponent = 0 then finite negative fraction leastExponent
  else finite negative (Nat.pow 2 52 + fraction) (leastExponent + (exponent : Int) - 1)

def ofFloat (x : Float) : Double := ofBits x.toBits

def magnitude (mantissa : Nat) (exponent : Int) : Fraction :=
  (Fraction.ofNat mantissa).times 2 exponent

/-- The bits of the double nearest to a fraction, ties going to the even mantissa. A mantissa
rounded up to the next power of two carries into the exponent, and past the greatest finite double
into infinity. -/
def nearestBits (x : Fraction) : Nat :=
  if x.num = 0 then 0
  else
    let exponent := max (x.log 2 - 52) leastExponent
    let mantissa := (x.times 2 (-exponent)).round
    min ((exponent - leastExponent).toNat * Nat.pow 2 52 + mantissa) infinityBits

def withSign (negative : Bool) (bits : Nat) : Float :=
  .ofBits (UInt64.ofNat (if negative then signBit + bits else bits))

/-- The double nearest to a fraction with a sign. Zero keeps its sign. -/
def nearest (negative : Bool) (x : Fraction) : Float := withSign negative (nearestBits x)

/-- The ends of the interval of all fractions whose nearest double is `mantissa * 2 ^ exponent`, in
quarters of a unit in the last place. Below a power of two the doubles lie twice as close. -/
def roundingEnds (mantissa : Nat) (exponent : Int) : Nat × Nat :=
  (4 * mantissa - (if mantissa = Nat.pow 2 52 ∧ leastExponent < exponent then 1 else 2),
    4 * mantissa + 2)

/-- A fraction is rounded to `mantissa * 2 ^ exponent`. The ends belong to an even mantissa. -/
def covers (mantissa : Nat) (exponent : Int) (x : Fraction) : Bool :=
  let ends := roundingEnds mantissa exponent
  let low := (Fraction.ofNat ends.1).times 2 (exponent - 2)
  let high := (Fraction.ofNat ends.2).times 2 (exponent - 2)
  if mantissa % 2 = 0 then low.le x && x.le high else low.lt x && x.lt high

end Double

end Scriptlet
