/-!
Fractions of natural numbers, never reduced, with the exact operations that number text needs:
comparison, scaling by a power, the whole part, the nearest whole number and the logarithm.
-/

namespace Scriptlet

/-- The logarithm of `n` to a base, rounded down; zero for `n = 0`. -/
def floorLog (base n : Nat) : Nat :=
  if _h : 1 < base ∧ base ≤ n then floorLog base (n / base) + 1 else 0
termination_by n
decreasing_by exact Nat.div_lt_self (by omega) _h.1

theorem pow_floorLog_le (base : Nat) {n : Nat} (hn : 0 < n) :
    Nat.pow base (floorLog base n) ≤ n := by
  fun_induction floorLog base n with
  | case1 n h ih =>
    have hpos : 0 < n / base := Nat.div_pos h.2 (by omega)
    calc Nat.pow base (floorLog base (n / base) + 1)
        = Nat.pow base (floorLog base (n / base)) * base := rfl
      _ ≤ n / base * base := Nat.mul_le_mul_right _ (ih hpos)
      _ ≤ n := Nat.div_mul_le_self ..
  | case2 n h => simpa using Nat.one_le_iff_ne_zero.2 (by omega)

theorem lt_pow_floorLog {base : Nat} (hb : 1 < base) (n : Nat) :
    n < Nat.pow base (floorLog base n + 1) := by
  fun_induction floorLog base n with
  | case1 n h ih =>
    rw [Nat.pow]
    exact (Nat.div_lt_iff_lt_mul (by omega)).1 ih
  | case2 n h => simp; omega

/-- `num / den`, for a positive `den`. -/
structure Fraction where
  num : Nat
  den : Nat
deriving DecidableEq

namespace Fraction

def ofNat (n : Nat) : Fraction := ⟨n, 1⟩

/-- `x * base ^ e`, for negative exponents too. -/
def times (x : Fraction) (base : Nat) (e : Int) : Fraction :=
  ⟨x.num * Nat.pow base e.toNat, x.den * Nat.pow base (-e).toNat⟩

def lt (x y : Fraction) : Bool := x.num * y.den < y.num * x.den

def le (x y : Fraction) : Bool := x.num * y.den ≤ y.num * x.den

def floor (x : Fraction) : Nat := x.num / x.den

/-- The nearest whole number; of two equally near ones the even one. -/
def round (x : Fraction) : Nat :=
  let whole := x.num / x.den
  let twice := 2 * (x.num % x.den)
  if twice < x.den ∨ twice = x.den ∧ whole % 2 = 0 then whole else whole + 1

theorem round_eq_floor_or (x : Fraction) : x.round = x.floor ∨ x.round = x.floor + 1 := by
  simp only [round, floor]
  split <;> simp

/-- The logarithm of a positive fraction to a base, rounded down. The logarithms of numerator and
denominator fix it up to one. -/
def log (base : Nat) (x : Fraction) : Int :=
  let near : Int := (floorLog base x.num : Int) - floorLog base x.den
  if ((ofNat 1).times base near).le x then near else near - 1

end Fraction

end Scriptlet
