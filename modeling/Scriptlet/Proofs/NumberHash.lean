import Scriptlet.Proofs.NumberOrder
import Scriptlet.Value.Hash

/-!
Hashes of numbers. A power of two is worth as much as the one whose exponent is the remainder, so
that the residue of `m * 2 ^ e` is one of the rational: equal numbers have equal hashes however they
are written.
-/

namespace Scriptlet

namespace Hashing

variable (host : Hashing) {m n : ℕ} {e f : ℤ}

theorem two_pow_modEq (k : ℕ) : 2 ^ k ≡ 2 ^ (k % host.width) [MOD 2 ^ host.width - 1] := by
  have hone : 2 ^ host.width ≡ 1 [MOD 2 ^ host.width - 1] :=
    ((Nat.modEq_iff_dvd' Nat.one_le_two_pow).2 (dvd_refl _)).symm
  calc 2 ^ k = (2 ^ host.width) ^ (k / host.width) * 2 ^ (k % host.width) := by
        rw [← pow_mul, ← pow_add, Nat.div_add_mod]
    _ ≡ 1 ^ (k / host.width) * 2 ^ (k % host.width) [MOD 2 ^ host.width - 1] :=
        (hone.pow _).mul_right _
    _ = 2 ^ (k % host.width) := by rw [one_pow, one_mul]

/-- A power of two may move from the exponent to the mantissa. -/
theorem residue_mul_two_pow (n k : ℕ) (e : ℤ) :
    host.residue (n * 2 ^ k) e = host.residue n (e + k) := by
  have hwidth : (0 : ℤ) < host.width := Int.natCast_pos.2 host.width_pos
  have hmod : (k + (e % host.width).toNat) % host.width = ((e + k) % host.width).toNat := by
    apply Int.natCast_inj.1
    push_cast
    rw [Int.toNat_of_nonneg (Int.emod_nonneg _ hwidth.ne'),
      Int.toNat_of_nonneg (Int.emod_nonneg _ hwidth.ne'), Int.add_emod_emod, add_comm]
  have hpow := host.two_pow_modEq (k + (e % host.width).toNat)
  rw [pow_add, hmod] at hpow
  rw [residue, residue, mul_assoc]
  exact hpow.mul_left n

theorem residue_eq (h : (m : ℚ) * 2 ^ e = n * 2 ^ f) : host.residue m e = host.residue n f := by
  wlog hle : e ≤ f generalizing m n e f
  · exact (this h.symm (le_of_not_ge hle)).symm
  obtain ⟨k, rfl⟩ := Int.le.dest hle
  rw [eq_mul_pow_of_zpow two_pos h, residue_mul_two_pow]

theorem residue_eq_zero (h : (m : ℚ) * 2 ^ e = 0) : host.residue m e = 0 := by
  obtain rfl : m = 0 :=
    Nat.cast_eq_zero.1 ((mul_eq_zero.1 h).resolve_right (zpow_ne_zero e two_ne_zero))
  rw [residue, Nat.zero_mul, Nat.zero_mod]

/-- What stands for one rational or one end has one hash, in whatever objects it is. -/
theorem number_eq {d d' : Double} {p : Double.Place} (i j : ℕ) (hd : d.place? = some p)
    (hd' : d'.place? = some p) : host.number i d = host.number j d' := by
  cases d with
  | nan => cases hd
  | infinite s =>
    rw [Double.eq_infinite_of_place (hd'.trans hd.symm)]
    rfl
  | finite s m e =>
    obtain ⟨t, n, f, rfl, hsigned⟩ := Double.eq_finite_of_place (hd'.trans hd.symm)
    have hpos {k : ℕ} {i : ℤ} : (0 : ℚ) ≤ k * 2 ^ i := by positivity
    rcases Double.eq_or_zero_of_signed_eq hpos hpos hsigned with ⟨rfl, heq⟩ | ⟨hn, hm⟩
    · rw [number, number, host.residue_eq heq]
    · rw [number, number, host.residue_eq_zero hm, host.residue_eq_zero hn]
      cases s <;> cases t <;> rfl

/-- Where words have sixty-four bits, one half has the residue of `2 ^ 60` and minus one the hash
`-2`. -/
example :
    let host : Hashing := ⟨61, by decide, 314159, fun _ => 0, fun _ => 0, fun _ => 0⟩
    host.number 0 (.ofFloat 0.5) = 2 ^ 60 ∧ host.number 0 (.ofFloat (-1)) = -2 := by decide

end Hashing

end Scriptlet
