import Scriptlet.Proofs.DoubleWord
import Scriptlet.Proofs.FractionValue

/-!
Correct rounding. The double nearest to a number is found by its binary logarithm; whatever lies
between the middles to its two neighbours is rounded to it.
-/

namespace Scriptlet.Double

variable {m n : ℕ} {e f : ℤ} {q : ℚ}

/-- The distance of `m * 2 ^ e` to the next double below it. -/
def gapBelow (m : ℕ) (e : ℤ) : ℚ :=
  if m = 2 ^ 52 ∧ leastExponent < e then 2 ^ e / 2 else 2 ^ e

/-- `q` lies between the middles of `m * 2 ^ e` and its neighbours, and is a middle only if `m` is
even. -/
def Covered (m : ℕ) (e : ℤ) (q : ℚ) : Prop :=
  (m * 2 ^ e - gapBelow m e / 2 ≤ q ∧ q ≤ m * 2 ^ e + 2 ^ e / 2) ∧
    (m % 2 = 0 ∨ m * 2 ^ e - gapBelow m e / 2 < q ∧ q < m * 2 ^ e + 2 ^ e / 2)

theorem two_zpow_pos (e : ℤ) : (0 : ℚ) < 2 ^ e := zpow_pos two_pos e

theorem two_zpow_succ (e : ℤ) : (2 : ℚ) ^ (e + 1) = 2 * 2 ^ e := by
  rw [zpow_add_one₀ two_ne_zero, mul_comm]

theorem cast_mul_two_zpow_le (h : m ≤ n) (e : ℤ) : (m : ℚ) * 2 ^ e ≤ n * 2 ^ e :=
  mul_le_mul_of_nonneg_right (Nat.cast_le.2 h) (two_zpow_pos e).le

theorem gapBelow_pos (m : ℕ) (e : ℤ) : 0 < gapBelow m e := by
  have := two_zpow_pos e
  rw [gapBelow]
  split <;> linarith

theorem gapBelow_le (m : ℕ) (e : ℤ) : gapBelow m e ≤ 2 ^ e := by
  have := two_zpow_pos e
  rw [gapBelow]
  split <;> linarith

theorem covered_self (m : ℕ) (e : ℤ) : Covered m e (m * 2 ^ e) := by
  have he := two_zpow_pos e
  have hgap := gapBelow_pos m e
  exact ⟨⟨by linarith, by linarith⟩, .inr ⟨by linarith, by linarith⟩⟩

/-- A greater exponent makes up for any mantissa. -/
theorem mul_two_zpow_le (hn : n < 2 ^ 53) (h : f < e) :
    (n : ℚ) * 2 ^ f ≤ (2 ^ 53 - 1) * (2 ^ e / 2) := by
  have hn : (n : ℚ) ≤ 2 ^ 53 - 1 := by
    have : n + 1 ≤ 2 ^ 53 := hn
    have : ((n + 1 : ℕ) : ℚ) ≤ (2 ^ 53 : ℕ) := Nat.cast_le.2 this
    push_cast at this
    linarith
  have hf : (2 : ℚ) ^ f ≤ 2 ^ e / 2 := by
    have : (2 : ℚ) ^ (f + 1) ≤ 2 ^ e := zpow_le_zpow_right₀ one_le_two h
    rw [two_zpow_succ] at this
    linarith
  exact mul_le_mul hn hf (two_zpow_pos f).le (by norm_num)

theorem exists_multiple (n : ℕ) (h : e ≤ f) : ∃ k : ℕ, (n : ℚ) * 2 ^ f = k * 2 ^ e := by
  obtain ⟨i, rfl⟩ := Int.le.dest h
  refine ⟨n * 2 ^ i, ?_⟩
  rw [zpow_add₀ two_ne_zero, zpow_natCast]
  push_cast
  ring

namespace Regular

theorem lt_of_exponent_lt (h : Regular m e) (h' : Regular n f) (hef : f < e) :
    (n : ℚ) * 2 ^ f < m * 2 ^ e := by
  have he := two_zpow_pos e
  have hlow := mul_two_zpow_le h'.lt hef
  have hm : ((2 ^ 52 : ℕ) : ℚ) * 2 ^ e ≤ m * 2 ^ e :=
    cast_mul_two_zpow_le (h.full (lt_of_le_of_lt h'.least_le hef)) e
  push_cast at hm
  linarith

/-- The parts of a double are determined by its value. -/
theorem ext_value (h : Regular m e) (h' : Regular n f) (heq : (m : ℚ) * 2 ^ e = n * 2 ^ f) :
    m = n ∧ e = f := by
  rcases lt_trichotomy e f with hef | rfl | hef
  · exact absurd heq (h'.lt_of_exponent_lt h hef).ne
  · exact ⟨Nat.cast_injective (mul_right_cancel₀ (two_zpow_pos e).ne' heq), rfl⟩
  · exact absurd heq.symm (h.lt_of_exponent_lt h' hef).ne

/-- The next double above is one unit in the last place away, or farther. -/
theorem add_le_of_lt (h : Regular m e) (h' : Regular n f) (hlt : (m : ℚ) * 2 ^ e < n * 2 ^ f) :
    (m : ℚ) * 2 ^ e + 2 ^ e ≤ n * 2 ^ f := by
  have he := two_zpow_pos e
  rcases le_or_gt e f with hef | hef
  · obtain ⟨k, hk⟩ := exists_multiple n hef
    rw [hk] at hlt ⊢
    have hmk : m + 1 ≤ k := Nat.cast_lt.1 (lt_of_mul_lt_mul_right hlt he.le)
    have : ((m + 1 : ℕ) : ℚ) * 2 ^ e ≤ k * 2 ^ e := cast_mul_two_zpow_le hmk e
    push_cast at this
    linarith
  · exact absurd hlt (h.lt_of_exponent_lt h' hef).not_gt

theorem le_sub_of_lt (h : Regular m e) (h' : Regular n f) (hlt : (n : ℚ) * 2 ^ f < m * 2 ^ e) :
    (n : ℚ) * 2 ^ f ≤ m * 2 ^ e - gapBelow m e := by
  have he := two_zpow_pos e
  have hgap := gapBelow_le m e
  rcases le_or_gt e f with hef | hef
  · obtain ⟨k, hk⟩ := exists_multiple n hef
    rw [hk] at hlt ⊢
    have hmk : k + 1 ≤ m := Nat.cast_lt.1 (lt_of_mul_lt_mul_right hlt he.le)
    have : ((k + 1 : ℕ) : ℚ) * 2 ^ e ≤ m * 2 ^ e := cast_mul_two_zpow_le hmk e
    push_cast at this
    linarith
  · have hleast := lt_of_le_of_lt h'.least_le hef
    have hlow := mul_two_zpow_le h'.lt hef
    rcases (h.full hleast).eq_or_lt with hm | hm
    · rw [gapBelow, if_pos ⟨hm.symm, hleast⟩, ← hm]
      push_cast
      linarith
    · have : ((2 ^ 52 + 1 : ℕ) : ℚ) * 2 ^ e ≤ m * 2 ^ e := cast_mul_two_zpow_le hm e
      push_cast at this
      linarith

end Regular

/-- No other double is nearer to a covered number, and one that is equally near shows that `m` is
even. -/
theorem Covered.nearest (hc : Covered m e q) (h : Regular m e) (h' : Regular n f)
    (hne : (n : ℚ) * 2 ^ f ≠ m * 2 ^ e) :
    |q - m * 2 ^ e| ≤ |q - n * 2 ^ f| ∧ (|q - n * 2 ^ f| = |q - m * 2 ^ e| → m % 2 = 0) := by
  obtain ⟨⟨hlow, hhigh⟩, hmiddle⟩ := hc
  have he := two_zpow_pos e
  have hg := gapBelow_pos m e
  have hgap := gapBelow_le m e
  rcases hne.lt_or_gt with hlt | hlt
  · have hw := h.le_sub_of_lt h' hlt
    rw [abs_of_pos (a := q - n * 2 ^ f) (by linarith)]
    refine ⟨abs_le.2 ⟨by linarith, by linarith⟩, fun heq => hmiddle.resolve_right fun hin => ?_⟩
    rcases abs_choice (q - m * 2 ^ e) with habs | habs <;> rw [habs] at heq <;> linarith
  · have hw := h.add_le_of_lt h' hlt
    rw [abs_of_neg (a := q - n * 2 ^ f) (by linarith)]
    refine ⟨abs_le.2 ⟨by linarith, by linarith⟩, fun heq => hmiddle.resolve_right fun hin => ?_⟩
    rcases abs_choice (q - m * 2 ^ e) with habs | habs <;> rw [habs] at heq <;> linarith

/-- Half way between the greatest double and the next power of two. -/
def overflow : ℚ := 2 ^ 1024 - 2 ^ 970

theorem overflow_eq : overflow = (2 ^ 53 - 1 / 2) * 2 ^ (971 : ℤ) := by
  have htop : (2 : ℚ) ^ 1024 = 2 ^ 53 * 2 ^ 971 := pow_add 2 53 971
  have hhalf : (2 : ℚ) ^ 971 = 2 * 2 ^ 970 := pow_succ' 2 970
  have hint : (2 : ℚ) ^ (971 : ℤ) = 2 ^ 971 := zpow_natCast 2 971
  rw [overflow, hint, htop, hhalf]
  generalize (2 : ℚ) ^ 970 = half
  ring

theorem Covered.lt_overflow (hc : Covered m e q) (h : Regular m e) : q < overflow := by
  obtain ⟨⟨-, hhigh⟩, hmiddle⟩ := hc
  have he := two_zpow_pos e
  have htop : (2 : ℚ) ^ e ≤ 2 ^ (971 : ℤ) := zpow_le_zpow_right₀ one_le_two h.le
  have hbound : (2 ^ 53 - 1 / 2) * (2 : ℚ) ^ e ≤ overflow := by
    rw [overflow_eq]
    exact mul_le_mul_of_nonneg_left htop (by norm_num)
  rcases hmiddle with heven | ⟨-, hin⟩
  · have hm : m + 2 ≤ 2 ^ 53 := by
      have := h.lt
      omega
    have : ((m + 2 : ℕ) : ℚ) * 2 ^ e ≤ (2 ^ 53 : ℕ) * 2 ^ e := cast_mul_two_zpow_le hm e
    push_cast at this
    linarith
  · have : ((m + 1 : ℕ) : ℚ) * 2 ^ e ≤ (2 ^ 53 : ℕ) * 2 ^ e := cast_mul_two_zpow_le h.lt e
    push_cast at this
    linarith

/-- A magnitude with its sign. -/
def signed (negative : Bool) (q : ℚ) : ℚ := if negative then -q else q

/-- The number that a finite double stands for. -/
def value? : Double → Option ℚ
  | .finite negative m e => some (signed negative (m * 2 ^ e))
  | _ => none

/-- No double is nearer to `v` than the number `a` with mantissa `m`, and another one is equally near
only if `m` is even. -/
def IsNearest (v a : ℚ) (m : ℕ) : Prop :=
  ∀ (y : Float) (r : ℚ), (ofFloat y).value? = some r → r ≠ a →
    |v - a| ≤ |v - r| ∧ (|v - r| = |v - a| → m % 2 = 0)

/-- `x` is what the number with the given sign and magnitude is rounded to: an infinity from half way
between the greatest double and the next power of two on, and otherwise the nearest double, of two
equally near ones that with the even mantissa. Zero has a sign, too. -/
structure Rounds (negative : Bool) (q : ℚ) (x : Float) : Prop where
  infinite : overflow ≤ q → ofFloat x = .infinite negative
  finite : q < overflow → ∃ m e, ofFloat x = .finite negative m e ∧
    IsNearest (signed negative q) (signed negative (m * 2 ^ e)) m

theorem abs_signed_sub (negative : Bool) (a b : ℚ) :
    |signed negative a - signed negative b| = |a - b| := by
  cases negative
  · rfl
  · rw [signed, signed, if_pos rfl, if_pos rfl, neg_sub_neg, abs_sub_comm]

theorem abs_signed_sub_of_ne {sign negative : Bool} (h : sign ≠ negative) (a b : ℚ) :
    |signed negative a - signed sign b| = |a + b| := by
  cases negative <;> cases sign <;> try contradiction
  · rw [signed, signed, if_neg Bool.false_ne_true, if_pos rfl, sub_neg_eq_add]
  · rw [signed, signed, if_neg Bool.false_ne_true, if_pos rfl, ← abs_neg, neg_sub, sub_neg_eq_add,
      add_comm]

theorem signed_ne {negative : Bool} {a b : ℚ} (h : a ≠ b) : signed negative a ≠ signed negative b := by
  cases negative
  · exact h
  · exact neg_injective.ne h

theorem exists_of_value? {d : Double} {r : ℚ} (h : d.value? = some r) :
    ∃ negative m e, d = .finite negative m e ∧ r = signed negative (m * 2 ^ e) := by
  cases d <;> simp_all [value?]

theorem regular_zero : Regular 0 leastExponent :=
  ⟨by decide, Int.le_refl _, by decide, fun h => absurd h (Int.lt_irrefl _)⟩

/-- Zero is no nearer to a covered number. -/
theorem Covered.nearest_zero (hc : Covered m e q) (hq : 0 ≤ q) (h : Regular m e) :
    |q - m * 2 ^ e| ≤ q ∧ ((m : ℚ) * 2 ^ e ≠ 0 → q = |q - m * 2 ^ e| → m % 2 = 0) := by
  have hzero : ((0 : ℕ) : ℚ) * 2 ^ leastExponent = 0 := by rw [Nat.cast_zero, zero_mul]
  by_cases hm : (m : ℚ) * 2 ^ e = 0
  · rw [hm, sub_zero, abs_of_nonneg hq]
    exact ⟨le_rfl, fun h => absurd rfl h⟩
  · obtain ⟨hle, htie⟩ := hc.nearest h regular_zero (hzero.trans_ne (Ne.symm hm))
    rw [hzero, sub_zero, abs_of_nonneg hq] at hle htie
    exact ⟨hle, fun _ => htie⟩

/-- Doubles of the other sign are no nearer than zero is. -/
theorem Covered.isNearest (hc : Covered m e q) (hq : 0 ≤ q) (h : Regular m e) (negative : Bool) :
    IsNearest (signed negative q) (signed negative (m * 2 ^ e)) m := by
  intro y r hy hne
  obtain ⟨sign, n, f, hn, rfl⟩ := exists_of_value? hy
  have h' := (regular_of_ofFloat hn).1
  by_cases hs : sign = negative
  · subst hs
    rw [abs_signed_sub, abs_signed_sub]
    exact hc.nearest h h' fun heq => hne (congrArg _ heq)
  · obtain ⟨hle, htie⟩ := hc.nearest_zero hq h
    have hw : 0 ≤ (n : ℚ) * 2 ^ f := mul_nonneg (Nat.cast_nonneg n) (two_zpow_pos f).le
    rw [abs_signed_sub, abs_signed_sub_of_ne hs, abs_of_nonneg (add_nonneg hq hw)]
    refine ⟨by linarith, fun heq => htie (fun hzero => hne ?_) (by linarith)⟩
    have hn0 : (n : ℚ) * 2 ^ f = 0 := by linarith
    rw [hn0, hzero, signed, signed, neg_zero, ite_self, ite_self]

theorem rounds_of_covered {x : Float} {negative : Bool} (hx : ofFloat x = .finite negative m e)
    (hq : 0 ≤ q) (hc : Covered m e q) : Rounds negative q x where
  infinite h := absurd (hc.lt_overflow (regular_of_ofFloat hx).1) h.not_gt
  finite _ := ⟨m, e, hx, hc.isNearest hq (regular_of_ofFloat hx).1 negative⟩

/-- A double with an even mantissa and a greater one are not equally near to a number between them:
the next one after the first is nearer, or it is the second. -/
theorem not_even_of_lt {x y : Float} {negative : Bool} (hx : ofFloat x = .finite negative m e)
    (hy : ofFloat y = .finite negative n f) (hlt : (m : ℚ) * 2 ^ e < n * 2 ^ f)
    (hnear : IsNearest (signed negative q) (signed negative (m * 2 ^ e)) m)
    (hnear' : IsNearest (signed negative q) (signed negative (n * 2 ^ f)) n) : False := by
  have hm := (regular_of_ofFloat hx).1
  have hn := (regular_of_ofFloat hy).1
  have he := two_zpow_pos e
  obtain ⟨hle, hmeven⟩ := hnear y _ (congrArg value? hy) (signed_ne hlt.ne')
  obtain ⟨hge, hneven⟩ := hnear' x _ (congrArg value? hx) (signed_ne hlt.ne)
  have htie := le_antisymm hle hge
  have heven := hmeven htie.symm
  have hneven := hneven htie
  have hnext : Regular (m + 1) e := by
    have := hm.lt
    exact ⟨by omega, hm.least_le, hm.le, fun h => Nat.le_succ_of_le (hm.full h)⟩
  have hgap := hm.add_le_of_lt hn hlt
  have hsucc : ((m + 1 : ℕ) : ℚ) * 2 ^ e = m * 2 ^ e + 2 ^ e := by
    push_cast
    ring
  rw [abs_signed_sub, abs_signed_sub] at htie
  have hmiddle : 2 * q = m * 2 ^ e + n * 2 ^ f := by
    rcases abs_eq_abs.1 htie with h | h <;> linarith
  rcases hgap.eq_or_lt with hlast | hbetween
  · obtain ⟨rfl, -⟩ := hnext.ext_value hn (hsucc.trans hlast)
    omega
  · have hz := ofFloat_withSign_finiteBits negative hnext
    have hnearer := (hnear _ _ (congrArg value? hz) (signed_ne (by linarith))).1
    rw [abs_signed_sub, abs_signed_sub, hsucc, abs_of_pos (by linarith)] at hnearer
    rcases abs_choice (q - (m * 2 ^ e + 2 ^ e)) with habs | habs <;> rw [habs] at hnearer <;> linarith

/-- There is only one double that a number is rounded to. -/
theorem Rounds.unique {x y : Float} {negative : Bool} (hx : Rounds negative q x)
    (hy : Rounds negative q y) : x = y := by
  rcases le_or_gt overflow q with hq | hq
  · exact ofFloat_injective ((hx.infinite hq).trans (hy.infinite hq).symm)
  · obtain ⟨m, e, hm, hnear⟩ := hx.finite hq
    obtain ⟨n, f, hn, hnear'⟩ := hy.finite hq
    rcases lt_trichotomy ((m : ℚ) * 2 ^ e) (n * 2 ^ f) with hlt | heq | hlt
    · exact (not_even_of_lt hm hn hlt hnear hnear').elim
    · obtain ⟨rfl, rfl⟩ := (regular_of_ofFloat hm).1.ext_value (regular_of_ofFloat hn).1 heq
      exact ofFloat_injective (hm.trans hn.symm)
    · exact (not_even_of_lt hn hm hlt hnear' hnear).elim

theorem Rounds.infinite_or_finite {x : Float} {negative : Bool} (h : Rounds negative q x) :
    ofFloat x = .infinite negative ∨ ∃ m e, ofFloat x = .finite negative m e := by
  rcases le_or_gt overflow q with hq | hq
  · exact .inl (h.infinite hq)
  · obtain ⟨m, e, hx, -⟩ := h.finite hq
    exact .inr ⟨m, e, hx⟩

theorem Rounds.ne_nan {x : Float} {negative : Bool} (h : Rounds negative q x) : ofFloat x ≠ .nan := by
  intro hn
  rcases h.infinite_or_finite with hx | ⟨m, e, hx⟩ <;> cases hn.symm.trans hx

/-- `q` is counted in the unit in the last place of a double of its size, and `m` is the nearest
count. -/
structure Scaled (q : ℚ) (m : ℕ) (e : ℤ) : Prop where
  least_le : leastExponent ≤ e
  lt : q < 2 ^ 53 * 2 ^ e
  le : leastExponent < e → 2 ^ 52 * 2 ^ e ≤ q
  nearest : NearestWhole (q / 2 ^ e) m

namespace Scaled

theorem le_full (h : Scaled q m e) : m ≤ 2 ^ 53 := by
  refine h.nearest.le_of_le ?_
  push_cast
  exact ((div_lt_iff₀ (two_zpow_pos e)).2 h.lt).le

theorem full (h : Scaled q m e) (he : leastExponent < e) : 2 ^ 52 ≤ m := by
  refine h.nearest.ge_of_ge ?_
  push_cast
  exact (le_div_iff₀ (two_zpow_pos e)).2 (h.le he)

/-- The bounds of the nearest count in numbers. -/
theorem bounds (h : Scaled q m e) :
    (m * 2 ^ e - 2 ^ e / 2 ≤ q ∧ q ≤ m * 2 ^ e + 2 ^ e / 2) ∧
      (m % 2 = 0 ∨ m * 2 ^ e - 2 ^ e / 2 < q ∧ q < m * 2 ^ e + 2 ^ e / 2) := by
  have he := two_zpow_pos e
  rcases h.nearest with hlt | ⟨htie, heven⟩
  · have hlow : (m : ℚ) - 1 / 2 < q / 2 ^ e := by linarith [(abs_lt.1 hlt).1]
    have hhigh : q / 2 ^ e < m + 1 / 2 := by linarith [(abs_lt.1 hlt).2]
    rw [lt_div_iff₀ he] at hlow
    rw [div_lt_iff₀ he] at hhigh
    exact ⟨⟨by linarith, by linarith⟩, .inr ⟨by linarith, by linarith⟩⟩
  · have hlow := h.nearest.sub_le
    have hhigh := h.nearest.le_add
    rw [le_div_iff₀ he] at hlow
    rw [div_le_iff₀ he] at hhigh
    exact ⟨⟨by linarith, by linarith⟩, .inl heven⟩

theorem covered (h : Scaled q m e) : Covered m e q := by
  obtain ⟨⟨hlow, hhigh⟩, hmiddle⟩ := h.bounds
  by_cases hfull : m = 2 ^ 52 ∧ leastExponent < e
  · -- nothing below the power of two is counted in this unit
    have hle := h.le hfull.2
    have hcast : (m : ℚ) = 2 ^ 52 := by
      rw [hfull.1]
      norm_num
    have hgap := gapBelow_pos m e
    refine ⟨⟨?_, hhigh⟩, .inl ?_⟩
    · rw [hcast]
      linarith
    · rw [hfull.1]
      decide
  · rw [Covered, gapBelow, if_neg hfull]
    exact h.bounds

/-- Rounded up to the next power of two, which has the next exponent. -/
theorem covered_carry (h : Scaled q (2 ^ 53) e) : Covered (2 ^ 52) (e + 1) q := by
  obtain ⟨⟨hlow, -⟩, -⟩ := h.bounds
  have hlt := h.lt
  have he := two_zpow_pos e
  have hgap : gapBelow (2 ^ 52) (e + 1) = 2 ^ e := by
    rw [gapBelow, if_pos ⟨rfl, Int.lt_add_one_iff.2 h.least_le⟩, two_zpow_succ]
    ring
  rw [Covered, hgap, two_zpow_succ]
  push_cast at hlow ⊢
  refine ⟨⟨by linarith, by linarith⟩, .inl ?_⟩
  decide

theorem exponent_le (h : Scaled q m e) (hq : q < overflow) : e ≤ 971 ∧ (e = 971 → m < 2 ^ 53) := by
  rw [overflow_eq] at hq
  have htop := two_zpow_pos 971
  refine ⟨not_lt.1 fun he => ?_, fun he => lt_of_le_of_ne h.le_full fun hm => ?_⟩
  · have hle := h.le (lt_trans (by decide) he)
    have hmono : (2 : ℚ) ^ ((971 : ℤ) + 1) ≤ 2 ^ e := zpow_le_zpow_right₀ one_le_two he
    rw [two_zpow_succ] at hmono
    generalize (2 : ℚ) ^ (971 : ℤ) = top at *
    linarith
  · have hlow := h.bounds.1.1
    rw [he, hm] at hlow
    generalize (2 : ℚ) ^ (971 : ℤ) = top at *
    push_cast at hlow
    linarith

theorem infinityBits_le (h : Scaled q m e) (hq : overflow ≤ q) : infinityBits ≤ finiteBits m e := by
  rw [overflow_eq] at hq
  have htop := two_zpow_pos 971
  rw [infinityBits_eq, finiteBits, leastExponent_eq]
  rcases lt_trichotomy e 971 with he | rfl | he
  · -- too small a number
    have hlt := h.lt
    have hmono : (2 : ℚ) ^ (e + 1) ≤ 2 ^ (971 : ℤ) := zpow_le_zpow_right₀ one_le_two he
    rw [two_zpow_succ] at hmono
    generalize (2 : ℚ) ^ (971 : ℤ) = top at *
    linarith
  · obtain ⟨⟨-, hhigh⟩, hmiddle⟩ := h.bounds
    generalize (2 : ℚ) ^ (971 : ℤ) = top at *
    have hm : 2 ^ 53 - 1 ≤ m := by
      have : ((2 ^ 53 - 1 : ℕ) : ℚ) * top ≤ m * top := by
        push_cast
        linarith
      exact Nat.cast_le.1 (le_of_mul_le_mul_right this htop)
    have hne : m ≠ 2 ^ 53 - 1 := by
      rintro rfl
      have hin := hmiddle.resolve_left (by decide)
      push_cast at hin
      linarith
    omega
  · have hfull := h.full (lt_trans (by decide) he)
    omega

end Scaled

theorem nearestBits_eq {x : Fraction} (hn : 0 < x.num) (hd : 0 < x.den) :
    ∃ m e, Scaled x.value m e ∧ nearestBits x = min (finiteBits m e) infinityBits := by
  have hlog : x.log 2 = Int.log 2 x.value := Fraction.log_eq one_lt_two hn hd
  have hle := Int.zpow_log_le_self one_lt_two (Fraction.value_pos hn hd)
  have hlt := Int.lt_zpow_succ_log_self one_lt_two x.value
  rw [← hlog, Nat.cast_ofNat] at hle hlt
  set e := max (x.log 2 - 52) leastExponent with he
  have hround := Fraction.round_nearest (Fraction.den_times_pos two_pos hd (-e))
  rw [Fraction.value_times two_pos, Nat.cast_ofNat, zpow_neg, ← div_eq_mul_inv] at hround
  refine ⟨_, e, ⟨le_max_right _ _, ?_, fun hleast => ?_, hround⟩, ?_⟩
  · have hexp : x.log 2 + 1 ≤ 53 + e := by omega
    calc x.value < 2 ^ (x.log 2 + 1) := hlt
      _ ≤ 2 ^ (53 + e) := zpow_le_zpow_right₀ one_le_two hexp
      _ = 2 ^ 53 * 2 ^ e := zpow_add₀ two_ne_zero 53 e
  · have hexp : 52 + e = x.log 2 := by omega
    calc (2 : ℚ) ^ 52 * 2 ^ e = 2 ^ (52 + e) := (zpow_add₀ two_ne_zero 52 e).symm
      _ = 2 ^ x.log 2 := by rw [hexp]
      _ ≤ x.value := hle
  · rw [nearestBits, if_neg hn.ne']
    rfl

theorem covered_zero (hq : 0 ≤ q) (hle : q ≤ 2 ^ leastExponent / 2) : Covered 0 leastExponent q := by
  have hgap := gapBelow_pos 0 leastExponent
  rw [Covered, Nat.cast_zero, zero_mul]
  exact ⟨⟨by linarith, by linarith⟩, .inl rfl⟩

theorem rounds_withSign_infinityBits (hq : overflow ≤ q) (negative : Bool) :
    Rounds negative q (withSign negative infinityBits) where
  infinite _ := ofFloat_withSign_infinityBits negative
  finite h := absurd h hq.not_gt

theorem rounds_withSign_finiteBits (h : Regular m e) (hq : 0 ≤ q) (hc : Covered m e q)
    (negative : Bool) : Rounds negative q (withSign negative (finiteBits m e)) :=
  rounds_of_covered (ofFloat_withSign_finiteBits negative h) hq hc

theorem rounds_nearest {x : Fraction} (hd : 0 < x.den) (negative : Bool) :
    Rounds negative x.value (nearest negative x) := by
  have hnonneg := x.value_nonneg
  rcases x.num.eq_zero_or_pos with hzero | hpos
  · have hb : nearestBits x = finiteBits 0 leastExponent := by rw [nearestBits, if_pos hzero]; rfl
    rw [nearest, hb]
    refine rounds_withSign_finiteBits regular_zero hnonneg ?_ negative
    rw [Fraction.value_eq_zero hzero]
    exact covered_zero le_rfl (half_pos (two_zpow_pos _)).le
  · obtain ⟨m, e, hs, hb⟩ := nearestBits_eq hpos hd
    rw [nearest, hb]
    rcases le_or_gt overflow x.value with hq | hq
    · rw [min_eq_right (hs.infinityBits_le hq)]
      exact rounds_withSign_infinityBits hq negative
    · obtain ⟨hle, htop⟩ := hs.exponent_le hq
      rcases hs.le_full.eq_or_lt with rfl | hm
      · have hr : Regular (2 ^ 52) (e + 1) :=
          ⟨by decide, Int.le_add_one hs.least_le, by omega, fun _ => le_rfl⟩
        have hcarry : finiteBits (2 ^ 53) e = finiteBits (2 ^ 52) (e + 1) := by
          have := hs.least_le
          rw [finiteBits, finiteBits]
          omega
        rw [hcarry, min_eq_left (finiteBits_lt hr).le]
        exact rounds_withSign_finiteBits hr hnonneg hs.covered_carry negative
      · have hr : Regular m e := ⟨hm, hs.least_le, hle, hs.full⟩
        rw [min_eq_left (finiteBits_lt hr).le]
        exact rounds_withSign_finiteBits hr hnonneg hs.covered negative

theorem value_quarters (k : ℕ) (e : ℤ) :
    ((Fraction.ofNat k).times 2 (e - 2)).value = k * (2 ^ e / 4) := by
  rw [Fraction.value_times two_pos, Fraction.value_ofNat, Nat.cast_ofNat, zpow_sub₀ two_ne_zero]
  norm_num

theorem low_end_eq (hm : 0 < m) (e : ℤ) :
    ((roundingEnds m e).1 : ℚ) * (2 ^ e / 4) = m * 2 ^ e - gapBelow m e / 2 := by
  rw [roundingEnds, gapBelow]
  simp only [Nat.pow_eq]
  split
  · rw [Nat.cast_sub (by omega)]
    push_cast
    ring
  · rw [Nat.cast_sub (by omega)]
    push_cast
    ring

theorem high_end_eq (m : ℕ) (e : ℤ) :
    ((roundingEnds m e).2 : ℚ) * (2 ^ e / 4) = m * 2 ^ e + 2 ^ e / 2 := by
  rw [roundingEnds]
  push_cast
  ring

/-- The test in fractions says what it is meant to say. -/
theorem covers_iff (hm : 0 < m) {x : Fraction} (hd : 0 < x.den) :
    covers m e x = true ↔ Covered m e x.value := by
  have hends : ∀ k : ℕ, 0 < ((Fraction.ofNat k).times 2 (e - 2)).den := fun k =>
    Fraction.den_times_pos two_pos Nat.one_pos _
  rw [covers, Covered]
  split
  next heven =>
    rw [Bool.and_eq_true, Fraction.le_iff (hends _) hd, Fraction.le_iff hd (hends _), value_quarters,
      value_quarters, low_end_eq hm, high_end_eq]
    exact ⟨fun h => ⟨h, .inl heven⟩, fun h => h.1⟩
  next hodd =>
    rw [Bool.and_eq_true, Fraction.lt_iff (hends _) hd, Fraction.lt_iff hd (hends _), value_quarters,
      value_quarters, low_end_eq hm, high_end_eq]
    exact ⟨fun h => ⟨⟨h.1.le, h.2.le⟩, .inr h⟩, fun h => h.2.resolve_left hodd⟩

end Scriptlet.Double
