import Scriptlet.Proofs.NearestDouble

/-!
The order of doubles. A double stands for a rational or for one of two ends beyond all of them, and
two doubles compare as what they stand for; one that is no number has no place among them.
-/

namespace Scriptlet.Double

open Float.Model

/-- The rationals and the two ends. -/
abbrev Place := WithBot (WithTop ℚ)

def Place.ofRat (r : ℚ) : Place := ((r : WithTop ℚ) : WithBot (WithTop ℚ))

theorem Place.strictMono_ofRat : StrictMono ofRat :=
  WithBot.coe_strictMono.comp WithTop.coe_strictMono

theorem Place.bot_lt_ofRat (r : ℚ) : ⊥ < ofRat r := WithBot.bot_lt_coe _

theorem Place.ofRat_lt_top (r : ℚ) : ofRat r < ⊤ := WithBot.coe_lt_coe.2 (WithTop.coe_lt_top r)

/-- What a double stands for. Both zeros stand for one number, the infinities for the two ends. -/
def place? : Double → Option Place
  | .nan => none
  | .infinite true => some ⊥
  | .infinite false => some ⊤
  | .finite negative m e => some (.ofRat (signed negative (m * 2 ^ e)))

theorem place?_eq_none_iff {d : Double} : d.place? = none ↔ d = .nan := by
  cases d with
  | nan => exact iff_of_true rfl rfl
  | infinite negative => cases negative <;> exact iff_of_false nofun nofun
  | finite negative m e => exact iff_of_false nofun nofun

theorem place?_zero (negative : Bool) (e : ℤ) :
    (finite negative 0 e).place? = some (.ofRat 0) := by
  rw [place?, Nat.cast_zero, zero_mul, signed, neg_zero, ite_self]

def isNegative : UnpackedFloat.Sign → Bool
  | .negative => true
  | .positive => false

/-- The double that a word is unpacked to. Zero is set apart there. -/
def ofUnpacked : UnpackedFloat → Double
  | .notANumber => .nan
  | .infinity s => .infinite (isNegative s)
  | .zero s => .finite (isNegative s) 0 leastExponent
  | .finite s m e _ => .finite (isNegative s) m e

theorem signBits_unpackSign (b : BitVec Format.binary64.numBits) :
    signBits (isNegative (.ofBitVec (UnpackedFloat.unpackSign b))) = b.toNat / 2 ^ 63 * 2 ^ 63 := by
  have hb : b.toNat < 2 ^ 64 := b.isLt
  have hzero : UnpackedFloat.unpackSign b = 0#1 ↔ b.toNat < 2 ^ 63 := by
    rw [← BitVec.toNat_inj, toNat_unpackSign, BitVec.toNat_zero]
    omega
  by_cases h : b.toNat < 2 ^ 63
  · rw [UnpackedFloat.Sign.ofBitVec, if_pos (hzero.2 h), Nat.div_eq_of_lt h, Nat.zero_mul]
    rfl
  · have hone : b.toNat / 2 ^ 63 = 1 := by omega
    rw [UnpackedFloat.Sign.ofBitVec, if_neg (mt hzero.1 h), hone, Nat.one_mul]
    rfl

theorem ofFloat_eq_ofUnpacked (x : Float) : ofFloat x = ofUnpacked x.toModel.unpack := by
  let b : BitVec Format.binary64.numBits := x.toModel.toBits.toBitVec
  set exponent := UnpackedFloat.unpackExponent b with hexponent
  set mantissa := UnpackedFloat.unpackMantissa b with hmantissa
  have hu : x.toModel.unpack = UnpackedFloat.unpack Format.binary64 b := rfl
  have hw : x.toBits.toNat = signBits (isNegative (.ofBitVec (UnpackedFloat.unpackSign b))) +
      (exponent.toNat * 2 ^ 52 + mantissa.toNat) := by
    have hb : b.toNat < 2 ^ 64 := b.isLt
    have hx : x.toBits.toNat = b.toNat := rfl
    rw [signBits_unpackSign, hexponent, hmantissa, toNat_unpackExponent, toNat_unpackMantissa, hx]
    omega
  have hfull : exponent = -1#11 ↔ exponent.toNat = 2047 := by
    rw [← BitVec.toNat_inj]
    rfl
  have hleast : exponent = 0#11 ↔ exponent.toNat = 0 := by
    rw [← BitVec.toNat_inj]
    rfl
  have hzero : mantissa = 0#52 ↔ mantissa.toNat = 0 := by
    rw [← BitVec.toNat_inj]
    rfl
  have hlead : (1#1 ++ mantissa).toNat = 2 ^ 52 + mantissa.toNat := by
    rw [BitVec.toNat_append, ← Nat.shiftLeft_add_eq_or_of_lt mantissa.isLt]
    rfl
  rw [ofFloat, ofBits_eq exponent.isLt mantissa.isLt hw, hu, UnpackedFloat.unpack]
  simp only [← hfull, ← hleast, ← hzero, ← hexponent, ← hmantissa]
  split
  next => split <;> rfl
  next =>
    split
    next h =>
      split
      next hm =>
        rw [hzero.1 hm]
        rfl
      next =>
        rw [hleast.1 h]
        rfl
    next =>
      have hbias : (exponent.toNat : ℤ) - (Format.binary64.exponentBias + 52) =
          leastExponent + exponent.toNat - 1 := by
        have : (Format.binary64.exponentBias : ℤ) = 1023 := rfl
        rw [this, leastExponent_eq]
        omega
      rw [ofUnpacked, hlead]
      exact congrArg _ hbias.symm

theorem Regular.compares {m n : ℕ} {e f : ℤ} (h : Regular m e) (h' : Regular n f) :
    ((compare e f).then (compare m n)).Compares ((m : ℚ) * 2 ^ e) (n * 2 ^ f) := by
  rcases lt_trichotomy e f with hef | rfl | hef
  · rw [compare_lt_iff_lt.2 hef]
    exact h'.lt_of_exponent_lt h hef
  · rw [compare_eq_iff_eq.2 rfl]
    have hmono : StrictMono fun k : ℕ => (k : ℚ) * 2 ^ e := fun i j hij =>
      mul_lt_mul_of_pos_right (Nat.cast_lt.2 hij) (two_zpow_pos e)
    exact hmono.compares.2 ((compare_iff m n).1 rfl)
  · rw [compare_gt_iff_gt.2 hef]
    exact h.lt_of_exponent_lt h' hef

/-- What an unpacked double stands for. -/
inductive StandsFor : UnpackedFloat → Place → Prop
  | bottom : StandsFor (.infinity .negative) ⊥
  | top : StandsFor (.infinity .positive) ⊤
  | zero {s : UnpackedFloat.Sign} : StandsFor (.zero s) (.ofRat 0)
  | positive {m : ℕ} {e : ℤ} (hm : 0 < m) (h : Regular m e) :
      StandsFor (.finite .positive m e hm) (.ofRat (m * 2 ^ e))
  | negative {m : ℕ} {e : ℤ} (hm : 0 < m) (h : Regular m e) :
      StandsFor (.finite .negative m e hm) (.ofRat (-(m * 2 ^ e)))

theorem standsFor_unpack {x : Float} {p : Place} (hp : (ofFloat x).place? = some p) :
    StandsFor x.toModel.unpack p := by
  have hx := ofFloat_eq_ofUnpacked x
  cases hu : x.toModel.unpack with
  | notANumber =>
    rw [hx, hu] at hp
    cases hp
  | infinity s =>
    rw [hx, hu] at hp
    cases s <;> cases hp
    · exact .bottom
    · exact .top
  | zero s =>
    rw [hx, hu, ofUnpacked, place?_zero] at hp
    cases hp
    exact .zero
  | finite s m e hm =>
    rw [hu] at hx
    have h := (regular_of_ofFloat hx).1
    rw [hx] at hp
    cases s <;> cases hp
    · exact .negative hm h
    · exact .positive hm h

namespace StandsFor

variable {u v : UnpackedFloat} {p q : Place}

/-- Unpacked doubles compare as what they stand for. -/
theorem compares (hu : StandsFor u p) (hv : StandsFor v q) :
    ∃ o, u.compare v = some o ∧ o.Compares p q := by
  have hpos {m : ℕ} {e : ℤ} (hm : 0 < m) : (0 : ℚ) < m * 2 ^ e :=
    mul_pos (Nat.cast_pos.2 hm) (two_zpow_pos e)
  have hlt {r s : ℚ} (h : r < s) := Place.strictMono_ofRat h
  cases hu with
  | bottom =>
    cases hv with
    | bottom => exact ⟨.eq, rfl, rfl⟩
    | top => exact ⟨.lt, rfl, bot_lt_top⟩
    | zero | positive | negative => exact ⟨.lt, rfl, Place.bot_lt_ofRat _⟩
  | top =>
    cases hv with
    | top => exact ⟨.eq, rfl, rfl⟩
    | bottom => exact ⟨.gt, rfl, bot_lt_top⟩
    | zero | positive | negative => exact ⟨.gt, rfl, Place.ofRat_lt_top _⟩
  | zero =>
    cases hv with
    | bottom => exact ⟨.gt, rfl, Place.bot_lt_ofRat _⟩
    | top => exact ⟨.lt, rfl, Place.ofRat_lt_top _⟩
    | zero => exact ⟨.eq, rfl, rfl⟩
    | positive hm => exact ⟨.lt, rfl, hlt (hpos hm)⟩
    | negative hm => exact ⟨.gt, rfl, hlt (neg_neg_of_pos (hpos hm))⟩
  | positive hm h =>
    cases hv with
    | bottom => exact ⟨.gt, rfl, Place.bot_lt_ofRat _⟩
    | top => exact ⟨.lt, rfl, Place.ofRat_lt_top _⟩
    | zero => exact ⟨.gt, rfl, hlt (hpos hm)⟩
    | positive hn h' => exact ⟨_, rfl, Place.strictMono_ofRat.compares.2 (h.compares h')⟩
    | negative hn => exact ⟨.gt, rfl, hlt ((neg_neg_of_pos (hpos hn)).trans (hpos hm))⟩
  | negative hm h =>
    cases hv with
    | bottom => exact ⟨.gt, rfl, Place.bot_lt_ofRat _⟩
    | top => exact ⟨.lt, rfl, Place.ofRat_lt_top _⟩
    | zero => exact ⟨.lt, rfl, hlt (neg_neg_of_pos (hpos hm))⟩
    | positive hn => exact ⟨.lt, rfl, hlt ((neg_neg_of_pos (hpos hm)).trans (hpos hn))⟩
    | negative hn h' =>
      -- of two negative numbers the one of the greater magnitude is the lesser
      have hneg : StrictAnti fun r : ℚ => -r := fun _ _ => neg_lt_neg
      have hc := hneg.compares.2 (Ordering.compares_swap.2 (h.compares h'))
      exact ⟨_, rfl, Place.strictMono_ofRat.compares.2 hc⟩

end StandsFor

section Order

variable {x y : Float}

theorem compare_eq_none (h : ofFloat x = .nan ∨ ofFloat y = .nan) :
    x.toModel.unpack.compare y.toModel.unpack = none := by
  have hnan {z : Float} (h : ofFloat z = .nan) : z.toModel.unpack = .notANumber := by
    rw [ofFloat_eq_ofUnpacked] at h
    cases hz : z.toModel.unpack with
    | notANumber => rfl
    | infinity s | zero s | finite s m e hm =>
      rw [hz] at h
      cases h
  rcases h with h | h
  · rw [hnan h]
    rfl
  · rw [hnan h]
    cases x.toModel.unpack with
    | infinity s => cases s <;> rfl
    | notANumber => rfl
    | zero s => rfl
    | finite s m e hm => cases s <;> rfl

/-- What a comparison says about what both doubles stand for. -/
theorem compare_eq_some_iff {o : Ordering} : x.toModel.unpack.compare y.toModel.unpack = some o ↔
    ∃ p q, (ofFloat x).place? = some p ∧ (ofFloat y).place? = some q ∧ o.Compares p q := by
  cases hp : (ofFloat x).place? with
  | none =>
    rw [compare_eq_none (.inl (place?_eq_none_iff.1 hp))]
    exact ⟨nofun, nofun⟩
  | some p =>
    cases hq : (ofFloat y).place? with
    | none =>
      rw [compare_eq_none (.inr (place?_eq_none_iff.1 hq))]
      exact ⟨nofun, nofun⟩
    | some q =>
      obtain ⟨o', ho, hc⟩ := (standsFor_unpack hp).compares (standsFor_unpack hq)
      rw [ho]
      constructor
      · rintro ⟨⟩
        exact ⟨p, q, rfl, rfl, hc⟩
      · rintro ⟨_, _, ⟨⟩, ⟨⟩, hc'⟩
        rw [hc.inj hc']

theorem lt_iff : x < y ↔
    ∃ p q, (ofFloat x).place? = some p ∧ (ofFloat y).place? = some q ∧ p < q := by
  have hlt : (x < y) = (x.lt y = true) := rfl
  rw [hlt, Float.lt, decide_eq_true_iff]
  exact beq_iff_eq.trans compare_eq_some_iff

theorem beq_iff : (x == y) = true ↔
    ∃ p q, (ofFloat x).place? = some p ∧ (ofFloat y).place? = some q ∧ p = q := by
  have hbeq : (x == y) = (x.toModel.unpack.compare y.toModel.unpack == some .eq) := rfl
  rw [hbeq, beq_iff_eq]
  exact compare_eq_some_iff

theorem beq_symm (h : (x == y) = true) : (y == x) = true := by
  obtain ⟨p, q, hp, hq, heq⟩ := beq_iff.1 h
  exact beq_iff.2 ⟨q, p, hq, hp, heq.symm⟩

theorem beq_trans {z : Float} (hxy : (x == y) = true) (hyz : (y == z) = true) : (x == z) = true := by
  obtain ⟨p, q, hp, hq, rfl⟩ := beq_iff.1 hxy
  obtain ⟨q, r, hq', hr, rfl⟩ := beq_iff.1 hyz
  exact beq_iff.2 ⟨p, q, hp, hr, Option.some.inj (hq.symm.trans hq')⟩

theorem lt_iff_place {p q : Place} (hp : (ofFloat x).place? = some p)
    (hq : (ofFloat y).place? = some q) : x < y ↔ p < q := by
  rw [lt_iff, hp, hq]
  simp

theorem beq_iff_place {p q : Place} (hp : (ofFloat x).place? = some p)
    (hq : (ofFloat y).place? = some q) : (x == y) = true ↔ p = q := by
  rw [beq_iff, hp, hq]
  simp [eq_comm]

/-- No comparison with a double that is no number holds. -/
theorem incomparable (h : ofFloat x = .nan ∨ ofFloat y = .nan) :
    ¬ x < y ∧ (x == y) = false ∧ ¬ y < x := by
  have hplaces {p q} (hp : (ofFloat x).place? = some p) (hq : (ofFloat y).place? = some q) : False := by
    rcases h with h | h
    · rw [h] at hp
      cases hp
    · rw [h] at hq
      cases hq
  refine ⟨fun hlt => ?_, Bool.eq_false_iff.2 fun heq => ?_, fun hlt => ?_⟩
  · obtain ⟨p, q, hp, hq, -⟩ := lt_iff.1 hlt
    exact hplaces hp hq
  · obtain ⟨p, q, hp, hq, -⟩ := beq_iff.1 heq
    exact hplaces hp hq
  · obtain ⟨q, p, hq, hp, -⟩ := lt_iff.1 hlt
    exact hplaces hp hq

/-- A double is the same as itself if it is a number. -/
theorem beq_self_iff : (x == x) = true ↔ ofFloat x ≠ .nan := by
  rw [beq_iff, ne_eq, ← place?_eq_none_iff, ← ne_eq, Option.ne_none_iff_exists']
  simp

end Order

theorem eq_or_zero_of_signed_eq {s t : Bool} {a b : ℚ} (ha : 0 ≤ a) (hb : 0 ≤ b)
    (h : signed s a = signed t b) : s = t ∧ a = b ∨ a = 0 ∧ b = 0 := by
  cases s <;> cases t <;> simp only [signed, Bool.false_eq_true, if_true, if_false] at h
  · exact .inl ⟨rfl, h⟩
  · exact .inr ⟨by linarith, by linarith⟩
  · exact .inr ⟨by linarith, by linarith⟩
  · exact .inl ⟨rfl, neg_injective h⟩

theorem Regular.eq_zero {m : ℕ} {e : ℤ} (h : Regular m e) (hzero : (m : ℚ) * 2 ^ e = 0) :
    m = 0 ∧ e = leastExponent := by
  have hm : ((0 : ℕ) : ℚ) * 2 ^ leastExponent = 0 := by rw [Nat.cast_zero, zero_mul]
  exact h.ext_value regular_zero (hzero.trans hm.symm)

theorem eq_infinite_of_place {d : Double} {s : Bool} (h : d.place? = (infinite s).place?) :
    d = .infinite s := by
  cases d with
  | nan => cases s <;> cases h
  | infinite t => cases s <;> cases t <;> first | rfl | cases h
  | finite t m e => cases s <;> cases h

theorem eq_finite_of_place {d : Double} {r : ℚ} (h : d.place? = some (.ofRat r)) :
    ∃ s m e, d = .finite s m e ∧ signed s (m * 2 ^ e) = r := by
  cases d with
  | nan => cases h
  | infinite s => cases s <;> cases h
  | finite s m e => exact ⟨s, m, e, rfl, Place.strictMono_ofRat.injective (Option.some.inj h)⟩

/-- Floats that are equal as numbers are one float, unless they are zeros. -/
theorem eq_or_zero_of_beq {x y : Float} (h : (x == y) = true) : x = y ∨
    ∃ s t, ofFloat x = .finite s 0 leastExponent ∧ ofFloat y = .finite t 0 leastExponent := by
  obtain ⟨p, q, hp, hq, rfl⟩ := beq_iff.1 h
  cases hx : ofFloat x with
  | nan =>
    rw [hx] at hp
    cases hp
  | infinite s =>
    rw [hx] at hp
    have hy := eq_infinite_of_place (hq.trans hp.symm)
    exact .inl (ofFloat_injective (hx.trans hy.symm))
  | finite s m e =>
    rw [hx] at hp
    obtain ⟨t, n, f, hy, hsigned⟩ := eq_finite_of_place (hq.trans hp.symm)
    have hm := (regular_of_ofFloat hx).1
    have hn := (regular_of_ofFloat hy).1
    have hpos {k : ℕ} {i : ℤ} : (0 : ℚ) ≤ k * 2 ^ i :=
      mul_nonneg (Nat.cast_nonneg k) (two_zpow_pos i).le
    rcases eq_or_zero_of_signed_eq hpos hpos hsigned with ⟨rfl, heq⟩ | ⟨hzero', hzero⟩
    · obtain ⟨rfl, rfl⟩ := hn.ext_value hm heq
      exact .inl (ofFloat_injective (hx.trans hy.symm))
    · obtain ⟨rfl, rfl⟩ := hm.eq_zero hzero
      obtain ⟨rfl, rfl⟩ := hn.eq_zero hzero'
      exact .inr ⟨s, t, rfl, hy⟩

theorem beq_of_zeros {x y : Float} {s t : Bool} {e f : ℤ} (hx : ofFloat x = .finite s 0 e)
    (hy : ofFloat y = .finite t 0 f) : (x == y) = true :=
  beq_iff.2 ⟨_, _, hx ▸ place?_zero s e, hy ▸ place?_zero t f, rfl⟩

end Scriptlet.Double
