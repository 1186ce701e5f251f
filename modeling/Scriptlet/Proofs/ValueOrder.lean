import Scriptlet.Proofs.ChainKind
import Scriptlet.Proofs.NumberOrder

/-!
Order and equality of values. Two numbers compare as what they stand for, so that exactly one of the
three comparisons holds of them; a number that is none fails all three, and what is no number has no
order at all.
-/

namespace Scriptlet

namespace Value

/-- What a number stands for, if the value is one. -/
def place? : Value → Option Double.Place
  | number x => (Double.ofFloat x).place?
  | _ => none

/-- The number that is none. -/
def isNan : Value → Bool
  | number x => Double.ofFloat x = .nan
  | _ => false

theorem exists_number {v : Value} (h : v.isNumber = true) : ∃ x, v = number x := by
  cases v with
  | number x => exact ⟨x, rfl⟩
  | nothing | boolean | native => cases h

theorem exists_number_of_place {v : Value} {p : Double.Place} (h : v.place? = some p) :
    ∃ x, v = number x ∧ (Double.ofFloat x).place? = some p := by
  cases v with
  | number x => exact ⟨x, rfl, h⟩
  | nothing | boolean | native => cases h

theorem exists_place {v : Value} (h : v.isNumber = true) (hn : v.isNan = false) :
    ∃ p, v.place? = some p := by
  obtain ⟨x, rfl⟩ := exists_number h
  exact Option.ne_none_iff_exists'.1 (mt Double.place?_eq_none_iff.1 (of_decide_eq_false hn))

end Value

namespace Operator

open Value

/-- The comparison that asks for an order of its operands. -/
def ofOrdering : Ordering → Operator
  | .lt => lessThan
  | .eq => equal
  | .gt => greaterThan

variable {a b c : Value} {p q : Double.Place}

theorem order_of_not_number (h : a.isNumber = false ∨ b.isNumber = false) :
    lessThan.apply a b = .nothing ∧ greaterThan.apply a b = .nothing := by
  cases a with
  | number x =>
    cases b with
    | number y => simp [isNumber] at h
    | nothing | boolean | native => exact ⟨rfl, rfl⟩
  | nothing | boolean | native => exact ⟨rfl, rfl⟩

theorem lessThan_eq_greaterThan (a b : Value) : lessThan.apply a b = greaterThan.apply b a := by
  cases ha : a.isNumber with
  | false => rw [(order_of_not_number (.inl ha)).1, (order_of_not_number (.inr ha)).2]
  | true =>
    cases hb : b.isNumber with
    | false => rw [(order_of_not_number (.inr hb)).1, (order_of_not_number (.inl hb)).2]
    | true =>
      obtain ⟨x, rfl⟩ := exists_number ha
      obtain ⟨y, rfl⟩ := exists_number hb
      rfl

theorem lessThan_of_place (hp : a.place? = some p) (hq : b.place? = some q) :
    lessThan.apply a b = .boolean (decide (p < q)) := by
  obtain ⟨x, rfl, hx⟩ := exists_number_of_place hp
  obtain ⟨y, rfl, hy⟩ := exists_number_of_place hq
  exact congrArg boolean (decide_eq_decide.2 (Double.lt_iff_place hx hy))

theorem equal_of_place (hp : a.place? = some p) (hq : b.place? = some q) :
    equal.apply a b = .boolean (decide (p = q)) := by
  obtain ⟨x, rfl, hx⟩ := exists_number_of_place hp
  obtain ⟨y, rfl, hy⟩ := exists_number_of_place hq
  have h := Double.beq_iff_place hx hy
  exact congrArg boolean (Bool.eq_iff_iff.2 (h.trans decide_eq_true_iff.symm))

theorem greaterThan_of_place (hp : a.place? = some p) (hq : b.place? = some q) :
    greaterThan.apply a b = .boolean (decide (q < p)) := by
  rw [← lessThan_eq_greaterThan, lessThan_of_place hq hp]

/-- A comparison holds if it asks for the order that the places of its operands have. -/
theorem ofOrdering_eq_true_iff (hp : a.place? = some p) (hq : b.place? = some q) (o : Ordering) :
    (ofOrdering o).apply a b = .boolean true ↔ o.Compares p q := by
  cases o with
  | lt => simp [ofOrdering, lessThan_of_place hp hq, Ordering.Compares]
  | eq => simp [ofOrdering, equal_of_place hp hq, Ordering.Compares]
  | gt => simp [ofOrdering, greaterThan_of_place hp hq, Ordering.Compares]

/-- Both operands of an order that holds have places. -/
theorem lessThan_eq_true_iff : lessThan.apply a b = .boolean true ↔
    ∃ p q, a.place? = some p ∧ b.place? = some q ∧ p < q := by
  constructor
  · intro h
    cases a with
    | number x =>
      cases b with
      | number y => exact Double.lt_iff.1 (of_decide_eq_true (boolean.inj h))
      | nothing | boolean | native => cases h
    | nothing | boolean | native => cases h
  · intro ⟨p, q, hp, hq, hlt⟩
    rw [lessThan_of_place hp hq, decide_eq_true hlt]

theorem ofOrdering_of_nan (ha : a.isNumber = true) (hb : b.isNumber = true)
    (h : a.isNan = true ∨ b.isNan = true) (o : Ordering) :
    (ofOrdering o).apply a b = .boolean false := by
  obtain ⟨x, rfl⟩ := exists_number ha
  obtain ⟨y, rfl⟩ := exists_number hb
  obtain ⟨hlt, heq, hgt⟩ := Double.incomparable (h.imp of_decide_eq_true of_decide_eq_true)
  cases o with
  | lt => exact congrArg boolean (decide_eq_false hlt)
  | eq => exact congrArg boolean heq
  | gt => exact congrArg boolean (decide_eq_false hgt)

/-- The three comparisons fit together. Less and greater are the two sides of one order, which is
transitive. Of two numbers exactly one comparison holds, the one that what they stand for asks for; it
fails with a number that is none. Other values have no order, but are equal or not. -/
theorem order_agrees_with_equality (a b c : Value) :
    lessThan.apply a b = greaterThan.apply b a ∧
    (a.isNumber = true → b.isNumber = true → a.isNan = false → b.isNan = false →
      (∃! o, (ofOrdering o).apply a b = .boolean true) ∧
      ∃ p q, a.place? = some p ∧ b.place? = some q ∧
        lessThan.apply a b = .boolean (decide (p < q)) ∧
        equal.apply a b = .boolean (decide (p = q)) ∧
        greaterThan.apply a b = .boolean (decide (q < p))) ∧
    (a.isNumber = true → b.isNumber = true → a.isNan = true ∨ b.isNan = true →
      ∀ o, (ofOrdering o).apply a b = .boolean false) ∧
    (a.isNumber = false ∨ b.isNumber = false →
      lessThan.apply a b = .nothing ∧ greaterThan.apply a b = .nothing ∧
        ∃ r, equal.apply a b = .boolean r) ∧
    (lessThan.apply a b = .boolean true → lessThan.apply b c = .boolean true →
      lessThan.apply a c = .boolean true) := by
  refine ⟨lessThan_eq_greaterThan a b, fun ha hb hna hnb => ?_, ofOrdering_of_nan, fun h => ?_,
    fun hab hbc => ?_⟩
  · obtain ⟨p, hp⟩ := exists_place ha hna
    obtain ⟨q, hq⟩ := exists_place hb hnb
    have hiff := ofOrdering_eq_true_iff hp hq
    exact ⟨⟨cmp p q, (hiff _).2 (cmp_compares p q), fun o ho => ((hiff o).1 ho).inj (cmp_compares p q)⟩,
      p, q, hp, hq, lessThan_of_place hp hq, equal_of_place hp hq, greaterThan_of_place hp hq⟩
  · obtain ⟨hl, hg⟩ := order_of_not_number h
    exact ⟨hl, hg, _, rfl⟩
  · obtain ⟨p, q, hp, hq, hpq⟩ := lessThan_eq_true_iff.1 hab
    obtain ⟨q', r, hq', hr, hqr⟩ := lessThan_eq_true_iff.1 hbc
    obtain rfl : q = q' := Option.some.inj (hq.symm.trans hq')
    exact lessThan_eq_true_iff.2 ⟨p, r, hp, hr, hpq.trans hqr⟩

/-- Minus zero lies between minus infinity and one, and equals zero. -/
theorem order_agrees_with_equality_zero :
    let bottom : Value := .number (.ofBits 0xfff0000000000000)
    let minus : Value := .number (.ofBits 0x8000000000000000)
    let zero : Value := .number (.ofBits 0)
    let one : Value := .number (.ofBits 0x3ff0000000000000)
    let nan : Value := .number (.ofBits 0x7ff8000000000000)
    lessThan.apply bottom one = .boolean true ∧
      (∃! o, (ofOrdering o).apply minus zero = .boolean true) ∧
      equal.apply minus zero = .boolean true ∧
      (∀ o, (ofOrdering o).apply nan one = .boolean false) ∧
      lessThan.apply (.boolean true) one = .nothing := by
  intro bottom minus zero one nan
  have hlow : lessThan.apply bottom minus = .boolean true := congrArg boolean (by decide)
  have hhigh : lessThan.apply minus one = .boolean true := congrArg boolean (by decide)
  have hequal : equal.apply minus zero = .boolean true := congrArg boolean (by decide)
  obtain ⟨-, -, -, -, htrans⟩ := order_agrees_with_equality bottom minus one
  obtain ⟨-, hone, -⟩ := order_agrees_with_equality minus zero one
  obtain ⟨-, -, hnan, -⟩ := order_agrees_with_equality nan one one
  obtain ⟨-, -, -, hother, -⟩ := order_agrees_with_equality (.boolean true) one one
  exact ⟨htrans hlow hhigh, (hone rfl rfl (by decide) (by decide)).1, hequal,
    hnan rfl rfl (.inl (by decide)), (hother (.inl rfl)).1⟩

end Operator

end Scriptlet
