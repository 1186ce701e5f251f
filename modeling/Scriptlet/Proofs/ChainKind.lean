import Scriptlet.Proofs.DataIndependence
import Scriptlet.Proofs.DoubleDivision
import Scriptlet.Proofs.NestedEvaluation

/-!
What kind of value a chain of operators has. Only numbers joined by arithmetic are a number, so what
is no number on the right, and a comparison there, comes out as `nothing` at the next operator; a
comparison counts in front alone, and equality alone asks for nothing. No operator fails on the way,
whatever its operands are.
-/

namespace Scriptlet

namespace Value

def isNumber : Value → Bool
  | number _ => true
  | _ => false

def isBoolean : Value → Bool
  | boolean _ => true
  | _ => false

theorem eq_nothing_of {v : Value} (hn : v.isNumber = false) (hb : v.isBoolean = false)
    (hf : ∀ f, v ≠ .native f) : v = .nothing := by
  cases v with
  | nothing => rfl
  | number => cases hn
  | boolean => cases hb
  | native f => exact absurd rfl (hf f)

end Value

namespace Operator

def isArithmetic : Operator → Bool
  | add | subtract | multiply | divide => true
  | _ => false

def isOrder : Operator → Bool
  | greaterThan | lessThan => true
  | _ => false

/-- Two numbers have a quotient, also where the divisor is a zero. -/
theorem divide_apply (x y : Float) : divide.apply (.number x) (.number y) = .number (x / y) := by
  have hquotient : divide.compute? (.number x) (.number y) = some (.number (x / y)) :=
    congrArg (Option.map Value.number) (Double.quotient?_eq x y)
  exact Option.some.inj ((compute?_eq_some _ _ _).symm.trans hquotient)

theorem isNumber_apply (op : Operator) (v w : Value) :
    (op.apply v w).isNumber = (op.isArithmetic && (v.isNumber && w.isNumber)) := by
  cases op <;> cases v <;> cases w <;> first | rfl | exact congrArg _ (divide_apply _ _)

theorem isBoolean_apply (op : Operator) (v w : Value) :
    (op.apply v w).isBoolean = (op == equal || op.isOrder && (v.isNumber && w.isNumber)) := by
  cases op <;> cases v <;> cases w <;> first | rfl | exact congrArg _ (divide_apply _ _)

end Operator

namespace Expr

/-- All operands of a chain are numbers: the ones with an operator behind them and the last one. -/
def OfNumbers (links : List (Operator × Value)) (last : Value) : Prop :=
  (∀ link ∈ links, link.2.isNumber = true) ∧ last.isNumber = true

/-- The value of a chain, if none of its operators fails. -/
def settle? (pending : Pending) (last : Value) : Option Value :=
  pending.foldlM (fun rhs (op, lhs) => op.compute? lhs rhs) last

/-- No operator fails on what the operators behind it have come to. -/
theorem settle?_eq (pending : Pending) (last : Value) :
    settle? pending last = some (settle pending last) := by
  induction pending generalizing last with
  | nil => rfl
  | cons link pending ih =>
    obtain ⟨op, v⟩ := link
    have hstep : settle? ((op, v) :: pending) last = (op.compute? v last).bind (settle? pending) := rfl
    rw [hstep, Operator.compute?_eq_some]
    exact ih (op.apply v last)

/-- The operator in front is applied last. -/
theorem settle_reverse_cons (op : Operator) (v : Value) (links : List (Operator × Value))
    (last : Value) :
    settle ((op, v) :: links).reverse last = op.apply v (settle links.reverse last) := by
  simp [settle]

/-- Every operator of a number's chain is arithmetic, and every operand is a number. -/
theorem isNumber_settle (links : List (Operator × Value)) (last : Value) :
    (settle links.reverse last).isNumber = true ↔
      OfNumbers links last ∧ ∀ link ∈ links, link.1.isArithmetic = true := by
  induction links with
  | nil => simp [settle, OfNumbers]
  | cons link links ih =>
    obtain ⟨op, v⟩ := link
    rw [settle_reverse_cons, Operator.isNumber_apply, Bool.and_eq_true, Bool.and_eq_true, ih]
    simp only [OfNumbers, List.forall_mem_cons]
    tauto

/-- The operands of a chain in front of the last one, each with the operator behind it. -/
def links : Expr → List (Operator × Expr)
  | binary op lhs rhs _ => (op, lhs) :: rhs.links
  | _ => []

def lastOperand : Expr → Expr
  | binary _ _ rhs _ => rhs.lastOperand
  | e => e

theorem evalChain_eq_eval (pending : Pending) (e : Expr) (m : Machine) :
    evalChain pending e m = (e.eval m).andThen fun w m => .done (settle pending w) m := by
  rw [eval_eq_nested, evalChain_eq_nested]

/-- A chain runs its operands from the left and then has the value of what they have come to, so it
fails only if an operand does. -/
theorem eval_eq_settle : ∀ (e : Expr) (m : Machine),
    e.eval m = (evalAll (e.links.map Prod.snd) m).andThen fun vs m =>
      (e.lastOperand.eval m).andThen fun w m =>
        .done (settle ((e.links.map Prod.fst).zip vs).reverse w) m
  | binary op lhs rhs _, m => by
    have hrest (v : Value) (m : Machine) : evalChain [(op, v)] rhs m =
        (evalAll (rhs.links.map Prod.snd) m).andThen fun vs m =>
          (rhs.lastOperand.eval m).andThen fun w m =>
            .done (settle ((op, v) :: (rhs.links.map Prod.fst).zip vs).reverse w) m := by
      rw [evalChain_eq_eval, eval_eq_settle rhs m]
      simp only [Outcome.andThen_assoc, Outcome.andThen_done, settle_reverse_cons]
      rfl
    rw [eval, evalChain, links, lastOperand, List.map_cons, List.map_cons, evalAll]
    simp only [hrest, Outcome.andThen_assoc, Outcome.andThen_done, List.zip_cons_cons]
  | literal _ _, m | var _ _, m | assign _ _ _, m | block _ _, m | call _ _ _, m =>
    (Outcome.andThen_done_self _).symm

end Expr

/-- A chain of operands and operators never fails once its operands have values, whatever they are:
no operator does, and zero divisors have the quotients that division of doubles gives them. It is a
number if all operands are numbers and all operators arithmetic; `true` or `false` if it begins with
an equality, or if all operands are numbers, the first operator is an order and the other ones are
arithmetic; it is never a native, and `nothing` in all other cases. -/
theorem chain_kind (op : Operator) (v : Value) (links : List (Operator × Value)) (last : Value) :
    let chain := (op, v) :: links
    let result := Expr.settle chain.reverse last
    (result.isNumber = true ↔
      Expr.OfNumbers chain last ∧ ∀ link ∈ chain, link.1.isArithmetic = true) ∧
    (result.isBoolean = true ↔ op = .equal ∨
      Expr.OfNumbers chain last ∧ op.isOrder = true ∧ ∀ link ∈ links, link.1.isArithmetic = true) ∧
    (result.isNumber = false → result.isBoolean = false → result = .nothing) ∧
    (∀ f, result ≠ .native f) ∧
    Expr.settle? chain.reverse last = some result ∧
    (∀ x y, Double.quotient? x y = some (x / y)) ∧
    ∀ (e : Expr) (m : Machine),
      e.eval m = (Expr.evalAll (e.links.map Prod.snd) m).andThen fun vs m =>
        (e.lastOperand.eval m).andThen fun w m =>
          .done (Expr.settle ((e.links.map Prod.fst).zip vs).reverse w) m := by
  intro chain result
  have happly : result = op.apply v (Expr.settle links.reverse last) :=
    Expr.settle_reverse_cons op v links last
  have hnative (f : Native) : result ≠ .native f := happly ▸ op.apply_ne_native v _ f
  refine ⟨Expr.isNumber_settle chain last, ?_, fun hn hb => Value.eq_nothing_of hn hb hnative,
    hnative, Expr.settle?_eq _ last, Double.quotient?_eq, Expr.eval_eq_settle⟩
  rw [happly, Operator.isBoolean_apply]
  simp only [Bool.or_eq_true, Bool.and_eq_true, beq_iff_eq, Expr.isNumber_settle, Expr.OfNumbers,
    chain, List.forall_mem_cons]
  tauto

end Scriptlet
