import Scriptlet.Evaluation

/-!
Chains of operators run by recursion. The loop keeps left operands on a list and applies the
operators when the chain has come to its end; to run the right operand inside the run of the
operator and to apply the operator at once comes to the same, whatever the operands do.
-/

namespace Scriptlet.Expr

/-- Run the operands of an operator with `run`, the left one first, and apply it to their values. -/
def evalOperator (run : Expr → Machine → Outcome Value) (op : Operator) (lhs rhs : Expr)
    (m : Machine) : Outcome Value :=
  (run lhs m).andThen fun v m => (run rhs m).andThen fun w m => .done (op.apply v w) m

mutual

/-- Run a tree by recursion on the whole of it, without a list of operands that wait. -/
def evalNested : Expr → Machine → Outcome Value
  | binary op lhs rhs _, m =>
    (evalNested lhs m).andThen fun v m =>
      (evalNested rhs m).andThen fun w m => .done (op.apply v w) m
  | literal v _, m => .done v m
  | var x _, m => .done (m.scope.lookup x) m
  | assign x e _, m => (evalNested e m).andThen fun v m => .done .nothing (m.assign x v)
  | block ss _, m => (evalNestedAll ss m).andThen fun _ m => .done .nothing m
  | call f args start, m =>
    match m.scope.lookup f with
    | .native native =>
      (evalNestedAll args m).andThen fun vs m =>
        let (line, v) := native.invoke vs
        .done v (m.print line)
    | _ => .failed ⟨f, start⟩ m

def evalNestedAll : List Expr → Machine → Outcome (List Value)
  | [], m => .done [] m
  | e :: es, m =>
    (evalNested e m).andThen fun v m => (evalNestedAll es m).andThen fun vs m => .done (v :: vs) m

end

/-- The operand that came last is the first one to be applied. -/
theorem settle_cons (pending : Pending) (op : Operator) (v w : Value) :
    settle ((op, v) :: pending) w = settle pending (op.apply v w) := rfl

theorem andThen_settle_nil (o : Outcome Value) :
    (o.andThen fun v m => .done (settle [] v) m) = o := o.andThen_done_self

mutual

/-- The operands that wait take part only when the tree at the end of the chain has its value. -/
theorem evalChain_eq_nested (pending : Pending) : ∀ (e : Expr) (m : Machine),
    evalChain pending e m = (evalNested e m).andThen fun v m => .done (settle pending v) m
  | literal _ _, _ | var _ _, _ => rfl
  | binary op lhs rhs _, m => by
    rw [evalChain, evalNested, evalChain_eq_nested [] lhs m, andThen_settle_nil,
      Outcome.andThen_assoc]
    -- the run of `lhs` may have changed the scope, so the rest is compared on every machine
    have hrest (v : Value) (m : Machine) : evalChain ((op, v) :: pending) rhs m =
        ((evalNested rhs m).andThen fun w m => .done (op.apply v w) m).andThen
          fun v m => .done (settle pending v) m := by
      rw [evalChain_eq_nested _ rhs m, Outcome.andThen_assoc]
      simp only [Outcome.andThen_done, settle_cons]
    simp only [hrest]
  | assign x e _, m => by
    rw [evalChain, evalNested, evalChain_eq_nested [] e m, andThen_settle_nil,
      Outcome.andThen_assoc]
    simp only [Outcome.andThen_done]
  | block ss _, m => by
    rw [evalChain, evalNested, evalAll_eq_nested ss m, Outcome.andThen_assoc]
    simp only [Outcome.andThen_done]
  | call f args start, m => by
    rw [evalChain, evalNested, evalAll_eq_nested args m]
    cases m.scope.lookup f with
    | native native =>
      simp only
      rw [Outcome.andThen_assoc]
      simp only [Outcome.andThen_done]
    | _ => rfl

theorem evalAll_eq_nested : ∀ (es : List Expr) (m : Machine), evalAll es m = evalNestedAll es m
  | [], _ => rfl
  | e :: es, m => by
    rw [evalAll, evalNestedAll, evalChain_eq_nested [] e m, andThen_settle_nil]
    simp only [evalAll_eq_nested es]

end

theorem eval_eq_nested (e : Expr) (m : Machine) : e.eval m = e.evalNested m := by
  rw [eval, evalChain_eq_nested, andThen_settle_nil]

/-- A chain of operators has the value, the effects, the bindings and the failure of its nested
operations: the left operand is run, then the right one, and the operator is applied to both values.
That holds for the run of each operand by itself and for the run by recursion of the whole tree. -/
theorem eval_binary_eq_operator (op : Operator) (lhs rhs : Expr) (start : Position) (m : Machine) :
    (binary op lhs rhs start).eval m = evalOperator eval op lhs rhs m ∧
      (binary op lhs rhs start).eval m = (binary op lhs rhs start).evalNested m := by
  have hnested := eval_eq_nested (binary op lhs rhs start) m
  refine ⟨?_, hnested⟩
  rw [hnested, evalNested, evalOperator]
  simp only [eval_eq_nested]

end Scriptlet.Expr
