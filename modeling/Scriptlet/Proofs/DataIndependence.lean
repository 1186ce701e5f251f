import Mathlib
import Scriptlet.Proofs.CorrespondingRuns

/-!
Whether a run fails, and where, does not depend on data. Only calls fail, and they ask of a value no
more than whether it is a native; no operator, no call and no assignment has a native as its value.
-/

namespace Scriptlet

theorem Value.arithmetic?_ne_native (g : Float → Float → Option Float) (a b : Value) (f : Native) :
    arithmetic? g a b ≠ some (.native f) := by
  unfold arithmetic?
  split <;> simp

theorem Value.order_ne_native (g : Float → Float → Bool) (a b : Value) (f : Native) :
    order g a b ≠ .native f := by
  unfold order
  split <;> simp

theorem Operator.apply_ne_native (op : Operator) (a b : Value) (f : Native) :
    op.apply a b ≠ .native f := by
  intro h
  have happly := op.compute?_eq_some a b
  rw [h] at happly
  cases op with
  | add | subtract | multiply | divide => exact Value.arithmetic?_ne_native _ a b f happly
  | greaterThan | lessThan => exact Value.order_ne_native _ a b f (Option.some.inj happly)
  | equal => cases happly

theorem Native.invoke_ne_native (g : Native) (args : List Value) (f : Native) :
    (g.invoke args).2 ≠ .native f := by
  cases g
  simp [invoke]

/-- Any two values are alike that are both natives or both data. -/
def Correspondence.ofNatives : Correspondence where
  names := Set.univ
  rename := id
  injOn := Function.injective_id.injOn
  Like v w := (∃ f, v = .native f) ↔ ∃ f, w = .native f
  refl _ := Iff.rfl
  native_iff := by
    intro v w h f
    -- there is only one native
    have hone (g : Native) : g = f := by cases g; cases f; rfl
    constructor
    · intro hv
      obtain ⟨g, hg⟩ := h.1 ⟨f, hv⟩
      rw [hg, hone g]
    · intro hw
      obtain ⟨g, hg⟩ := h.2 ⟨f, hw⟩
      rw [hg, hone g]
  apply op _ _ := by simp only [Operator.apply_ne_native, exists_false]
  invoke f _ := by simp only [Native.invoke_ne_native, exists_false]

namespace Expr

/-- A call writes one line, and nothing else writes. -/
theorem Does.count_newline {e : Expr} {m : Machine} {done : List Expr} (h : e.Does m done) :
    (e.eval m).machine.output.toList.count '\n' =
      m.output.toList.count '\n' + done.countP isCall := by
  obtain ⟨effects, hm, he⟩ := h
  rw [hm, Machine.output_perform, String.toList_append, List.count_append, he.count_newline]

/-- In scopes where the same names stand for natives, two runs of a tree do the same actions, so that
they print equally many lines, and both succeed or fail at the same call with the same report.
Behind them again the same names stand for natives. -/
theorem eval_fails_alike {e : Expr} {m n : Machine}
    (h : ∀ x, (∃ f, m.scope.lookup x = .native f) ↔ ∃ f, n.scope.lookup x = .native f) :
    ∃ done, e.Does m done ∧ e.Does n done ∧
      (e.eval m).machine.output.toList.count '\n' =
        m.output.toList.count '\n' + done.countP isCall ∧
      (e.eval n).machine.output.toList.count '\n' =
        n.output.toList.count '\n' + done.countP isCall ∧
      (match (e.eval m).result, (e.eval n).result with
      | .ok _, .ok _ => done = e.actions
      | .error fault, .error fault' => fault' = fault ∧
          ∃ args, Part (call fault.name args fault.position) done e
      | _, _ => False) ∧
      ∀ x, (∃ f, (e.eval m).machine.scope.lookup x = .native f) ↔
        ∃ f, (e.eval n).machine.scope.lookup x = .native f := by
  let K := Correspondence.ofNatives
  have hx : ∀ x ∈ e.names, x ∈ K.names := fun x _ => Set.mem_univ x
  have hs : K.Scopes m.scope n.scope := fun x _ => h x
  have hruns := Correspondence.evalChain_runs (K := K) .nil e m n hx hs
  obtain ⟨done, hm, hn, hstop⟩ := Correspondence.exists_does (K := K) hx hs
  have hid : rename K.rename = id := funext rename_id
  rw [hid, List.map_id, id] at hn
  rw [hid, id] at hruns
  refine ⟨done, hm, hn, hm.count_newline, hn.count_newline, ?_, fun x => ?_⟩
  · obtain ⟨-, -, -, -, -, hresult⟩ := hruns
    rw [eval] at hstop ⊢
    rw [eval]
    generalize (evalChain [] e m).result = result at hresult hstop ⊢
    generalize (evalChain [] e n).result = result' at hresult ⊢
    cases hresult with
    | ok => exact hstop
    | error fault => exact ⟨rfl, hstop⟩
  · exact hruns.scopes hs x (Set.mem_univ x)

/-- A name that has a value in one of the scopes only is printed and then called. -/
theorem eval_fails_alike_unknown_name :
    let place (column : Int) : Position := ⟨"in", 1, column⟩
    let e : Expr := .block [.call "print" [.var "y" (place 7)] (place 1), .call "y" [] (place 11)]
      (place 1)
    let m := Machine.start ((Scope.inside .natives).assign "y" (.boolean true))
    let n := Machine.start (.inside .natives)
    (∀ x, (∃ f, m.scope.lookup x = .native f) ↔ ∃ f, n.scope.lookup x = .native f) ∧
      (e.eval m).machine.output = "True\n" ∧ (e.eval n).machine.output = "Nothing\n" ∧
      (e.eval m).result = .error ⟨"y", place 11⟩ ∧ (e.eval n).result = .error ⟨"y", place 11⟩ := by
  intro place e m n
  have h : ∀ x, (∃ f, m.scope.lookup x = .native f) ↔ ∃ f, n.scope.lookup x = .native f := by
    intro x
    have hm : m.scope.lookup x = if x = "y" then .boolean true else n.scope.lookup x :=
      Scope.lookup_assign _ _ _ _
    by_cases hx : x = "y"
    · have hn : n.scope.lookup x = .nothing := by rw [hx]; cbv
      rw [if_pos hx] at hm
      simp [hm, hn]
    · rw [hm, if_neg hx]
  have hm : (e.eval m).result = .error ⟨"y", place 11⟩ := by cbv
  obtain ⟨_, -, -, -, -, hresult, -⟩ := eval_fails_alike (e := e) h
  rw [hm] at hresult
  refine ⟨h, by cbv, by cbv, hm, ?_⟩
  cases hn : (e.eval n).result with
  | ok v => simp [hn] at hresult
  | error fault =>
    rw [hn] at hresult
    rw [hresult.1]

end Expr

end Scriptlet
