import Mathlib
import Scriptlet.Proofs.CorrespondingRuns
import Scriptlet.Proofs.Isolation

/-!
What a run can see of its scope and what it can change there: it sees the values of the names of its
tree, and it binds names that the tree assigns, in the own scope.
-/

namespace Scriptlet

namespace Bindings

/-- Every name that is not one of the targets is bound as before or not bound as before, and no name
is lost. -/
structure AgreesOutside (targets : List String) (b c : Bindings) : Prop where
  get? : ∀ x, x ∉ targets → c.get? x = b.get? x
  contains : ∀ x, b.contains x → c.contains x

namespace AgreesOutside

variable {targets : List String} {b c d : Bindings}

theorem refl (targets : List String) (b : Bindings) : b.AgreesOutside targets b where
  get? _ _ := rfl
  contains _ h := h

theorem trans (h : b.AgreesOutside targets c) (h' : c.AgreesOutside targets d) :
    b.AgreesOutside targets d where
  get? x hx := (h'.get? x hx).trans (h.get? x hx)
  contains x hx := h'.contains x (h.contains x hx)

theorem put {x : String} (hx : x ∈ targets) (v : Value) (b : Bindings) :
    b.AgreesOutside targets (b.put x v) where
  get? y hy := by
    have hne : y ≠ x := fun h => hy (h ▸ hx)
    rw [get?_put, if_neg hne]
  contains y hy := by
    rw [Bindings.contains] at hy ⊢
    rw [get?_put]
    by_cases h : y = x
    · simp [h]
    · simpa [h] using hy

end AgreesOutside

end Bindings

theorem Scope.agreesOutside_replay {targets : List String} {effects : List Effect}
    (h : ∀ x v, .assigned x v ∈ effects → x ∈ targets) (s : Scope) :
    s.own.AgreesOutside targets (s.replay effects).own := by
  induction effects generalizing s with
  | nil => exact .refl targets s.own
  | cons effect effects ih =>
    have hstep : s.own.AgreesOutside targets (effect.change s).own := by
      cases effect with
      | printed => exact .refl targets s.own
      | assigned x v => exact .put (h x v List.mem_cons_self) v s.own
    exact hstep.trans (ih (fun x v hmem => h x v (List.mem_cons_of_mem _ hmem)) (effect.change s))

namespace Expr

/-- The names that a tree assigns. -/
def targets (e : Expr) : List String :=
  e.actions.filterMap fun
    | assign x _ _ => some x
    | _ => none

theorem mem_targets {e v : Expr} {x : String} {p : Position} (h : assign x v p ∈ e.actions) :
    x ∈ e.targets :=
  List.mem_filterMap.2 ⟨_, h, rfl⟩

theorem exists_assign_of_effect? {s : Scope} {a : Expr} {x : String} {v : Value}
    (h : a.effect? s = some (.assigned x v)) : ∃ e p, a = assign x e p := by
  cases a with
  | assign y e p =>
    simp only [effect?] at h
    split at h
    · cases h
      exact ⟨e, p, rfl⟩
    · cases h
  | call =>
    simp only [effect?] at h
    split at h <;> cases h
  | _ => cases h

/-- Who binds a name is an assignment to it. -/
theorem Enacted.exists_assign {s : Scope} {done : List Expr} {effects : List Effect} {x : String}
    {v : Value} (h : Enacted s done effects) (hx : .assigned x v ∈ effects) :
    ∃ e p, assign x e p ∈ done := by
  induction h with
  | nil => cases hx
  | act _ _ _ he ihd ihi =>
    simp only [List.mem_append, List.mem_singleton] at hx ⊢
    rcases hx with hx | hx | rfl
    · obtain ⟨e, p, h⟩ := ihd hx
      exact ⟨e, p, .inl h⟩
    · obtain ⟨e, p, h⟩ := ihi hx
      exact ⟨e, p, .inr (.inl h)⟩
    · obtain ⟨e, p, h⟩ := exists_assign_of_effect? he
      exact ⟨e, p, .inr (.inr h.symm)⟩

theorem eval_agreesOutside (e : Expr) (m : Machine) :
    m.scope.own.AgreesOutside e.targets (e.eval m).machine.scope.own := by
  obtain ⟨effects, hm, he, -⟩ := e.exists_enacted_take m
  rw [hm]
  refine Scope.agreesOutside_replay (fun x v hx => ?_) m.scope
  obtain ⟨d, p, hmem⟩ := he.exists_assign hx
  exact mem_targets (List.mem_of_mem_take hmem)

/-- Two runs of a tree in scopes that agree on its names have the same result, print the same and
leave scopes that agree on these names. No run loses an own name of its scope, changes one that the
tree does not assign, or changes anything further out. -/
theorem eval_coincides {e : Expr} {m n : Machine}
    (h : ∀ x ∈ e.names, m.scope.lookup x = n.scope.lookup x) :
    (e.eval m).result = (e.eval n).result ∧
      (∃ printed, (e.eval m).machine.output = m.output ++ printed ∧
        (e.eval n).machine.output = n.output ++ printed) ∧
      (∀ x ∈ e.names,
        (e.eval m).machine.scope.lookup x = (e.eval n).machine.scope.lookup x) ∧
      ∀ k : Machine, k.scope.own.AgreesOutside e.targets (e.eval k).machine.scope.own ∧
        (e.eval k).machine.scope.outer = k.scope.outer := by
  have hinj : Set.InjOn id {x | x ∈ e.names} := Function.injective_id.injOn
  have hruns := exists_effects_rename hinj (fun x hx => hx) h
  rw [rename_id] at hruns
  obtain ⟨hresult, hlookup, effects, hm, hn, -⟩ := hruns
  have hsame (result : Except CallFault Value) : result.mapError (CallFault.rename id) = result := by
    cases result <;> rfl
  refine ⟨(hresult.trans (hsame _)).symm, ⟨String.join (effects.map Effect.text), ?_, ?_⟩, hlookup,
    fun k => ⟨e.eval_agreesOutside k, e.outer_eval k⟩⟩
  · rw [hm, Machine.output_perform]
  · rw [hn, Machine.output_perform_rename]

/-- One scope has the name that is read further out and others besides, the other scope has it as
its own. -/
theorem eval_coincides_print :
    let e : Expr := .block [.assign "x" (.var "y" ⟨"in", 1, 5⟩) ⟨"in", 1, 1⟩,
      .call "print" [.var "x" ⟨"in", 1, 14⟩] ⟨"in", 1, 8⟩] ⟨"in", 1, 1⟩
    let m := Machine.start ⟨(∅ : Bindings).put "z" .nothing, [.put .natives "y" (.boolean true)]⟩
    let n := Machine.start ⟨(∅ : Bindings).put "y" (.boolean true), [.natives]⟩
    (∀ x ∈ e.names, m.scope.lookup x = n.scope.lookup x) ∧
      (e.eval m).result = (e.eval n).result ∧
      (e.eval m).machine.output = "True\n" ∧ (e.eval n).machine.output = "True\n" ∧
      ∀ x ∈ e.names, (e.eval m).machine.scope.lookup x = (e.eval n).machine.scope.lookup x := by
  intro e m n
  have h : ∀ x ∈ e.names, m.scope.lookup x = n.scope.lookup x := by
    intro x hx
    have hx : x ∈ ["x", "y", "print", "x"] := hx
    simp only [List.mem_cons, List.not_mem_nil, or_false] at hx
    rcases hx with rfl | rfl | rfl | rfl <;> rfl
  obtain ⟨hresult, -, hlookup, -⟩ := eval_coincides h
  exact ⟨h, hresult, by cbv, by cbv, hlookup⟩

end Expr

end Scriptlet
