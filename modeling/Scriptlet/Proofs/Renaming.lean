import Mathlib
import Scriptlet.Proofs.CorrespondingRuns
import Scriptlet.Proofs.Isolation

/-!
Names stand for nothing but their values. A tree whose names are replaced one for one, except that of
the native function, does in a new scope what the tree itself does there, under the other names.
-/

namespace Scriptlet

namespace Bindings

/-- The second bindings have the values of the first ones under the other names, and no more. All
first names are among those that are told apart. -/
structure Renamed (names : Set String) (r : String → String) (b c : Bindings) : Prop where
  mem : ∀ x v, b.get? x = some v → x ∈ names
  get?_eq_some_iff : ∀ y v, c.get? y = some v ↔ ∃ x, r x = y ∧ b.get? x = some v

namespace Renamed

variable {names : Set String} {r : String → String} {b c : Bindings}

theorem empty : Renamed names r ∅ ∅ where
  mem _ _ h := by simp at h
  get?_eq_some_iff _ _ := by simp

theorem put (hr : Set.InjOn r names) (h : Renamed names r b c) {x : String} (hx : x ∈ names)
    (v : Value) : Renamed names r (b.put x v) (c.put (r x) v) where
  mem z w hz := by
    rw [get?_put] at hz
    split at hz
    next hzx => exact hzx ▸ hx
    next => exact h.mem z w hz
  get?_eq_some_iff y w := by
    simp only [get?_put]
    constructor
    · intro hy
      split at hy
      next hyx => exact ⟨x, hyx.symm, by simpa using hy⟩
      next hyx =>
        obtain ⟨z, rfl, hz⟩ := (h.get?_eq_some_iff y w).1 hy
        have hzx : z ≠ x := fun he => hyx (congrArg r he)
        exact ⟨z, rfl, by simpa [hzx] using hz⟩
    · intro hz
      obtain ⟨z, rfl, hz⟩ := hz
      split at hz
      next hzx => simpa [hzx] using hz
      next hzx =>
        have hne : r z ≠ r x := fun he => hzx (hr (h.mem z w hz) hx he)
        rw [if_neg hne]
        exact (h.get?_eq_some_iff (r z) w).2 ⟨z, rfl, hz⟩

end Renamed

end Bindings

variable {names : Set String} {r : String → String}

theorem Scope.renamed_replay (hr : Set.InjOn r names) {effects : List Effect}
    (hx : ∀ x v, .assigned x v ∈ effects → x ∈ names) {s t : Scope}
    (h : s.own.Renamed names r t.own) :
    (s.replay effects).own.Renamed names r (t.replay (effects.map (Effect.rename r))).own := by
  induction effects generalizing s t with
  | nil => exact h
  | cons effect effects ih =>
    have ih := fun {s t : Scope} => @ih (fun x v hmem => hx x v (List.mem_cons_of_mem _ hmem)) s t
    cases effect with
    | printed => exact ih h
    | assigned x v => exact ih (h.put hr (hx x v List.mem_cons_self) v)

namespace Expr

/-- A tree with its names replaced one for one, and `print` by itself, has in a new scope the result
and the output of the tree itself, and binds the other names to the same values. If it fails, it has
done the same actions by then and fails at the same call, under the other name of the function. -/
theorem eval_rename_names {e : Expr} {r : String → String}
    (hr : Set.InjOn r {x | x ∈ e.names ∨ x = "print"}) (hprint : r "print" = "print") :
    let m := Machine.start (.inside .natives)
    let o := e.eval m
    let o' := (e.rename r).eval m
    o'.result = o.result.mapError (CallFault.rename r) ∧
      o'.machine.output = o.machine.output ∧
      (∀ y v, o'.machine.scope.own.get? y = some v ↔
        ∃ x, r x = y ∧ o.machine.scope.own.get? x = some v) ∧
      o'.machine.scope.outer = o.machine.scope.outer ∧
      ∀ fault, o.result = .error fault →
        (fault.rename r).message = "Can't find function named " ++ r fault.name ++ " to call" ∧
        ∃ args done, Part (call fault.name args fault.position) done e ∧ e.Does m done ∧
          Part (call (r fault.name) (renameAll r args) fault.position) (done.map (rename r))
            (e.rename r) ∧
          (e.rename r).Does m (done.map (rename r)) := by
  intro m o o'
  have hlookup : ∀ x ∈ {x | x ∈ e.names ∨ x = "print"}, m.scope.lookup x = m.scope.lookup (r x) := by
    intro x hx
    have hiff : r x = "print" ↔ x = "print" := by
      refine ⟨fun h => hr hx (.inr rfl) (h.trans hprint.symm), fun h => ?_⟩
      rw [h, hprint]
    simp only [m, Machine.start, Scope.lookup_inside_natives, hiff]
  have hnames : ∀ x ∈ e.names, x ∈ {x | x ∈ e.names ∨ x = "print"} := fun x hx => .inl hx
  obtain ⟨hresult, -, effects, hm, hm', hassigned⟩ := exists_effects_rename hr hnames hlookup
  have hown := Scope.renamed_replay hr hassigned (s := m.scope) (t := m.scope) .empty
  refine ⟨hresult, ?_, ?_, ?_, fun fault hfault => ⟨rfl, ?_⟩⟩
  · rw [hm', hm, Machine.output_perform_rename, Machine.output_perform]
  · rw [hm', hm]
    exact hown.get?_eq_some_iff
  · rw [outer_eval, outer_eval]
  · obtain ⟨done, hdone, hdone', hstop⟩ :=
      Correspondence.exists_does (K := .ofRename hr) hnames hlookup
    rw [hfault] at hstop
    obtain ⟨args, hpart⟩ := hstop
    exact ⟨args, done, hpart, hdone, hpart.rename r, hdone'⟩

/-- Two names change places: the one that stands for `print` and one that stands for nothing. -/
theorem eval_rename_names_swap :
    let place (column : Int) : Position := ⟨"in", 1, column⟩
    let e : Expr := .block [.assign "p" (.var "print" (place 5)) (place 1),
      .call "p" [.literal (.boolean true) (place 14)] (place 12), .call "x" [] (place 21)] (place 1)
    let r := Equiv.swap "p" "x"
    let m := Machine.start (.inside .natives)
    let o' := (e.rename r).eval m
    Set.InjOn r {x | x ∈ e.names ∨ x = "print"} ∧ r "print" = "print" ∧
      (e.eval m).result = .error ⟨"x", place 21⟩ ∧ o'.result = .error ⟨"p", place 21⟩ ∧
      o'.machine.output = "True\n" ∧ o'.machine.scope.own.get? "x" = some (.native .print) := by
  intro place e r m o'
  have hr : Set.InjOn r {x | x ∈ e.names ∨ x = "print"} := r.injective.injOn
  have hprint : r "print" = "print" := Equiv.swap_apply_of_ne_of_ne (by decide) (by decide)
  obtain ⟨hresult, houtput, hown, -⟩ := eval_rename_names hr hprint
  have hfails : (e.eval m).result = .error ⟨"x", place 21⟩ := by cbv
  have hprints : (e.eval m).machine.output = "True\n" := by cbv
  have hbinds : (e.eval m).machine.scope.own.get? "p" = some (.native .print) := by cbv
  refine ⟨hr, hprint, hfails, ?_, houtput.trans hprints, ?_⟩
  · rw [hfails] at hresult
    rw [hresult, Except.mapError, CallFault.rename, Equiv.swap_apply_right]
  · exact (hown "x" (.native .print)).2 ⟨"p", Equiv.swap_apply_left "p" "x", hbinds⟩

end Expr

end Scriptlet
