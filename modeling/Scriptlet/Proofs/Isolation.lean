import Scriptlet.Session
import Scriptlet.Workspace
import Scriptlet.Proofs.BoundedRun

/-!
Scopes that share a module do not see each other, and programs of one session do not either: what a
run binds stays in the scope that it runs in.
-/

namespace Scriptlet

@[simp] theorem Effect.outer_change (s : Scope) (e : Effect) : (e.change s).outer = s.outer := by
  cases e <;> rfl

@[simp] theorem Scope.outer_replay (s : Scope) (es : List Effect) :
    (s.replay es).outer = s.outer := by
  induction es generalizing s with
  | nil => rfl
  | cons e es ih => exact (ih (e.change s)).trans (e.outer_change s)

@[simp] theorem Expr.outer_eval (e : Expr) (m : Machine) :
    (e.eval m).machine.scope.outer = m.scope.outer := by
  obtain ⟨effects, -, hm, -⟩ := evalChain_enacts [] e m
  rw [eval, hm, Machine.scope_perform, Scope.outer_replay]

theorem Machine.LeadsTo.outer_eq {m m' : Machine} (h : m.LeadsTo m') :
    m'.scope.outer = m.scope.outer := by
  obtain ⟨effects, rfl⟩ := h
  rw [Machine.scope_perform, Scope.outer_replay]

namespace Workspace

variable {w v : Workspace} {i j : Nat}

@[simp] theorem own_store_self (hi : i < w.scopes.length) (s : Scope) :
    (w.store i s).own i = s.own := by
  simp [store, own, hi]

@[simp] theorem own_store_of_ne (h : i ≠ j) (s : Scope) : (w.store i s).own j = w.own j := by
  simp [store, own, h]

@[simp] theorem length_scopes_store (i : Nat) (s : Scope) :
    (w.store i s).scopes.length = w.scopes.length := by
  simp [store]

theorem store_scope (w : Workspace) (i : Nat) : w.store i (w.scope i) = w := by
  obtain ⟨module, scopes⟩ := w
  have hset : scopes.set i (scopes[i]?.getD ∅) = scopes := by
    refine List.ext_getElem (by simp) fun k hk _ => ?_
    by_cases h : i = k <;> simp_all
  simp [store, scope, own, hset]

/-- Run a tree in a scope. The scope is the only part of a workspace that this needs. -/
def evalAlone (s : Scope) : Except Diagnostic Expr → Reply × String × Scope
  | .error report => (.failed report, "", s)
  | .ok tree =>
    let outcome := tree.eval (.start s)
    let reply := match outcome.result with
      | .ok v => .value v
      | .error fault => .failed (.call fault)
    (reply, outcome.machine.output, outcome.machine.scope)

/-- A step of a scope without the other ones. -/
def stepAlone (s : Scope) : Step → Reply × String × Scope
  | .run source text => evalAlone s (parseProgram source text)
  | .eval source text => evalAlone s (parseExpression source text)
  | .set name value =>
    let s := s.assign name value
    (.described s.own.describe, "", s)
  | .get name => (.found (s.lookup name) (s.contains name), "", s)

theorem evalIn_eq (w : Workspace) (i : Nat) (tree : Except Diagnostic Expr) : w.evalIn i tree =
    let r := evalAlone (w.scope i) tree
    (r.1, r.2.1, w.store i r.2.2) := by
  cases tree with
  | error report => simp [evalIn, evalAlone, store_scope]
  | ok tree => rfl

theorem step_eq (w : Workspace) (i : Nat) (step : Step) : w.step i step =
    let r := stepAlone (w.scope i) step
    (r.1, r.2.1, w.store i r.2.2) := by
  cases step with
  | run source text => exact evalIn_eq w i _
  | eval source text => exact evalIn_eq w i _
  | set name value => rfl
  | get name => simp [Workspace.step, stepAlone, store_scope]

@[simp] theorem outer_evalAlone (s : Scope) (tree : Except Diagnostic Expr) :
    (evalAlone s tree).2.2.outer = s.outer := by
  cases tree with
  | error report => rfl
  | ok tree => exact tree.outer_eval (.start s)

@[simp] theorem outer_stepAlone (s : Scope) (step : Step) :
    (stepAlone s step).2.2.outer = s.outer := by
  cases step with
  | run source text => exact outer_evalAlone s _
  | eval source text => exact outer_evalAlone s _
  | set | get => rfl

@[simp] theorem module_step (w : Workspace) (i : Nat) (step : Step) :
    (w.step i step).2.2.module = w.module := by
  simp [step_eq, store, scope]

/-- What came of a step: its answer, the text it printed, and the scope and the module behind it. -/
structure Entry where
  scope : Nat
  reply : Reply
  printed : String
  own : Bindings
  module : Bindings

def Entry.outcome (e : Entry) : Reply × String × Bindings := (e.reply, e.printed, e.own)

/-- Steps one after the other, each one with the number of its scope. -/
def trace (w : Workspace) : List (Nat × Step) → List Entry
  | [] => []
  | (i, step) :: rest =>
    let r := w.step i step
    ⟨i, r.1, r.2.1, r.2.2.own i, r.2.2.module⟩ :: r.2.2.trace rest

/-- The steps of one scope, given to the only scope of another workspace. -/
def stepsOf (i : Nat) (steps : List (Nat × Step)) : List (Nat × Step) :=
  (steps.filter fun s => s.1 = i).map fun s => (0, s.2)

/-- Scope `i` of `w` is just as the first scope of `v`. -/
structure Mirrors (w : Workspace) (i : Nat) (v : Workspace) : Prop where
  lt : i < w.scopes.length
  pos : 0 < v.scopes.length
  own : w.own i = v.own 0
  module : w.module = v.module

namespace Mirrors

theorem scope (h : w.Mirrors i v) : w.scope i = v.scope 0 := by
  rw [Workspace.scope, Workspace.scope, h.own, h.module]

/-- A step of the scope itself goes as in the other workspace. -/
theorem step (h : w.Mirrors i v) (step : Step) :
    (w.step i step).1 = (v.step 0 step).1 ∧ (w.step i step).2.1 = (v.step 0 step).2.1 ∧
      (w.step i step).2.2.Mirrors i (v.step 0 step).2.2 := by
  have hm : (w.step i step).2.2.module = (v.step 0 step).2.2.module := by
    rw [module_step, module_step, h.module]
  simp only [step_eq] at hm ⊢
  rw [h.scope] at hm ⊢
  refine ⟨rfl, rfl, ?_, ?_, ?_, hm⟩
  · simpa using h.lt
  · simpa using h.pos
  · rw [own_store_self h.lt, own_store_self h.pos]

/-- A step of another scope changes nothing. -/
theorem step_of_ne (h : w.Mirrors i v) (hj : j ≠ i) (step : Step) :
    (w.step j step).2.2.Mirrors i v := by
  have hm := (module_step w j step).trans h.module
  rw [step_eq] at hm ⊢
  refine ⟨?_, h.pos, ?_, hm⟩
  · simpa using h.lt
  · exact (own_store_of_ne hj _).trans h.own

theorem trace (h : w.Mirrors i v) (steps : List (Nat × Step)) :
    ((w.trace steps).filter fun e => e.scope = i).map Entry.outcome =
      (v.trace (stepsOf i steps)).map Entry.outcome := by
  induction steps generalizing w v with
  | nil => rfl
  | cons s steps ih =>
    obtain ⟨j, s⟩ := s
    -- A step of another scope is left out on both sides.
    by_cases hj : j = i
    · subst hj
      obtain ⟨hr, hp, h'⟩ := h.step s
      have ih := ih h'
      rw [stepsOf] at ih ⊢
      simp [Workspace.trace, Entry.outcome, hr, hp, h'.own, ih]
    · have ih := ih (h.step_of_ne hj s)
      rw [stepsOf] at ih ⊢
      simp [Workspace.trace, hj, ih]

end Mirrors

theorem start_mirrors {count : Nat} (i : Fin count) : (start count).Mirrors i (start 1) where
  lt := by simp [start]
  pos := by simp [start]
  own := by simp [start, own]
  module := rfl

theorem module_of_mem_trace {steps : List (Nat × Step)} :
    ∀ e ∈ w.trace steps, e.module = w.module := by
  induction steps generalizing w with
  | nil => simp [trace]
  | cons s steps ih =>
    obtain ⟨j, s⟩ := s
    rw [trace, List.forall_mem_cons]
    exact ⟨module_step w j s, fun e he => (ih e he).trans (module_step w j s)⟩

end Workspace

namespace Session

/-- A run leaves the scopes around its own as they are, whether it gives up or not. -/
theorem outer_conclude (source : String) (limit : Option Nat) (e : Expr) (m : Machine) :
    (conclude source (e.evalWithin limit m)).2.scope.outer = m.scope.outer := by
  rw [← e.outer_eval m]
  have hf := Expr.follows_evalWithin limit e m
  generalize e.evalWithin limit m = b at hf ⊢
  cases hf with
  | ended => rfl
  | gaveUp h => exact h.outer_eq.symm

@[simp] theorem run_snd (s : Session) (source text : String) : (s.run source text).2 = s := by
  simp only [run]
  split
  · rfl
  · split
    · rfl
    · simp [outer_conclude, Machine.start, Scope.inside]

/-- Programs one after the other, each one with the name of its source. -/
def transcripts (s : Session) : List (String × String) → List Transcript
  | [] => []
  | (source, text) :: rest =>
    let r := s.run source text
    r.1 :: r.2.transcripts rest

theorem transcripts_eq_map (s : Session) (programs : List (String × String)) :
    s.transcripts programs = programs.map fun (source, text) => (s.run source text).1 := by
  induction programs with
  | nil => rfl
  | cons p programs ih => simp [transcripts, ih]

end Session

/-- Whatever steps are taken in which order, those of one scope go as if they were the only ones,
over a module of their own, and the module that all share stays as it is. The programs of a session
likewise go each one as in a new session. -/
theorem trace_isolated {count : Nat} (i : Fin count) (steps : List (Nat × Workspace.Step))
    (verbose : Bool) (sink : Sink) (host : Host) (programs : List (String × String)) :
    (((Workspace.start count).trace steps).filter fun e => e.scope = i.val).map
          Workspace.Entry.outcome =
        ((Workspace.start 1).trace (Workspace.stepsOf i steps)).map Workspace.Entry.outcome ∧
      (∀ e ∈ (Workspace.start count).trace steps, e.module = .natives) ∧
      (Session.start verbose sink host).transcripts programs =
        programs.map fun (source, text) => ((Session.start verbose sink host).run source text).1 :=
  ⟨(Workspace.start_mirrors i).trace steps, Workspace.module_of_mem_trace,
    Session.transcripts_eq_map _ programs⟩

end Scriptlet
