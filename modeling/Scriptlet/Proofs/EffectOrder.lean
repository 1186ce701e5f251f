import Scriptlet.Evaluation
import Scriptlet.Proofs.PrintedLine

/-!
What a run does, and in which order. Calls and assignments act in post-order, each one once. A call
that finds no function ends the run in front of all that belongs to it, and what has been done by
then stays.
-/

namespace Scriptlet

/-- What an effect makes of a scope. -/
def Effect.change (s : Scope) : Effect → Scope
  | .printed _ => s
  | .assigned name value => s.assign name value

def Scope.replay (s : Scope) (effects : List Effect) : Scope := effects.foldl Effect.change s

@[simp] theorem Scope.replay_append (s : Scope) (es fs : List Effect) :
    s.replay (es ++ fs) = (s.replay es).replay fs := List.foldl_append

namespace Machine

/-- The machine behind effects, which are listed in the order in which they happen. -/
def perform (m : Machine) (effects : List Effect) : Machine :=
  ⟨m.scope.replay effects, effects.reverse ++ m.effects⟩

@[simp] theorem scope_perform (m : Machine) (es : List Effect) :
    (m.perform es).scope = m.scope.replay es := rfl

@[simp] theorem perform_append (m : Machine) (es fs : List Effect) :
    m.perform (es ++ fs) = (m.perform es).perform fs := by simp [perform]

theorem output_perform (m : Machine) (es : List Effect) :
    (m.perform es).output = m.output ++ String.join (es.map Effect.text) := by
  simp [perform, output]

/-- The same machine with more effects before its own. -/
def withEarlier (m : Machine) (earlier : List Effect) : Machine :=
  { m with effects := m.effects ++ earlier }

end Machine

namespace Outcome

variable {α β : Type}

def withEarlier (o : Outcome α) (earlier : List Effect) : Outcome α :=
  ⟨o.result, o.machine.withEarlier earlier⟩

theorem withEarlier_andThen {o : Outcome α} {next : α → Machine → Outcome β} {earlier : List Effect}
    (h : ∀ a m, next a (m.withEarlier earlier) = (next a m).withEarlier earlier) :
    (o.andThen next).withEarlier earlier = (o.withEarlier earlier).andThen next := by
  obtain ⟨result, m⟩ := o
  cases result with
  | ok a => exact (h a m).symm
  | error fault => rfl

end Outcome

namespace Expr

mutual

theorem evalChain_withEarlier (pending : Pending) (earlier : List Effect) : ∀ (e : Expr) (m : Machine),
    evalChain pending e (m.withEarlier earlier) = (evalChain pending e m).withEarlier earlier
  | literal _ _, _ | var _ _, _ => rfl
  | assign _ e _, m => by
    rw [evalChain, evalChain, evalChain_withEarlier [] earlier e m,
      ← Outcome.withEarlier_andThen fun _ _ => rfl]
  | binary op _ rhs _, m => by
    rw [evalChain, evalChain, evalChain_withEarlier [] earlier _ m,
      ← Outcome.withEarlier_andThen fun v m => evalChain_withEarlier ((op, v) :: pending) earlier rhs m]
  | block ss _, m => by
    rw [evalChain, evalChain, evalAll_withEarlier earlier ss m, ← Outcome.withEarlier_andThen fun _ _ => rfl]
  | call f args start, m => by
    have hs : (m.withEarlier earlier).scope = m.scope := rfl
    rw [evalChain, evalChain, hs]
    cases m.scope.lookup f with
    | native native =>
      simp only
      rw [evalAll_withEarlier earlier args m, ← Outcome.withEarlier_andThen fun _ _ => rfl]
    | _ => rfl

theorem evalAll_withEarlier (earlier : List Effect) : ∀ (es : List Expr) (m : Machine),
    evalAll es (m.withEarlier earlier) = (evalAll es m).withEarlier earlier
  | [], _ => rfl
  | e :: es, m => by
    rw [evalAll, evalAll, evalChain_withEarlier [] earlier e m, ← Outcome.withEarlier_andThen]
    intro v m
    rw [evalAll_withEarlier earlier es m, ← Outcome.withEarlier_andThen fun _ _ => rfl]

end

theorem eval_result_start (e : Expr) (m : Machine) :
    (e.eval (.start m.scope)).result = (e.eval m).result :=
  (congrArg Outcome.result (evalChain_withEarlier [] m.effects e (.start m.scope))).symm

theorem evalAll_result_start (es : List Expr) (m : Machine) :
    (evalAll es (.start m.scope)).result = (evalAll es m).result :=
  (congrArg Outcome.result (evalAll_withEarlier m.effects es (.start m.scope))).symm

mutual

/-- The calls and assignments of a tree in post-order. -/
def actions : Expr → List Expr
  | call f args p => actionsAll args ++ [call f args p]
  | assign x e p => actions e ++ [assign x e p]
  | binary _ lhs rhs _ => actions lhs ++ actions rhs
  | block ss _ => actionsAll ss
  | literal _ _ | var _ _ => []

def actionsAll : List Expr → List Expr
  | [] => []
  | e :: es => actions e ++ actionsAll es

end

@[simp] theorem actionsAll_append (es fs : List Expr) :
    actionsAll (es ++ fs) = actionsAll es ++ actionsAll fs := by
  induction es with
  | nil => rfl
  | cons e es ih => simp [actionsAll, ih]

def isCall : Expr → Bool
  | call .. => true
  | _ => false

/-- `Part c before e`: the tree `c` is a part of `e`, and `before` are the actions of `e` in front
of those of `c`. -/
inductive Part (c : Expr) : List Expr → Expr → Prop
  | self : Part c [] c
  | value {x : String} {e : Expr} {p : Position} {before : List Expr} (h : Part c before e) :
      Part c before (assign x e p)
  | left {op : Operator} {lhs rhs : Expr} {p : Position} {before : List Expr}
      (h : Part c before lhs) : Part c before (binary op lhs rhs p)
  | right {op : Operator} {lhs rhs : Expr} {p : Position} {before : List Expr}
      (h : Part c before rhs) : Part c (lhs.actions ++ before) (binary op lhs rhs p)
  | argument {f : String} {front back : List Expr} {e : Expr} {p : Position} {before : List Expr}
      (h : Part c before e) : Part c (actionsAll front ++ before) (call f (front ++ e :: back) p)
  | statement {front back : List Expr} {e : Expr} {p : Position} {before : List Expr}
      (h : Part c before e) : Part c (actionsAll front ++ before) (block (front ++ e :: back) p)

/-- The same for a list of trees. -/
def PartOfAll (c : Expr) (before : List Expr) (es : List Expr) : Prop :=
  ∃ front e back rest, es = front ++ e :: back ∧ before = actionsAll front ++ rest ∧ Part c rest e

theorem PartOfAll.argument {c : Expr} {before args : List Expr} {f : String} {p : Position}
    (h : PartOfAll c before args) : Part c before (call f args p) := by
  obtain ⟨front, e, back, rest, rfl, rfl, h⟩ := h
  exact .argument h

theorem PartOfAll.statement {c : Expr} {before ss : List Expr} {p : Position}
    (h : PartOfAll c before ss) : Part c before (block ss p) := by
  obtain ⟨front, e, back, rest, rfl, rfl, h⟩ := h
  exact .statement h

/-- The actions of a part stand together, behind those in front of it. -/
theorem Part.actions_eq {c e : Expr} {before : List Expr} (h : Part c before e) :
    ∃ after, e.actions = before ++ c.actions ++ after := by
  induction h with
  | self => exact ⟨[], by simp⟩
  | @value x e p before _ ih =>
    obtain ⟨after, ih⟩ := ih
    exact ⟨after ++ [assign x e p], by simp [actions, ih]⟩
  | @left op lhs rhs p before _ ih =>
    obtain ⟨after, ih⟩ := ih
    exact ⟨after ++ rhs.actions, by simp [actions, ih]⟩
  | right _ ih =>
    obtain ⟨after, ih⟩ := ih
    exact ⟨after, by simp [actions, ih]⟩
  | @argument f front back e p before _ ih =>
    obtain ⟨after, ih⟩ := ih
    exact ⟨after ++ actionsAll back ++ [call f (front ++ e :: back) p],
      by simp [actions, actionsAll, ih]⟩
  | @statement front back e p before _ ih =>
    obtain ⟨after, ih⟩ := ih
    exact ⟨after ++ actionsAll back, by simp [actions, actionsAll, ih]⟩

/-- What an action does if its part of the tree is run in a scope: a call prints the line of its
arguments' values, an assignment binds its name to its value. The function is the one that the name
has before the arguments are run. -/
def effect? (s : Scope) : Expr → Option Effect
  | call f args _ =>
    match s.lookup f, (evalAll args (.start s)).result with
    | .native native, .ok values => some (.printed (native.invoke values).1)
    | _, _ => none
  | assign x e _ =>
    match (e.eval (.start s)).result with
    | .ok value => some (.assigned x value)
    | .error _ => none
  | _ => none

/-- `Enacted s done effects`: from the scope `s` on, `effects` are what the actions `done` do, one
by one and in their order. The effect of an action is the one that its own part of the tree has,
taken in the scope in which that part begins. -/
inductive Enacted : Scope → List Expr → List Effect → Prop
  | nil {s : Scope} : Enacted s [] []
  | act {s : Scope} {done inner : List Expr} {a : Expr} {es fs : List Effect} {effect : Effect}
      (hd : Enacted s done es) (hi : Enacted (s.replay es) inner fs) (ha : a.actions = inner ++ [a])
      (he : a.effect? (s.replay es) = some effect) :
      Enacted s (done ++ (inner ++ [a])) (es ++ (fs ++ [effect]))

theorem Enacted.append {s : Scope} {done rest : List Expr} {es fs : List Effect}
    (hd : Enacted s done es) (hr : Enacted (s.replay es) rest fs) :
    Enacted s (done ++ rest) (es ++ fs) := by
  -- The second run begins where the first one ends, so its scope has to become a variable.
  generalize ht : s.replay es = t at hr
  induction hr with
  | nil => simpa using hd
  | @act _ front inner a gs hs effect _ hi ha he ih _ =>
    subst ht
    rw [← List.append_assoc, ← List.append_assoc es]
    rw [← Scope.replay_append] at hi he
    exact .act (ih rfl) hi ha he

/-- A call writes one line and an assignment none. -/
theorem count_newline_of_effect? {s : Scope} {a : Expr} {effect : Effect}
    (h : a.effect? s = some effect) :
    effect.text.toList.count '\n' = if a.isCall then 1 else 0 := by
  cases a with
  | call f args p =>
    simp only [effect?] at h
    split at h
    next native values _ _ =>
      cases h
      simp [Effect.text, isCall, List.count_eq_zero.2 (native.newline_notMem_line values)]
    next => cases h
  | assign x e p =>
    simp only [effect?] at h
    split at h
    · cases h
      rfl
    · cases h
  | _ => cases h

theorem Enacted.count_newline {s : Scope} {done : List Expr} {es : List Effect}
    (h : Enacted s done es) :
    (String.join (es.map Effect.text)).toList.count '\n' = done.countP isCall := by
  induction h with
  | nil => rfl
  | act _ _ _ he ihd ihi =>
    have he := count_newline_of_effect? he
    simp only [List.map_append, List.map_cons, List.map_nil, String.join_append, String.join_cons,
      String.join_nil, String.append_empty, String.toList_append, List.count_append,
      List.countP_append, List.countP_singleton, ihd, ihi, he]

end Expr

open Scriptlet.Expr

namespace Outcome

variable {α β : Type} {o : Outcome α} {m : Machine} {nodes rest : List Expr}
  {Stop Stop' : Expr → List Expr → Prop} {next : α → Machine → Outcome β}

/-- A run of the actions `nodes` from `m` on. It does all of them, or those in front of a call at
which it may stop and which finds no function. -/
def Enacts (o : Outcome α) (m : Machine) (nodes : List Expr) (Stop : Expr → List Expr → Prop) :
    Prop :=
  ∃ effects done, o.machine = m.perform effects ∧ Enacted m.scope done effects ∧
    match o.result with
    | .ok _ => done = nodes
    | .error fault => ∃ args, Stop (call fault.name args fault.position) done ∧
        ∀ f, o.machine.scope.lookup fault.name ≠ .native f

theorem enacts_done (a : α) (m : Machine) : (done a m).Enacts m [] Stop :=
  ⟨[], [], rfl, .nil, rfl⟩

theorem enacts_failed {fault : CallFault} {args : List Expr}
    (hs : Stop (call fault.name args fault.position) [])
    (hf : ∀ f, m.scope.lookup fault.name ≠ .native f) :
    (failed fault m : Outcome α).Enacts m nodes Stop :=
  ⟨[], [], rfl, .nil, args, hs, hf⟩

theorem Enacts.mono (h : o.Enacts m nodes Stop) (hs : ∀ c b, Stop c b → Stop' c b) :
    o.Enacts m nodes Stop' := by
  obtain ⟨effects, done, hm, he, hr⟩ := h
  refine ⟨effects, done, hm, he, ?_⟩
  cases hres : o.result with
  | ok a => simpa [hres] using hr
  | error fault =>
    simp only [hres] at hr ⊢
    obtain ⟨args, hstop, hf⟩ := hr
    exact ⟨args, hs _ _ hstop, hf⟩

/-- One run after another. -/
theorem Enacts.andThen (h : o.Enacts m nodes Stop)
    (hn : ∀ a m', (next a m').Enacts m' rest Stop') :
    (o.andThen next).Enacts m (nodes ++ rest)
      fun c b => Stop c b ∨ ∃ b', b = nodes ++ b' ∧ Stop' c b' := by
  obtain ⟨effects, done, hm, he, hr⟩ := h
  obtain ⟨result, m'⟩ := o
  simp only at hm
  subst hm
  cases result with
  | error fault =>
    obtain ⟨args, hstop, hf⟩ := hr
    exact ⟨effects, done, rfl, he, args, .inl hstop, hf⟩
  | ok a =>
    obtain rfl : done = nodes := hr
    obtain ⟨effects', done', hm', he', hr'⟩ := hn a (m.perform effects)
    have hthen : (Outcome.mk (.ok a) (m.perform effects)).andThen next =
        next a (m.perform effects) := rfl
    rw [hthen]
    refine ⟨effects ++ effects', done ++ done', ?_, he.append he', ?_⟩
    · rw [hm', Machine.perform_append]
    · cases hres : (next a (m.perform effects)).result with
      | ok b =>
        simp only [hres] at hr'
        simp [hr']
      | error fault =>
        simp only [hres] at hr'
        obtain ⟨args, hstop, hf⟩ := hr'
        exact ⟨args, .inr ⟨done', rfl, hstop⟩, hf⟩

/-- What only makes a result out of another one does no action. -/
theorem Enacts.andThen_done (h : o.Enacts m nodes Stop) (g : α → β) :
    (o.andThen fun a m' => .done (g a) m').Enacts m nodes Stop := by
  have hnone (a : α) (m' : Machine) : (done (g a) m').Enacts m' [] fun _ _ => False :=
    enacts_done (g a) m'
  rw [← List.append_nil nodes]
  refine Enacts.mono (h.andThen hnone) ?_
  rintro c b (h | ⟨b, rfl, h⟩)
  · exact h
  · exact h.elim

/-- An action at the end of its own part of the tree. -/
theorem Enacts.act {a : Expr} (h : o.Enacts m nodes Stop) (ha : a.actions = nodes ++ [a])
    (hn : ∀ v m', o.result = .ok v → ∃ b effect, next v m' = .done b (m'.perform [effect]) ∧
      a.effect? m.scope = some effect) :
    (o.andThen next).Enacts m (nodes ++ [a]) Stop := by
  obtain ⟨effects, done, hm, he, hr⟩ := h
  obtain ⟨result, m'⟩ := o
  simp only at hm
  subst hm
  cases result with
  | error fault =>
    obtain ⟨args, hstop, hf⟩ := hr
    exact ⟨effects, done, rfl, he, args, hstop, hf⟩
  | ok v =>
    obtain rfl : done = nodes := hr
    obtain ⟨b, effect, hnext, heffect⟩ := hn v (m.perform effects) rfl
    refine ⟨effects ++ [effect], done ++ [a], ?_, ?_, ?_⟩
    · simp [Outcome.andThen, hnext, Outcome.done]
    · exact .act .nil he ha heffect
    · simp [Outcome.andThen, hnext, Outcome.done]

end Outcome

namespace Expr

mutual

theorem evalChain_enacts (pending : Pending) : ∀ (e : Expr) (m : Machine),
    (evalChain pending e m).Enacts m e.actions fun c before => Part c before e
  | literal _ _, m | var _ _, m => Outcome.enacts_done _ m
  | binary op lhs rhs p, m => by
    rw [evalChain, actions]
    refine Outcome.Enacts.mono (Outcome.Enacts.andThen (evalChain_enacts [] lhs m)
      fun v m' => evalChain_enacts ((op, v) :: pending) rhs m') ?_
    rintro c b (h | ⟨b, rfl, h⟩)
    · exact .left h
    · exact .right h
  | assign x e p, m => by
    rw [evalChain, actions]
    refine Outcome.Enacts.mono (Outcome.Enacts.act (evalChain_enacts [] e m) (by rw [actions])
      fun v m' hv => ?_) fun c b h => .value h
    refine ⟨settle pending .nothing, .assigned x v, rfl, ?_⟩
    rw [effect?, eval_result_start, eval, hv]
  | block ss p, m => by
    rw [evalChain, actions]
    exact Outcome.Enacts.mono (Outcome.Enacts.andThen_done (evalAll_enacts ss m) _)
      fun c b h => h.statement
  | call f args p, m => by
    rw [evalChain, actions]
    split
    next native hf =>
      refine Outcome.Enacts.mono (Outcome.Enacts.act (evalAll_enacts args m) (by rw [actions])
        fun vs m' hvs => ?_) fun c b h => h.argument
      refine ⟨settle pending (native.invoke vs).2, .printed (native.invoke vs).1, rfl, ?_⟩
      rw [effect?, evalAll_result_start, hvs, hf]
    next hf => exact Outcome.enacts_failed .self hf

theorem evalAll_enacts : ∀ (es : List Expr) (m : Machine),
    (evalAll es m).Enacts m (actionsAll es) fun c before => PartOfAll c before es
  | [], m => Outcome.enacts_done _ m
  | e :: es, m => by
    have htail (v : Value) (m : Machine) :
        ((evalAll es m).andThen fun vs m => .done (v :: vs) m).Enacts m (actionsAll es)
          fun c before => PartOfAll c before es :=
      Outcome.Enacts.andThen_done (evalAll_enacts es m) _
    rw [evalAll, actionsAll]
    refine Outcome.Enacts.mono (Outcome.Enacts.andThen (evalChain_enacts [] e m) htail) ?_
    rintro c b (h | ⟨b, rfl, h⟩)
    · exact ⟨[], e, es, b, rfl, rfl, h⟩
    · obtain ⟨front, d, back, rest, rfl, rfl, h⟩ := h
      exact ⟨e :: front, d, back, rest, rfl, by simp [actionsAll], h⟩

end

/-- A run that succeeds does all actions of the tree in post-order, one line for each call and one
binding in the own scope for each assignment. A run that fails does those in front of all that
belongs to the failing call, and they stay done. -/
theorem eval_enacts_postorder (e : Expr) (m : Machine) : ∃ effects done,
    (e.eval m).machine = m.perform effects ∧ Enacted m.scope done effects ∧
      (e.eval m).machine.output.toList.count '\n' =
        m.output.toList.count '\n' + done.countP isCall ∧
      match (e.eval m).result with
      | .ok _ => done = e.actions
      | .error fault => ∃ args after, Part (call fault.name args fault.position) done e ∧
          e.actions = done ++ (call fault.name args fault.position).actions ++ after ∧
          ∀ f, (e.eval m).machine.scope.lookup fault.name ≠ .native f := by
  obtain ⟨effects, done, hm, he, hr⟩ := evalChain_enacts [] e m
  refine ⟨effects, done, hm, he, ?_, ?_⟩
  · rw [eval, hm, Machine.output_perform, String.toList_append, List.count_append,
      he.count_newline]
  · rw [eval]
    cases hres : (evalChain [] e m).result with
    | ok v => simpa only [hres] using hr
    | error fault =>
      simp only [hres] at hr ⊢
      obtain ⟨args, hpart, hf⟩ := hr
      obtain ⟨after, hafter⟩ := hpart.actions_eq
      exact ⟨args, after, hpart, hafter, hf⟩

end Expr

end Scriptlet
