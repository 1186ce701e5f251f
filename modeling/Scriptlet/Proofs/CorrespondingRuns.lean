import Mathlib.Data.List.Forall2
import Mathlib.Data.Set.Function
import Scriptlet.Proofs.EffectOrder

/-!
Two runs next to each other: one of a tree, and one of the tree with other names in a scope whose
values are like those of the first. As long as operators and natives keep values alike, the runs do
the same actions and stop at the same call.
-/

namespace Scriptlet

namespace Expr

mutual

/-- The names that a tree reads, calls or assigns. -/
def names : Expr → List String
  | block ss _ => namesAll ss
  | call f args _ => f :: namesAll args
  | literal _ _ => []
  | assign x e _ => x :: names e
  | var x _ => [x]
  | binary _ lhs rhs _ => names lhs ++ names rhs

def namesAll : List Expr → List String
  | [] => []
  | e :: es => names e ++ namesAll es

end

mutual

/-- The tree with all its names replaced. -/
def rename (r : String → String) : Expr → Expr
  | block ss p => block (renameAll r ss) p
  | call f args p => call (r f) (renameAll r args) p
  | literal v p => literal v p
  | assign x e p => assign (r x) (rename r e) p
  | var x p => var (r x) p
  | binary op lhs rhs p => binary op (rename r lhs) (rename r rhs) p

def renameAll (r : String → String) : List Expr → List Expr
  | [] => []
  | e :: es => rename r e :: renameAll r es

end

variable (r : String → String)

theorem renameAll_eq_map (es : List Expr) : renameAll r es = es.map (rename r) := by
  induction es with
  | nil => rfl
  | cons e es ih => rw [renameAll, ih, List.map_cons]

theorem renameAll_append (es fs : List Expr) :
    renameAll r (es ++ fs) = renameAll r es ++ renameAll r fs := by
  simp [renameAll_eq_map]

mutual

theorem rename_id : ∀ e : Expr, e.rename id = e
  | literal _ _ | var _ _ => rfl
  | assign x e p => by rw [rename, rename_id e, id]
  | binary op lhs rhs p => by rw [rename, rename_id lhs, rename_id rhs]
  | block ss p => by rw [rename, renameAll_id ss]
  | call f args p => by rw [rename, renameAll_id args, id]

theorem renameAll_id : ∀ es : List Expr, renameAll id es = es
  | [] => rfl
  | e :: es => by rw [renameAll, rename_id e, renameAll_id es]

end

mutual

theorem actions_rename : ∀ e : Expr, (e.rename r).actions = e.actions.map (rename r)
  | literal _ _ | var _ _ => rfl
  | assign x e p => by simp [rename, actions, actions_rename e]
  | binary op lhs rhs p => by simp [rename, actions, actions_rename lhs, actions_rename rhs]
  | block ss p => by rw [rename, actions, actionsAll_rename ss, actions]
  | call f args p => by simp [rename, actions, actionsAll_rename args]

theorem actionsAll_rename : ∀ es : List Expr,
    actionsAll (renameAll r es) = (actionsAll es).map (rename r)
  | [] => rfl
  | e :: es => by simp [renameAll, actionsAll, actions_rename e, actionsAll_rename es]

end

/-- A part of a tree is found at the same place with other names. -/
theorem Part.rename {c e : Expr} {before : List Expr} (h : Part c before e) :
    Part (c.rename r) (before.map (Expr.rename r)) (e.rename r) := by
  induction h with
  | self => exact .self
  | value _ ih => exact .value ih
  | left _ ih => exact .left ih
  | @right op lhs rhs p before _ ih =>
    rw [List.map_append, ← actions_rename]
    exact .right ih
  | @argument f front back e p before _ ih =>
    rw [List.map_append, ← actionsAll_rename, Expr.rename, renameAll_append, renameAll]
    exact .argument ih
  | @statement front back e p before _ ih =>
    rw [List.map_append, ← actionsAll_rename, Expr.rename, renameAll_append, renameAll]
    exact .statement ih

/-- The run of a tree has done these actions and no others. -/
def Does (e : Expr) (m : Machine) (done : List Expr) : Prop :=
  ∃ effects, (e.eval m).machine = m.perform effects ∧ Enacted m.scope done effects

theorem Enacted.length_eq {s : Scope} {done : List Expr} {effects : List Effect}
    (h : Enacted s done effects) : done.length = effects.length := by
  induction h with
  | nil => rfl
  | act _ _ _ _ ihd ihi => simp [ihd, ihi]

theorem Part.prefix_actions {c e : Expr} {before : List Expr} (h : Part c before e) :
    before <+: e.actions := by
  obtain ⟨after, hafter⟩ := h.actions_eq
  exact ⟨c.actions ++ after, by rw [hafter, List.append_assoc]⟩

/-- A run does the actions of its tree up to some number, all of them unless a call fails. -/
theorem exists_enacted_take (e : Expr) (m : Machine) : ∃ effects,
    (e.eval m).machine = m.perform effects ∧
      Enacted m.scope (e.actions.take effects.length) effects ∧
      match (e.eval m).result with
      | .ok _ => e.actions.take effects.length = e.actions
      | .error fault => ∃ args,
          Part (call fault.name args fault.position) (e.actions.take effects.length) e := by
  obtain ⟨effects, done, hm, he, hr⟩ := evalChain_enacts [] e m
  have hstop : done <+: e.actions ∧
      match (e.eval m).result with
      | .ok _ => done = e.actions
      | .error fault => ∃ args, Part (call fault.name args fault.position) done e := by
    rw [eval]
    cases hres : (evalChain [] e m).result with
    | ok v =>
      simp only [hres] at hr ⊢
      exact ⟨hr ▸ List.prefix_refl _, hr⟩
    | error fault =>
      simp only [hres] at hr ⊢
      obtain ⟨args, hpart, -⟩ := hr
      exact ⟨hpart.prefix_actions, args, hpart⟩
  obtain ⟨hfront, hstop⟩ := hstop
  have hdone : done = e.actions.take effects.length := by
    rw [← he.length_eq]
    exact List.prefix_iff_eq_take.1 hfront
  rw [hdone] at he hstop
  exact ⟨effects, hm, he, hstop⟩

end Expr

theorem Machine.perform_injective (m : Machine) : Function.Injective m.perform := by
  intro es fs h
  have heffects := congrArg Machine.effects h
  exact List.reverse_injective (List.append_cancel_right heffects)

def CallFault.rename (r : String → String) (fault : CallFault) : CallFault :=
  { fault with name := r fault.name }

/-- How names and values of one run correspond to those of another one. Operators and natives keep
values alike, and only a native is like a native. -/
structure Correspondence where
  names : Set String
  rename : String → String
  injOn : Set.InjOn rename names
  Like : Value → Value → Prop
  refl : ∀ v, Like v v
  native_iff : ∀ {v w}, Like v w → ∀ f, v = .native f ↔ w = .native f
  apply : ∀ {a b c d} (op : Operator), Like a b → Like c d → Like (op.apply a c) (op.apply b d)
  invoke : ∀ {vs ws} (f : Native), List.Forall₂ Like vs ws → Like (f.invoke vs).2 (f.invoke ws).2

namespace Correspondence

open Scriptlet.Expr

variable (K : Correspondence)

/-- Every name has a value like that of the name in its place. -/
def Scopes (s t : Scope) : Prop := ∀ x ∈ K.names, K.Like (s.lookup x) (t.lookup (K.rename x))

/-- Lines of like arguments, or like values for a name and the one in its place. -/
inductive Effects : Effect → Effect → Prop
  | printed {vs ws : List Value} (f : Native) (h : List.Forall₂ K.Like vs ws) :
      Effects (.printed (f.invoke vs).1) (.printed (f.invoke ws).1)
  | assigned {x : String} {v w : Value} (hx : x ∈ K.names) (h : K.Like v w) :
      Effects (.assigned x v) (.assigned (K.rename x) w)

variable {α β γ δ : Type}

inductive Results (A : α → β → Prop) : Except CallFault α → Except CallFault β → Prop
  | ok {a : α} {b : β} (h : A a b) : Results A (.ok a) (.ok b)
  | error (fault : CallFault) : Results A (.error fault) (.error (fault.rename K.rename))

/-- Runs from `m` and from `n` on with effects that correspond one by one and with results that do. -/
def Runs (A : α → β → Prop) (o : Outcome α) (m : Machine) (p : Outcome β) (n : Machine) : Prop :=
  ∃ es fs, o.machine = m.perform es ∧ p.machine = n.perform fs ∧ List.Forall₂ K.Effects es fs ∧
    K.Results A o.result p.result

variable {K} {A : α → β → Prop} {B : γ → δ → Prop} {m n : Machine} {s t : Scope}

theorem Scopes.assign (h : K.Scopes s t) {x : String} {v w : Value} (hx : x ∈ K.names)
    (hv : K.Like v w) : K.Scopes (s.assign x v) (t.assign (K.rename x) w) := by
  intro y hy
  rw [Scope.lookup_assign, Scope.lookup_assign]
  by_cases hyx : y = x
  · rw [if_pos hyx, if_pos (congrArg K.rename hyx)]
    exact hv
  · have hne : K.rename y ≠ K.rename x := fun he => hyx (K.injOn hy hx he)
    rw [if_neg hyx, if_neg hne]
    exact h y hy

theorem Scopes.replay {es fs : List Effect} (h : K.Scopes s t) (he : List.Forall₂ K.Effects es fs) :
    K.Scopes (s.replay es) (t.replay fs) := by
  induction he generalizing s t with
  | nil => exact h
  | cons hd _ ih =>
    cases hd with
    | printed => exact ih h
    | assigned hx hv => exact ih (h.assign hx hv)

namespace Runs

variable {o : Outcome α} {p : Outcome β}

theorem scopes (h : K.Runs A o m p n) (hs : K.Scopes m.scope n.scope) :
    K.Scopes o.machine.scope p.machine.scope := by
  obtain ⟨es, fs, hm, hn, he, -⟩ := h
  rw [hm, hn]
  exact hs.replay he

theorem done {a : α} {b : β} (h : A a b) : K.Runs A (.done a m) m (.done b n) n :=
  ⟨[], [], rfl, rfl, .nil, .ok h⟩

theorem failed (fault : CallFault) :
    K.Runs A (.failed fault m) m (.failed (fault.rename K.rename) n) n :=
  ⟨[], [], rfl, rfl, .nil, .error fault⟩

theorem act {a : α} {b : β} {effect effect' : Effect} (he : K.Effects effect effect') (h : A a b) :
    K.Runs A (.done a (m.perform [effect])) m (.done b (n.perform [effect'])) n :=
  ⟨[effect], [effect'], rfl, rfl, .cons he .nil, .ok h⟩

/-- One run after another, on both sides. -/
theorem andThen {next : α → Machine → Outcome γ} {next' : β → Machine → Outcome δ}
    (h : K.Runs A o m p n) (hs : K.Scopes m.scope n.scope)
    (hn : ∀ a b m n, A a b → K.Scopes m.scope n.scope → K.Runs B (next a m) m (next' b n) n) :
    K.Runs B (o.andThen next) m (p.andThen next') n := by
  obtain ⟨es, fs, hm, hp, he, hr⟩ := h
  obtain ⟨result, m'⟩ := o
  obtain ⟨result', n'⟩ := p
  simp only at hm hp hr
  subst hm hp
  cases hr with
  | error fault => exact ⟨es, fs, rfl, rfl, he, .error fault⟩
  | ok hab =>
    obtain ⟨es', fs', hm', hn', he', hr'⟩ := hn _ _ (m.perform es) (n.perform fs) hab (hs.replay he)
    refine ⟨es ++ es', fs ++ fs', ?_, ?_, List.rel_append he he', hr'⟩
    · rw [Machine.perform_append]
      exact hm'
    · rw [Machine.perform_append]
      exact hn'

end Runs

/-- Left operands that wait on both sides, with the same operators. -/
abbrev Pendings (K : Correspondence) (ps qs : Pending) : Prop :=
  List.Forall₂ (fun p q => p.1 = q.1 ∧ K.Like p.2 q.2) ps qs

theorem settle_like {ps qs : Pending} {v w : Value} (h : K.Pendings ps qs) (hv : K.Like v w) :
    K.Like (settle ps v) (settle qs w) := by
  induction h generalizing v w with
  | nil => exact hv
  | @cons p q ps qs hd _ ih =>
    obtain ⟨op, lhs⟩ := p
    obtain ⟨op', lhs'⟩ := q
    obtain ⟨rfl, hlhs⟩ := hd
    exact ih (K.apply op hlhs hv)

mutual

theorem evalChain_runs {ps qs : Pending} (hp : K.Pendings ps qs) : ∀ (e : Expr) (m n : Machine),
    (∀ x ∈ e.names, x ∈ K.names) → K.Scopes m.scope n.scope →
      K.Runs K.Like (evalChain ps e m) m (evalChain qs (e.rename K.rename) n) n
  | literal v _, m, n, _, _ => .done (settle_like hp (K.refl v))
  | var x _, m, n, hx, hs => .done (settle_like hp (hs x (hx x List.mem_cons_self)))
  | assign x e _, m, n, hx, hs => by
    rw [Expr.rename, evalChain, evalChain]
    obtain ⟨hx, he⟩ := List.forall_mem_cons.1 hx
    refine (evalChain_runs .nil e m n he hs).andThen hs fun v w m n hv _ => ?_
    exact .act (.assigned hx hv) (settle_like hp (K.refl _))
  | binary op lhs rhs _, m, n, hx, hs => by
    rw [Expr.rename, evalChain, evalChain]
    obtain ⟨hl, hr⟩ := List.forall_mem_append.1 hx
    refine (evalChain_runs .nil lhs m n hl hs).andThen hs fun v w m n hv hs => ?_
    have hp' : K.Pendings ((op, v) :: ps) ((op, w) :: qs) := .cons ⟨rfl, hv⟩ hp
    exact evalChain_runs hp' rhs m n hr hs
  | block ss _, m, n, hx, hs => by
    rw [Expr.rename, evalChain, evalChain]
    refine (evalAll_runs ss m n hx hs).andThen hs fun vs ws m n _ _ => ?_
    exact .done (settle_like hp (K.refl _))
  | call f args start, m, n, hx, hs => by
    rw [Expr.rename]
    obtain ⟨hf, ha⟩ := List.forall_mem_cons.1 hx
    -- both names stand for the same native, or neither stands for one
    have hiff := K.native_iff (hs f hf)
    by_cases hnative : ∃ native, m.scope.lookup f = .native native
    · obtain ⟨native, hm⟩ := hnative
      rw [evalChain_call hm, evalChain_call ((hiff native).1 hm)]
      refine (evalAll_runs args m n ha hs).andThen hs fun vs ws m n hvs _ => ?_
      exact .act (.printed native hvs) (settle_like hp (K.invoke native hvs))
    · have hm : ∀ native, m.scope.lookup f ≠ .native native := fun native h => hnative ⟨native, h⟩
      have hn : ∀ native, n.scope.lookup (K.rename f) ≠ .native native := fun native h =>
        hm native ((hiff native).2 h)
      rw [evalChain_call_of_not_native hm, evalChain_call_of_not_native hn]
      exact .failed ⟨f, start⟩

theorem evalAll_runs : ∀ (es : List Expr) (m n : Machine),
    (∀ x ∈ namesAll es, x ∈ K.names) → K.Scopes m.scope n.scope →
      K.Runs (List.Forall₂ K.Like) (evalAll es m) m (evalAll (renameAll K.rename es) n) n
  | [], m, n, _, _ => .done .nil
  | e :: es, m, n, hx, hs => by
    rw [renameAll, evalAll, evalAll]
    obtain ⟨he, hes⟩ := List.forall_mem_append.1 hx
    refine (evalChain_runs .nil e m n he hs).andThen hs fun v w m n hv hs => ?_
    refine (evalAll_runs es m n hes hs).andThen hs fun vs ws m n hvs _ => ?_
    exact .done (.cons hv hvs)

end

/-- Runs that correspond have done the same actions. If they have failed, it was at the same call. -/
theorem exists_does {e : Expr} (hx : ∀ x ∈ e.names, x ∈ K.names) (hs : K.Scopes m.scope n.scope) :
    ∃ done, e.Does m done ∧ (e.rename K.rename).Does n (done.map (Expr.rename K.rename)) ∧
      match (e.eval m).result with
      | .ok _ => done = e.actions
      | .error fault => ∃ args, Part (call fault.name args fault.position) done e := by
  obtain ⟨es, fs, hm, hn, he, -⟩ := evalChain_runs .nil e m n hx hs
  obtain ⟨es', hm', hes, hresult⟩ := e.exists_enacted_take m
  obtain ⟨fs', hn', hfs, -⟩ := (e.rename K.rename).exists_enacted_take n
  obtain rfl : es' = es := m.perform_injective (hm'.symm.trans hm)
  obtain rfl : fs' = fs := n.perform_injective (hn'.symm.trans hn)
  rw [actions_rename, ← List.map_take, ← he.length_eq] at hfs
  exact ⟨_, ⟨es', hm, hes⟩, ⟨fs', hn, hfs⟩, hresult⟩

end Correspondence

def Effect.rename (r : String → String) : Effect → Effect
  | .printed line => .printed line
  | .assigned x v => .assigned (r x) v

@[simp] theorem Effect.text_rename (r : String → String) (effect : Effect) :
    (effect.rename r).text = effect.text := by
  cases effect <;> rfl

namespace Correspondence

open Scriptlet.Expr

/-- Names are replaced, and values are like themselves only. -/
def ofRename {names : Set String} {r : String → String} (h : Set.InjOn r names) :
    Correspondence where
  names := names
  rename := r
  injOn := h
  Like := Eq
  refl _ := rfl
  native_iff h f := by rw [h]
  apply op hl hr := by rw [hl, hr]
  invoke f h := by rw [List.forall₂_eq_eq_eq] at h; rw [h]

variable {names : Set String} {r : String → String} {hr : Set.InjOn r names}

theorem Effects.eq_rename {effect effect' : Effect} (h : (ofRename hr).Effects effect effect') :
    effect' = effect.rename r ∧ ∀ x v, effect = .assigned x v → x ∈ names := by
  cases h with
  | printed f h =>
    have h : List.Forall₂ Eq _ _ := h
    rw [List.forall₂_eq_eq_eq] at h
    rw [h]
    exact ⟨rfl, fun x v h => by cases h⟩
  | @assigned x v w hx h =>
    have h : v = w := h
    rw [h]
    exact ⟨rfl, fun y w h => by cases h; exact hx⟩

theorem eq_rename_of_effects {es fs : List Effect} (h : List.Forall₂ (ofRename hr).Effects es fs) :
    fs = es.map (Effect.rename r) ∧ ∀ x v, .assigned x v ∈ es → x ∈ names := by
  induction h with
  | nil => simp
  | cons hd _ ih =>
    obtain ⟨rfl, hx⟩ := hd.eq_rename
    obtain ⟨rfl, hxs⟩ := ih
    refine ⟨rfl, fun x v hmem => ?_⟩
    rcases List.mem_cons.1 hmem with h | h
    · exact hx x v h.symm
    · exact hxs x v h

theorem Results.eq_rename {result result' : Except CallFault Value}
    (h : (ofRename hr).Results Eq result result') :
    result' = result.mapError (CallFault.rename r) := by
  cases h with
  | ok h => rw [h]; rfl
  | error fault => rfl

end Correspondence

namespace Expr

/-- A tree with other names runs as the tree itself does, in a scope that has the same values under
the other names. -/
theorem exists_effects_rename {names : Set String} {r : String → String} (hr : Set.InjOn r names)
    {e : Expr} {m n : Machine} (hx : ∀ x ∈ e.names, x ∈ names)
    (hs : ∀ x ∈ names, m.scope.lookup x = n.scope.lookup (r x)) :
    ((e.rename r).eval n).result = (e.eval m).result.mapError (CallFault.rename r) ∧
      (∀ x ∈ names, (e.eval m).machine.scope.lookup x =
        ((e.rename r).eval n).machine.scope.lookup (r x)) ∧
      ∃ effects, (e.eval m).machine = m.perform effects ∧
        ((e.rename r).eval n).machine = n.perform (effects.map (Effect.rename r)) ∧
        ∀ x v, .assigned x v ∈ effects → x ∈ names := by
  have hruns := Correspondence.evalChain_runs (K := .ofRename hr) .nil e m n hx hs
  refine ⟨?_, hruns.scopes hs, ?_⟩
  · obtain ⟨es, fs, -, -, -, hresult⟩ := hruns
    exact hresult.eq_rename
  · obtain ⟨es, fs, hm, hn, he, -⟩ := hruns
    obtain ⟨rfl, hassigned⟩ := Correspondence.eq_rename_of_effects he
    exact ⟨es, hm, hn, hassigned⟩

end Expr

/-- Other names do not show in what is printed. -/
theorem Machine.output_perform_rename (m : Machine) (r : String → String) (effects : List Effect) :
    (m.perform (effects.map (Effect.rename r))).output =
      m.output ++ String.join (effects.map Effect.text) := by
  have htext : Effect.text ∘ Effect.rename r = Effect.text := funext fun e => e.text_rename r
  rw [output_perform, List.map_map, htext]

end Scriptlet
