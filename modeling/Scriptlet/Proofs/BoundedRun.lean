import Scriptlet.Proofs.EffectOrder
import Scriptlet.Proofs.Relocation

/-!
Running in a bounded room. A run that does not give up is the run that nothing bounds, and one that
gives up has done by then what that run does first. It gives up only if more calls and assignments
lie inside each other than there is room for.
-/

namespace Scriptlet

open Scriptlet.Expr

namespace Machine

/-- All effects of `m`, and maybe some more, lead to `m'`. -/
def LeadsTo (m m' : Machine) : Prop := ∃ effects, m' = m.perform effects

theorem LeadsTo.refl (m : Machine) : m.LeadsTo m := ⟨[], rfl⟩

theorem LeadsTo.trans {m m' m'' : Machine} (h : m.LeadsTo m') (h' : m'.LeadsTo m'') :
    m.LeadsTo m'' := by
  obtain ⟨es, rfl⟩ := h
  obtain ⟨fs, rfl⟩ := h'
  exact ⟨es ++ fs, (perform_append m es fs).symm⟩

theorem leadsTo_assign (m : Machine) (name : String) (value : Value) :
    m.LeadsTo (m.assign name value) := ⟨[.assigned name value], rfl⟩

theorem leadsTo_print (m : Machine) (line : String) : m.LeadsTo (m.print line) :=
  ⟨[.printed line], rfl⟩

/-- What has been printed stays at the beginning. -/
theorem LeadsTo.output_isPrefix {m m' : Machine} (h : m.LeadsTo m') :
    m.output.toList <+: m'.output.toList := by
  obtain ⟨effects, rfl⟩ := h
  rw [output_perform, String.toList_append]
  exact List.prefix_append _ _

end Machine

namespace Expr

theorem leadsTo_evalChain (pending : Pending) (e : Expr) (m : Machine) :
    m.LeadsTo (evalChain pending e m).machine := by
  obtain ⟨effects, -, hm, -⟩ := evalChain_enacts pending e m
  exact ⟨effects, hm⟩

theorem leadsTo_evalAll (es : List Expr) (m : Machine) : m.LeadsTo (evalAll es m).machine := by
  obtain ⟨effects, -, hm, -⟩ := evalAll_enacts es m
  exact ⟨effects, hm⟩

end Expr

namespace Bounded

variable {α β : Type}

/-- A bounded run ends as the run `o` does, or it gives up on the way there. -/
inductive Follows (o : Outcome α) : Bounded α → Prop
  | ended : Follows o (.ok o)
  | gaveUp {m : Machine} (h : m.LeadsTo o.machine) : Follows o (.error m)

theorem Follows.andThen {o : Outcome α} {b : Bounded α} {next : α → Machine → Outcome β}
    {next' : α → Machine → Bounded β} (h : Follows o b)
    (hf : ∀ a m, Follows (next a m) (next' a m))
    (hm : ∀ a (m : Machine), m.LeadsTo (next a m).machine) :
    Follows (o.andThen next) (b.andThen next') := by
  obtain ⟨result, m⟩ := o
  cases h with
  | ended =>
    cases result with
    | ok a => exact hf a m
    | error fault => exact .ended
  | gaveUp h =>
    cases result with
    | ok a => exact .gaveUp (h.trans (hm a m))
    | error fault => exact .gaveUp h

theorem ok_andThen {o : Outcome α} {next : α → Machine → Outcome β}
    {next' : α → Machine → Bounded β} (h : ∀ a m, next' a m = .ok (next a m)) :
    andThen (.ok o) next' = .ok (o.andThen next) := by
  obtain ⟨result, m⟩ := o
  cases result with
  | ok a => exact h a m
  | error fault => rfl

/-- The same run of a tree that stands elsewhere. -/
def relocate (f : Position → Position) (b : Bounded α) : Bounded α := b.map (Outcome.relocate f)

theorem relocate_andThen (f : Position → Position) {b : Bounded α}
    {next : α → Machine → Bounded β} : (b.andThen next).relocate f =
      (b.relocate f).andThen fun a m => (next a m).relocate f := by
  rcases b with m | ⟨_ | a, m⟩ <;> rfl

end Bounded

namespace Expr

mutual

theorem follows_evalChainWithin (room : Nat) (pending : Pending) : ∀ (e : Expr) (m : Machine),
    Bounded.Follows (evalChain pending e m) (evalChainWithin room pending e m)
  | literal _ _, _ | var _ _, _ => .ended
  | assign x e p, m => by
    cases room with
    | zero => exact .gaveUp (leadsTo_evalChain pending (assign x e p) m)
    | succ room =>
      rw [evalChain, evalChainWithin]
      exact (follows_evalChainWithin room [] e m).andThen (fun _ _ => .ended)
        fun v m => m.leadsTo_assign x v
  | binary op lhs rhs _, m => by
    rw [evalChain, evalChainWithin]
    exact (follows_evalChainWithin room [] lhs m).andThen
      (fun v m => follows_evalChainWithin room ((op, v) :: pending) rhs m)
      fun v m => leadsTo_evalChain ((op, v) :: pending) rhs m
  | block ss _, m => by
    rw [evalChain, evalChainWithin]
    exact (follows_evalAllWithin room ss m).andThen (fun _ _ => .ended) fun _ m => .refl m
  | call f args p, m => by
    cases room with
    | zero => exact .gaveUp (leadsTo_evalChain pending (call f args p) m)
    | succ room =>
      rw [evalChain, evalChainWithin]
      cases m.scope.lookup f with
      | native native =>
        exact (follows_evalAllWithin room args m).andThen (fun _ _ => .ended)
          fun vs m => m.leadsTo_print _
      | _ => exact .ended

theorem follows_evalAllWithin (room : Nat) : ∀ (es : List Expr) (m : Machine),
    Bounded.Follows (evalAll es m) (evalAllWithin room es m)
  | [], _ => .ended
  | e :: es, m => by
    rw [evalAll, evalAllWithin]
    refine (follows_evalChainWithin room [] e m).andThen (fun v m => ?_) fun v m => ?_
    · exact (follows_evalAllWithin room es m).andThen (fun _ _ => .ended) fun _ m => .refl m
    · have h := leadsTo_evalAll es m
      generalize evalAll es m = o at h ⊢
      obtain ⟨_ | vs, m'⟩ := o <;> exact h

end

mutual

theorem evalChainWithin_eq {room : Nat} (pending : Pending) : ∀ (e : Expr) (m : Machine),
    e.nesting ≤ room → evalChainWithin room pending e m = .ok (evalChain pending e m)
  | literal _ _, _, _ | var _ _, _, _ => rfl
  | assign x e _, m, hn => by
    cases room with
    | zero => simp [nesting] at hn
    | succ room =>
      rw [evalChainWithin, evalChainWithin_eq [] e m (Nat.le_of_succ_le_succ hn), evalChain]
      exact Bounded.ok_andThen fun _ _ => rfl
  | binary op lhs rhs _, m, hn => by
    obtain ⟨hl, hr⟩ := Nat.max_le.1 hn
    rw [evalChainWithin, evalChainWithin_eq [] lhs m hl, evalChain]
    exact Bounded.ok_andThen fun v m => evalChainWithin_eq ((op, v) :: pending) rhs m hr
  | block ss _, m, hn => by
    rw [evalChainWithin, evalAllWithin_eq ss m hn, evalChain]
    exact Bounded.ok_andThen fun _ _ => rfl
  | call f args start, m, hn => by
    cases room with
    | zero => simp [nesting] at hn
    | succ room =>
      rw [evalChainWithin, evalChain]
      cases m.scope.lookup f with
      | native native =>
        simp only
        rw [evalAllWithin_eq args m (Nat.le_of_succ_le_succ hn)]
        exact Bounded.ok_andThen fun _ _ => rfl
      | _ => rfl

theorem evalAllWithin_eq {room : Nat} : ∀ (es : List Expr) (m : Machine),
    nestingAll es ≤ room → evalAllWithin room es m = .ok (evalAll es m)
  | [], _, _ => rfl
  | e :: es, m, hn => by
    obtain ⟨he, hes⟩ := Nat.max_le.1 hn
    rw [evalAllWithin, evalChainWithin_eq [] e m he, evalAll]
    refine Bounded.ok_andThen fun v m => ?_
    rw [evalAllWithin_eq es m hes]
    exact Bounded.ok_andThen fun _ _ => rfl

end

mutual

theorem evalChainWithin_relocate (f : Position → Position) (room : Nat) (pending : Pending) :
    ∀ (e : Expr) (m : Machine), evalChainWithin room pending (e.relocate f) m =
      (evalChainWithin room pending e m).relocate f
  | literal _ _, _ | var _ _, _ => rfl
  | assign _ e _, m => by
    cases room with
    | zero => rfl
    | succ room =>
      rw [relocate, evalChainWithin, evalChainWithin, Bounded.relocate_andThen,
        evalChainWithin_relocate f room [] e m]
      rfl
  | binary op lhs rhs _, m => by
    rw [relocate, evalChainWithin, evalChainWithin, Bounded.relocate_andThen,
      evalChainWithin_relocate f room [] lhs m]
    simp only [evalChainWithin_relocate f room _ rhs]
  | block ss _, m => by
    rw [relocate, evalChainWithin, evalChainWithin, Bounded.relocate_andThen,
      evalAllWithin_relocate f room ss m]
    rfl
  | call g args start, m => by
    cases room with
    | zero => rfl
    | succ room =>
      rw [relocate, evalChainWithin, evalChainWithin]
      cases m.scope.lookup g with
      | native native =>
        simp only
        rw [Bounded.relocate_andThen, evalAllWithin_relocate f room args m]
        rfl
      | _ => rfl

theorem evalAllWithin_relocate (f : Position → Position) (room : Nat) :
    ∀ (es : List Expr) (m : Machine), evalAllWithin room (relocateAll f es) m =
      (evalAllWithin room es m).relocate f
  | [], _ => rfl
  | e :: es, m => by
    rw [relocateAll, evalAllWithin, evalAllWithin, Bounded.relocate_andThen,
      evalChainWithin_relocate f room [] e m]
    simp only [evalAllWithin_relocate f room es, Bounded.relocate_andThen]
    rfl

end

variable {limit : Option Nat} {e : Expr} {m : Machine}

theorem follows_evalWithin (limit : Option Nat) (e : Expr) (m : Machine) :
    Bounded.Follows (e.eval m) (e.evalWithin limit m) := by
  cases limit with
  | none => exact .ended
  | some room => exact follows_evalChainWithin room [] e m

theorem evalWithin_eq (h : ∀ room ∈ limit, e.nesting ≤ room) (m : Machine) :
    e.evalWithin limit m = .ok (e.eval m) := by
  cases limit with
  | none => rfl
  | some room => exact evalChainWithin_eq [] e m (h room rfl)

theorem evalWithin_relocate (f : Position → Position) (limit : Option Nat) (e : Expr)
    (m : Machine) : (e.relocate f).evalWithin limit m = (e.evalWithin limit m).relocate f := by
  cases limit with
  | none => exact congrArg Except.ok (eval_relocate f e m)
  | some room => exact evalChainWithin_relocate f room [] e m

theorem eval_of_evalWithin {o : Outcome Value} (h : e.evalWithin limit m = .ok o) :
    e.eval m = o := by
  have hf := follows_evalWithin limit e m
  rw [h] at hf
  cases hf
  rfl

/-- A run that gives up wants for room, and has begun the run that nothing bounds. -/
theorem exists_room_of_evalWithin {m' : Machine} (h : e.evalWithin limit m = .error m') :
    (∃ room ∈ limit, room < e.nesting) ∧ m'.LeadsTo (e.eval m).machine := by
  constructor
  · by_contra hnone
    have hroom : ∀ room ∈ limit, e.nesting ≤ room := fun room hr =>
      Nat.le_of_not_lt fun hlt => hnone ⟨room, hr, hlt⟩
    rw [evalWithin_eq hroom] at h
    cases h
  · have hf := follows_evalWithin limit e m
    rw [h] at hf
    cases hf with
    | gaveUp hm => exact hm

end Expr

end Scriptlet
