import Scriptlet.Diagnostic
import Scriptlet.Expr
import Scriptlet.Scope

/-!
Running a tree. A run reads and writes the names of one scope and leaves a record of its effects;
what has happened before a failure stays. Where the host bounds how many calls and assignments may
be open at once, a run may also want for room.
-/

namespace Scriptlet

inductive Effect where
  | printed (line : String)
  | assigned (name : String) (value : Value)

def Effect.text : Effect → String
  | .printed line => line ++ "\n"
  | .assigned _ _ => ""

/-- The scope of a run and its effects so far, the latest first. -/
structure Machine where
  scope : Scope
  effects : List Effect

namespace Machine

def start (scope : Scope) : Machine := ⟨scope, []⟩

def output (m : Machine) : String := String.join (m.effects.reverse.map Effect.text)

def assign (m : Machine) (name : String) (value : Value) : Machine :=
  ⟨m.scope.assign name value, .assigned name value :: m.effects⟩

def print (m : Machine) (line : String) : Machine :=
  { m with effects := .printed line :: m.effects }

end Machine

structure Outcome (α : Type) where
  result : Except CallFault α
  machine : Machine

namespace Outcome

variable {α β γ : Type}

def done (a : α) (m : Machine) : Outcome α := ⟨.ok a, m⟩

def failed (f : CallFault) (m : Machine) : Outcome α := ⟨.error f, m⟩

@[inline] def andThen (o : Outcome α) (next : α → Machine → Outcome β) : Outcome β :=
  match o.result with
  | .ok a => next a o.machine
  | .error f => failed f o.machine

@[simp] theorem andThen_done (a : α) (m : Machine) (next : α → Machine → Outcome β) :
    (done a m).andThen next = next a m := rfl

@[simp] theorem andThen_failed (f : CallFault) (m : Machine) (next : α → Machine → Outcome β) :
    (failed f m : Outcome α).andThen next = failed f m := rfl

theorem andThen_assoc (o : Outcome α) (next : α → Machine → Outcome β)
    (last : β → Machine → Outcome γ) :
    (o.andThen next).andThen last = o.andThen fun a m => (next a m).andThen last := by
  obtain ⟨result, m⟩ := o
  cases result <;> rfl

theorem andThen_done_self (o : Outcome α) : o.andThen done = o := by
  obtain ⟨result, m⟩ := o
  cases result <;> rfl

end Outcome

/-- What comes of a run in a bounded room, or the machine that it leaves where it wants for room. -/
abbrev Bounded (α : Type) := Except Machine (Outcome α)

@[inline] def Bounded.andThen {α β : Type} (o : Bounded α) (next : α → Machine → Bounded β) :
    Bounded β :=
  match o with
  | .error m => .error m
  | .ok ⟨.ok a, m⟩ => next a m
  | .ok ⟨.error f, m⟩ => .ok (.failed f m)

namespace Expr

/-- Left operands that wait for the value on their right, the nearest one first. -/
abbrev Pending := List (Operator × Value)

/-- The value of a chain once its last operand is known: operators are applied from the right. -/
def settle (pending : Pending) (last : Value) : Value :=
  pending.foldl (fun rhs (op, lhs) => op.apply lhs rhs) last

mutual

/-- Run a tree that stands at the right end of a chain. An operator puts its left operand on the
list and goes on with the right one, so that a chain of any length runs in one loop. -/
def evalChain (pending : Pending) : Expr → Machine → Outcome Value
  | binary op lhs rhs _, m =>
    (evalChain [] lhs m).andThen fun v m => evalChain ((op, v) :: pending) rhs m
  | literal v _, m => .done (settle pending v) m
  | var x _, m => .done (settle pending (m.scope.lookup x)) m
  | assign x e _, m =>
    (evalChain [] e m).andThen fun v m => .done (settle pending .nothing) (m.assign x v)
  | block ss _, m => (evalAll ss m).andThen fun _ m => .done (settle pending .nothing) m
  | call f args start, m =>
    match m.scope.lookup f with
    | .native native =>
      (evalAll args m).andThen fun vs m =>
        let (line, v) := native.invoke vs
        .done (settle pending v) (m.print line)
    | _ => .failed ⟨f, start⟩ m

def evalAll : List Expr → Machine → Outcome (List Value)
  | [], m => .done [] m
  | e :: es, m =>
    (evalChain [] e m).andThen fun v m => (evalAll es m).andThen fun vs m => .done (v :: vs) m

end

section call
variable {pending : Pending} {f : String} {args : List Expr} {start : Position} {m : Machine}

theorem evalChain_call {native : Native} (h : m.scope.lookup f = .native native) :
    evalChain pending (call f args start) m = (evalAll args m).andThen fun vs m =>
      .done (settle pending (native.invoke vs).2) (m.print (native.invoke vs).1) := by
  rw [evalChain, h]

theorem evalChain_call_of_not_native (h : ∀ native, m.scope.lookup f ≠ .native native) :
    evalChain pending (call f args start) m = .failed ⟨f, start⟩ m := by
  rw [evalChain]
  split
  next native hf => exact absurd hf (h native)
  next => rfl

end call

/-- Run a tree. A function is looked up before the arguments of its call are run. -/
def eval (e : Expr) (m : Machine) : Outcome Value := evalChain [] e m

mutual

/-- Run a tree that stands at the right end of a chain, with at most `room` calls and assignments
open at once. Operators and statements take no room. -/
def evalChainWithin (room : Nat) (pending : Pending) : Expr → Machine → Bounded Value
  | binary op lhs rhs _, m =>
    (evalChainWithin room [] lhs m).andThen fun v m =>
      evalChainWithin room ((op, v) :: pending) rhs m
  | literal v _, m => .ok (.done (settle pending v) m)
  | var x _, m => .ok (.done (settle pending (m.scope.lookup x)) m)
  | assign x e _, m =>
    match room with
    | 0 => .error m
    | room + 1 => (evalChainWithin room [] e m).andThen fun v m =>
        .ok (.done (settle pending .nothing) (m.assign x v))
  | block ss _, m => (evalAllWithin room ss m).andThen fun _ m =>
      .ok (.done (settle pending .nothing) m)
  | call f args start, m =>
    match room with
    | 0 => .error m
    | room + 1 =>
      match m.scope.lookup f with
      | .native native =>
        (evalAllWithin room args m).andThen fun vs m =>
          let (line, v) := native.invoke vs
          .ok (.done (settle pending v) (m.print line))
      | _ => .ok (.failed ⟨f, start⟩ m)

def evalAllWithin (room : Nat) : List Expr → Machine → Bounded (List Value)
  | [], m => .ok (.done [] m)
  | e :: es, m =>
    (evalChainWithin room [] e m).andThen fun v m =>
      (evalAllWithin room es m).andThen fun vs m => .ok (.done (v :: vs) m)

end

/-- Run a tree, in a bounded room if a bound is given. -/
def evalWithin (limit : Option Nat) (e : Expr) (m : Machine) : Bounded Value :=
  match limit with
  | some room => evalChainWithin room [] e m
  | none => .ok (e.eval m)

end Expr

end Scriptlet
