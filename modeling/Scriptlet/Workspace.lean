import Scriptlet.Evaluation
import Scriptlet.Program

/-!
Several scopes over one shared module of native functions. Every step belongs to one of the scopes;
what it assigns stays there.
-/

namespace Scriptlet

structure Workspace where
  module : Bindings
  scopes : List Bindings

namespace Workspace

inductive Step where
  | run (source text : String)
  | eval (source text : String)
  | set (name : String) (value : Value)
  | get (name : String)

/-- What a step answers: the value of a program or an expression, a line about the scope after a
name is set, or the value of a name and whether it has one. -/
inductive Reply where
  | value (v : Value)
  | failed (report : Diagnostic)
  | described (line : String)
  | found (v : Value) (has : Bool)

def start (count : Nat) : Workspace := ⟨.natives, List.replicate count ∅⟩

def own (w : Workspace) (i : Nat) : Bindings := w.scopes[i]?.getD ∅

def scope (w : Workspace) (i : Nat) : Scope := ⟨w.own i, [w.module]⟩

/-- Scope `i` and what is around it become as a run has left them. -/
def store (w : Workspace) (i : Nat) (s : Scope) : Workspace :=
  ⟨s.outer.headD w.module, w.scopes.set i s.own⟩

/-- Run a tree in scope `i`. The text is what the run printed. -/
def evalIn (w : Workspace) (i : Nat) : Except Diagnostic Expr → Reply × String × Workspace
  | .error report => (.failed report, "", w)
  | .ok tree =>
    let outcome := tree.eval (.start (w.scope i))
    let reply := match outcome.result with
      | .ok v => .value v
      | .error fault => .failed (.call fault)
    (reply, outcome.machine.output, w.store i outcome.machine.scope)

def step (w : Workspace) (i : Nat) : Step → Reply × String × Workspace
  | .run source text => w.evalIn i (parseProgram source text)
  | .eval source text => w.evalIn i (parseExpression source text)
  | .set name value =>
    let s := (w.scope i).assign name value
    (.described s.own.describe, "", w.store i s)
  | .get name => (.found ((w.scope i).lookup name) ((w.scope i).contains name), "", w)

end Workspace

end Scriptlet
