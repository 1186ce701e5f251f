import Scriptlet.Scope

/-! Scopes that share their outer ones: each scope is made inside an earlier one or on its own. -/

namespace Scriptlet

/-- Each scope's own bindings and the number of the scope around it. -/
structure Forest where
  nodes : List (Option Nat × Bindings)

namespace Forest

def ofParents (parents : List (Option Nat)) : Forest := ⟨parents.map fun p => (p, ∅)⟩

def own (f : Forest) (i : Nat) : Bindings := (f.nodes[i]?.map Prod.snd).getD ∅

/-- The bindings around scope `i`, the nearest ones first. A scope has been made after the one
around it, so its number is greater. -/
def around (f : Forest) (i : Nat) : List Bindings :=
  match (f.nodes[i]?).bind Prod.fst with
  | none => []
  | some p => if _h : p < i then f.own p :: f.around p else []
termination_by i

def scope (f : Forest) (i : Nat) : Scope := ⟨f.own i, f.around i⟩

def assign (f : Forest) (i : Nat) (name : String) (value : Value) : Forest :=
  ⟨f.nodes.modify i fun (p, own) => (p, own.put name value)⟩

end Forest

end Scriptlet
