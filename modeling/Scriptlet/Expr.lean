import Scriptlet.Value
import Scriptlet.Position

/-!
Syntax trees. Every node knows where its first token starts; an operator starts where its left
operand does.
-/

namespace Scriptlet

inductive Expr where
  | block (statements : List Expr) (start : Position)
  | call (name : String) (args : List Expr) (start : Position)
  | literal (value : Value) (start : Position)
  | assign (name : String) (value : Expr) (start : Position)
  | var (name : String) (start : Position)
  | binary (op : Operator) (lhs rhs : Expr) (start : Position)

namespace Expr

def start : Expr → Position
  | block _ p | call _ _ p | literal _ p | assign _ _ p | var _ p | binary _ _ _ p => p

mutual

/-- Trees are the same if they have one shape, the same names, operators and places, and literals
that are the same as values. -/
def same : Expr → Expr → Bool
  | block ss p, block ts q => sameAll ss ts && decide (p = q)
  | call f as p, call g bs q => f == g && sameAll as bs && decide (p = q)
  | literal v p, literal w q => v == w && decide (p = q)
  | assign x d p, assign y e q => x == y && same d e && decide (p = q)
  | var x p, var y q => x == y && decide (p = q)
  | binary o a b p, binary o' a' b' q => o == o' && same a a' && same b b' && decide (p = q)
  | _, _ => false

def sameAll : List Expr → List Expr → Bool
  | [], [] => true
  | d :: ds, e :: es => same d e && sameAll ds es
  | _, _ => false

end

instance : BEq Expr := ⟨same⟩

mutual

def listing : Expr → String
  | block ss _ => "Block([" ++ ", ".intercalate (listingAll ss) ++ "])"
  | call f as _ => "Call(" ++ f ++ ", [" ++ ", ".intercalate (listingAll as) ++ "])"
  | literal v _ => "Literal(" ++ v.listing ++ ")"
  | assign x e _ => "Assignment(" ++ x ++ ", " ++ listing e ++ ")"
  | var x _ => "Variable(" ++ x ++ ")"
  | binary o a b _ => "Operator(" ++ o.label ++ ", " ++ listing a ++ ", " ++ listing b ++ ")"

def listingAll : List Expr → List String
  | [] => []
  | e :: es => listing e :: listingAll es

end

mutual

/-- The nodes of a tree with their depths, each one before its children, which follow in the order
of the source. -/
def outline (depth : Nat) : Expr → List (Nat × Expr)
  | e@(block ss _) => (depth, e) :: outlineAll (depth + 1) ss
  | e@(call _ as _) => (depth, e) :: outlineAll (depth + 1) as
  | e@(literal _ _) => [(depth, e)]
  | e@(assign _ v _) => (depth, e) :: outline (depth + 1) v
  | e@(var _ _) => [(depth, e)]
  | e@(binary _ a b _) => (depth, e) :: outline (depth + 1) a ++ outline (depth + 1) b

def outlineAll (depth : Nat) : List Expr → List (Nat × Expr)
  | [] => []
  | e :: es => outline depth e ++ outlineAll depth es

end

end Expr

end Scriptlet
