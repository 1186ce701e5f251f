import Scriptlet.Number.Division
import Scriptlet.Number.Style

/-!
The values of a program and the operators on them. Arithmetic and order are for two numbers; any
other operands give `nothing`, so that no operator fails.
-/

namespace Scriptlet

inductive Native where
  | print
deriving DecidableEq

inductive Value where
  | nothing
  | number (x : Float)
  | boolean (b : Bool)
  | native (f : Native)

namespace Value

instance : Inhabited Value := ⟨nothing⟩

/-- Values of one kind are compared by content, and numbers as numbers are: `0.0` and `-0.0` are
the same, a number that is none differs from itself. -/
def same : Value → Value → Bool
  | nothing, nothing => true
  | number x, number y => x == y
  | boolean b, boolean c => b == c
  | native f, native g => f == g
  | _, _ => false

instance : BEq Value := ⟨same⟩

/-- The kinds of values. Each truth value is one of its own. -/
inductive Kind where
  | nothing
  | number
  | truth (b : Bool)
  | native
deriving DecidableEq

def kind : Value → Kind
  | nothing => .nothing
  | number _ => .number
  | boolean b => .truth b
  | native _ => .native

def text : Value → String
  | nothing => "Nothing"
  | number x => NumberStyle.shown.render x
  | boolean true => "True"
  | boolean false => "False"
  | native _ => "BuiltIn function"

def listing : Value → String
  | nothing => "Nothing"
  | number x => "Number(" ++ NumberStyle.listed.render x ++ ")"
  | boolean true => "True"
  | boolean false => "False"
  | native .print => "NativeFunctionRef(PRINT)"

/-- Fails where the arithmetic of two numbers does. -/
def arithmetic? (f : Float → Float → Option Float) : Value → Value → Option Value
  | number x, number y => (f x y).map number
  | _, _ => some nothing

def order (r : Float → Float → Bool) : Value → Value → Value
  | number x, number y => boolean (r x y)
  | _, _ => nothing

/-- The values without repeats: each one that is the same as none before it. -/
def distinct (values : List Value) : List Value := unseen [] values
where
  unseen (seen : List Value) : List Value → List Value
    | [] => []
    | v :: rest => if seen.any (· == v) then unseen seen rest else v :: unseen (v :: seen) rest

end Value

inductive Operator where
  | add
  | subtract
  | multiply
  | divide
  | equal
  | greaterThan
  | lessThan
deriving DecidableEq

namespace Operator

def all : List Operator := [add, subtract, multiply, divide, equal, greaterThan, lessThan]

theorem mem_all (op : Operator) : op ∈ all := by cases op <;> decide

def label : Operator → String
  | add => "ADD"
  | subtract => "SUBTRACT"
  | multiply => "MULTIPLY"
  | divide => "DIVIDE"
  | equal => "EQUAL"
  | greaterThan => "GREATER_THAN"
  | lessThan => "LESS_THAN"

def ofLabel? (name : String) : Option Operator := all.find? fun op => op.label == name

def compute? : Operator → Value → Value → Option Value
  | add => Value.arithmetic? fun x y => some (x + y)
  | subtract => Value.arithmetic? fun x y => some (x - y)
  | multiply => Value.arithmetic? fun x y => some (x * y)
  | divide => Value.arithmetic? Double.quotient?
  | equal => fun lhs rhs => some (.boolean (lhs == rhs))
  | greaterThan => fun lhs rhs => some (Value.order (fun x y => x > y) lhs rhs)
  | lessThan => fun lhs rhs => some (Value.order (fun x y => x < y) lhs rhs)

/-- No operator fails. Of two numbers only division might, and only on a zero divisor. -/
theorem isSome_compute? (op : Operator) (a b : Value) : (op.compute? a b).isSome = true := by
  cases op with
  | divide =>
    cases a with
    | number x =>
      cases b with
      | number y => exact Option.isSome_map.trans (Double.isSome_quotient? x y)
      | nothing | boolean | native => rfl
    | nothing | boolean | native => rfl
  | add | subtract | multiply => cases a <;> cases b <;> rfl
  | equal | greaterThan | lessThan => rfl

def apply (op : Operator) (a b : Value) : Value := (op.compute? a b).get (op.isSome_compute? a b)

theorem compute?_eq_some (op : Operator) (a b : Value) : op.compute? a b = some (op.apply a b) :=
  (Option.some_get _).symm

end Operator

namespace Native

/-- The line a call writes, and the value it has: `print` writes its arguments, one space apart. -/
def invoke : Native → List Value → String × Value
  | print, args => (" ".intercalate (args.map Value.text), .nothing)

end Native

end Scriptlet
