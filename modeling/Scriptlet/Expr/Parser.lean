import Scriptlet.Parser
import Scriptlet.Expr
import Scriptlet.Number.Numeral

/-!
The grammar of expressions. An operand is a name, a call, an assignment or a literal. Operands are
joined by operators of one rank, which group to the right; an assignment takes all that follows as
its value.
-/

namespace Scriptlet

namespace Token.Kind

def operator? : Token.Kind → Option Operator
  | plus => some .add
  | minus => some .subtract
  | star => some .multiply
  | slash => some .divide
  | equals => some .equal
  | greater => some .greaterThan
  | less => some .lessThan
  | _ => none

/-- The kinds that make the name in front of them into a call or an assignment. -/
def opens : Token.Kind → Bool
  | leftParen | assign => true
  | _ => false

end Token.Kind

namespace Expr

/-- `lhs op rhs`, placed where its left operand is. -/
def join (op : Operator) (lhs rhs : Expr) : Expr := binary op lhs rhs lhs.start

/-- A chain read as far as its last operand, the latest link first, grouped to the right. -/
def joinAll (links : List (Expr × Operator)) (last : Expr) : Expr :=
  links.foldl (fun rhs (lhs, op) => join op lhs rhs) last

end Expr

namespace Parser

/-- Operands and operators in turn, as long as operators follow. -/
def chainRun (operand : Parser Expr) (links : List (Expr × Operator)) (tokens : List Token) :
    Except Halt (Expr × List Token) :=
  match _h : operand.run tokens with
  | .error halt => .error halt
  | .ok (e, []) => .ok (Expr.joinAll links e, [])
  | .ok (e, t :: rest) =>
    match t.kind.operator? with
    | some op => chainRun operand ((e, op) :: links) rest
    | none => .ok (Expr.joinAll links e, t :: rest)
termination_by tokens.length
decreasing_by
  have := operand.progress _h
  simp only [List.length_cons] at this
  omega

theorem length_lt_of_chainRun {operand : Parser Expr} {links : List (Expr × Operator)}
    {tokens rest : List Token} {e : Expr} (h : chainRun operand links tokens = .ok (e, rest)) :
    rest.length < tokens.length := by
  fun_induction chainRun operand links tokens with
  | case1 => simp at h
  | case2 links tokens d hd =>
    cases h
    exact operand.progress hd
  | case3 links tokens d t tail hd op hop ih =>
    have := operand.progress hd
    have := ih h
    simp only [List.length_cons] at *
    omega
  | case4 links tokens d t tail hd hop =>
    cases h
    exact operand.progress hd

def chain (operand : Parser Expr) : Parser Expr := ⟨chainRun operand [], length_lt_of_chainRun⟩

/-- One argument or more, up to the closing parenthesis. -/
def argumentsRun (inner : Parser Expr) (tokens : List Token) :
    Except Halt (List Expr × List Token) :=
  match _h : inner.run tokens with
  | .error halt => .error halt
  | .ok (_, []) => .error (.unexpected .closeOrComma [])
  | .ok (e, t :: rest) =>
    if t.kind = .rightParen then .ok ([e], rest)
    else if t.kind = .comma then
      match argumentsRun inner rest with
      | .error halt => .error halt
      | .ok (es, rest) => .ok (e :: es, rest)
    else .error (.unexpected .closeOrComma (t :: rest))
termination_by tokens.length
decreasing_by
  have := inner.progress _h
  simp only [List.length_cons] at this
  omega

theorem length_lt_of_argumentsRun {inner : Parser Expr} {tokens rest : List Token}
    {es : List Expr} (h : argumentsRun inner tokens = .ok (es, rest)) :
    rest.length < tokens.length := by
  fun_induction argumentsRun inner tokens generalizing es rest with
  | case1 => simp at h
  | case2 => simp at h
  | case3 tokens e t tail hd hk =>
    cases h
    have := inner.progress hd
    simp only [List.length_cons] at this
    omega
  | case4 => simp at h
  | case5 tokens e t tail hd hk hc es' rest' hr ih =>
    cases h
    have := inner.progress hd
    have := ih hr
    simp only [List.length_cons] at *
    omega
  | case6 => simp at h

/-- What a name begins: a call if a parenthesis follows, an assignment if an equals sign does, and
otherwise the name itself. -/
def namedRun (inner : Parser Expr) (name : Token) :
    List Token → Except Halt (Expr × List Token)
  | [] => .ok (.var name.text name.position, [])
  | t :: rest =>
    if t.kind = .leftParen then
      if rest.head?.any fun u => u.kind = .rightParen then
        .ok (.call name.text [] name.position, rest.tail)
      else
        match argumentsRun inner rest with
        | .error halt => .error halt
        | .ok (args, rest) => .ok (.call name.text args name.position, rest)
    else if t.kind = .assign then
      match inner.run rest with
      | .error halt => .error halt
      | .ok (e, rest) => .ok (.assign name.text e name.position, rest)
    else .ok (.var name.text name.position, t :: rest)

theorem length_le_of_namedRun {inner : Parser Expr} {name : Token} {tokens rest : List Token}
    {e : Expr} (h : namedRun inner name tokens = .ok (e, rest)) :
    rest.length ≤ tokens.length := by
  cases tokens with
  | nil => cases h; simp
  | cons t tail =>
    simp only [namedRun] at h
    split at h
    · split at h
      · cases h; simp; omega
      · split at h
        · simp at h
        next args rest' hr =>
          cases h
          have := length_lt_of_argumentsRun hr
          simp only [List.length_cons]
          omega
    · split at h
      · split at h
        · simp at h
        next hr =>
          cases h
          have := inner.progress hr
          simp only [List.length_cons]
          omega
      · cases h; simp

/-- What a name is where a call or an assignment finds no room. -/
def bareRun (name : Token) (tokens : List Token) : Except Halt (Expr × List Token) :=
  if tokens.head?.any fun t => t.kind.opens then .error (.tooDeep (name :: tokens))
  else .ok (.var name.text name.position, tokens)

/-- An operand; `inner` reads the expressions inside calls and assignments, for which there is no
room without it. -/
def operandRun (inner : Option (Parser Expr)) : List Token → Except Halt (Expr × List Token)
  | [] => .error (.unexpected .operand [])
  | t :: rest =>
    match t.kind with
    | .identifier =>
      match inner with
      | some inner => namedRun inner t rest
      | none => bareRun t rest
    | .number =>
      match Numeral.read? t.text with
      | some x => .ok (.literal (.number x) t.position, rest)
      | none => .error (.unexpected .numeral (t :: rest))
    | .trueWord => .ok (.literal (.boolean true) t.position, rest)
    | .falseWord => .ok (.literal (.boolean false) t.position, rest)
    | _ => .error (.unexpected .operand (t :: rest))

theorem length_lt_of_operandRun {inner : Option (Parser Expr)} {tokens rest : List Token}
    {e : Expr} (h : operandRun inner tokens = .ok (e, rest)) : rest.length < tokens.length := by
  cases tokens with
  | nil => simp [operandRun] at h
  | cons t tail =>
    simp only [operandRun] at h
    split at h
    · cases inner with
      | some inner => exact Nat.lt_succ_of_le (length_le_of_namedRun h)
      | none =>
        simp only [bareRun] at h
        split at h
        · simp at h
        · cases h; simp
    · split at h
      · cases h; simp
      · simp at h
    · cases h; simp
    · cases h; simp
    · simp at h

def operand (inner : Option (Parser Expr)) : Parser Expr :=
  ⟨operandRun inner, length_lt_of_operandRun⟩

/-- An expression in which at most `room` calls and assignments are open at once. -/
def expression : Nat → Parser Expr
  | 0 => chain (operand none)
  | room + 1 => chain (operand (some (expression room)))

end Parser

end Scriptlet
