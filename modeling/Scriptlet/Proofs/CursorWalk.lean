import Scriptlet.Proofs.RecursiveDescent

/-!
Reading call by call. A walk is a reading that writes down, in their order, the looks at the next
token, the moves, and where operands begin. It reads what is read without a log, and leaves the
cursor where it is left without one.
-/

namespace Scriptlet

open Token Scriptlet.Expr

namespace Cursor

section reaches

variable {c d : Cursor}

theorem Mirrors.behind {α : Type} {r : Reading α} {run : Except Halt (α × List Token)}
    (h : d.Mirrors r run) (hd : c.Reaches d) : c.Mirrors r run := by
  cases h with
  | read hr hlt => exact .read (hd.trans hr) hlt
  | refused hr => exact .refused (hd.trans hr)
  | gaveUp hr ho => exact .gaveUp (hd.trans hr) ho

end reaches

/-- What is done at a cursor, and at which indexes. -/
inductive Event where
  | look (i : Nat)
  | move (i j : Nat)
  | operand (i : Nat)
deriving DecidableEq, Repr

def Walk (α : Type) := Cursor → Reading α × List Event

namespace Walk

variable {α β : Type}

instance : Monad Walk where
  pure a c := ((.ok a, c), [])
  bind w f c :=
    match w c with
    | ((.ok a, d), log) => ((f a d).1, log ++ (f a d).2)
    | ((.error report, d), log) => ((.error report, d), log)

def current : Walk Token := fun c => ((.ok c.current, c), [])

def look : Walk Token := fun c => ((.ok c.peek, c), [.look c.index])

def move : Walk Unit := fun c => ((.ok (), c.next), [.move c.index c.next.index])

def beginOperand : Walk Unit := fun c => ((.ok (), c), [.operand c.index])

def refuse (wanted : Wanted) : Walk α := fun c => (c.refuse wanted, [])

def giveUp : Walk α := fun c => (c.giveUp, [])

def accept (kind : Kind) : Walk Bool := do
  if (← look).kind = kind then
    move
    return true
  else
    return false

/-- The arguments of a call, read in the steps above, with room for `n` of them. -/
def arguments (inner : Walk Expr) : Nat → Walk (List Expr)
  | 0 => giveUp
  | n + 1 => do
    move
    let e ← inner
    move
    let t ← current
    if t.kind = .rightParen then
      return [e]
    else if t.kind = .comma then
      return e :: (← arguments inner n)
    else
      refuse .closeOrComma

def named (inner : Walk Expr) (n : Nat) : Walk Expr := do
  let ahead ← look
  let name ← current
  if ahead.kind = .leftParen then
    move
    if ← accept .rightParen then
      return .call name.text [] name.position
    else
      return .call name.text (← arguments inner n) name.position
  else if ahead.kind = .assign then
    move
    move
    return .assign name.text (← inner) name.position
  else
    return .var name.text name.position

def bare : Walk Expr := do
  let ahead ← look
  let name ← current
  if ahead.kind.opens then
    giveUp
  else
    return .var name.text name.position

def operand (inner : Option (Walk Expr)) (n : Nat) : Walk Expr := do
  beginOperand
  let t ← current
  match t.kind with
  | .identifier =>
    match inner with
    | some inner => named inner n
    | none => bare
  | .number =>
    match Numeral.read? t.text with
    | some x => return .literal (.number x) t.position
    | none => refuse .numeral
  | .trueWord => return .literal (.boolean true) t.position
  | .falseWord => return .literal (.boolean false) t.position
  | _ => refuse .operand

/-- Operands as long as operators follow, grouped when the last one has been read. -/
def chain (operand : Walk Expr) : Nat → List (Expr × Operator) → Walk Expr
  | 0, _ => giveUp
  | n + 1, links => do
    let e ← operand
    match (← look).kind.operator? with
    | some op =>
      move
      move
      chain operand n ((e, op) :: links)
    | none => return joinAll links e

/-- An expression in which so many calls and assignments may be open at once, with room for `n` rounds
of every loop. -/
def expression (n : Nat) : Nat → Walk Expr
  | 0 => chain (operand none n) n []
  | room + 1 => chain (operand (some (expression n room)) n) n []

/-- The expression in front of the token that the walk has come to, if that one is a semicolon,
which is passed over. At an end mark the expression is left out. -/
def terminated (e : Expr) : Walk (List Expr) := do
  let t ← current
  if t.kind = .semicolon then
    move
    return [e]
  else if t.kind = .finish then
    return []
  else
    refuse .semicolon

def statements (inner : Walk Expr) : Nat → Walk (List Expr)
  | 0 => giveUp
  | n + 1 => do
    let e ← inner
    move
    let es ← terminated e
    if (← current).kind = .finish then
      return es
    else
      return es ++ (← statements inner n)

def block (n room : Nat) : Walk Expr := do
  let first ← current
  return .block (← statements (expression n room) n) first.position

variable {c d : Cursor} {inner : Walk Expr}

/-- From `c` on, a cursor reads the statements that a parser of token lists reads, and stands on an
end mark, or both blame the same token, or both give up at the same name. -/
inductive MirrorsStatements (c : Cursor) :
    Reading (List Expr) → Except Halt (List Expr × List Token) → Prop
  | read {es : List Expr} {d : Cursor} (hr : c.Reaches d) (hd : d.current.kind = .finish) :
      MirrorsStatements c (.ok es, d) (.ok (es, d.rest))
  | refused {wanted : Wanted} {d : Cursor} (hr : c.Reaches d) :
      MirrorsStatements c (d.refuse wanted) (.error (.unexpected wanted d.rest))
  | gaveUp {d : Cursor} (hr : c.Reaches d) (ho : d.current.Opens d.peek) :
      MirrorsStatements c d.giveUp (.error (.tooDeep d.rest))

theorem MirrorsStatements.cons {r : Reading (List Expr)}
    {run : Except Halt (List Expr × List Token)} (h : MirrorsStatements d r run)
    (hd : c.Reaches d) (e : Expr) :
    MirrorsStatements c (r.andThen fun es d => (.ok ([e] ++ es), d))
      (run.map fun x => (e :: x.1, x.2)) := by
  cases h with
  | read hr hf => exact .read (hd.trans hr) hf
  | refused hr => exact .refused (hd.trans hr)
  | gaveUp hr ho => exact .gaveUp (hd.trans hr) ho

end Walk

end Cursor

end Scriptlet
