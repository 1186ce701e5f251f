import Scriptlet.Diagnostic

/-!
Parsers of token lists. A parser that succeeds has read at least one token, so whatever repeats it
comes to an end.
-/

namespace Scriptlet

/-- Why a parser stops: the first of the remaining tokens does not fit (or the end does not, if none
remain), or it is a name that opens a call or an assignment for which there is no room. -/
inductive Halt where
  | unexpected (wanted : Wanted) (rest : List Token)
  | tooDeep (rest : List Token)
deriving DecidableEq

/-- On success a parser returns what it has read and the tokens behind it. -/
structure Parser (α : Type) where
  run : List Token → Except Halt (α × List Token)
  progress {tokens rest : List Token} {a : α} :
    run tokens = .ok (a, rest) → rest.length < tokens.length

end Scriptlet
