import Scriptlet.Expr.Parser
import Scriptlet.Token.Cursor
import Scriptlet.Token.Scan

/-!
Programs: expressions, each one ended by a semicolon, up to the end mark. A last expression without
a semicolon is checked and left out.
-/

namespace Scriptlet

namespace Parser

/-- No tokens are left, or an end mark is next. -/
def atEnd (tokens : List Token) : Bool := tokens.head?.all fun t => t.kind = .finish

/-- One statement or more. The tokens left begin with the end mark. -/
def statementsRun (expression : Parser Expr) (tokens : List Token) :
    Except Halt (List Expr × List Token) :=
  match _h : expression.run tokens with
  | .error halt => .error halt
  | .ok (_, []) => .ok ([], [])
  | .ok (e, t :: rest) =>
    if t.kind = .semicolon then
      if atEnd rest then .ok ([e], rest)
      else
        match statementsRun expression rest with
        | .error halt => .error halt
        | .ok (es, rest) => .ok (e :: es, rest)
    else if t.kind = .finish then .ok ([], t :: rest)
    else .error (.unexpected .semicolon (t :: rest))
termination_by tokens.length
decreasing_by
  have := expression.progress _h
  simp only [List.length_cons] at this
  omega

end Parser

namespace Cursor

def moveToRest (c : Cursor) (rest : List Token) : Cursor :=
  c.moveTo (c.tokens.body.length - rest.length)

def halted (c : Cursor) : Halt → Diagnostic × Cursor
  | .unexpected wanted rest =>
    let blamed := c.moveToRest rest
    (.syntactic ⟨wanted, blamed.current⟩, blamed)
  | .tooDeep rest =>
    let blamed := c.moveToRest rest
    (.tooDeep blamed.current.position.source, blamed)

/-- Read one expression. The cursor stays on the last token of it. -/
def expression (room : Nat) (c : Cursor) : Except Diagnostic Expr × Cursor :=
  match (Parser.expression room).run c.rest with
  | .ok (e, rest) => (.ok e, c.moveTo (c.tokens.body.length - rest.length - 1))
  | .error halt =>
    let (report, blamed) := c.halted halt
    (.error report, blamed)

/-- Read a program up to the end mark, where the cursor stays. A program is a block that starts
where its first token does. -/
def program (room : Nat) (c : Cursor) : Except Diagnostic (List Expr) × Cursor :=
  match Parser.statementsRun (Parser.expression room) c.rest with
  | .ok (statements, rest) => (.ok statements, c.moveToRest rest)
  | .error halt =>
    let (report, blamed) := c.halted halt
    (.error report, blamed)

/-- Room for every nesting that the tokens of a cursor can have. -/
def ampleRoom (c : Cursor) : Nat := c.tokens.length

def block (room : Nat) (c : Cursor) : Except Diagnostic Expr × Cursor :=
  let (result, behind) := c.program room
  (result.map fun statements => .block statements c.current.position, behind)

end Cursor

def parseNumber (here : Position) (text : String) : Except Diagnostic Value :=
  match Numeral.read? text with
  | some x => .ok (.number x)
  | none => .error (.syntactic ⟨.numeral, ⟨.number, text, here⟩⟩)

def lex (source text : String) : Except Diagnostic Cursor :=
  match tokenize source text with
  | .ok tokens => .ok (.start tokens)
  | .error fault => .error (.lexical fault)

def parseProgram (source text : String) : Except Diagnostic Expr :=
  match lex source text with
  | .error report => .error report
  | .ok c => (c.block c.ampleRoom).1

def parseExpression (source text : String) : Except Diagnostic Expr :=
  match lex source text with
  | .error report => .error report
  | .ok c => (c.expression c.ampleRoom).1

end Scriptlet
