import Scriptlet.Position
import Scriptlet.Text.Quoted

/-! Tokens: a kind, the text it was read from, and the place where that text begins. -/

namespace Scriptlet

namespace Token

/-- What a token is. `faulty` is a kind that no source text produces. -/
inductive Kind where
  | identifier
  | number
  | trueWord
  | falseWord
  | leftParen
  | rightParen
  | comma
  | semicolon
  | assign
  | plus
  | minus
  | star
  | slash
  | equals
  | greater
  | less
  | finish
  | faulty
deriving DecidableEq, Inhabited

namespace Kind

def all : List Kind :=
  [identifier, number, trueWord, falseWord, leftParen, rightParen, comma, semicolon, assign,
    plus, minus, star, slash, equals, greater, less, finish, faulty]

theorem mem_all (k : Kind) : k ∈ all := by cases k <;> decide

def label : Kind → String
  | identifier => "IDENTIFIER"
  | number => "NUMBER"
  | trueWord => "TRUE"
  | falseWord => "FALSE"
  | leftParen => "LPAREN"
  | rightParen => "RPAREN"
  | comma => "COMMA"
  | semicolon => "SEMICOLON"
  | assign => "ASSIGN"
  | plus => "OP_ADD"
  | minus => "OP_SUB"
  | star => "OP_MUL"
  | slash => "OP_DIV"
  | equals => "OP_EQ"
  | greater => "OP_GT"
  | less => "OP_LT"
  | finish => "EOF"
  | faulty => "ERROR"

def ofLabel? (name : String) : Option Kind := all.find? fun k => k.label == name

theorem ofLabel?_label (k : Kind) : ofLabel? k.label = some k := by
  cases k <;> decide +kernel

end Kind

end Token

structure Token where
  kind : Token.Kind
  text : String
  position : Position
deriving DecidableEq, Inhabited

namespace Token

def describe (t : Token) : String :=
  "Token(" ++ t.kind.label ++ ", " ++ Text.quote t.text ++ ", " ++ toString t.position.line ++ ":" ++
    toString t.position.column ++ ")"

end Token

end Scriptlet
