import Scriptlet.Proofs.EarliestFault

/-!
Reading with too little room. A bound on nesting changes nothing but that a text which exceeds it is
refused for that. Assignments that are opened and not closed in time are refused whatever comes
behind them.
-/

namespace Scriptlet

open Token Scriptlet.Expr

namespace Parser

variable {room : Nat} {front rest : List Token} {e : Expr} {es : List Expr}

/-- Names with equals marks behind them: so many assignments are opened, each in the one before. -/
inductive Openings : Nat → List Token → Prop
  | none : Openings 0 []
  | more {n : Nat} {name mark : Token} {ts : List Token} (hn : name.kind = .identifier)
      (hm : mark.kind = .assign) (hs : Openings n ts) : Openings (n + 1) (name :: mark :: ts)

variable {n : Nat} {ts : List Token}

theorem Openings.written (h : Openings n ts) {front : List Token} (hw : e.Written front)
    (hc : e.Canonical) :
    ∃ d : Expr, d.Written (ts ++ front) ∧ d.Canonical ∧ d.nesting = e.nesting + n := by
  induction h with
  | none => exact ⟨e, hw, hc, rfl⟩
  | more hn hm _ ih =>
    obtain ⟨d, hd, hdc, hdn⟩ := ih
    exact ⟨_, .assign hn hm hd, .assign hdc, congrArg (· + 1) hdn⟩

end Parser

theorem Laid.assign {source : String} {before rest : List Char} {ts : List Token}
    (h : Laid source (before ++ ['x', '=']) rest ts) (hr : rest.head? ≠ some '=') :
    ∃ name mark : Token, name.kind = .identifier ∧ mark.kind = .assign ∧
      Laid source before ('x' :: '=' :: rest) (name :: mark :: ts) := by
  let x : Lexeme := ⟨.identifier, ['x']⟩
  let equals : Lexeme := ⟨.assign, ['=']⟩
  have hequals : ∀ c ∈ rest.head?, equals.kind.goesOn c = false := by
    intro c hc
    have hne : c ≠ '=' := by
      rintro rfl
      exact hr hc
    simpa [equals, Kind.goesOn] using hne
  have hx : ∀ c ∈ ([] ++ (equals.text ++ rest)).head?, x.kind.goesOn c = false := by
    intro c hc
    cases Option.some.inj hc
    decide
  have hrest : Laid source (before ++ [] ++ x.text ++ [] ++ equals.text) rest ts := by
    simpa [x, equals] using h
  have hmark := Laid.token (l := equals) (by simp) (by decide) hequals hrest
  exact ⟨_, _, rfl, rfl, Laid.token (l := x) (by simp) (by decide) hx hmark⟩

end Scriptlet
