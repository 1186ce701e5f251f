import Scriptlet.Proofs.CursorReading

/-!
Room that no text exhausts. To open one call or assignment inside another takes a name and a token
behind it, so a room does not run out before twice as many tokens have been read.
-/

namespace Scriptlet

namespace Parser

/-- On lists shorter than `n` the parser does not halt for want of room. -/
def Ample (p : Parser Expr) (n : Nat) : Prop :=
  ∀ {tokens rest : List Token}, p.run tokens = .error (.tooDeep rest) → n ≤ tokens.length

variable {inner : Parser Expr} {n : Nat} {tokens rest : List Token}

theorem length_of_argumentsRun_tooDeep (hi : inner.Ample n)
    (h : argumentsRun inner tokens = .error (.tooDeep rest)) : n ≤ tokens.length := by
  fun_induction argumentsRun inner tokens with
  | case1 tokens halt he =>
    cases h
    exact hi he
  | case2 => simp at h
  | case3 => simp at h
  | case4 tokens e t tail he _ _ halt hr ih =>
    cases h
    have hlen := inner.progress he
    rw [List.length_cons] at hlen
    have := ih hr
    omega
  | case5 => simp at h
  | case6 => simp at h

theorem length_of_namedRun_tooDeep (hi : inner.Ample n) {name : Token}
    (h : namedRun inner name tokens = .error (.tooDeep rest)) : n + 1 ≤ tokens.length := by
  cases tokens with
  | nil => simp [namedRun] at h
  | cons t tail =>
    refine Nat.succ_le_succ ?_
    simp only [namedRun] at h
    split at h
    · split at h
      · simp at h
      · split at h
        next hr =>
          cases h
          exact length_of_argumentsRun_tooDeep hi hr
        next => simp at h
    · split at h
      · split at h
        next hr =>
          cases h
          exact hi hr
        next => simp at h
      · simp at h

/-- Only what a name begins can want for room. -/
theorem exists_name_of_operandRun_tooDeep {inner : Option (Parser Expr)}
    (h : (operand inner).run tokens = .error (.tooDeep rest)) : ∃ name tail, tokens = name :: tail ∧
      (match inner with
        | some p => namedRun p name tail
        | none => bareRun name tail) = .error (.tooDeep rest) := by
  cases tokens with
  | nil => simp [operand, operandRun] at h
  | cons t tail =>
    simp only [operand, operandRun] at h
    split at h
    · exact ⟨t, tail, rfl, h⟩
    · split at h <;> simp at h
    · simp at h
    · simp at h
    · simp at h

theorem ample_operand_none : (operand none).Ample 2 := by
  intro tokens rest h
  obtain ⟨name, tail, rfl, hname⟩ := exists_name_of_operandRun_tooDeep h
  cases tail with
  | nil => simp [bareRun] at hname
  | cons => simp

theorem Ample.operand (hi : inner.Ample n) : (operand (some inner)).Ample (n + 2) := by
  intro tokens rest h
  obtain ⟨name, tail, rfl, hname⟩ := exists_name_of_operandRun_tooDeep h
  exact Nat.succ_le_succ (length_of_namedRun_tooDeep hi hname)

theorem length_of_chainRun_tooDeep {atom : Parser Expr} (ha : atom.Ample n)
    {links : List (Expr × Operator)} (h : chainRun atom links tokens = .error (.tooDeep rest)) :
    n ≤ tokens.length := by
  fun_induction chainRun atom links tokens with
  | case1 links tokens halt he =>
    cases h
    exact ha he
  | case2 => simp at h
  | case3 links tokens e t tail he op hop ih =>
    have hlen := atom.progress he
    rw [List.length_cons] at hlen
    have := ih h
    omega
  | case4 => simp at h

theorem ample_expression (room : Nat) : (expression room).Ample (2 * room + 2) := by
  induction room with
  | zero => exact fun h => length_of_chainRun_tooDeep ample_operand_none h
  | succ room ih => exact fun h => length_of_chainRun_tooDeep ih.operand h

theorem length_of_statementsRun_tooDeep (hi : inner.Ample n)
    (h : statementsRun inner tokens = .error (.tooDeep rest)) : n ≤ tokens.length := by
  fun_induction statementsRun inner tokens with
  | case1 tokens halt he =>
    cases h
    exact hi he
  | case2 => simp at h
  | case3 => simp at h
  | case4 tokens e t tail he _ _ halt hr ih =>
    cases h
    have hlen := inner.progress he
    rw [List.length_cons] at hlen
    have := ih hr
    omega
  | case5 => simp at h
  | case6 => simp at h
  | case7 => simp at h

end Parser

namespace Cursor

theorem length_rest_lt (c : Cursor) : c.rest.length < c.ampleRoom := by
  rw [rest, List.length_drop, ampleRoom, TokenSeq.length]
  omega

/-- With room for all tokens an expression never halts for want of room. -/
theorem run_expression_ne_tooDeep (c : Cursor) (rest : List Token) :
    (Parser.expression c.ampleRoom).run c.rest ≠ .error (.tooDeep rest) := by
  intro h
  have hlen := Parser.ample_expression c.ampleRoom h
  have hlt := c.length_rest_lt
  omega

theorem statementsRun_ne_tooDeep (c : Cursor) (rest : List Token) :
    Parser.statementsRun (Parser.expression c.ampleRoom) c.rest ≠ .error (.tooDeep rest) := by
  intro h
  have hlen := Parser.length_of_statementsRun_tooDeep (Parser.ample_expression c.ampleRoom) h
  have hlt := c.length_rest_lt
  omega

end Cursor

end Scriptlet
