import Scriptlet.Proofs.ProgramReading

/-!
What complaints say. A parser that stops has come to a token that is not what it asks for, or to a
name that opens a call or an assignment for which it has no room, and the cursor stands on that
token. In particular a numeral is asked for only where the text of a number is none.
-/

namespace Scriptlet

open Token Scriptlet.Expr

/-- The token is not what is asked for. -/
def Wanted.Unmet : Wanted → Token → Prop
  | operand, t => t.kind.beginsOperand = false
  | numeral, t => t.kind = .number ∧ Numeral.read? t.text = none
  | semicolon, t => t.kind ≠ .semicolon ∧ t.kind ≠ .finish
  | closeOrComma, t => t.kind ≠ .rightParen ∧ t.kind ≠ .comma

/-- Only tokens that have not been read are complained about, and the first of them is not what is
asked for. If there are none left, an end mark is the first one. Room is wanted by a name that opens
something. -/
def Halt.Founded (tokens : List Token) : Halt → Prop
  | unexpected wanted rest =>
    rest <:+ tokens ∧ ∀ last : Token, last.kind = .finish → wanted.Unmet (rest.headD last)
  | tooDeep rest => rest <:+ tokens ∧ ∃ name t tail, rest = name :: t :: tail ∧ name.Opens t

theorem Halt.Founded.mono {halt : Halt} {tokens more : List Token} (h : halt.Founded tokens)
    (hs : tokens <:+ more) : halt.Founded more := by
  cases halt with
  | unexpected wanted rest => exact ⟨h.1.trans hs, h.2⟩
  | tooDeep rest => exact ⟨h.1.trans hs, h.2⟩

namespace Parser

/-- The parser has a reason whenever it stops. -/
def StopsFounded (p : Parser Expr) : Prop :=
  ∀ {tokens : List Token} {halt : Halt}, p.run tokens = .error halt → halt.Founded tokens

variable {inner atom : Parser Expr} {room : Nat} {tokens rest : List Token} {e : Expr} {halt : Halt}

theorem Reads.suffix (hi : inner.Reads room) (h : inner.run tokens = .ok (e, rest)) :
    rest <:+ tokens := by
  obtain ⟨front, rfl, -⟩ := hi.1 h
  exact List.suffix_append front rest

theorem Reads.suffix_tail (hi : inner.Reads room) {t : Token}
    (h : inner.run tokens = .ok (e, t :: rest)) : rest <:+ tokens :=
  (List.suffix_cons t rest).trans (hi.suffix h)

theorem founded_of_argumentsRun (hi : inner.Reads room) (hs : inner.StopsFounded)
    (h : argumentsRun inner tokens = .error halt) : halt.Founded tokens := by
  fun_induction argumentsRun inner tokens with
  | case1 tokens halt' he =>
    cases h
    exact hs he
  | case2 tokens e he =>
    cases h
    exact ⟨List.nil_suffix, fun last hl => by simp [Wanted.Unmet, hl]⟩
  | case3 => simp at h
  | case4 tokens e t tail he hk hc halt' hr ih =>
    cases h
    exact (ih hr).mono (hi.suffix_tail he)
  | case5 => simp at h
  | case6 tokens e t tail he hk hc =>
    cases h
    exact ⟨hi.suffix he, fun _ _ => ⟨hk, hc⟩⟩

theorem founded_of_namedRun (hi : inner.Reads room) (hs : inner.StopsFounded) {name : Token}
    (h : namedRun inner name tokens = .error halt) : halt.Founded tokens := by
  cases tokens with
  | nil => simp [namedRun] at h
  | cons t tail =>
    have htail := List.suffix_cons t tail
    simp only [namedRun] at h
    split at h
    · split at h
      · simp at h
      · split at h
        next hr =>
          cases h
          exact (founded_of_argumentsRun hi hs hr).mono htail
        next => simp at h
    · split at h
      · split at h
        next hr =>
          cases h
          exact (hs hr).mono htail
        next => simp at h
      · simp at h

theorem founded_of_bareRun {name : Token} (hn : name.kind = .identifier)
    (h : bareRun name tokens = .error halt) : halt.Founded (name :: tokens) := by
  rw [bareRun] at h
  split at h
  next ho =>
    cases h
    cases tokens with
    | nil => simp at ho
    | cons t tail =>
      exact ⟨List.suffix_refl _, name, t, tail, rfl, hn, Kind.opens_iff.1 (by simpa using ho)⟩
  next => simp at h

/-- What is read inside an operand of this room has a reason too. -/
inductive FoundedInside : Option (Parser Expr) → Prop
  | closed : FoundedInside none
  | opened {inner : Parser Expr} {room : Nat} (hi : inner.Reads room) (hs : inner.StopsFounded) :
      FoundedInside (some inner)

theorem FoundedInside.operand {inner : Option (Parser Expr)} (hi : FoundedInside inner) :
    (operand inner).StopsFounded := by
  intro tokens halt h
  cases tokens with
  | nil =>
    cases h
    exact ⟨List.nil_suffix, fun last hl => by simp [Wanted.Unmet, hl, Kind.beginsOperand]⟩
  | cons t tail =>
    simp only [Parser.operand, operandRun] at h
    split at h
    next hk =>
      cases hi with
      | closed => exact founded_of_bareRun hk h
      | opened hi hs => exact (founded_of_namedRun hi hs h).mono (List.suffix_cons t tail)
    next hk =>
      split at h
      next => simp at h
      next hx =>
        cases h
        exact ⟨List.suffix_refl _, fun _ _ => ⟨hk, hx⟩⟩
    next => simp at h
    next => simp at h
    next =>
      cases h
      refine ⟨List.suffix_refl _, fun _ _ => ?_⟩
      cases hk : t.kind <;> simp_all [Wanted.Unmet, Kind.beginsOperand]

theorem founded_of_chainRun (ha : atom.ReadsOperands room) (hs : atom.StopsFounded)
    {links : List (Expr × Operator)} (h : chainRun atom links tokens = .error halt) :
    halt.Founded tokens := by
  fun_induction chainRun atom links tokens with
  | case1 links tokens halt' he =>
    cases h
    exact hs he
  | case2 => simp at h
  | case3 links tokens e t tail he op hop ih =>
    obtain ⟨front, rfl, -⟩ := ha.1 he
    exact (ih h).mono ((List.suffix_cons t tail).trans (List.suffix_append front _))
  | case4 => simp at h

theorem stopsFounded_expression (room : Nat) : (expression room).StopsFounded := by
  intro tokens halt h
  induction room generalizing tokens halt with
  | zero =>
    exact founded_of_chainRun (ReadsInside.operand .closed) (FoundedInside.operand .closed) h
  | succ room ih =>
    have hi : (expression room).Reads room := reads_expression room
    exact founded_of_chainRun (ReadsInside.operand (.opened hi))
      (FoundedInside.operand (.opened hi ih)) h

theorem founded_of_statementsRun (hi : inner.Reads room) (hs : inner.StopsFounded)
    (h : statementsRun inner tokens = .error halt) : halt.Founded tokens := by
  fun_induction statementsRun inner tokens with
  | case1 tokens halt' he =>
    cases h
    exact hs he
  | case2 => simp at h
  | case3 => simp at h
  | case4 tokens e t tail he hk hend halt' hr ih =>
    cases h
    exact (ih hr).mono (hi.suffix_tail he)
  | case5 => simp at h
  | case6 => simp at h
  | case7 tokens e t tail he hk hk' =>
    cases h
    exact ⟨hi.suffix he, fun _ _ => ⟨hk, hk'⟩⟩

end Parser

namespace Cursor

variable {c d : Cursor} {room : Nat} {report : Diagnostic}

theorem rest_moveToRest {rest : List Token} (h : rest <:+ c.rest) :
    (c.moveToRest rest).rest = rest := by
  obtain ⟨front, hrest⟩ := h
  obtain ⟨j, -, hj, -, rfl⟩ := rest_eq_append_iff.1 hrest.symm
  let d : Cursor := ⟨c.tokens, j, hj⟩
  have hd : c.moveToRest d.rest = d := moveToRest_rest rfl
  exact congrArg Cursor.rest hd

theorem opens_of_rest {name t : Token} {tail : List Token} (h : d.rest = name :: t :: tail)
    (ho : name.Opens t) : d.current.Opens d.peek := by
  have hcurrent : d.current = name := by rw [current_eq, h, List.headD_cons]
  have hlt : d.index < d.tokens.body.length := by
    refine index_lt_of_kind ?_
    rw [hcurrent, ho.1]
    decide
  have hnext := rest_eq_cons hlt
  rw [h, List.cons.injEq] at hnext
  have hpeek : d.peek = t := by rw [← current_next, current_eq, ← hnext.2, List.headD_cons]
  rwa [hcurrent, hpeek]

/-- The report is about the token that the cursor stands on, and what it says of that token is true:
it is not what is asked for, or it opens something for which there is no room. -/
def ComplainsOf (c d : Cursor) (report : Diagnostic) : Prop :=
  d.tokens = c.tokens ∧
    (report = .tooDeep d.current.position.source ∧ d.current.Opens d.peek ∨
      ∃ wanted : Wanted, report = .syntactic ⟨wanted, d.current⟩ ∧ wanted.Unmet d.current)

theorem complainsOf_halted {halt : Halt} (h : halt.Founded c.rest) :
    c.ComplainsOf (c.halted halt).2 (c.halted halt).1 := by
  cases halt with
  | unexpected wanted rest =>
    obtain ⟨hs, hu⟩ := h
    have hcurrent : (c.moveToRest rest).current = rest.headD c.tokens.last := by
      rw [current_eq, rest_moveToRest hs]
      rfl
    refine ⟨rfl, .inr ⟨wanted, rfl, ?_⟩⟩
    change wanted.Unmet (c.moveToRest rest).current
    rw [hcurrent]
    exact hu _ c.tokens.last_kind
  | tooDeep rest =>
    obtain ⟨hs, name, t, tail, rfl, ho⟩ := h
    refine ⟨rfl, .inl ⟨rfl, ?_⟩⟩
    have hrest := rest_moveToRest hs
    exact opens_of_rest hrest ho

theorem complainsOf_of_block (h : c.block room = (.error report, d)) : c.ComplainsOf d report := by
  rw [block_eq_error_iff, program] at h
  split at h
  next => simp at h
  next halt hr =>
    cases h
    exact complainsOf_halted (Parser.founded_of_statementsRun (Parser.reads_expression room)
      (Parser.stopsFounded_expression room) hr)

end Cursor

end Scriptlet
