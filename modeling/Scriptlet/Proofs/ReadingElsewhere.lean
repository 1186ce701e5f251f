import Scriptlet.Proofs.Relocation
import Scriptlet.Proofs.EarliestFault

/-!
Reading tokens with all their places changed. No parser looks at a place, so the trees, the tokens
left over and the complaints are the same ones with their places changed in the same way.
-/

namespace Scriptlet

open Scriptlet.Expr

variable (f : Position → Position)

@[simp] theorem Token.kind_relocate (t : Token) : (t.relocate f).kind = t.kind := rfl

@[simp] theorem Token.text_relocate (t : Token) : (t.relocate f).text = t.text := rfl

@[simp] theorem Token.position_relocate (t : Token) : (t.relocate f).position = f t.position := rfl

theorem Token.any_relocate (p : Token.Kind → Bool) (tokens : List Token) :
    ((tokens.map (Token.relocate f)).head?.any fun t => p t.kind) =
      tokens.head?.any fun t => p t.kind := by
  cases tokens <;> rfl

namespace Expr

@[simp] theorem start_relocate (e : Expr) : (e.relocate f).start = f e.start := by
  cases e <;> rfl

theorem joinAll_relocate (links : List (Expr × Operator)) (last : Expr) :
    (joinAll links last).relocate f =
      joinAll (links.map fun (e, op) => (e.relocate f, op)) (last.relocate f) := by
  induction links generalizing last with
  | nil => rfl
  | cons link links ih =>
    obtain ⟨lhs, op⟩ := link
    have hjoin : (join op lhs last).relocate f = join op (lhs.relocate f) (last.relocate f) := by
      rw [join, join, relocate, start_relocate]
    have ih := ih (join op lhs last)
    rw [hjoin] at ih
    exact ih

end Expr

def Halt.relocate : Halt → Halt
  | .unexpected wanted rest => .unexpected wanted (rest.map (Token.relocate f))
  | .tooDeep rest => .tooDeep (rest.map (Token.relocate f))

namespace Parser

/-- What a parser returns, with the places in the tokens changed; `g` changes what it has read. -/
def carry {α : Type} (g : α → α) :
    Except Halt (α × List Token) → Except Halt (α × List Token)
  | .ok (a, rest) => .ok (g a, rest.map (Token.relocate f))
  | .error halt => .error (halt.relocate f)

/-- On tokens with their places changed the parser returns what it returns otherwise, with the
places changed. -/
def Carries (inner : Parser Expr) : Prop :=
  ∀ tokens, inner.run (tokens.map (Token.relocate f)) =
    carry f (Expr.relocate f) (inner.run tokens)

variable {f} {inner atom : Parser Expr} {tokens rest : List Token} {e : Expr}

theorem Carries.ok (hi : inner.Carries f) (h : inner.run tokens = .ok (e, rest)) :
    inner.run (tokens.map (Token.relocate f)) =
      .ok (e.relocate f, rest.map (Token.relocate f)) := by
  rw [hi, h]
  rfl

theorem Carries.error (hi : inner.Carries f) {halt : Halt} (h : inner.run tokens = .error halt) :
    inner.run (tokens.map (Token.relocate f)) = .error (halt.relocate f) := by
  rw [hi, h]
  rfl

theorem argumentsRun_relocate (hi : inner.Carries f) (tokens : List Token) :
    argumentsRun inner (tokens.map (Token.relocate f)) =
      carry f (relocateAll f) (argumentsRun inner tokens) := by
  fun_induction argumentsRun inner tokens with
  | case1 tokens halt he => exact argumentsRun_error (hi.error he)
  | case2 tokens e he => exact argumentsRun_unclosed (hi.ok he) rfl rfl
  | case3 tokens e t rest he hk => exact argumentsRun_close (hi.ok he) hk
  | case4 tokens e t rest he hk hc halt hr ih =>
    rw [argumentsRun_comma (hi.ok he) hc, ih, hr]
    rfl
  | case5 tokens e t rest he hk hc es rest' hr ih =>
    rw [argumentsRun_comma (hi.ok he) hc, ih, hr]
    rfl
  | case6 tokens e t rest he hk hc =>
    exact argumentsRun_unclosed (hi.ok he) (decide_eq_false hk) (decide_eq_false hc)

theorem namedRun_relocate (hi : inner.Carries f) (name : Token) (tokens : List Token) :
    namedRun inner (name.relocate f) (tokens.map (Token.relocate f)) =
      carry f (Expr.relocate f) (namedRun inner name tokens) := by
  cases tokens with
  | nil => rfl
  | cons t rest =>
    have hclose := Token.any_relocate f (fun k => decide (k = .rightParen)) rest
    rw [List.map_cons, namedRun, namedRun, Token.kind_relocate, hclose,
      argumentsRun_relocate hi rest, hi rest]
    split
    next =>
      split
      next =>
        rw [← List.map_tail]
        rfl
      next => cases argumentsRun inner rest <;> rfl
    next =>
      split
      next => cases inner.run rest <;> rfl
      next => rfl

theorem bareRun_relocate (name : Token) (tokens : List Token) :
    bareRun (name.relocate f) (tokens.map (Token.relocate f)) =
      carry f (Expr.relocate f) (bareRun name tokens) := by
  have hopens := Token.any_relocate f Token.Kind.opens tokens
  rw [bareRun, bareRun, hopens]
  split <;> rfl

theorem Carries.operand {inner : Option (Parser Expr)} (hi : ∀ p ∈ inner, p.Carries f) :
    (operand inner).Carries f := by
  intro tokens
  cases tokens with
  | nil => rfl
  | cons t rest =>
    rw [List.map_cons]
    simp only [Parser.operand, operandRun, Token.kind_relocate, Token.text_relocate]
    split
    · cases inner with
      | none => exact bareRun_relocate t rest
      | some p => exact namedRun_relocate (hi p rfl) t rest
    · split <;> rfl
    · rfl
    · rfl
    · rfl

theorem chainRun_relocate (ha : atom.Carries f) (links : List (Expr × Operator))
    (tokens : List Token) :
    chainRun atom (links.map fun (e, op) => (e.relocate f, op)) (tokens.map (Token.relocate f)) =
      carry f (Expr.relocate f) (chainRun atom links tokens) := by
  fun_induction chainRun atom links tokens with
  | case1 links tokens halt he => exact chainRun_error (ha.error he)
  | case2 links tokens e he =>
    rw [chainRun_last (ha.ok he) (by simp), ← joinAll_relocate]
    rfl
  | case3 links tokens e t rest he op hop ih =>
    exact (chainRun_link (ha.ok he) hop).trans ih
  | case4 links tokens e t rest he hop =>
    rw [chainRun_last (ha.ok he) (by simpa using hop), ← joinAll_relocate]
    rfl

theorem carries_expression (f : Position → Position) (room : Nat) :
    (expression room).Carries f := by
  induction room with
  | zero => exact chainRun_relocate (Carries.operand (by simp)) []
  | succ room ih =>
    refine chainRun_relocate (Carries.operand fun p hp => ?_) []
    cases hp
    exact ih

theorem atEnd_relocate (tokens : List Token) :
    atEnd (tokens.map (Token.relocate f)) = atEnd tokens := by
  cases tokens <;> rfl

theorem statementsRun_relocate (hi : inner.Carries f) (tokens : List Token) :
    statementsRun inner (tokens.map (Token.relocate f)) =
      carry f (List.map (Expr.relocate f)) (statementsRun inner tokens) := by
  have more {tokens rest : List Token} {e : Expr} {t : Token}
      (he : inner.run tokens = .ok (e, t :: rest)) (hk : t.kind = .semicolon)
      (hend : ¬ atEnd rest = true) := statementsRun_more (hi.ok he) hk
        ((atEnd_relocate rest).trans (eq_false_of_ne_true hend))
  fun_induction statementsRun inner tokens with
  | case1 tokens halt he => exact statementsRun_error (hi.error he)
  | case2 tokens e he => exact statementsRun_trailing (hi.ok he) rfl
  | case3 tokens e t rest he hk hend =>
    exact statementsRun_last (hi.ok he) hk ((atEnd_relocate rest).trans hend)
  | case4 tokens e t rest he hk hend halt hr ih =>
    rw [more he hk hend, ih, hr]
    rfl
  | case5 tokens e t rest he hk hend es rest' hr ih =>
    rw [more he hk hend, ih, hr]
    rfl
  | case6 tokens e t rest he hk hk' =>
    exact statementsRun_trailing (hi.ok he) (decide_eq_true hk')
  | case7 tokens e t rest he hk hk' => exact statementsRun_unended (hi.ok he) hk hk'

end Parser

namespace TokenSeq

def relocate (s : TokenSeq) : TokenSeq :=
  ⟨s.body.map (Token.relocate f), s.last.relocate f, s.last_kind⟩

theorem get_relocate (s : TokenSeq) (i : Nat) : (s.relocate f).get i = (s.get i).relocate f := by
  simp only [relocate, get, List.getElem?_map]
  cases s.body[i]? <;> rfl

theorem toList_relocate (s : TokenSeq) :
    (s.relocate f).toList = s.toList.map (Token.relocate f) := by
  simp [relocate, toList]

theorem length_relocate (s : TokenSeq) : (s.relocate f).length = s.length := by
  simp [relocate, length]

end TokenSeq

def LexFault.relocate (fault : LexFault) : LexFault := { fault with position := f fault.position }

def ParseFault.relocate (fault : ParseFault) : ParseFault :=
  { fault with found := fault.found.relocate f }

/-- The complaint about the same thing elsewhere. A file that cannot be read has no places. -/
def Diagnostic.relocate : Diagnostic → Diagnostic
  | .lexical fault => .lexical (fault.relocate f)
  | .syntactic fault => .syntactic (fault.relocate f)
  | .call fault => .call (fault.relocate f)
  | .load fault => .load fault
  | .tooDeep source => .tooDeep (f (.start source)).source

@[simp] theorem Diagnostic.message_relocate (report : Diagnostic) :
    (report.relocate f).message = report.message := by
  cases report <;> rfl

/-- The places of one source stay together: the source of a changed place depends on nothing else. -/
def SourceWise (f : Position → Position) : Prop :=
  ∀ p, (f p).source = (f (.start p.source)).source

namespace Cursor

def relocate (c : Cursor) : Cursor :=
  ⟨c.tokens.relocate f, c.index, by simpa [TokenSeq.relocate] using c.index_le⟩

variable (c : Cursor)

theorem current_relocate : (c.relocate f).current = c.current.relocate f :=
  c.tokens.get_relocate f c.index

theorem rest_relocate : (c.relocate f).rest = c.rest.map (Token.relocate f) :=
  List.map_drop.symm

theorem ampleRoom_relocate : (c.relocate f).ampleRoom = c.ampleRoom := c.tokens.length_relocate f

theorem moveToRest_relocate (rest : List Token) :
    (c.relocate f).moveToRest (rest.map (Token.relocate f)) = (c.moveToRest rest).relocate f := by
  simp [moveToRest, moveTo, relocate, TokenSeq.relocate]

variable {f} (hf : SourceWise f)

include hf

theorem halted_relocate (halt : Halt) : (c.relocate f).halted (halt.relocate f) =
    ((c.halted halt).1.relocate f, (c.halted halt).2.relocate f) := by
  cases halt with
  | unexpected wanted rest =>
    simp only [halted, Halt.relocate, moveToRest_relocate, current_relocate]
    rfl
  | tooDeep rest =>
    simp only [halted, Halt.relocate, moveToRest_relocate, current_relocate, Token.position_relocate,
      hf (c.moveToRest rest).current.position]
    rfl

theorem program_relocate (room : Nat) : (c.relocate f).program room =
    (((c.program room).1.map (List.map (Expr.relocate f))).mapError (Diagnostic.relocate f),
      (c.program room).2.relocate f) := by
  have hrun := Parser.statementsRun_relocate (Parser.carries_expression f room) c.rest
  rw [program, program, rest_relocate, hrun]
  cases Parser.statementsRun (Parser.expression room) c.rest with
  | ok r =>
    simp only [Parser.carry, moveToRest_relocate]
    rfl
  | error halt =>
    simp only [Parser.carry, c.halted_relocate hf]
    rfl

theorem block_relocate (room : Nat) : (c.relocate f).block room =
    (((c.block room).1.map (Expr.relocate f)).mapError (Diagnostic.relocate f),
      (c.block room).2.relocate f) := by
  rw [block, block, c.program_relocate hf, current_relocate]
  rcases c.program room with ⟨report | es, d⟩
  · rfl
  · simp only [Except.map, Except.mapError, Expr.relocate, relocateAll_eq_map,
      Token.position_relocate]

end Cursor

end Scriptlet
