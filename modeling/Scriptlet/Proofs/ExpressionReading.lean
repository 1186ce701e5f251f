import Scriptlet.Proofs.WrittenForm

/-!
Reading undoes writing: an expression is read off the head of a token list exactly when the tokens
read are its written form and the token behind them cannot carry it on.
-/

namespace Scriptlet

namespace Token

/-- Behind `last`, `next` makes a name into a call or an assignment. -/
def Opens (last next : Token) : Prop :=
  last.kind = .identifier ∧ (next.kind = .leftParen ∨ next.kind = .assign)

/-- The kinds that end whatever stands in front of them. -/
def Kind.closes : Kind → Bool
  | rightParen | comma | semicolon | finish => true
  | _ => false

/-- `next` carries on an expression whose last token is `last`. -/
def Continues (last next : Token) : Prop := next.kind.operator?.isSome ∨ last.Opens next

theorem not_continues_iff {last next : Token} :
    ¬ last.Continues next ↔ next.kind.operator? = none ∧ ¬ last.Opens next := by
  simp [Continues]

/-- The tokens on both sides of a seam are not related by `R`. -/
def Apart (R : Token → Token → Prop) (front rest : List Token) : Prop :=
  ∀ last ∈ front.getLast?, ∀ next ∈ rest.head?, ¬ R last next

section apart
variable {R : Token → Token → Prop} {front rest : List Token} {last next : Token}

@[simp] theorem apart_nil : Apart R front [] := by simp [Apart]

@[simp] theorem apart_concat_cons :
    Apart R (front ++ [last]) (next :: rest) ↔ ¬ R last next := by simp [Apart]

@[simp] theorem apart_singleton_cons : Apart R [last] (next :: rest) ↔ ¬ R last next := by
  simp [Apart]

theorem apart_append (before : List Token) (h : front ≠ []) :
    Apart R (before ++ front) rest ↔ Apart R front rest := by
  simp [Apart, h]

theorem apart_opens (front : List Token) (h : last.kind ≠ .identifier) :
    Apart Opens (front ++ [last]) rest := by
  cases rest with
  | nil => exact apart_nil
  | cons next rest => exact apart_concat_cons.2 fun ho => h ho.1

theorem Apart.opens (h : Apart Continues front rest) : Apart Opens front rest :=
  fun last hl next hn => (not_continues_iff.1 (h last hl next hn)).2

theorem Kind.opens_iff {k : Kind} : k.opens = true ↔ k = .leftParen ∨ k = .assign := by
  cases k <;> simp [opens]

theorem apart_opens_iff (h : last.kind = .identifier) :
    Apart Opens [last] rest ↔ (rest.head?.any fun t => t.kind.opens) = false := by
  cases rest with
  | nil => simp
  | cons next rest => simp [Opens, h, ← Kind.opens_iff]

/-- No operator opens anything. -/
theorem apart_opens_operator {op : Operator} (h : next.kind.operator? = some op) :
    Apart Opens front (next :: rest) := by
  intro last _ t ht ho
  have hk := ho.2
  cases Option.some.inj ht
  rcases hk with hk | hk <;> exact absurd hk (Kind.ne_of_operator? h rfl)

theorem not_continues_of_closes (h : next.kind.closes) : ¬ last.Continues next := by
  rw [not_continues_iff, Opens]
  cases hk : next.kind <;> simp_all [Kind.closes, Kind.operator?]

theorem apart_closes (h : next.kind.closes) : Apart Continues front (next :: rest) := by
  intro last _ t ht
  cases Option.some.inj ht
  exact not_continues_of_closes h

end apart

end Token

open Token Scriptlet.Expr

namespace Parser

/-- In this room the parser reads all written trees and nothing else. -/
def Reads (inner : Parser Expr) (room : Nat) : Prop :=
  ∀ {tokens rest : List Token} {e : Expr}, inner.run tokens = .ok (e, rest) ↔
    ∃ front, tokens = front ++ rest ∧ e.Written front ∧ e.Fits room ∧ Apart Continues front rest

variable {inner atom : Parser Expr} {room : Nat}

theorem Reads.run_append (hi : inner.Reads room) {front rest : List Token} {e : Expr}
    (hw : e.Written front) (hf : e.Fits room) (ha : Apart Continues front rest) :
    inner.run (front ++ rest) = .ok (e, rest) :=
  hi.2 ⟨front, rfl, hw, hf, ha⟩

theorem written_of_argumentsRun (hi : inner.Reads room) {tokens rest : List Token}
    {es : List Expr} (h : argumentsRun inner tokens = .ok (es, rest)) :
    ∃ front close, tokens = front ++ close :: rest ∧ close.kind = .rightParen ∧ es ≠ [] ∧
      WrittenArgs es front ∧ ∀ e ∈ es, e.Fits room := by
  fun_induction argumentsRun inner tokens generalizing es rest with
  | case1 => simp at h
  | case2 => simp at h
  | case3 tokens e t tail he hk =>
    cases h
    obtain ⟨front, rfl, hw, hf, -⟩ := hi.1 he
    exact ⟨front, t, rfl, hk, by simp, .last hw, by simpa using hf⟩
  | case4 => simp at h
  | case5 tokens e t tail he hk hc ds tail' hr ih =>
    cases h
    obtain ⟨front, rfl, hw, hf, -⟩ := hi.1 he
    obtain ⟨front', close, rfl, hclose, hne, hws, hfs⟩ := ih hr
    refine ⟨front ++ t :: front', close, by simp, hclose, by simp, .more hw hc hws hne, ?_⟩
    simpa using ⟨hf, hfs⟩
  | case6 => simp at h

theorem argumentsRun_close {tokens rest : List Token} {t : Token} {e : Expr}
    (h : inner.run tokens = .ok (e, t :: rest)) (ht : t.kind = .rightParen) :
    argumentsRun inner tokens = .ok ([e], rest) := by
  rw [argumentsRun]
  split <;> simp_all

theorem argumentsRun_comma {tokens rest : List Token} {t : Token} {e : Expr}
    (h : inner.run tokens = .ok (e, t :: rest)) (ht : t.kind = .comma) :
    argumentsRun inner tokens = (argumentsRun inner rest).map fun r => (e :: r.1, r.2) := by
  rw [argumentsRun]
  split
  next h' => simp [h] at h'
  next h' => simp [h] at h'
  next h' =>
    cases h.symm.trans h'
    rw [if_neg (by simp [ht]), if_pos ht]
    cases argumentsRun inner rest <;> rfl

theorem argumentsRun_of_written (hi : inner.Reads room) {front rest : List Token} {close : Token}
    {es : List Expr} (hw : WrittenArgs es front) (hf : ∀ e ∈ es, e.Fits room) (hne : es ≠ [])
    (hc : close.kind = .rightParen) :
    argumentsRun inner (front ++ close :: rest) = .ok (es, rest) := by
  induction es generalizing front with
  | nil => exact absurd rfl hne
  | cons e es ih =>
    have hfe := hf e List.mem_cons_self
    cases hw with
    | last he => exact argumentsRun_close (hi.run_append he hfe (apart_closes (by rw [hc]; rfl))) hc
    | more he hm hs hn =>
      have hfs : ∀ a ∈ es, a.Fits room := fun a ha => hf a (List.mem_cons_of_mem e ha)
      rw [List.append_assoc, List.cons_append,
        argumentsRun_comma (hi.run_append he hfe (apart_closes (by rw [hm]; rfl))) hm, ih hs hfs hn]
      rfl

/-- An operand is not joined by an operator. Only as an assignment it ends like an expression. -/
def EndsOperand (e : Expr) (front rest : List Token) : Prop :=
  e.isBinary = false ∧ Apart Opens front rest ∧ (e.isTerm = false → Apart Continues front rest)

theorem endsOperand_of_term {e : Expr} {front rest : List Token} (ht : e.isTerm = true)
    (hb : e.isBinary = false) (ha : Apart Opens front rest) : EndsOperand e front rest :=
  ⟨hb, ha, by simp [ht]⟩

theorem written_of_namedRun (hi : inner.Reads room) {name : Token} {tokens rest : List Token}
    {e : Expr} (hn : name.kind = .identifier) (h : namedRun inner name tokens = .ok (e, rest)) :
    ∃ front, name :: tokens = front ++ rest ∧ e.Written front ∧ e.Fits (room + 1) ∧
      EndsOperand e front rest := by
  cases tokens with
  | nil =>
    cases h
    exact ⟨[name], rfl, .var hn, by simp, endsOperand_of_term rfl rfl apart_nil⟩
  | cons t tail =>
    simp only [namedRun] at h
    split at h
    next hp =>
      split at h
      next hc =>
        cases h
        cases tail with
        | nil => simp at hc
        | cons close us =>
          have hk : close.kind = .rightParen := by simpa using hc
          exact ⟨[name, t, close], rfl, .call hn hp .none hk, by simp,
            endsOperand_of_term rfl rfl (apart_opens [name, t] (by simp [hk]))⟩
      next hc =>
        split at h
        · simp at h
        next args us hr =>
          cases h
          obtain ⟨front, close, rfl, hk, -, hw, hf⟩ := written_of_argumentsRun hi hr
          refine ⟨name :: t :: front ++ [close], by simp, .call hn hp hw hk, by simpa using hf, ?_⟩
          exact endsOperand_of_term rfl rfl (apart_opens (name :: t :: front) (by simp [hk]))
    next hp =>
      split at h
      next hm =>
        split at h
        · simp at h
        next value us hr =>
          cases h
          obtain ⟨front, rfl, hw, hf, ha⟩ := hi.1 hr
          have ha : Apart Continues (name :: t :: front) rest :=
            (apart_append [name, t] hw.ne_nil).2 ha
          exact ⟨name :: t :: front, rfl, .assign hn hm hw, by simpa using hf, rfl, ha.opens,
            fun _ => ha⟩
      next hm =>
        cases h
        refine ⟨[name], rfl, .var hn, by simp, endsOperand_of_term rfl rfl ?_⟩
        simp [Opens, hp, hm]

theorem written_of_bareRun {name : Token} {tokens rest : List Token} {e : Expr}
    (hn : name.kind = .identifier) (h : bareRun name tokens = .ok (e, rest)) :
    ∃ front, name :: tokens = front ++ rest ∧ e.Written front ∧ e.Fits room ∧
      EndsOperand e front rest := by
  rw [bareRun] at h
  split at h
  next => simp at h
  next ho =>
    cases h
    refine ⟨[name], rfl, .var hn, by simp, endsOperand_of_term rfl rfl ?_⟩
    exact (apart_opens_iff hn).2 (by simpa using ho)

/-- What is read inside an operand of this room: nothing, or expressions of one room less. -/
inductive ReadsInside : Option (Parser Expr) → Nat → Prop
  | closed : ReadsInside none 0
  | opened {inner : Parser Expr} {room : Nat} (hi : inner.Reads room) :
      ReadsInside (some inner) (room + 1)

theorem written_of_operandRun {inner : Option (Parser Expr)} (hi : ReadsInside inner room)
    {tokens rest : List Token} {e : Expr} (h : operandRun inner tokens = .ok (e, rest)) :
    ∃ front, tokens = front ++ rest ∧ e.Written front ∧ e.Fits room ∧
      EndsOperand e front rest := by
  cases tokens with
  | nil => simp [operandRun] at h
  | cons t tail =>
    have hl {v : Value} (hw : Written (literal v t.position) [t]) (hk : t.kind ≠ .identifier) :
        ∃ front, t :: tail = front ++ tail ∧ Written (literal v t.position) front ∧
          (literal v t.position).Fits room ∧ EndsOperand (literal v t.position) front tail :=
      ⟨[t], rfl, hw, by simp, endsOperand_of_term rfl rfl (apart_opens [] hk)⟩
    simp only [operandRun] at h
    split at h
    next hk =>
      cases hi with
      | closed => exact written_of_bareRun hk h
      | opened hi => exact written_of_namedRun hi hk h
    next hk =>
      split at h
      next x hx =>
        cases h
        exact hl (.number hk hx) (by simp [hk])
      next => simp at h
    next hk =>
      cases h
      exact hl (.trueWord hk) (by simp [hk])
    next hk =>
      cases h
      exact hl (.falseWord hk) (by simp [hk])
    next => simp at h

theorem namedRun_var {name : Token} {rest : List Token} (ha : Apart Opens [name] rest)
    (hn : name.kind = .identifier) :
    namedRun inner name rest = .ok (.var name.text name.position, rest) := by
  cases rest with
  | nil => rfl
  | cons t tail =>
    have hk : t.kind ≠ .leftParen ∧ t.kind ≠ .assign := by simpa [Opens, hn] using ha
    rw [namedRun, if_neg hk.1, if_neg hk.2]

theorem bareRun_var {name : Token} {rest : List Token} (ha : Apart Opens [name] rest)
    (hn : name.kind = .identifier) :
    bareRun name rest = .ok (.var name.text name.position, rest) := by
  rw [bareRun, if_neg (by simp [(apart_opens_iff hn).1 ha])]

theorem namedRun_paren {name paren : Token} {tokens : List Token} (hp : paren.kind = .leftParen)
    (hc : (tokens.head?.any fun t => t.kind = .rightParen) = false) :
    namedRun inner name (paren :: tokens) = (argumentsRun inner tokens).map fun x =>
      (.call name.text x.1 name.position, x.2) := by
  rw [namedRun, if_pos hp, if_neg (by simp [hc])]
  cases argumentsRun inner tokens <;> rfl

theorem namedRun_mark {name mark : Token} {tokens : List Token} (hm : mark.kind = .assign) :
    namedRun inner name (mark :: tokens) = (inner.run tokens).map fun x =>
      (.assign name.text x.1 name.position, x.2) := by
  rw [namedRun, if_neg (by simp [hm]), if_pos hm]
  cases inner.run tokens <;> rfl

theorem namedRun_assign {name mark : Token} {tokens rest : List Token} {e : Expr}
    (hm : mark.kind = .assign) (h : inner.run tokens = .ok (e, rest)) :
    namedRun inner name (mark :: tokens) = .ok (.assign name.text e name.position, rest) := by
  rw [namedRun_mark hm, h]
  rfl

theorem namedRun_call (hi : inner.Reads room) {name paren close : Token} {front rest : List Token}
    {args : List Expr} (hp : paren.kind = .leftParen) (hw : WrittenArgs args front)
    (hf : ∀ a ∈ args, a.Fits room) (hc : close.kind = .rightParen) :
    namedRun inner name (paren :: front ++ close :: rest) =
      .ok (.call name.text args name.position, rest) := by
  rw [List.cons_append]
  cases args with
  | nil =>
    cases hw
    simp [namedRun, hp, hc]
  | cons a as =>
    rw [namedRun_paren hp, argumentsRun_of_written hi hw hf (by simp) hc]
    · rfl
    · -- what begins an operand does not close the call
      obtain ⟨t, us, rfl, hk⟩ := hw.head
      have hne : t.kind ≠ .rightParen := by
        intro h
        simp [h, Kind.beginsOperand] at hk
      simpa using hne

theorem operandRun_of_written {inner : Option (Parser Expr)} (hi : ReadsInside inner room)
    {front rest : List Token} {e : Expr} (hw : e.Written front) (hf : e.Fits room)
    (he : EndsOperand e front rest) : operandRun inner (front ++ rest) = .ok (e, rest) := by
  cases hw with
  | var ht =>
    cases hi with
    | closed => simpa [operandRun, ht] using bareRun_var he.2.1 ht
    | opened => simpa [operandRun, ht] using namedRun_var he.2.1 ht
  | trueWord ht | falseWord ht => simp [operandRun, ht]
  | number ht hx => simp [operandRun, ht, hx]
  | @assign name mark value ts hn hm hv =>
    cases hi with
    | closed => exact absurd hf not_fits_assign_zero
    | opened hi =>
      have ha : Apart Continues ts rest :=
        (apart_append [name, mark] hv.ne_nil).1 (he.2.2 rfl)
      have hr := hi.run_append hv (fits_assign.1 hf) ha
      simpa [operandRun, hn] using namedRun_assign hm hr
  | call hn hp ha hc =>
    cases hi with
    | closed => exact absurd hf not_fits_call_zero
    | opened hi => simpa [operandRun, hn] using namedRun_call hi hp ha (fits_call.1 hf) hc
  | binary => exact absurd he.1 (by simp [isBinary])

/-- In this room the parser reads all written operands and nothing else. -/
def ReadsOperands (atom : Parser Expr) (room : Nat) : Prop :=
  ∀ {tokens rest : List Token} {e : Expr}, atom.run tokens = .ok (e, rest) ↔
    ∃ front, tokens = front ++ rest ∧ e.Written front ∧ e.Fits room ∧ EndsOperand e front rest

theorem ReadsInside.operand {inner : Option (Parser Expr)} (hi : ReadsInside inner room) :
    (operand inner).ReadsOperands room := by
  intro tokens rest e
  constructor
  · exact written_of_operandRun hi
  · intro h
    obtain ⟨front, rfl, hw, hf, he⟩ := h
    exact operandRun_of_written hi hw hf he

theorem chainRun_last {links : List (Expr × Operator)} {tokens rest : List Token} {e : Expr}
    (h : atom.run tokens = .ok (e, rest)) (hr : ∀ t ∈ rest.head?, t.kind.operator? = none) :
    chainRun atom links tokens = .ok (joinAll links e, rest) := by
  rw [chainRun]
  cases rest <;> split <;> simp_all

theorem chainRun_error {links : List (Expr × Operator)} {tokens : List Token} {halt : Halt}
    (h : atom.run tokens = .error halt) : chainRun atom links tokens = .error halt := by
  rw [chainRun]
  split <;> simp_all

theorem chainRun_link {links : List (Expr × Operator)} {tokens rest : List Token} {t : Token}
    {op : Operator} {e : Expr} (h : atom.run tokens = .ok (e, t :: rest))
    (ht : t.kind.operator? = some op) :
    chainRun atom links tokens = chainRun atom ((e, op) :: links) rest := by
  rw [chainRun]
  split <;> simp_all

/-- The operand in front of an operator is a term: an assignment would have read on. -/
theorem isTerm_of_endsOperand {e : Expr} {front rest : List Token} {t : Token} {op : Operator}
    (hne : front ≠ []) (ht : t.kind.operator? = some op) (h : EndsOperand e front (t :: rest)) :
    e.isTerm = true := by
  cases hn : e.isTerm with
  | true => rfl
  | false =>
    have hc := h.2.2 hn _ (List.getLast?_eq_some_getLast hne) t rfl
    simp [(not_continues_iff.1 hc).1] at ht

theorem written_of_chainRun (ho : atom.ReadsOperands room) {links : List (Expr × Operator)}
    {tokens rest : List Token} {e : Expr} (h : chainRun atom links tokens = .ok (e, rest)) :
    ∃ d front, e = joinAll links d ∧ tokens = front ++ rest ∧ d.Written front ∧ d.Fits room ∧
      Apart Continues front rest := by
  fun_induction chainRun atom links tokens with
  | case1 => simp at h
  | case2 links tokens d hd =>
    cases h
    obtain ⟨front, rfl, hw, hf, -⟩ := ho.1 hd
    exact ⟨d, front, rfl, rfl, hw, hf, apart_nil⟩
  | case3 links tokens lhs t tail hd op hop ih =>
    obtain ⟨front, rfl, hw, hf, he⟩ := ho.1 hd
    obtain ⟨rhs, front', rfl, rfl, hw', hf', ha⟩ := ih h
    obtain ⟨first, ts, rfl, hp, -⟩ := hw.head
    have ht : lhs.isTerm = true := isTerm_of_endsOperand hw.ne_nil hop he
    refine ⟨join op lhs rhs, first :: ts ++ t :: front', rfl, by simp, ?_, ?_, ?_⟩
    · rw [join, ← hp]
      exact .binary hw hop hw'
    · exact fits_binary.2 ⟨ht, hf, hf'⟩
    · rw [List.append_cons]
      exact (apart_append _ hw'.ne_nil).2 ha
  | case4 links tokens d t tail hd hop =>
    cases h
    obtain ⟨front, rfl, hw, hf, he⟩ := ho.1 hd
    refine ⟨d, front, rfl, rfl, hw, hf, ?_⟩
    intro last hl next hn
    cases Option.some.inj hn
    exact not_continues_iff.2 ⟨hop, he.2.1 last hl _ rfl⟩

/-- Operands one by one, from the left: an operator on the right is a shorter chain. -/
theorem chain_induction {motive : Expr → Prop}
    (operand : ∀ e : Expr, e.isBinary = false → motive e)
    (binary : ∀ op lhs rhs p, motive rhs → motive (.binary op lhs rhs p)) : ∀ e, motive e
  | .binary op lhs rhs p => binary op lhs rhs p (chain_induction operand binary rhs)
  | .block .. | .call .. | .literal .. | .assign .. | .var .. => operand _ rfl

theorem chainRun_of_written (ho : atom.ReadsOperands room) {links : List (Expr × Operator)}
    {front rest : List Token} {e : Expr} (hw : e.Written front) (hf : e.Fits room)
    (ha : Apart Continues front rest) :
    chainRun atom links (front ++ rest) = .ok (joinAll links e, rest) := by
  induction e using chain_induction generalizing links front with
  | operand e he =>
    have hr := ho.2 ⟨front, rfl, hw, hf, he, ha.opens, fun _ => ha⟩
    refine chainRun_last hr fun t ht => ?_
    exact (not_continues_iff.1 (ha _ (List.getLast?_eq_some_getLast hw.ne_nil) t ht)).1
  | binary op lhs rhs p ih =>
    obtain ⟨ht, hfl, hfr⟩ := fits_binary.1 hf
    cases hw with
    | @binary _ _ _ first mark ts us hl hm hr =>
      have he : EndsOperand lhs (first :: ts) (mark :: (us ++ rest)) :=
        endsOperand_of_term ht (by cases lhs <;> simp_all [isTerm, isBinary])
          (apart_opens_operator hm)
      have ha : Apart Continues us rest := by
        rw [List.append_cons] at ha
        exact (apart_append _ hr.ne_nil).1 ha
      obtain ⟨t, ts', heq, hp, -⟩ := hl.head
      cases heq
      have hrun := ho.2 ⟨first :: ts, rfl, hl, hfl, he⟩
      rw [List.append_assoc (first :: ts), List.cons_append (a := mark),
        chainRun_link hrun hm, ih hr hfr ha, hp]
      rfl

theorem ReadsOperands.chain (ho : atom.ReadsOperands room) : (chain atom).Reads room := by
  intro tokens rest e
  constructor
  · intro h
    obtain ⟨d, front, rfl, hrest⟩ := written_of_chainRun ho h
    exact ⟨front, hrest⟩
  · intro h
    obtain ⟨front, rfl, hw, hf, ha⟩ := h
    exact chainRun_of_written ho hw hf ha

/-- What an expression of this room reads inside its operands. -/
def inside : Nat → Option (Parser Expr)
  | 0 => none
  | room + 1 => some (expression room)

theorem expression_eq (room : Nat) : expression room = chain (operand (inside room)) := by
  cases room <;> rfl

theorem reads_expression (room : Nat) : (expression room).Reads room := by
  induction room with
  | zero => exact ReadsOperands.chain (ReadsInside.operand .closed)
  | succ room ih => exact ReadsOperands.chain (ReadsInside.operand (.opened ih))

theorem readsInside (room : Nat) : ReadsInside (inside room) room := by
  cases room with
  | zero => exact .closed
  | succ room => exact .opened (reads_expression room)

end Parser

end Scriptlet
