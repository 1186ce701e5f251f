import Scriptlet.Proofs.EarliestFault

/-!
Expressions read by recursive descent. The loop over a chain collects its operands and groups them
when the chain has come to its end; to go behind each operator and read the rest of the chain as an
expression of its own gives the same tree, or the same complaint, and the cursor stands on the same
token.
-/

namespace Scriptlet

open Token Scriptlet.Expr

theorem Expr.joinAll_append (links more : List (Expr × Operator)) (e : Expr) :
    joinAll (links ++ more) e = joinAll more (joinAll links e) := List.foldl_append

namespace Parser

/-- Links that come in front of a chain only group it when it has been read. -/
theorem chainRun_append (atom : Parser Expr) (links more : List (Expr × Operator))
    (tokens : List Token) : chainRun atom (links ++ more) tokens =
      (chainRun atom links tokens).map fun x => (joinAll more x.1, x.2) := by
  fun_induction chainRun atom links tokens with
  | case1 links tokens halt he => exact chainRun_error he
  | case2 links tokens e he => rw [chainRun_last he (by simp), joinAll_append, Except.map]
  | case3 links tokens e t rest he op hop ih => exact (chainRun_link he hop).trans ih
  | case4 links tokens e t rest he hop =>
    rw [chainRun_last he (by simpa using hop), joinAll_append, Except.map]

end Parser

namespace Cursor

/-- What a cursor has read, or why it has read nothing, and where it has come to stand. -/
abbrev Reading (α : Type) := Except Diagnostic α × Cursor

/-- Go on where the first reading stands, unless it has read nothing. -/
def Reading.andThen {α β : Type} (r : Reading α) (next : α → Cursor → Reading β) : Reading β :=
  match r with
  | (.ok a, d) => next a d
  | (.error report, d) => (.error report, d)

/-- Blame the token that the cursor stands on. -/
def refuse {α : Type} (c : Cursor) (wanted : Wanted) : Reading α :=
  (.error (.syntactic ⟨wanted, c.current⟩), c)

def giveUp {α : Type} (c : Cursor) : Reading α := (.error (.tooDeep c.current.position.source), c)

/-- Arguments from the token in front of the first one up to the closing parenthesis; there is room
for `n` of them. -/
def descendArguments (inner : Cursor → Reading Expr) : Nat → Cursor → Reading (List Expr)
  | 0, c => c.giveUp
  | n + 1, c =>
    (inner c.next).andThen fun e d =>
      if d.next.current.kind = .rightParen then (.ok [e], d.next)
      else if d.next.current.kind = .comma then
        (descendArguments inner n d.next).andThen fun es d => (.ok (e :: es), d)
      else d.next.refuse .closeOrComma

/-- What the name at the cursor begins, as the next token tells. -/
def descendNamed (inner : Cursor → Reading Expr) (n : Nat) (c : Cursor) : Reading Expr :=
  let name := c.current
  if c.peek.kind = .leftParen then
    match c.next.accept .rightParen with
    | (true, d) => (.ok (.call name.text [] name.position), d)
    | (false, d) => (descendArguments inner n d).andThen fun args d =>
        (.ok (.call name.text args name.position), d)
  else if c.peek.kind = .assign then
    (inner c.next.next).andThen fun e d => (.ok (.assign name.text e name.position), d)
  else (.ok (.var name.text name.position), c)

/-- The name at the cursor where a call or an assignment finds no room. -/
def descendBare (c : Cursor) : Reading Expr :=
  if c.peek.kind.opens then c.giveUp else (.ok (.var c.current.text c.current.position), c)

def descendOperand (inner : Option (Cursor → Reading Expr)) (n : Nat) (c : Cursor) :
    Reading Expr :=
  match c.current.kind with
  | .identifier =>
    match inner with
    | some inner => c.descendNamed inner n
    | none => c.descendBare
  | .number =>
    match Numeral.read? c.current.text with
    | some x => (.ok (.literal (.number x) c.current.position), c)
    | none => c.refuse .numeral
  | .trueWord => (.ok (.literal (.boolean true) c.current.position), c)
  | .falseWord => (.ok (.literal (.boolean false) c.current.position), c)
  | _ => c.refuse .operand

/-- Read an operand. If an operator follows, go behind it, read all the rest as an expression, and
join both where the operand stands. -/
def descend : Nat → Cursor → Reading Expr
  | 0, c => c.giveUp
  | n + 1, c =>
    (c.descendOperand (some (descend n)) n).andThen fun lhs d =>
      match d.peek.kind.operator? with
      | some op => (descend n d.next.next).andThen fun rhs d =>
          (.ok (.binary op lhs rhs lhs.start), d)
      | none => (.ok lhs, d)

/-- The descent with room for all tokens. -/
def descent (c : Cursor) : Reading Expr := descend c.ampleRoom c

/-- The same tokens, and no token back. -/
def Reaches (c d : Cursor) : Prop := d.tokens = c.tokens ∧ c.index ≤ d.index

section reaches
variable {b c d : Cursor}

theorem Reaches.refl (c : Cursor) : c.Reaches c := ⟨rfl, Nat.le_refl _⟩

theorem Reaches.trans (h : b.Reaches c) (h' : c.Reaches d) : b.Reaches d :=
  ⟨h'.1.trans h.1, Nat.le_trans h.2 h'.2⟩

theorem reaches_next (c : Cursor) : c.Reaches c.next := ⟨rfl, c.index_le_next⟩

/-- Behind a token that is no end mark fewer tokens are left. -/
theorem Reaches.length_rest_next (h : c.Reaches d) (hd : d.index < d.tokens.body.length) :
    d.next.rest.length < c.rest.length := by
  rw [rest, rest, List.length_drop, List.length_drop, tokens_next, index_next hd, h.1]
  rw [h.1] at hd
  have hi := h.2
  omega

end reaches

/-- From `c` on, a cursor reads what a parser of token lists reads, and stands on the last token
read, or both blame the same token, or both give up at the same name. -/
inductive Mirrors {α : Type} (c : Cursor) : Reading α → Except Halt (α × List Token) → Prop
  | read {a : α} {d : Cursor} (hr : c.Reaches d) (hd : d.index < d.tokens.body.length) :
      Mirrors c (.ok a, d) (.ok (a, d.next.rest))
  | refused {wanted : Wanted} {d : Cursor} (hr : c.Reaches d) :
      Mirrors c (d.refuse wanted) (.error (.unexpected wanted d.rest))
  | gaveUp {d : Cursor} (hr : c.Reaches d) (ho : d.current.Opens d.peek) :
      Mirrors c d.giveUp (.error (.tooDeep d.rest))

section mirrors
variable {c d : Cursor} {inner : Cursor → Reading Expr} {p : Parser Expr} {n room : Nat}

theorem current_of_head? {t : Token} (h : t ∈ c.rest.head?) : c.current = t := by
  rw [current_eq, List.headD_eq_head?_getD, Option.mem_def.1 h, Option.getD_some]

theorem any_rest {k : Kind} (hk : k ≠ .finish) (c : Cursor) :
    (c.rest.head?.any fun t => t.kind = k) = decide (c.current.kind = k) := by
  rw [current_eq]
  cases c.rest with
  | nil => simp [c.tokens.last_kind, hk.symm]
  | cons t rest => rfl

/-- A cursor stays where it is when something is made of what it has read. -/
theorem Mirrors.map {α β : Type} {r : Reading α} {run : Except Halt (α × List Token)}
    (h : d.Mirrors r run) (hd : c.Reaches d) (g : α → β) :
    c.Mirrors (r.andThen fun a d => (.ok (g a), d)) (run.map fun x => (g x.1, x.2)) := by
  cases h with
  | read hr hlt => exact .read (hd.trans hr) hlt
  | refused hr => exact .refused (hd.trans hr)
  | gaveUp hr ho => exact .gaveUp (hd.trans hr) ho

/-- Wherever `c` may come to, but not at `c` itself, both read the same. -/
def MirrorsBehind (c : Cursor) (inner : Cursor → Reading Expr) (p : Parser Expr) : Prop :=
  ∀ {d : Cursor}, c.Reaches d → d.rest.length < c.rest.length → Mirrors d (inner d) (p.run d.rest)

theorem mirrors_arguments (hi : c.MirrorsBehind inner p) (hc : c.index < c.tokens.body.length)
    (hn : c.rest.length ≤ n) :
    Mirrors c (descendArguments inner n c) (Parser.argumentsRun p c.next.rest) := by
  induction n generalizing c with
  | zero => simp [rest_eq_cons hc] at hn
  | succ n ih =>
    have h := hi c.reaches_next ((Reaches.refl c).length_rest_next hc)
    rw [descendArguments]
    generalize inner c.next = r at h ⊢
    generalize hrun : p.run c.next.rest = run at h
    cases h with
    | refused hr =>
      rw [Parser.argumentsRun_error hrun]
      exact .refused (c.reaches_next.trans hr)
    | gaveUp hr ho =>
      rw [Parser.argumentsRun_error hrun]
      exact .gaveUp (c.reaches_next.trans hr) ho
    | @read e d hd hlt =>
      have hlen := (c.reaches_next.trans hd).length_rest_next hlt
      have hr : c.Reaches d.next := (c.reaches_next.trans hd).trans d.reaches_next
      simp only [Reading.andThen]
      split
      next hk =>
        have hlt := index_lt_of_kind (c := d.next) (by simp [hk])
        rw [rest_eq_cons hlt] at hrun
        rw [Parser.argumentsRun_close hrun hk]
        exact .read hr hlt
      next hk =>
        split
        next hm =>
          have hlt := index_lt_of_kind (c := d.next) (by simp [hm])
          rw [rest_eq_cons hlt] at hrun
          rw [Parser.argumentsRun_comma hrun hm]
          exact (ih (fun hr' hlt' => hi (hr.trans hr') (by omega)) hlt (by omega)).map hr (e :: ·)
        next hm =>
          rw [Parser.argumentsRun_unclosed hrun (by simpa [any_rest] using hk)
            (by simpa [any_rest] using hm)]
          exact .refused hr

theorem mirrors_named (hi : c.MirrorsBehind inner p) (hk : c.current.kind = .identifier)
    (hn : c.rest.length ≤ n) :
    Mirrors c (c.descendNamed inner n) (Parser.namedRun p c.current c.next.rest) := by
  have hc := index_lt_of_kind (c := c) (by simp [hk])
  have hlen := (Reaches.refl c).length_rest_next hc
  simp only [descendNamed, ← current_next c]
  split
  next hp =>
    have hlt := index_lt_of_kind (c := c.next) (by simp [hp])
    rw [rest_eq_cons hlt, accept, ← current_next c.next]
    by_cases he : c.next.next.current.kind = .rightParen
    · have hlast := index_lt_of_kind (c := c.next.next) (by simp [he])
      have hr := c.reaches_next.trans c.next.reaches_next
      have hclose : (c.next.next.rest.head?.any fun t => t.kind = .rightParen) = true := by
        rw [any_rest (by simp), decide_eq_true he]
      rw [if_pos he, Parser.namedRun, if_pos hp, if_pos hclose, rest_eq_cons hlast, List.tail_cons]
      exact .read hr hlast
    · have hopen : (c.next.next.rest.head?.any fun t => t.kind = .rightParen) = false := by
        rw [any_rest (by simp), decide_eq_false he]
      rw [if_neg he, Parser.namedRun_paren hp hopen]
      exact (mirrors_arguments (fun hr hlen' => hi (c.reaches_next.trans hr) (by omega)) hlt
        (by omega)).map c.reaches_next _
  next hp =>
    split
    next hm =>
      have hlt := index_lt_of_kind (c := c.next) (by simp [hm])
      rw [rest_eq_cons hlt, Parser.namedRun_mark hm]
      have hr := c.reaches_next.trans c.next.reaches_next
      have hlen' := c.reaches_next.length_rest_next hlt
      exact (hi hr hlen').map hr _
    next hm =>
      have hapart : Apart Opens [c.current] c.next.rest := by
        intro last _ t ht ho
        rw [current_of_head? ht] at hp hm
        exact ho.2.elim hp hm
      rw [Parser.namedRun_var hapart hk]
      exact .read (.refl c) hc

theorem mirrors_bare (hk : c.current.kind = .identifier) :
    Mirrors c c.descendBare (Parser.bareRun c.current c.next.rest) := by
  have hc := index_lt_of_kind (c := c) (by simp [hk])
  have hopens : (c.next.rest.head?.any fun t => t.kind.opens) = c.peek.kind.opens := by
    rw [← current_next, current_eq]
    cases c.next.rest with
    | nil =>
      have hlast : c.next.tokens.last.kind = .finish := c.next.tokens.last_kind
      rw [List.headD_nil, hlast]
      rfl
    | cons t rest => rfl
  rw [descendBare, Parser.bareRun, hopens, ← rest_eq_cons hc]
  split
  next ho => exact .gaveUp (.refl c) ⟨hk, Kind.opens_iff.1 ho⟩
  next => exact .read (.refl c) hc

/-- Inside an operand both read the same, or neither has room to. -/
inductive MirrorsInside (c : Cursor) :
    Option (Cursor → Reading Expr) → Option (Parser Expr) → Prop
  | closed : MirrorsInside c none none
  | opened {inner : Cursor → Reading Expr} {p : Parser Expr} (hi : c.MirrorsBehind inner p) :
      MirrorsInside c (some inner) (some p)

theorem mirrors_operand {inner : Option (Cursor → Reading Expr)} {p : Option (Parser Expr)}
    (hi : c.MirrorsInside inner p) (hn : c.rest.length ≤ n) :
    Mirrors c (c.descendOperand inner n) (Parser.operandRun p c.rest) := by
  by_cases hb : c.current.kind.beginsOperand = true
  · have hc : c.index < c.tokens.body.length := by
      refine index_lt_of_kind fun hf => ?_
      rw [hf] at hb
      cases hb
    simp only [rest_eq_cons hc, Parser.operandRun, descendOperand]
    cases hk : c.current.kind with
    | identifier =>
      cases hi with
      | closed => exact mirrors_bare hk
      | opened hi => exact mirrors_named hi hk hn
    | number =>
      cases hx : Numeral.read? c.current.text with
      | some x => exact .read (.refl c) hc
      | none =>
        simp only [← rest_eq_cons hc]
        exact .refused (.refl c)
    | trueWord | falseWord => exact .read (.refl c) hc
    | _ => simp [hk, Kind.beginsOperand] at hb
  · have hnone : (c.rest.head?.any fun t => t.kind.beginsOperand) = false := by
      by_cases hc : c.index < c.tokens.body.length
      · simpa [rest_eq_cons hc] using hb
      · simp [rest, Nat.le_of_not_lt hc]
    have hrefuse : c.descendOperand inner n = c.refuse .operand := by
      simp only [descendOperand]
      cases hk : c.current.kind <;> simp_all [Kind.beginsOperand]
    rw [Parser.operandRun_error hnone, hrefuse]
    exact .refused (.refl c)

theorem mirrors_descend (hn : c.rest.length < n) (hr : c.rest.length < room) :
    Mirrors c (descend n c) ((Parser.expression room).run c.rest) := by
  induction n generalizing c room with
  | zero => exact absurd hn (Nat.not_lt_zero _)
  | succ n ih =>
    obtain ⟨room, rfl⟩ : ∃ k, room = k + 1 := ⟨room - 1, by omega⟩
    have hi : c.MirrorsBehind (descend n) (Parser.expression room) := fun _ hlt =>
      ih (by omega) (by omega)
    have ho := mirrors_operand (.opened hi) (Nat.le_of_lt_succ hn)
    change c.Mirrors (descend (n + 1) c)
      (Parser.chainRun (Parser.operand (some (Parser.expression room))) [] c.rest)
    rw [descend]
    generalize c.descendOperand (some (descend n)) n = r at ho ⊢
    generalize hrun : Parser.operandRun (some (Parser.expression room)) c.rest = run at ho
    cases ho with
    | refused hr =>
      rw [Parser.chainRun_error hrun]
      exact .refused hr
    | gaveUp hr ho =>
      rw [Parser.chainRun_error hrun]
      exact .gaveUp hr ho
    | @read lhs d hr hlt =>
      have hlen := hr.length_rest_next hlt
      simp only [Reading.andThen, ← current_next d]
      cases hop : d.next.current.kind.operator? with
      | none =>
        rw [Parser.chainRun_last hrun fun t ht => current_of_head? ht ▸ hop]
        exact .read hr hlt
      | some op =>
        have hlt' := index_lt_of_kind (c := d.next) (Kind.ne_of_operator? hop rfl)
        rw [rest_eq_cons hlt'] at hrun
        have hr' := (hr.trans d.reaches_next).trans d.next.reaches_next
        have hlen' := (hr.trans d.reaches_next).length_rest_next hlt'
        have hrest : Mirrors d.next.next (descend n d.next.next)
            ((Parser.expression (room + 1)).run d.next.next.rest) := ih (by omega) (by omega)
        rw [Parser.chainRun_link hrun hop]
        exact (Parser.chainRun_append _ [] [(lhs, op)] d.next.next.rest) ▸ hrest.map hr' _

/-- A mirrored reading stands where the parser of token lists puts the cursor. -/
theorem Mirrors.expression_eq {r : Reading Expr}
    (h : c.Mirrors r ((Parser.expression room).run c.rest)) : c.expression room = r := by
  rw [expression]
  generalize (Parser.expression room).run c.rest = run at h ⊢
  cases h with
  | @read e d hr hd =>
    have hlast : c.tokens.body.length - d.next.rest.length - 1 = d.index := by
      rw [rest, List.length_drop, tokens_next, index_next hd, hr.1]
      rw [hr.1] at hd
      omega
    have hmove : c.moveTo d.index = d := (eq_moveTo_iff (hr.1 ▸ d.index_le)).2 ⟨hr.1, rfl⟩
    simp only [hlast, hmove]
  | refused hr => simp only [halted, moveToRest_rest hr.1, refuse]
  | gaveUp hr => simp only [halted, moveToRest_rest hr.1, giveUp]

end mirrors

/-- The loop over a chain and the recursive descent give the same tree or blame the same token, and
leave the cursor on the same one. Neither runs out of room. -/
theorem expression_eq_descent (c : Cursor) : c.expression c.ampleRoom = c.descent ∧
    ((∃ e, c.descent.1 = .ok e) ∨ ∃ wanted, c.descent = c.descent.2.refuse wanted) := by
  have h : c.Mirrors c.descent ((Parser.expression c.ampleRoom).run c.rest) :=
    mirrors_descend c.length_rest_lt c.length_rest_lt
  refine ⟨h.expression_eq, ?_⟩
  generalize c.descent = r at h ⊢
  generalize hrun : (Parser.expression c.ampleRoom).run c.rest = run at h
  cases h with
  | @read e d => exact .inl ⟨e, rfl⟩
  | @refused wanted d => exact .inr ⟨wanted, rfl⟩
  | @gaveUp d => exact absurd hrun (c.run_expression_ne_tooDeep d.rest)

end Cursor

end Scriptlet
