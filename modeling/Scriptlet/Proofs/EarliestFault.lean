import Scriptlet.Proofs.ProgramText

/-!
The token that is blamed for a program that cannot be read. It is the first one that cannot go on
with what stands in front of it: that much is the beginning of some program, and no token behind the
blamed one has been looked at.
-/

namespace Scriptlet

open Token Scriptlet.Expr

namespace Parser

/-- Two lists go on with the same token, or both are at the end. -/
def SameNext (rest rest' : List Token) : Prop :=
  rest.head? = rest'.head? ∨ atEnd rest ∧ atEnd rest'

section sameNext
variable {front rest rest' : List Token} {t : Token}

theorem SameNext.append (h : SameNext rest rest') (front : List Token) :
    SameNext (front ++ rest) (front ++ rest') := by
  cases front with
  | nil => exact h
  | cons t front => exact .inl rfl

theorem SameNext.atEnd_eq (h : SameNext rest rest') : atEnd rest = atEnd rest' := by
  rcases h with h | h
  · rw [atEnd, atEnd, h]
  · rw [h.1, h.2]

/-- What is next in one of the lists is next in the other, if it is no end mark. -/
theorem SameNext.exists_cons (h : SameNext (t :: rest) rest') (ht : t.kind ≠ .finish) :
    ∃ tail, rest' = t :: tail := by
  rcases h with h | h
  · exact List.head?_eq_some_iff.1 h.symm
  · exact absurd (by simpa [atEnd] using h.1) ht

/-- Lists go on with the same token just as far as tokens of one kind are concerned. -/
theorem SameNext.any_kind (h : SameNext rest rest') {k : Kind} (hk : k ≠ .finish) :
    (rest.head?.any fun t => t.kind = k) = rest'.head?.any fun t => t.kind = k := by
  rcases h with h | h
  · rw [h]
  · have hend {ts : List Token} (hts : atEnd ts) : (ts.head?.any fun t => t.kind = k) = false := by
      cases ts with
      | nil => rfl
      | cons t ts =>
        have ht : t.kind = .finish := by simpa [atEnd] using hts
        simpa [ht] using hk.symm
    rw [hend h.1, hend h.2]

theorem SameNext.apart {R : Token → Token → Prop}
    (hR : ∀ last next, R last next → next.kind ≠ .finish) (h : SameNext rest rest')
    (ha : Apart R front rest) : Apart R front rest' := by
  rcases h with h | h
  · rw [Apart, ← h]
    exact ha
  · intro last _ next hn hr
    have hk : next.kind = .finish := by simpa [atEnd, Option.mem_def.1 hn] using h.2
    exact hR last next hr hk

theorem kind_ne_finish_of_opens (last next : Token) (h : last.Opens next) :
    next.kind ≠ .finish := by
  rcases h.2 with hk | hk <;> simp [hk]

theorem kind_ne_finish_of_continues (last next : Token) (h : last.Continues next) :
    next.kind ≠ .finish :=
  fun hk => not_continues_of_closes (by rw [hk]; rfl) h

theorem SameNext.endsOperand {e : Expr} (h : SameNext rest rest') (he : EndsOperand e front rest) :
    EndsOperand e front rest' :=
  ⟨he.1, h.apart kind_ne_finish_of_opens he.2.1,
    fun ht => h.apart kind_ne_finish_of_continues (he.2.2 ht)⟩

end sameNext

/-- With room for the tokens, `front` is read as `e` whatever comes behind the next token. The
parser `run n` has room for `n` tokens. -/
def ReadsAlike (run : Nat → List Token → Except Halt (Expr × List Token)) (e : Expr)
    (front rest : List Token) : Prop :=
  ∀ {rest' : List Token} {n : Nat}, SameNext rest rest' → (front ++ rest').length ≤ n →
    run n (front ++ rest') = .ok (e, rest')

/-- With room for the tokens, what comes behind `front` is blamed whatever comes behind the next
token. -/
def BlamesAlike {α : Type} (run : Nat → List Token → Except Halt (α × List Token))
    (wanted : Wanted) (front rest : List Token) : Prop :=
  ∀ {rest' : List Token} {n : Nat}, SameNext rest rest' → (front ++ rest').length ≤ n →
    run n (front ++ rest') = .error (.unexpected wanted rest')

/-- The tokens are the beginning of an expression. -/
def Viable (front : List Token) : Prop := ∃ back e, Written e (front ++ back) ∧ e.Canonical

/-- The tokens are the beginning of a list of arguments. -/
def ViableArgs (front : List Token) : Prop :=
  ∃ back es, es ≠ [] ∧ WrittenArgs es (front ++ back) ∧ ∀ e ∈ es, e.Canonical

/-- A parser of expressions blames the first token that cannot go on. -/
def BlamesEarliest (p : Parser Expr) (run : Nat → List Token → Except Halt (Expr × List Token)) :
    Prop :=
  ∀ {tokens rest : List Token} {wanted : Wanted}, p.run tokens = .error (.unexpected wanted rest) →
    ∃ front, tokens = front ++ rest ∧ Viable front ∧ BlamesAlike run wanted front rest

variable {inner atom : Parser Expr} {room : Nat} {tokens rest : List Token} {e : Expr}
  {wanted : Wanted}

theorem Reads.readsAlike (hi : inner.Reads room) (h : inner.run tokens = .ok (e, rest)) :
    ∃ front, tokens = front ++ rest ∧ e.Written front ∧ e.Canonical ∧
      ReadsAlike (fun n => (expression n).run) e front rest := by
  obtain ⟨front, rfl, hw, hf, ha⟩ := hi.1 h
  refine ⟨front, rfl, hw, hf.1, fun {rest' n} hs hr => ?_⟩
  have hd := hw.nesting_lt_length
  rw [List.length_append] at hr
  exact Reads.run_append (reads_expression _) hw ⟨hf.1, by omega⟩
    (hs.apart kind_ne_finish_of_continues ha)

theorem ReadsOperands.readsAlike (ho : atom.ReadsOperands room)
    (h : atom.run tokens = .ok (e, rest)) :
    ∃ front, tokens = front ++ rest ∧ e.Written front ∧ e.Canonical ∧ EndsOperand e front rest ∧
      ReadsAlike (fun n => operandRun (inside n)) e front rest := by
  obtain ⟨front, rfl, hw, hf, he⟩ := ho.1 h
  refine ⟨front, rfl, hw, hf.1, he, fun {rest' n} hs hr => ?_⟩
  have hd := hw.nesting_lt_length
  rw [List.length_append] at hr
  exact (ReadsInside.operand (readsInside n)).2
    ⟨front, rfl, hw, ⟨hf.1, by omega⟩, hs.endsOperand he⟩

/-- There is room for two parts and a token between them only if there is room for each part. -/
theorem ReadsAlike.behind {α : Type} {front front' rest' : List Token} {t : Token} {n : Nat}
    {read : Nat → List Token → Except Halt (Expr × List Token)}
    {run : Nat → List Token → Except Halt (α × List Token)}
    (hf : ReadsAlike read e front (t :: (front' ++ rest))) (hf' : BlamesAlike run wanted front' rest)
    (hs : SameNext rest rest') (hlen : (front ++ t :: front' ++ rest').length ≤ n) :
    read n (front ++ t :: (front' ++ rest')) = .ok (e, t :: (front' ++ rest')) ∧
      run n (front' ++ rest') = .error (.unexpected wanted rest') := by
  rw [List.append_assoc, List.cons_append] at hlen
  refine ⟨hf (.inl rfl) hlen, hf' hs ?_⟩
  rw [List.length_append, List.length_cons] at hlen
  omega

theorem argumentsRun_error {halt : Halt} (h : inner.run tokens = .error halt) :
    argumentsRun inner tokens = .error halt := by
  rw [argumentsRun]
  split <;> simp_all

theorem argumentsRun_unclosed (h : inner.run tokens = .ok (e, rest))
    (hp : (rest.head?.any fun t => t.kind = .rightParen) = false)
    (hc : (rest.head?.any fun t => t.kind = .comma) = false) :
    argumentsRun inner tokens = .error (.unexpected .closeOrComma rest) := by
  rw [argumentsRun]
  cases rest <;> split <;> simp_all

theorem blamesAlike_unclosed {front : List Token}
    (h : ReadsAlike (fun n => (expression n).run) e front rest)
    (hp : (rest.head?.any fun t => t.kind = .rightParen) = false)
    (hc : (rest.head?.any fun t => t.kind = .comma) = false) :
    BlamesAlike (fun n => argumentsRun (expression n)) .closeOrComma front rest := by
  intro rest' n hs hr
  rw [hs.any_kind (by simp)] at hp hc
  exact argumentsRun_unclosed (h hs hr) hp hc

theorem argumentsRun_blames (hi : inner.Reads room)
    (hb : inner.BlamesEarliest fun n => (expression n).run)
    (h : argumentsRun inner tokens = .error (.unexpected wanted rest)) :
    ∃ front, tokens = front ++ rest ∧ ViableArgs front ∧
      BlamesAlike (fun n => argumentsRun (expression n)) wanted front rest := by
  fun_induction argumentsRun inner tokens with
  | case1 tokens halt he =>
    cases h
    obtain ⟨front, rfl, ⟨back, e, hw, hc⟩, hf⟩ := hb he
    exact ⟨front, rfl, ⟨back, [e], by simp, .last hw, by simpa using hc⟩,
      fun hs hr => argumentsRun_error (hf hs hr)⟩
  | case2 tokens e he =>
    cases h
    obtain ⟨front, rfl, hw, hc, hf⟩ := hi.readsAlike he
    refine ⟨front, rfl, ⟨[], [e], by simp, ?_, by simpa using hc⟩, blamesAlike_unclosed hf rfl rfl⟩
    rw [List.append_nil]
    exact .last hw
  | case3 => simp at h
  | case4 tokens e t tail he hk hm halt hr ih =>
    cases h
    obtain ⟨front, rfl, hw, hc, hf⟩ := hi.readsAlike he
    obtain ⟨front', rfl, ⟨back, es, hne, hws, hcs⟩, hf'⟩ := ih hr
    refine ⟨front ++ t :: front', by simp, ⟨back, e :: es, by simp, ?_, by simpa using ⟨hc, hcs⟩⟩,
      fun hs hlen => ?_⟩
    · rw [List.append_assoc, List.cons_append]
      exact .more hw hm hws hne
    · obtain ⟨hrun, hrun'⟩ := hf.behind hf' hs hlen
      rw [List.append_assoc]
      refine (argumentsRun_comma hrun hm).trans ?_
      rw [hrun']
      rfl
  | case5 => simp at h
  | case6 tokens e t tail he hk hm =>
    cases h
    obtain ⟨front, rfl, hw, hc, hf⟩ := hi.readsAlike he
    refine ⟨front, rfl, ⟨[], [e], by simp, ?_, by simpa using hc⟩,
      blamesAlike_unclosed hf (by simpa using hk) (by simpa using hm)⟩
    rw [List.append_nil]
    exact .last hw

/-- A token that is an expression by itself. -/
def trueToken : Token := ⟨.trueWord, "true", .start ""⟩

theorem viable_nil : Viable [] :=
  ⟨[trueToken], _, .trueWord rfl, .literal⟩

theorem namedRun_call_error {name paren : Token} {halt : Halt} (hp : paren.kind = .leftParen)
    (hc : (tokens.head?.any fun t => t.kind = .rightParen) = false)
    (h : argumentsRun inner tokens = .error halt) :
    namedRun inner name (paren :: tokens) = .error halt := by
  rw [namedRun_paren hp hc, h]
  rfl

theorem namedRun_assign_error {name mark : Token} {halt : Halt} (hm : mark.kind = .assign)
    (h : inner.run tokens = .error halt) : namedRun inner name (mark :: tokens) = .error halt := by
  rw [namedRun_mark hm, h]
  rfl

theorem namedRun_blames (hi : inner.Reads room)
    (hb : inner.BlamesEarliest fun n => (expression n).run) {name : Token}
    (hn : name.kind = .identifier)
    (h : namedRun inner name tokens = .error (.unexpected wanted rest)) :
    ∃ front, tokens = front ++ rest ∧ Viable (name :: front) ∧
      BlamesAlike (fun n => namedRun (expression n) name) wanted front rest := by
  cases tokens with
  | nil => simp [namedRun] at h
  | cons t tail =>
    simp only [namedRun] at h
    split at h
    next hp =>
      split at h
      next => simp at h
      next hclose =>
        split at h
        next hr =>
          cases h
          obtain ⟨front, rfl, ⟨back, es, -, hw, hc⟩, hf⟩ := argumentsRun_blames hi hb hr
          let close : Token := ⟨.rightParen, ")", .start ""⟩
          have hcall := @Written.call name t close es (front ++ back) hn hp hw rfl
          refine ⟨t :: front, rfl, ⟨back ++ [close], _, by simpa using hcall, .call hc⟩,
            fun {rest' n} hs hlen => ?_⟩
          have hany := (hs.append front).any_kind (k := .rightParen) (by simp)
          rw [Bool.not_eq_true, hany] at hclose
          rw [List.cons_append, List.length_cons] at hlen
          exact namedRun_call_error hp hclose (hf hs (by omega))
        next => simp at h
    next hp =>
      split at h
      next hm =>
        split at h
        next hr =>
          cases h
          obtain ⟨front, rfl, ⟨back, e, hw, hc⟩, hf⟩ := hb hr
          refine ⟨t :: front, rfl, ⟨back, _, .assign hn hm hw, .assign hc⟩,
            fun {rest' n} hs hlen => ?_⟩
          rw [List.cons_append, List.length_cons] at hlen
          exact namedRun_assign_error hm (hf hs (by omega))
        next => simp at h
      next => simp at h

theorem operandRun_error {inner : Option (Parser Expr)}
    (h : (rest.head?.any fun t => t.kind.beginsOperand) = false) :
    operandRun inner rest = .error (.unexpected .operand rest) := by
  cases rest with
  | nil => rfl
  | cons t rest =>
    simp only [operandRun]
    split <;> simp_all [Kind.beginsOperand]

/-- A token that begins no operand is blamed, also by a parser that has more room. -/
theorem blamesAlike_operand (h : (rest.head?.any fun t => t.kind.beginsOperand) = false) :
    BlamesAlike (fun n => operandRun (inside n)) .operand [] rest := by
  intro rest' n hs _
  refine operandRun_error ?_
  rcases hs with hs | hs
  · rwa [List.nil_append, ← hs]
  · cases rest' with
    | nil => rfl
    | cons t rest' =>
      have hk : t.kind = .finish := by simpa [atEnd] using hs.2
      simp [hk, Kind.beginsOperand]

/-- No name is blamed for what is missing where there is no room. -/
theorem bareRun_ne_unexpected {name : Token} :
    bareRun name tokens ≠ .error (.unexpected wanted rest) := by
  rw [bareRun]
  split <;> simp

/-- What is read inside an operand of this room blames the first token that cannot go on. -/
inductive BlamesInside : Option (Parser Expr) → Prop
  | closed : BlamesInside none
  | opened {inner : Parser Expr} {room : Nat} (hi : inner.Reads room)
      (hb : inner.BlamesEarliest fun n => (expression n).run) : BlamesInside (some inner)

theorem BlamesInside.operand {inner : Option (Parser Expr)} (hi : BlamesInside inner) :
    (operand inner).BlamesEarliest fun n => operandRun (inside n) := by
  intro tokens rest wanted h
  cases tokens with
  | nil =>
    cases h
    exact ⟨[], rfl, viable_nil, blamesAlike_operand rfl⟩
  | cons t tail =>
    simp only [Parser.operand, operandRun] at h
    split at h
    next hk =>
      cases hi with
      | closed => exact absurd h bareRun_ne_unexpected
      | opened hi hb =>
        obtain ⟨front, rfl, hv, hf⟩ := namedRun_blames hi hb hk h
        refine ⟨t :: front, rfl, hv, fun {rest' n} hs hlen => ?_⟩
        cases n with
        | zero => simp at hlen
        | succ n =>
          have hrun : namedRun (expression n) t (front ++ rest') =
              .error (.unexpected wanted rest') := hf hs (Nat.le_of_succ_le_succ hlen)
          simpa [operandRun, inside, hk] using hrun
    next hk =>
      split at h
      next => simp at h
      next hx =>
        cases h
        refine ⟨[], rfl, viable_nil, fun {rest' n} hs _ => ?_⟩
        obtain ⟨tail', rfl⟩ := hs.exists_cons (by simp [hk])
        simp [operandRun, hk, hx]
    next => simp at h
    next => simp at h
    next =>
      cases h
      refine ⟨[], rfl, viable_nil, blamesAlike_operand ?_⟩
      cases hk : t.kind <;> simp_all [Kind.beginsOperand]

theorem chainRun_blames (ho : atom.ReadsOperands room)
    (hb : atom.BlamesEarliest fun n => operandRun (inside n))
    {links : List (Expr × Operator)}
    (h : chainRun atom links tokens = .error (.unexpected wanted rest)) :
    ∃ front, tokens = front ++ rest ∧ Viable front ∧
      BlamesAlike (fun n => chainRun (operand (inside n)) links) wanted front rest := by
  fun_induction chainRun atom links tokens with
  | case1 links tokens halt he =>
    cases h
    obtain ⟨front, rfl, hv, hf⟩ := hb he
    exact ⟨front, rfl, hv, fun hs hlen => chainRun_error (hf hs hlen)⟩
  | case2 => simp at h
  | case3 links tokens lhs t tail he op hop ih =>
    obtain ⟨front, rfl, hw, hc, hend, hf⟩ := ho.readsAlike he
    obtain ⟨front', rfl, ⟨back, rhs, hw', hc'⟩, hf'⟩ := ih h
    have ht : lhs.isTerm = true := isTerm_of_endsOperand hw.ne_nil hop hend
    obtain ⟨first, ts, rfl, -⟩ := hw.head
    have hbinary := Written.binary hw hop hw'
    refine ⟨first :: ts ++ t :: front', by simp, ⟨back, _, by simpa using hbinary,
      .binary ht hc hc'⟩, fun hs hlen => ?_⟩
    obtain ⟨hrun, hrun'⟩ := hf.behind hf' hs hlen
    rw [List.append_assoc]
    exact (chainRun_link hrun hop).trans hrun'
  | case4 => simp at h

theorem blamesEarliest_expression (room : Nat) :
    (expression room).BlamesEarliest fun n => (expression n).run := by
  have hchain (room : Nat) (hi : BlamesInside (inside room)) :
      (expression room).BlamesEarliest fun n => (expression n).run := by
    intro tokens rest wanted h
    simp only [expression_eq] at h ⊢
    exact chainRun_blames (ReadsInside.operand (readsInside room)) hi.operand h
  induction room with
  | zero => exact hchain 0 .closed
  | succ room ih => exact hchain (room + 1) (.opened (reads_expression room) ih)

/-- The tokens are the beginning of a program. -/
def ViableProgram (front : List Token) : Prop :=
  ∃ back es last, WrittenProgram es last (front ++ back) ∧ ∀ e ∈ es ++ last.toList, e.Canonical

theorem statementsRun_error {halt : Halt} (h : inner.run tokens = .error halt) :
    statementsRun inner tokens = .error halt := by
  rw [statementsRun]
  split <;> simp_all

theorem statementsRun_unended {t : Token} (h : inner.run tokens = .ok (e, t :: rest))
    (hs : t.kind ≠ .semicolon) (hf : t.kind ≠ .finish) :
    statementsRun inner tokens = .error (.unexpected .semicolon (t :: rest)) := by
  rw [statementsRun]
  split <;> simp_all

theorem statementsRun_blames (hi : inner.Reads room)
    (hb : inner.BlamesEarliest fun n => (expression n).run)
    (h : statementsRun inner tokens = .error (.unexpected wanted rest)) :
    ∃ front, tokens = front ++ rest ∧ ViableProgram front ∧
      BlamesAlike (fun n => statementsRun (expression n)) wanted front rest := by
  fun_induction statementsRun inner tokens with
  | case1 tokens halt he =>
    cases h
    obtain ⟨front, rfl, ⟨back, e, hw, hc⟩, hf⟩ := hb he
    exact ⟨front, rfl, ⟨back, [], some e, .trailing hw, by simpa using hc⟩,
      fun hs hlen => statementsRun_error (hf hs hlen)⟩
  | case2 => simp at h
  | case3 => simp at h
  | case4 tokens e t tail he hk hend halt hr ih =>
    cases h
    obtain ⟨front, rfl, hw, hc, hf⟩ := hi.readsAlike he
    obtain ⟨front', rfl, ⟨back, es, last, hws, hcs⟩, hf'⟩ := ih hr
    have hprogram := WrittenProgram.more hw hk hws
    refine ⟨front ++ t :: front', by simp, ⟨back, e :: es, last, by simpa using hprogram, ?_⟩,
      fun hs hlen => ?_⟩
    · rw [List.cons_append, List.forall_mem_cons]
      exact ⟨hc, hcs⟩
    · obtain ⟨hrun, hrun'⟩ := hf.behind hf' hs hlen
      have hend' := (hs.append front').atEnd_eq
      rw [eq_false_of_ne_true hend] at hend'
      rw [List.append_assoc]
      refine (statementsRun_more hrun hk hend'.symm).trans ?_
      rw [hrun']
      rfl
  | case5 => simp at h
  | case6 => simp at h
  | case7 tokens e t tail he hk hk' =>
    cases h
    obtain ⟨front, rfl, hw, hc, hf⟩ := hi.readsAlike he
    refine ⟨front, rfl, ⟨[], [], some e, ?_, by simpa using hc⟩, fun {rest' n} hs hlen => ?_⟩
    · rw [List.append_nil]
      exact .trailing hw
    · obtain ⟨tail', rfl⟩ := hs.exists_cons hk'
      exact statementsRun_unended (hf hs hlen) hk hk'

end Parser

namespace TokenSeq

variable {s t : TokenSeq} {i k : Nat}

/-- Sequences with the same token at an index go on alike from there. -/
theorem sameNext_drop (h : t.get k = s.get k) :
    Parser.SameNext (s.body.drop k) (t.body.drop k) := by
  by_cases hk : (s.get k).kind = .finish
  · exact .inr ⟨atEnd_drop.2 hk, atEnd_drop.2 (h ▸ hk)⟩
  · have head {u : TokenSeq} (hu : (u.get k).kind ≠ .finish) :
        (u.body.drop k).head? = some (u.get k) := by
      rw [← head?_drop_getD] at hu ⊢
      cases hd : (u.body.drop k).head? with
      | none => simp [hd, u.last_kind] at hu
      | some t => rfl
    exact .inl (by rw [head hk, head (h ▸ hk), h])

theorem get_of_lt {front rest : List Token} (hs : s.body = front ++ rest) (hi : i < front.length) :
    s.get i = front[i] := by
  rw [get, hs, List.getElem?_append_left hi, List.getElem?_eq_getElem hi, Option.getD_some]

theorem body_eq_segment_append (hk : k ≤ s.body.length) :
    s.body = s.segment 0 k ++ s.body.drop k := by
  simpa using (segment_append_drop (Nat.zero_le k) hk).symm

end TokenSeq

/-- The phrase of each complaint is followed by what has been found. -/
theorem ParseFault.text_infix_message (f : ParseFault) :
    f.found.text.toList <:+: f.message.toList := by
  have hin (before after : String) : f.found.text.toList <:+:
      (before ++ f.found.text ++ after).toList :=
    ⟨before.toList, after.toList, by simp⟩
  obtain ⟨wanted, found⟩ := f
  cases wanted with
  | operand => simpa [message] using hin "Expected identifier or number found " ""
  | semicolon => simpa [message] using hin "Expected ; found " ""
  | closeOrComma => simpa [message] using hin "Expected ) or , found " ""
  | numeral =>
    have h := hin "Unable to convert "
      (" into a number: could not convert string to float: " ++ Text.quote found.text)
    simpa [message, String.append_assoc] using h

namespace Cursor

variable {ts us : TokenSeq} {report : Diagnostic} {c d : Cursor}

theorem block_eq_error_iff_run : c.block c.ampleRoom = (.error report, d) ↔
    ∃ wanted rest, Parser.statementsRun (Parser.expression c.ampleRoom) c.rest =
        .error (.unexpected wanted rest) ∧
      c.moveToRest rest = d ∧ report = .syntactic ⟨wanted, d.current⟩ := by
  rw [block_eq_error_iff, program]
  split
  next h => simp [h]
  next halt h =>
    cases halt with
    | tooDeep rest => exact absurd h (c.statementsRun_ne_tooDeep rest)
    | unexpected wanted rest =>
      simp only [h, halted]
      grind

/-- The tokens in front of the blamed one. -/
theorem exists_front_of_block_eq_error
    (h : (start ts).block (start ts).ampleRoom = (.error report, d)) :
    ∃ front wanted, ts.body = front ++ ts.body.drop front.length ∧ d.index = front.length ∧
      report = .syntactic ⟨wanted, ts.get front.length⟩ ∧ Parser.ViableProgram front ∧
      Parser.BlamesAlike (fun n => Parser.statementsRun (Parser.expression n)) wanted front
        (ts.body.drop front.length) := by
  obtain ⟨wanted, rest, hrun, rfl, rfl⟩ := block_eq_error_iff_run.1 h
  obtain ⟨front, hbody, hv, hb⟩ := Parser.statementsRun_blames
    (Parser.reads_expression _) (Parser.blamesEarliest_expression _) hrun
  have hbody : ts.body = front ++ rest := hbody
  have hdrop : ts.body.drop front.length = rest := by rw [hbody, List.drop_left]
  have hindex : ((start ts).moveToRest rest).index = front.length := by
    simp [moveToRest, moveTo, start, hbody]
  refine ⟨front, wanted, by rw [hdrop, hbody], hindex, ?_, hv, by rwa [hdrop]⟩
  rw [current, hindex]
  rfl

/-- A sequence that begins with the same tokens, the blamed one included, is faulty in the same
way. -/
theorem block_eq_error_of_agree {front rest : List Token} {wanted : Wanted}
    (hbody : us.body = front ++ rest)
    (hrun : Parser.statementsRun (Parser.expression us.length) us.body =
      .error (.unexpected wanted rest)) :
    ∃ d', (start us).block (start us).ampleRoom =
        (.error (.syntactic ⟨wanted, us.get front.length⟩), d') ∧ d'.index = front.length := by
  have hindex : ((start us).moveToRest rest).index = front.length := by
    simp [moveToRest, moveTo, start, hbody]
  refine ⟨_, block_eq_error_iff_run.2 ⟨wanted, rest, hrun, rfl, ?_⟩, hindex⟩
  rw [current, hindex]
  rfl

/-- What begins a program can be completed to one. -/
theorem exists_block_eq_ok {front : List Token} (h : Parser.ViableProgram front) :
    ∃ us : TokenSeq, front <+: us.body ∧
      ∃ b d', (start us).block (start us).ampleRoom = (.ok b, d') := by
  obtain ⟨back, es, last, hw, hc⟩ := h
  let us : TokenSeq := ⟨front ++ back, ⟨.finish, "", .start ""⟩, rfl⟩
  have hs : (start us).SpansProgram ⟨us, us.body.length, Nat.le_refl _⟩ es :=
    ⟨rfl, ⟨last, by simpa [start, TokenSeq.segment_body] using hw, hc⟩,
      by simp [current, TokenSeq.get_body_length, us.last_kind]⟩
  exact ⟨us, List.prefix_append _ _, _, _,
    block_eq_ok_iff.2 ⟨es, rfl, program_eq_ok_iff.2 hs⟩⟩

/-- A program that cannot be read is blamed on the token that the cursor comes to stand on, which is
what the diagnostic quotes and where it is placed. Every sequence with the same tokens up to that
one is blamed on it in the same way. The tokens in front of it are the beginning of a program. -/
theorem block_blames_earliest (h : (start ts).block (start ts).ampleRoom = (.error report, d)) :
    (∃ wanted, report = .syntactic ⟨wanted, ts.get d.index⟩) ∧
    report.position = (ts.get d.index).position ∧
    (ts.get d.index).text.toList <:+: report.message.toList ∧
    (∀ us : TokenSeq, d.index < us.length → (∀ i ≤ d.index, us.get i = ts.get i) →
      ∃ d', (start us).block (start us).ampleRoom = (.error report, d') ∧ d'.index = d.index) ∧
    ∃ us : TokenSeq, d.index < us.length ∧ (∀ i < d.index, us.get i = ts.get i) ∧
      ∃ b d', (start us).block (start us).ampleRoom = (.ok b, d') := by
  obtain ⟨front, wanted, hbody, hindex, rfl, hv, hb⟩ := exists_front_of_block_eq_error h
  rw [hindex]
  have hquote := ParseFault.text_infix_message ⟨wanted, ts.get front.length⟩
  refine ⟨⟨wanted, rfl⟩, rfl, hquote, fun us hlen hagree => ?_, ?_⟩
  · rw [TokenSeq.length] at hlen
    have hle : front.length ≤ ts.body.length := by
      rw [hbody]
      simp
    have hfront : us.segment 0 front.length = front := by
      rw [TokenSeq.segment_congr fun k _ hk => hagree k (Nat.le_of_lt hk)]
      exact List.append_inj_left ((TokenSeq.body_eq_segment_append hle).symm.trans hbody) (by simp)
    have hus := TokenSeq.body_eq_segment_append (Nat.le_of_lt_succ hlen)
    rw [hfront] at hus
    have hnext := TokenSeq.sameNext_drop (hagree front.length (Nat.le_refl _))
    have hrun : Parser.statementsRun (Parser.expression us.length)
        (front ++ us.body.drop front.length) =
          .error (.unexpected wanted (us.body.drop front.length)) :=
      hb hnext (by rw [← hus]; exact Nat.le_succ _)
    rw [← hus] at hrun
    obtain ⟨d', hblock, hd'⟩ := block_eq_error_of_agree hus hrun
    rw [hagree _ (Nat.le_refl _)] at hblock
    exact ⟨d', hblock, hd'⟩
  · obtain ⟨us, ⟨back, hus⟩, hblock⟩ := exists_block_eq_ok hv
    refine ⟨us, ?_, fun i hi => ?_, hblock⟩
    · rw [TokenSeq.length, ← hus, List.length_append]
      omega
    · rw [TokenSeq.get_of_lt hus.symm hi, TokenSeq.get_of_lt hbody hi]

/-- In a call without its second argument the closing parenthesis is blamed. -/
theorem block_blames_earliest_dangling_comma :
    let token (k : Token.Kind) (text : String) (column : Int) : Token := ⟨k, text, ⟨"in", 1, column⟩⟩
    let ts : TokenSeq := ⟨[token .identifier "f" 1, token .leftParen "(" 2, token .trueWord "true" 3,
      token .comma "," 7, token .rightParen ")" 8, token .semicolon ";" 9],
      ⟨.finish, "", ⟨"in", 1, 10⟩⟩, rfl⟩
    let report := Diagnostic.syntactic ⟨.operand, token .rightParen ")" 8⟩
    let d : Cursor := ⟨ts, 4, by decide⟩
    (start ts).block (start ts).ampleRoom = (.error report, d) ∧
    (∃ wanted, report = .syntactic ⟨wanted, ts.get d.index⟩) ∧
    report.position = (ts.get d.index).position ∧
    (ts.get d.index).text.toList <:+: report.message.toList ∧
    (∀ us : TokenSeq, d.index < us.length → (∀ i ≤ d.index, us.get i = ts.get i) →
      ∃ d', (start us).block (start us).ampleRoom = (.error report, d') ∧ d'.index = d.index) ∧
    ∃ us : TokenSeq, d.index < us.length ∧ (∀ i < d.index, us.get i = ts.get i) ∧
      ∃ b d', (start us).block (start us).ampleRoom = (.ok b, d') := by
  intro token ts report d
  have h : (start ts).block (start ts).ampleRoom = (.error report, d) := by
    have htrue : (Parser.expression 6).run (ts.body.drop 2) =
        .ok (.literal (.boolean true) ⟨"in", 1, 3⟩, ts.body.drop 3) :=
      Parser.chainRun_last rfl (by decide)
    have hparen : Parser.operandRun (some (Parser.expression 5)) (ts.body.drop 4) =
        .error (.unexpected .operand (ts.body.drop 4)) := Parser.operandRun_error rfl
    have hargument : (Parser.expression 6).run (ts.body.drop 4) =
        .error (.unexpected .operand (ts.body.drop 4)) := Parser.chainRun_error hparen
    have hargs : Parser.argumentsRun (Parser.expression 6) (ts.body.drop 2) =
        .error (.unexpected .operand (ts.body.drop 4)) := by
      rw [Parser.argumentsRun_comma htrue rfl]
      exact congrArg (Except.map _) (Parser.argumentsRun_error hargument)
    have hcall : Parser.operandRun (some (Parser.expression 6)) ts.body =
        .error (.unexpected .operand (ts.body.drop 4)) := by
      change Parser.namedRun _ (token .identifier "f" 1)
        (token .leftParen "(" 2 :: ts.body.drop 2) = _
      exact Parser.namedRun_call_error rfl rfl hargs
    exact block_eq_error_iff_run.2 ⟨.operand, ts.body.drop 4,
      Parser.statementsRun_error (Parser.chainRun_error hcall), rfl, rfl⟩
  exact ⟨h, block_blames_earliest h⟩

end Cursor

end Scriptlet
