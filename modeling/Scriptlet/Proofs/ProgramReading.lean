import Scriptlet.Proofs.AmpleRoom

/-!
Which token lists are programs. Every statement has its semicolon except that one more expression
may stand before the end mark, which is checked and left out; an empty program is none.
-/

namespace Scriptlet

open Token Scriptlet.Expr

/-- `WrittenProgram es last ts`: the tokens `ts` are the statements `es`, each with its semicolon,
and behind them the expression `last`, if there is one. One of both there has to be. -/
inductive WrittenProgram : List Expr → Option Expr → List Token → Prop
  | trailing {e : Expr} {ts : List Token} (hw : e.Written ts) : WrittenProgram [] (some e) ts
  | last {e : Expr} {mark : Token} {ts : List Token} (hw : e.Written ts)
      (hm : mark.kind = .semicolon) : WrittenProgram [e] none (ts ++ [mark])
  | more {e : Expr} {es : List Expr} {last : Option Expr} {mark : Token} {ts us : List Token}
      (hw : e.Written ts) (hm : mark.kind = .semicolon) (hs : WrittenProgram es last us) :
      WrittenProgram (e :: es) last (ts ++ mark :: us)

theorem WrittenProgram.head {es : List Expr} {last : Option Expr} {ts : List Token}
    (h : WrittenProgram es last ts) : ∃ t us, ts = t :: us ∧ t.kind.beginsOperand := by
  cases h with
  | trailing hw | last hw | more hw =>
    obtain ⟨t, us, rfl, -, hk⟩ := hw.head
    exact ⟨t, _, rfl, hk⟩

namespace Parser

variable {inner : Parser Expr} {room : Nat} {tokens front rest : List Token} {t : Token} {e : Expr}
  {es : List Expr}

theorem apart_of_atEnd (h : atEnd rest) : Apart Continues front rest := by
  cases rest with
  | nil => exact apart_nil
  | cons t rest =>
    have hk : t.kind = .finish := by simpa [atEnd] using h
    exact apart_closes (by rw [hk]; rfl)

theorem atEnd_append_of_written {last : Option Expr} (h : WrittenProgram es last front)
    (rest : List Token) : atEnd (front ++ rest) = false := by
  obtain ⟨t, us, rfl, hk⟩ := h.head
  cases hf : t.kind <;> simp_all [atEnd, Kind.beginsOperand]

theorem written_of_statementsRun (hi : inner.Reads room)
    (h : statementsRun inner tokens = .ok (es, rest)) :
    ∃ front last, tokens = front ++ rest ∧ WrittenProgram es last front ∧
      (∀ e ∈ es ++ last.toList, e.Fits room) ∧ atEnd rest := by
  fun_induction statementsRun inner tokens generalizing es rest with
  | case1 => simp at h
  | case2 tokens e he =>
    cases h
    obtain ⟨front, rfl, hw, hf, -⟩ := hi.1 he
    exact ⟨front, some e, rfl, .trailing hw, by simpa using hf, rfl⟩
  | case3 tokens e t tail he hk hend =>
    cases h
    obtain ⟨front, rfl, hw, hf, -⟩ := hi.1 he
    exact ⟨front ++ [t], none, by simp, .last hw hk, by simpa using hf, hend⟩
  | case4 => simp at h
  | case5 tokens e t tail he hk hend ds tail' hr ih =>
    cases h
    obtain ⟨front, rfl, hw, hf, -⟩ := hi.1 he
    obtain ⟨front', last, rfl, hs, hfs, hend'⟩ := ih hr
    refine ⟨front ++ t :: front', last, by simp, .more hw hk hs, ?_, hend'⟩
    rw [List.cons_append, List.forall_mem_cons]
    exact ⟨hf, hfs⟩
  | case6 tokens e t tail he hk hk' =>
    cases h
    obtain ⟨front, rfl, hw, hf, -⟩ := hi.1 he
    exact ⟨front, some e, rfl, .trailing hw, by simpa using hf, by simp [atEnd, hk']⟩
  | case7 => simp at h

theorem statementsRun_trailing (h : inner.run tokens = .ok (e, rest)) (hend : atEnd rest) :
    statementsRun inner tokens = .ok ([], rest) := by
  rw [statementsRun]
  cases rest with
  | nil => split <;> simp_all
  | cons t rest =>
    have hk : t.kind = .finish := by simpa [atEnd] using hend
    split <;> simp_all

theorem statementsRun_last (h : inner.run tokens = .ok (e, t :: rest)) (ht : t.kind = .semicolon)
    (hend : atEnd rest) : statementsRun inner tokens = .ok ([e], rest) := by
  rw [statementsRun]
  split <;> simp_all

theorem statementsRun_more (h : inner.run tokens = .ok (e, t :: rest)) (ht : t.kind = .semicolon)
    (hend : atEnd rest = false) :
    statementsRun inner tokens = (statementsRun inner rest).map fun r => (e :: r.1, r.2) := by
  rw [statementsRun]
  split
  next h' => simp [h] at h'
  next h' => simp [h] at h'
  next h' =>
    cases h.symm.trans h'
    rw [if_pos ht, if_neg (by simp [hend])]
    cases statementsRun inner rest <;> rfl

theorem statementsRun_of_written (hi : inner.Reads room) {last : Option Expr}
    (hw : WrittenProgram es last front) (hf : ∀ e ∈ es ++ last.toList, e.Fits room)
    (hend : atEnd rest) : statementsRun inner (front ++ rest) = .ok (es, rest) := by
  induction hw with
  | @trailing e ts hw =>
    exact statementsRun_trailing (hi.run_append hw (hf e (by simp)) (apart_of_atEnd hend)) hend
  | @last e mark ts hw hm =>
    rw [List.append_assoc]
    have ha : Apart Continues ts (mark :: rest) := apart_closes (by rw [hm]; rfl)
    exact statementsRun_last (hi.run_append hw (hf e (by simp)) ha) hm hend
  | @more e es last mark ts us hw hm hs ih =>
    obtain ⟨hfe, hfs⟩ := List.forall_mem_cons.1 hf
    have hne : atEnd (us ++ rest) = false := atEnd_append_of_written hs rest
    rw [List.append_assoc, List.cons_append,
      statementsRun_more (hi.run_append hw hfe (apart_closes (by rw [hm]; rfl))) hm hne, ih hfs]
    rfl

end Parser

theorem TokenSeq.atEnd_drop {s : TokenSeq} {i : Nat} :
    Parser.atEnd (s.body.drop i) ↔ (s.get i).kind = .finish := by
  rw [← head?_drop_getD, Parser.atEnd]
  cases s.body.drop i with
  | nil => simp [s.last_kind]
  | cons t rest => simp

theorem WrittenProgram.nesting_lt_length {es : List Expr} {last : Option Expr} {ts : List Token}
    (h : WrittenProgram es last ts) : ∀ e ∈ es ++ last.toList, e.nesting < ts.length := by
  induction h with
  | trailing hw => simpa using hw.nesting_lt_length
  | last hw =>
    have := hw.nesting_lt_length
    simp
    omega
  | more hw _ _ ih =>
    have := hw.nesting_lt_length
    rw [List.cons_append, List.forall_mem_cons]
    simp only [List.length_append, List.length_cons]
    exact ⟨by omega, fun e he => Nat.le_trans (ih e he) (by omega)⟩

namespace Cursor

variable {c d : Cursor} {room : Nat} {es : List Expr}

theorem program_eq_ok_iff_run : c.program room = (.ok es, d) ↔
    ∃ rest, Parser.statementsRun (Parser.expression room) c.rest = .ok (es, rest) ∧
      c.moveToRest rest = d := by
  rw [program]
  split
  next es' rest h =>
    constructor
    · intro hd
      cases hd
      exact ⟨rest, h, rfl⟩
    · intro h
      obtain ⟨rest', h', rfl⟩ := h
      cases h.symm.trans h'
      rfl
  next halt h => simp [h]

theorem program_eq_ok_iff_fits : c.program room = (.ok es, d) ↔
    d.tokens = c.tokens ∧ d.current.kind = .finish ∧
      ∃ last, WrittenProgram es last (c.tokens.segment c.index d.index) ∧
        ∀ e ∈ es ++ last.toList, e.Fits room := by
  rw [program_eq_ok_iff_run]
  constructor
  · intro h
    obtain ⟨rest, hrun, hd⟩ := h
    obtain ⟨front, last, hrest, hw, hf, hend⟩ :=
      Parser.written_of_statementsRun (Parser.reads_expression room) hrun
    obtain ⟨j, hi, hj, rfl, rfl⟩ := rest_eq_append_iff.1 hrest
    have hk : c.tokens.body.length - (c.tokens.body.drop j).length = j := by
      rw [List.length_drop]
      omega
    rw [moveToRest, hk, eq_moveTo_iff hj] at hd
    obtain ⟨ht, rfl⟩ := hd
    rw [current, ht]
    exact ⟨rfl, TokenSeq.atEnd_drop.1 hend, last, hw, hf⟩
  · intro h
    obtain ⟨ht, hfin, last, hw, hf⟩ := h
    rw [current, ht] at hfin
    have hi : c.index ≤ d.index := by
      obtain ⟨t, us, heq, -⟩ := hw.head
      have hlen := congrArg List.length heq
      rw [TokenSeq.length_segment, List.length_cons] at hlen
      omega
    have hj : d.index ≤ c.tokens.body.length := ht ▸ d.index_le
    refine ⟨c.tokens.body.drop d.index, ?_, ?_⟩
    · rw [rest_eq_append_iff.2 ⟨d.index, hi, hj, rfl, rfl⟩]
      exact Parser.statementsRun_of_written (Parser.reads_expression room) hw hf
        (TokenSeq.atEnd_drop.2 hfin)
    · rw [moveToRest, List.length_drop, eq_moveTo_iff (by omega)]
      exact ⟨ht, by omega⟩

/-- From `c` up to the end mark that `d` stands on, the tokens are a program of the statements
`es`. -/
structure SpansProgram (c d : Cursor) (es : List Expr) : Prop where
  tokens : d.tokens = c.tokens
  written : ∃ last, WrittenProgram es last (c.tokens.segment c.index d.index) ∧
    ∀ e ∈ es ++ last.toList, e.Canonical
  finish : d.current.kind = .finish

theorem program_eq_ok_iff : c.program c.ampleRoom = (.ok es, d) ↔ c.SpansProgram d es := by
  rw [program_eq_ok_iff_fits]
  constructor
  · intro h
    obtain ⟨ht, hfin, last, hw, hf⟩ := h
    exact ⟨ht, ⟨last, hw, fun e he => (hf e he).1⟩, hfin⟩
  · intro h
    obtain ⟨ht, ⟨last, hw, hc⟩, hfin⟩ := h
    refine ⟨ht, hfin, last, hw, fun e he => ⟨hc e he, ?_⟩⟩
    have hlen := hw.nesting_lt_length e he
    have hj : d.index ≤ c.tokens.body.length := ht ▸ d.index_le
    rw [TokenSeq.length_segment] at hlen
    rw [ampleRoom, TokenSeq.length]
    omega

theorem block_eq_ok_iff {b : Expr} : c.block room = (.ok b, d) ↔
    ∃ es, b = .block es c.current.position ∧ c.program room = (.ok es, d) := by
  rw [block]
  rcases c.program room with ⟨report | es, d'⟩
  · simp [Except.map]
  · constructor
    · intro h
      cases h
      exact ⟨es, rfl, rfl⟩
    · intro h
      obtain ⟨es', rfl, h⟩ := h
      cases h
      rfl

theorem block_eq_error_iff {report : Diagnostic} : c.block room = (.error report, d) ↔
    c.program room = (.error report, d) := by
  rw [block]
  rcases c.program room with ⟨report' | es, d'⟩ <;> simp [Except.map]

end Cursor

end Scriptlet
