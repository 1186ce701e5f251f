import Mathlib
import Scriptlet.Workspace
import Scriptlet.Proofs.Coordinates
import Scriptlet.Proofs.EffectOrder
import Scriptlet.Proofs.ProgramText

/-!
Where a diagnostic points to. The place in it is that of one offset of the text, and what it quotes
stands there: the character that starts no token, the token that does not fit, the name of the call
that finds no function.
-/

namespace Scriptlet

open Scriptlet.Expr

/-- The token `t` of a text stands at the offset `k`, where its place says. What stands there is the
whole of it, and only the end mark stands at the end. -/
structure Token.StandsAt (t : Token) (source : String) (text : List Char) (k : Nat) : Prop where
  le : k ≤ text.length
  position : t.position = .behind source (text.take k)
  spelled : t.text.toList <+: text.drop k
  longest : ∀ c ∈ (text.drop (k + t.text.toList.length)).head?, t.kind.goesOn c = false
  finish_iff : t.kind = .finish ↔ k = text.length
  finish_text : t.kind = .finish → t.text = ""

theorem Token.Whole.standsAt {t : Token} {source : String} {front rest : List Char}
    (h : t.Whole rest) (hp : t.position = .behind source front) :
    t.StandsAt source (front ++ (t.text.toList ++ rest)) front.length where
  le := by simp
  position := by rw [hp, List.take_left]
  spelled := by
    rw [List.drop_left]
    exact List.prefix_append _ _
  longest := by
    rw [← List.drop_drop, List.drop_left, List.drop_left]
    exact h.longest
  finish_iff := by
    have hne : t.text.toList ≠ [] := by simpa using h.text_ne_empty
    have hpos := List.length_pos_iff.2 hne
    refine iff_of_false h.kind_ne_finish ?_
    simp only [List.length_append]
    omega
  finish_text hk := absurd hk h.kind_ne_finish

theorem endMark_standsAt (source : String) (text : List Char) :
    (Scan.endMark (.behind source text)).StandsAt source text text.length where
  le := Nat.le_refl _
  position := by rw [List.take_length]; rfl
  spelled := List.nil_prefix
  longest _ _ := rfl
  finish_iff := iff_of_true rfl rfl
  finish_text _ := rfl

/-- Every token of a text stands somewhere in it. -/
theorem exists_standsAt {source text : String} {seq : TokenSeq}
    (h : tokenize source text = .ok seq) {t : Token} (ht : t ∈ seq.toList) :
    ∃ k, t.StandsAt source text.toList k := by
  obtain ⟨hl, hlast⟩ := tokenize_eq_ok_iff_laid.1 h
  obtain ⟨layout, hmap, htext, he⟩ := hl.exists_layout
  rw [List.nil_append, ← hlast] at hmap
  have hmem : t ∈ layout.map Prod.snd := by
    rw [hmap]
    exact ht
  obtain ⟨⟨gap, u⟩, hu, rfl⟩ := List.mem_map.1 hmem
  obtain ⟨front, rest, rfl⟩ := List.append_of_mem hu
  obtain ⟨-, hp, hw⟩ := he front gap u rest rfl
  -- Only the last entry of the layout is no lexeme: it is the end mark.
  by_cases hrest : rest = []
  · subst hrest
    rw [List.map_append] at hmap
    obtain ⟨-, hmark⟩ := List.append_inj' hmap rfl
    obtain rfl : u = seq.last := List.singleton_inj.1 hmark
    rw [hlast]
    exact ⟨_, endMark_standsAt source text.toList⟩
  · have hstands := (hw hrest).standsAt hp
    have hsplit : [] ++ Layout.text front ++ gap ++ (u.text.toList ++ Layout.text rest) =
        text.toList := by
      rw [← htext]
      simp [Layout.text]
    rw [hsplit] at hstands
    exact ⟨_, hstands⟩

/-- A text without tokens has a character that starts none, and the fault is placed there. -/
theorem tokenize_eq_error {source text : String} {fault : LexFault}
    (h : tokenize source text = .error fault) : ∃ front c rest, text.toList = front ++ c :: rest ∧
      fault = ⟨.unknownCharacter c, .behind source front⟩ := by
  obtain ⟨front, ht, hs⟩ := Scan.exists_front (.start source) text.toList
  rw [tokenize, Scan.fault?] at h
  cases hr : (Scan.of (.start source) text.toList).rest with
  | nil => simp [hr] at h
  | cons c rest =>
    rw [hr] at ht
    simp only [hr, List.head?_cons, Option.map_some, Except.error.injEq] at h
    rw [hs, Position.afterText_start] at h
    exact ⟨front, c, rest, ht, h.symm⟩

/-- The token blamed for a program that cannot be read is one of its tokens. -/
theorem Cursor.program_eq_error {c d : Cursor} {report : Diagnostic}
    (h : c.program c.ampleRoom = (.error report, d)) :
    ∃ wanted, report = .syntactic ⟨wanted, d.current⟩ ∧ d.tokens = c.tokens := by
  rw [program] at h
  split at h
  next => simp at h
  next halt hr =>
    cases halt with
    | unexpected wanted rest =>
      cases h
      exact ⟨wanted, rfl, rfl⟩
    | tooDeep rest => exact absurd hr (c.statementsRun_ne_tooDeep rest)

theorem Cursor.current_mem (c : Cursor) : c.current ∈ c.tokens.toList := c.tokens.get_mem c.index

theorem segment_behind {α : Type} (front : List α) (mark : α) (ts : List α) :
    ts <:+: front ++ mark :: ts :=
  ((List.suffix_cons mark ts).trans (List.suffix_append front _)).isInfix

namespace Expr

theorem WrittenArgs.exists_segment {es : List Expr} {ts : List Token} (h : WrittenArgs es ts) :
    ∀ e ∈ es, ∃ us, us <:+: ts ∧ Written e us := by
  cases h with
  | none => simp
  | last he => simpa using ⟨ts, List.infix_refl ts, he⟩
  | more he _ hs =>
    have ih := hs.exists_segment
    rw [List.forall_mem_cons]
    refine ⟨⟨_, (List.prefix_append _ _).isInfix, he⟩, fun e hmem => ?_⟩
    obtain ⟨us, hi, hw⟩ := ih e hmem
    exact ⟨us, hi.trans (segment_behind _ _ _), hw⟩

/-- The part of a tree is spelled by a part of the tokens. -/
theorem Part.exists_segment {c e : Expr} {before : List Expr} (h : Part c before e)
    {ts : List Token} (hw : Written e ts) : ∃ us, us <:+: ts ∧ Written c us := by
  induction h generalizing ts with
  | self => exact ⟨ts, List.infix_refl ts, hw⟩
  | value _ ih =>
    cases hw with
    | assign _ _ hv =>
      obtain ⟨us, hi, hw⟩ := ih hv
      exact ⟨us, hi.trans ((List.suffix_cons _ _).trans (List.suffix_cons _ _)).isInfix, hw⟩
  | left _ ih =>
    cases hw with
    | binary hl =>
      obtain ⟨us, hi, hw⟩ := ih hl
      exact ⟨us, hi.trans (List.prefix_append _ _).isInfix, hw⟩
  | right _ ih =>
    cases hw with
    | binary _ _ hr =>
      obtain ⟨us, hi, hw⟩ := ih hr
      exact ⟨us, hi.trans (segment_behind _ _ _), hw⟩
  | argument _ ih =>
    cases hw with
    | call _ _ ha =>
      obtain ⟨us, hi, hw⟩ := ha.exists_segment _ (List.mem_append_right _ List.mem_cons_self)
      obtain ⟨vs, hj, hw⟩ := ih hw
      refine ⟨vs, (hj.trans hi).trans ?_, hw⟩
      exact ((List.suffix_cons _ _).trans (List.suffix_cons _ _)).isInfix.trans
        (List.prefix_append _ _).isInfix
  | statement => cases hw

end Expr

theorem WrittenProgram.exists_segment {es : List Expr} {last : Option Expr} {ts : List Token}
    (h : WrittenProgram es last ts) : ∀ e ∈ es, ∃ us, us <:+: ts ∧ e.Written us := by
  induction h with
  | trailing => simp
  | last hw => simpa using ⟨_, (List.prefix_append _ _).isInfix, hw⟩
  | more hw _ _ ih =>
    rw [List.forall_mem_cons]
    refine ⟨⟨_, (List.prefix_append _ _).isInfix, hw⟩, fun e hmem => ?_⟩
    obtain ⟨us, hi, hw⟩ := ih e hmem
    exact ⟨us, hi.trans (segment_behind _ _ _), hw⟩

/-- A call in a program is a name with a parenthesis behind it. -/
theorem WrittenProgram.exists_name {es : List Expr} {last : Option Expr} {ts : List Token}
    (h : WrittenProgram es last ts) {f : String} {args before : List Expr} {p q : Position}
    (hc : Part (call f args p) before (block es q)) : ∃ front paren rest,
      ts = front ++ ⟨.identifier, f, p⟩ :: paren :: rest ∧ paren.kind = .leftParen := by
  cases hc with
  | @statement front back e _ before hc =>
    obtain ⟨us, hi, hw⟩ := h.exists_segment e (List.mem_append_right _ List.mem_cons_self)
    obtain ⟨vs, hj, hw⟩ := hc.exists_segment hw
    obtain ⟨front, rest, rfl⟩ := hj.trans hi
    cases hw with
    | @call name paren close _ ts hn hp ha hc =>
      obtain ⟨kind, text, position⟩ := name
      obtain rfl : kind = .identifier := hn
      exact ⟨front, paren, ts ++ [close] ++ rest, by simp, hp⟩

/-- What the diagnostic quotes stands at the offset `k`: the character, or the whole token, or the
name in front of a parenthesis. -/
def Diagnostic.QuotesAt (source text : String) (k : Nat) : Diagnostic → Prop
  | .lexical fault => ∃ c, fault.cause = .unknownCharacter c ∧ text.toList[k]? = some c
  | .syntactic fault => ∃ seq, tokenize source text = .ok seq ∧ fault.found ∈ seq.toList ∧
      fault.found.StandsAt source text.toList k
  | .call fault => ∃ seq front paren rest, tokenize source text = .ok seq ∧
      seq.toList = front ++ ⟨.identifier, fault.name, fault.position⟩ :: paren :: rest ∧
      paren.kind = .leftParen ∧
      (Token.mk .identifier fault.name fault.position).StandsAt source text.toList k
  | .load _ | .tooDeep _ => False

/-- The diagnostic is placed at the offset `k`, and what it quotes stands there. -/
def Diagnostic.PointsAt (source text : String) (k : Nat) (report : Diagnostic) : Prop :=
  k ≤ text.toList.length ∧ report.position = .behind source (text.toList.take k) ∧
    report.QuotesAt source text k

theorem Token.StandsAt.pointsAt {t : Token} {source text : String} {k : Nat} {report : Diagnostic}
    (h : t.StandsAt source text.toList k) (hp : report.position = t.position)
    (hq : report.QuotesAt source text k) : report.PointsAt source text k :=
  ⟨h.le, hp.trans h.position, hq⟩

theorem exists_pointsAt_of_parseProgram {source text : String} {report : Diagnostic}
    (h : parseProgram source text = .error report) : ∃ k, report.PointsAt source text k := by
  rw [parseProgram, lex] at h
  cases ht : tokenize source text with
  | error fault =>
    obtain ⟨front, c, rest, hsplit, rfl⟩ := tokenize_eq_error ht
    obtain rfl : Diagnostic.lexical _ = report := by simpa [ht] using h
    refine ⟨front.length, by simp [hsplit], ?_, c, rfl, by simp [hsplit]⟩
    rw [hsplit, List.take_left]
    rfl
  | ok seq =>
    have hb : ((Cursor.start seq).block (Cursor.start seq).ampleRoom).1 = .error report := by
      simpa [ht] using h
    obtain ⟨wanted, rfl, htokens⟩ :=
      Cursor.program_eq_error (Cursor.block_eq_error_iff.1 (Prod.ext hb rfl))
    have hmem := Cursor.current_mem ((Cursor.start seq).block (Cursor.start seq).ampleRoom).2
    rw [htokens] at hmem
    obtain ⟨k, hk⟩ := exists_standsAt ht hmem
    exact ⟨k, hk.pointsAt rfl ⟨seq, ht, hmem, hk⟩⟩

theorem exists_pointsAt_of_eval {source text : String} {b : Expr} {m : Machine} {fault : CallFault}
    (hb : parseProgram source text = .ok b) (h : (b.eval m).result = .error fault) :
    ∃ k, (Diagnostic.call fault).PointsAt source text k := by
  obtain ⟨seq, es, last, ht, hw, -, rfl⟩ := parseProgram_eq_ok_iff.1 hb
  obtain ⟨effects, done, -, -, hr⟩ := evalChain_enacts [] (.block es (seq.get 0).position) m
  rw [eval] at h
  simp only [h] at hr
  obtain ⟨args, hpart, -⟩ := hr
  obtain ⟨front, paren, rest, hbody, hp⟩ := hw.exists_name hpart
  have hlist : seq.toList =
      front ++ ⟨.identifier, fault.name, fault.position⟩ :: paren :: (rest ++ [seq.last]) := by
    rw [TokenSeq.toList, hbody]
    simp
  obtain ⟨k, hk⟩ := exists_standsAt (t := ⟨.identifier, fault.name, fault.position⟩) ht
    (by rw [hlist]; simp)
  exact ⟨k, hk.pointsAt rfl ⟨seq, front, paren, _, ht, hlist, hp, hk⟩⟩

/-- Every failure of a program in a scope of its own is placed at one offset of the text and no
other, and what it quotes stands there. -/
theorem failure_pointsAt {source text : String} {report : Diagnostic}
    (h : ((Workspace.start 1).step 0 (.run source text)).1 = .failed report) :
    ∃ k, report.PointsAt source text k ∧
      ∀ j, j ≤ text.toList.length → report.position = .behind source (text.toList.take j) →
        j = k := by
  obtain ⟨k, hk⟩ : ∃ k, report.PointsAt source text k := by
    rw [Workspace.step] at h
    cases hb : parseProgram source text with
    | error other =>
      rw [hb, Workspace.evalIn] at h
      cases h
      exact exists_pointsAt_of_parseProgram hb
    | ok b =>
      rw [hb] at h
      simp only [Workspace.evalIn] at h
      split at h
      next => cases h
      next fault hr =>
        cases h
        exact exists_pointsAt_of_eval hb hr
  exact ⟨k, hk, fun j hj hp => Position.behind_take_inj hj hk.1 (hp.symm.trans hk.2.1)⟩

/-- A call in the second line, eleven characters from the start, to a name that is bound to a value
that is no function. -/
theorem failure_pointsAt_second_line :
    let text := "f = true;\n f(f);"
    let report := Diagnostic.call ⟨"f", ⟨"in", 2, 2⟩⟩
    ((Workspace.start 1).step 0 (.run "in" text)).1 = .failed report ∧
      report.PointsAt "in" text 11 ∧
      ∀ j, j ≤ text.toList.length → report.position = .behind "in" (text.toList.take j) →
        j = 11 := by
  intro text report
  let token (k : Token.Kind) (text : String) (line column : Int) : Token :=
    ⟨k, text, ⟨"in", line, column⟩⟩
  let seq : TokenSeq := ⟨[token .identifier "f" 1 1, token .assign "=" 1 3,
    token .trueWord "true" 1 5, token .semicolon ";" 1 9, token .identifier "f" 2 2,
    token .leftParen "(" 2 3, token .identifier "f" 2 4, token .rightParen ")" 2 5,
    token .semicolon ";" 2 6], ⟨.finish, "", ⟨"in", 2, 7⟩⟩, rfl⟩
  have ht : tokenize "in" text = .ok seq := by cbv
  let first := Expr.assign "f" (.literal (.boolean true) ⟨"in", 1, 5⟩) ⟨"in", 1, 1⟩
  let second := Expr.call "f" [.var "f" ⟨"in", 2, 4⟩] ⟨"in", 2, 2⟩
  have hb : parseProgram "in" text = .ok (.block [first, second] ⟨"in", 1, 1⟩) := by
    refine parseProgram_eq_ok_iff.2 ⟨seq, [first, second], none, ht, ?_, ?_, rfl⟩
    · have hfirst : first.Written [token .identifier "f" 1 1, token .assign "=" 1 3,
          token .trueWord "true" 1 5] :=
        @Written.assign (token .identifier "f" 1 1) _ _ _ rfl rfl
          (@Written.trueWord (token .trueWord "true" 1 5) rfl)
      have hsecond : second.Written [token .identifier "f" 2 2, token .leftParen "(" 2 3,
          token .identifier "f" 2 4, token .rightParen ")" 2 5] :=
        @Written.call (token .identifier "f" 2 2) _ _ _ _ rfl rfl
          (.last (@Written.var (token .identifier "f" 2 4) rfl)) rfl
      exact .more hfirst rfl (.last hsecond rfl)
    · have hc : second.Canonical := .call (by simpa using Canonical.var)
      simpa using ⟨Canonical.assign .literal, hc⟩
  have h : ((Workspace.start 1).step 0 (.run "in" text)).1 = .failed report := by
    rw [Workspace.step, hb]
    cbv
  obtain ⟨k, hk, hu⟩ := failure_pointsAt h
  obtain rfl : 11 = k := hu 11 (by decide) (by cbv)
  exact ⟨h, hk, hu⟩

end Scriptlet
