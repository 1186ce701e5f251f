import Mathlib
import Scriptlet.Proofs.Coordinates
import Scriptlet.Proofs.ProgramText
import Scriptlet.Proofs.Relocation

/-!
One program behind another. If the text in front ends with a semicolon, no token reaches over the
seam, the statements follow each other, and the run of both is the run of one after the other.
-/

namespace Scriptlet

open Scriptlet.Expr

namespace Laid

variable {source : String} {before text text' gap : List Char} {ts us : List Token}

/-- Behind more text the tokens stay and only their places move. -/
theorem shift (h : Laid source before text ts) (front : List Char) :
    Laid source (front ++ before) text
      (ts.map (Token.relocate (Position.shift (.behind source front)))) := by
  have hmoved (text : List Char) : Position.shift (.behind source front) (.behind source text) =
      .behind source (front ++ text) := (Position.behind_append source front text).symm
  have hscan := Scan.of_relocate (.shift (.behind source front)) (.behind source before) text
    fun rest => by
      rw [Position.afterText_behind, hmoved, hmoved, Position.afterText_behind, List.append_assoc]
  rw [hmoved, h.scan] at hscan
  have hlaid := of_scan rfl (congrArg Scan.rest hscan)
  rwa [hscan] at hlaid

theorem eq_nil_of_empty (h : Laid source before [] ts) : ts = [] := by
  generalize ht : ([] : List Char) = text at h
  cases h with
  | tail => rfl
  | token _ hl =>
    obtain ⟨c, cs, hc, -⟩ := hl.head
    simp [hc] at ht

theorem gap_append (hg : ∀ c ∈ gap, isBlank c) (h : Laid source (before ++ gap) text ts) :
    Laid source before (gap ++ text) ts := by
  induction gap generalizing before with
  | nil => simpa using h
  | cons c gap ih =>
    obtain ⟨hc, hg⟩ := List.forall_mem_cons.1 hg
    exact blank_cons hc (ih hg (by simpa using h))

/-- Two texts side by side, if nothing makes the last token of the first one longer. -/
theorem append (h : Laid source before text ts)
    (hlast : ∀ t ∈ ts.getLast?, ∀ c, t.kind.goesOn c = false)
    (h' : Laid source (before ++ text) text' us) :
    Laid source before (text ++ text') (ts ++ us) := by
  induction h with
  | tail hg => exact gap_append hg h'
  | @token before gap rest l ts hg hl hm hs ih =>
    have htail : ∀ t ∈ ts.getLast?, ∀ c, t.kind.goesOn c = false := by
      intro t ht
      refine hlast t ?_
      rw [List.getLast?_cons, Option.mem_def.1 ht]
      rfl
    have hm : ∀ c ∈ (rest ++ text').head?, l.kind.goesOn c = false := by
      intro c hc
      cases rest with
      | nil =>
        -- This token ends at the seam, so it is the last one of the first text.
        obtain rfl := hs.eq_nil_of_empty
        exact hlast _ rfl c
      | cons d rest => exact hm c hc
    have h := Laid.token hg hl hm (ih htail (by simpa using h'))
    simpa using h

end Laid

/-- The tokens of two texts side by side. -/
theorem tokenize_append {source p q : String} {s t : TokenSeq} (hp : tokenize source p = .ok s)
    (hq : tokenize source q = .ok t) (hlast : ∀ u ∈ s.body.getLast?, ∀ c, u.kind.goesOn c = false) :
    ∃ seq, tokenize source (p ++ q) = .ok seq ∧ seq.body =
      s.body ++ t.body.map (Token.relocate (Position.shift (.behind source p.toList))) := by
  obtain ⟨hs, -⟩ := tokenize_eq_ok_iff_laid.1 hp
  obtain ⟨ht, -⟩ := tokenize_eq_ok_iff_laid.1 hq
  refine ⟨⟨_, Scan.endMark (.behind source (p ++ q).toList), rfl⟩,
    tokenize_eq_ok_iff_laid.2 ⟨?_, rfl⟩, rfl⟩
  rw [String.toList_append]
  exact hs.append hlast (by simpa using ht.shift p.toList)

namespace Expr

/-- A tree ends with a token of an operand. -/
theorem Written.last_ne_semicolon {e : Expr} {ts : List Token} (h : Written e ts) :
    ∀ t ∈ ts.getLast?, t.kind ≠ .semicolon := by
  cases h with
  | var ht | trueWord ht | falseWord ht | number ht => simp [ht]
  | assign _ _ hv =>
    have hlast := hv.last_ne_semicolon
    rwa [List.getLast?_cons_cons, List.getLast?_cons_of_ne_nil hv.ne_nil]
  | call _ _ _ hc =>
    rw [List.getLast?_concat]
    simp [hc]
  | binary _ _ hr =>
    have hlast := hr.last_ne_semicolon
    rwa [List.getLast?_append_cons, List.getLast?_cons_of_ne_nil hr.ne_nil]

end Expr

namespace WrittenProgram

variable {es fs : List Expr} {last : Option Expr} {ts us : List Token}

theorem ne_nil (h : WrittenProgram es last ts) : ts ≠ [] := by
  obtain ⟨t, us, rfl, -⟩ := h.head
  simp

/-- Nothing is left out of a program that ends with a semicolon. -/
theorem last_eq_none (h : WrittenProgram es last ts)
    (hm : ts.getLast?.map Token.kind = some .semicolon) : last = none := by
  induction h with
  | trailing hw =>
    obtain ⟨t, ht, hk⟩ := Option.map_eq_some_iff.1 hm
    exact absurd hk (hw.last_ne_semicolon t ht)
  | last => rfl
  | more _ _ hs ih =>
    rw [List.getLast?_append_cons, List.getLast?_cons_of_ne_nil hs.ne_nil] at hm
    exact ih hm

theorem append (h : WrittenProgram es none ts) (h' : WrittenProgram fs last us) :
    WrittenProgram (es ++ fs) last (ts ++ us) := by
  generalize hn : (none : Option Expr) = mid at h
  induction h with
  | trailing => cases hn
  | last hw hm =>
    rw [List.append_assoc]
    exact .more hw hm h'
  | more hw hm _ ih =>
    rw [List.append_assoc, List.cons_append]
    exact .more hw hm (ih hn)

end WrittenProgram

namespace Expr

theorem evalAll_append (es fs : List Expr) (m : Machine) : evalAll (es ++ fs) m =
    (evalAll es m).andThen fun vs m => (evalAll fs m).andThen fun ws m => .done (vs ++ ws) m := by
  induction es generalizing m with
  | nil => exact (Outcome.andThen_done_self _).symm
  | cons e es ih => simp only [List.cons_append, evalAll, ih, Outcome.andThen_assoc,
      Outcome.andThen_done]

/-- A block runs its first statements and then, if they do not fail, the other ones. -/
theorem eval_block_append (es fs : List Expr) (a b c : Position) (m : Machine) :
    (block (es ++ fs) a).eval m =
      ((block es b).eval m).andThen fun _ m => (block fs c).eval m := by
  simp only [eval, evalChain, evalAll_append, Outcome.andThen_assoc, Outcome.andThen_done]

end Expr

/-- A program behind one that ends with a semicolon: the statements of both are read, those of the
second at the places counted on from the end of the first, and to run them is to run the first
program and then, if it does not fail, the second one. -/
theorem parseProgram_append {source p q : String} {es fs : List Expr} {a b : Position}
    {seq : TokenSeq} (hp : parseProgram source p = .ok (.block es a))
    (hq : parseProgram source q = .ok (.block fs b)) (ht : tokenize source p = .ok seq)
    (hm : seq.body.getLast?.map Token.kind = some .semicolon) :
    let shift := Position.shift (.behind source p.toList)
    let both := Expr.block (es ++ fs.map (relocate shift)) a
    parseProgram source (p ++ q) = .ok both ∧ ∀ m, both.eval m =
      ((Expr.block es a).eval m).andThen fun _ m => ((Expr.block fs b).eval m).relocate shift := by
  intro shift both
  constructor
  · obtain ⟨s, es', last, hs, hw, hc, he⟩ := parseProgram_eq_ok_iff.1 hp
    obtain ⟨t, fs', last', ht', hw', hc', he'⟩ := parseProgram_eq_ok_iff.1 hq
    obtain ⟨rfl, rfl⟩ := Expr.block.inj he
    obtain ⟨rfl, -⟩ := Expr.block.inj he'
    cases ht.symm.trans hs
    obtain rfl := hw.last_eq_none hm
    have hgo : ∀ u ∈ seq.body.getLast?, ∀ c, u.kind.goesOn c = false := by
      intro u hu c
      have hk : u.kind = .semicolon := by simpa [Option.mem_def.1 hu] using hm
      rw [hk]
      rfl
    obtain ⟨both', hboth, hbody⟩ := tokenize_append hs ht' hgo
    refine parseProgram_eq_ok_iff.2 ⟨both', es ++ fs.map (relocate shift),
      last'.map (relocate shift), hboth, ?_, ?_, ?_⟩
    · rw [hbody]
      exact hw.append (hw'.relocate shift)
    · have hall : es ++ fs.map (relocate shift) ++ (last'.map (relocate shift)).toList =
          es ++ (fs ++ last'.toList).map (relocate shift) := by
        cases last' <;> simp
      rw [hall, List.forall_mem_append, List.forall_mem_map]
      exact ⟨fun e he => hc e (by simpa using he), fun e he => (hc' e he).relocate shift⟩
    · obtain ⟨u, us, hu, -⟩ := hw.head
      simp [both, TokenSeq.get, hbody, hu]
  · intro m
    simp only [← eval_relocate, relocate, relocateAll_eq_map]
    exact eval_block_append es (fs.map (relocate shift)) a a (shift b) m

/-- The text `f(x); x` behind a line that ends with a semicolon and a line end. Its last expression
is left out, and its call comes to stand in the second line. -/
theorem parseProgram_append_second_line :
    let place (line column : Int) : Position := ⟨"in", line, column⟩
    let first := Expr.assign "x" (.literal (.boolean true) (place 1 5)) (place 1 1)
    let second := Expr.call "f" [.var "x" (place 1 3)] (place 1 1)
    let moved := Expr.call "f" [.var "x" (place 2 4)] (place 2 2)
    parseProgram "in" "x = true;\n " = .ok (.block [first] (place 1 1)) ∧
      parseProgram "in" "f(x); x" = .ok (.block [second] (place 1 1)) ∧
      (∃ seq, tokenize "in" "x = true;\n " = .ok seq ∧
        seq.body.getLast?.map Token.kind = some .semicolon) ∧
      parseProgram "in" ("x = true;\n " ++ "f(x); x") = .ok (.block [first, moved] (place 1 1)) ∧
      ∀ m, (Expr.block [first, moved] (place 1 1)).eval m =
        ((Expr.block [first] (place 1 1)).eval m).andThen fun _ m =>
          ((Expr.block [second] (place 1 1)).eval m).relocate (Position.shift (place 2 2)) := by
  intro place first second moved
  let token (k : Token.Kind) (text : String) (column : Int) : Token := ⟨k, text, place 1 column⟩
  let s : TokenSeq := ⟨[token .identifier "x" 1, token .assign "=" 3, token .trueWord "true" 5,
    token .semicolon ";" 9], ⟨.finish, "", place 2 2⟩, rfl⟩
  let t : TokenSeq := ⟨[token .identifier "f" 1, token .leftParen "(" 2, token .identifier "x" 3,
    token .rightParen ")" 4, token .semicolon ";" 5, token .identifier "x" 7],
    ⟨.finish, "", place 1 8⟩, rfl⟩
  have hs : tokenize "in" "x = true;\n " = .ok s := by cbv
  have ht : tokenize "in" "f(x); x" = .ok t := by cbv
  have hp : parseProgram "in" "x = true;\n " = .ok (.block [first] (place 1 1)) := by
    refine parseProgram_eq_ok_iff.2 ⟨s, [first], none, hs, ?_, ?_, rfl⟩
    · have hw : first.Written [token .identifier "x" 1, token .assign "=" 3,
          token .trueWord "true" 5] :=
        @Written.assign (token .identifier "x" 1) _ _ _ rfl rfl
          (@Written.trueWord (token .trueWord "true" 5) rfl)
      exact .last hw rfl
    · simpa using Canonical.assign .literal
  have hq : parseProgram "in" "f(x); x" = .ok (.block [second] (place 1 1)) := by
    refine parseProgram_eq_ok_iff.2 ⟨t, [second], some (.var "x" (place 1 7)), ht, ?_, ?_, rfl⟩
    · have hx (column : Int) :
          (Expr.var "x" (place 1 column)).Written [token .identifier "x" column] :=
        @Written.var (token .identifier "x" column) rfl
      have hw : second.Written [token .identifier "f" 1, token .leftParen "(" 2,
          token .identifier "x" 3, token .rightParen ")" 4] :=
        @Written.call (token .identifier "f" 1) _ _ _ _ rfl rfl (.last (hx 3)) rfl
      exact .more hw rfl (.trailing (hx 7))
    · have hc : second.Canonical := .call (by simpa using Canonical.var)
      simpa using ⟨hc, Canonical.var⟩
  have hend : Position.behind "in" "x = true;\n ".toList = place 2 2 := by cbv
  have h := parseProgram_append hp hq hs rfl
  rw [hend] at h
  exact ⟨hp, hq, ⟨s, hs, rfl⟩, h⟩

end Scriptlet
