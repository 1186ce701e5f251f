import Mathlib.Data.List.TakeWhile
import Scriptlet.Token.Lexer
import Scriptlet.Proofs.TokenLayout

/-!
The characters that a text may have. A lexer takes up all of a text that has no other character;
else it stops in front of the first other one, with the tokens of the text before it.
-/

namespace Scriptlet

/-- Blanks, letters, underscores, digits and marks. -/
def Admitted (c : Char) : Prop :=
  c ∈ [' ', '\t', '\r', '\n'] ∨ ('A' ≤ c ∧ c ≤ 'Z') ∨ ('a' ≤ c ∧ c ≤ 'z') ∨ c = '_' ∨
    ('0' ≤ c ∧ c ≤ '9') ∨ c ∈ ['(', ')', ',', ';', '=', '+', '-', '*', '/', '>', '<']

instance : DecidablePred Admitted := fun _ => inferInstanceAs (Decidable (_ ∨ _))

section characters
variable {c : Char}

theorem isWordStart_iff : isWordStart c ↔ ('A' ≤ c ∧ c ≤ 'Z') ∨ ('a' ≤ c ∧ c ≤ 'z') ∨ c = '_' := by
  have halpha : c.isAlpha = (c.isUpper || c.isLower) := rfl
  have hu : c.isUpper ↔ 'A' ≤ c ∧ c ≤ 'Z' := decide_eq_true_iff
  have hl : c.isLower ↔ 'a' ≤ c ∧ c ≤ 'z' :=
    Bool.and_eq_true_iff.trans (and_congr decide_eq_true_iff decide_eq_true_iff)
  rw [isWordStart, halpha, Bool.or_eq_true, Bool.or_eq_true, hu, hl, beq_iff_eq, or_assoc]

theorem isDigit_iff : c.isDigit ↔ '0' ≤ c ∧ c ≤ '9' :=
  Bool.and_eq_true_iff.trans (and_congr decide_eq_true_iff decide_eq_true_iff)

theorem isSome_punctuation?_iff : (Lexeme.punctuation? c).isSome ↔
    c ∈ ['(', ')', ',', ';', '=', '+', '-', '*', '/', '>', '<'] := by
  constructor
  · intro h
    unfold Lexeme.punctuation? at h
    split at h <;> simp at h ⊢
  · intro h
    simp only [List.mem_cons, List.not_mem_nil, or_false] at h
    rcases h with rfl | rfl | rfl | rfl | rfl | rfl | rfl | rfl | rfl | rfl | rfl <;> rfl

/-- The characters that the lexical grammar looks for, one class after the other. -/
theorem admitted_iff : Admitted c ↔
    isBlank c ∨ isWordStart c ∨ c.isDigit ∨ (Lexeme.punctuation? c).isSome := by
  rw [isWordStart_iff, isDigit_iff, isSome_punctuation?_iff, or_assoc, or_assoc]
  exact or_congr_left (by simp [isBlank_iff])

/-- A character is admitted if it is left out between tokens or starts one. -/
theorem admitted_iff_next? (tail : List Char) :
    Admitted c ↔ isBlank c ∨ Lexeme.next? (c :: tail) ≠ none := by
  simp [admitted_iff, Lexeme.next?_eq_none_iff, Option.isSome_iff_ne_none, or_iff_not_imp_left]

/-- What makes a token longer could start one. -/
theorem Token.Kind.admitted_of_goesOn {k : Token.Kind} (h : k.goesOn c) : Admitted c := by
  rw [admitted_iff]
  cases k with
  | identifier | trueWord | falseWord =>
    rcases Bool.or_eq_true_iff.1 h with hw | hd
    · exact .inr (.inl hw)
    · exact .inr (.inr (.inl hd))
  | number => exact .inr (.inr (.inl h))
  | assign =>
    obtain rfl : c = '=' := by simpa [Token.Kind.goesOn] using h
    decide
  | _ => cases h

end characters

/-- A text falls into a front of admitted characters and what follows the last of them. -/
theorem exists_admitted_front (text : List Char) : ∃ front back, text = front ++ back ∧
    (∀ c ∈ front, Admitted c) ∧ ∀ c ∈ back.head?, ¬ Admitted c := by
  refine ⟨text.takeWhile (Admitted ·), text.dropWhile (Admitted ·),
    List.takeWhile_append_dropWhile.symm, fun c hc => ?_, fun c hc => ?_⟩
  · simpa using List.mem_takeWhile_imp hc
  · simpa using head?_dropWhile hc

variable {front back : List Char}

namespace Scan

/-- A scan reads all admitted characters, whatever other character follows them. -/
theorem of_admitted (hf : ∀ c ∈ front, Admitted c) (hb : ∀ c ∈ back.head?, ¬ Admitted c)
    (here : Position) : of here (front ++ back) =
      ⟨(of here front).tokens, here.afterText front, back⟩ := by
  fun_induction of here front with
  | case1 here =>
    cases back with
    | nil => exact of_nil here
    | cons c back =>
      have hn := mt (admitted_iff_next? back).2 (hb c rfl)
      rw [not_or, not_not] at hn
      exact of_unknown hn.1 hn.2
  | case2 here c tail hc ih =>
    rw [List.cons_append, of_blank hc, ih (List.forall_mem_cons.1 hf).2]
    rfl
  | case3 here c tail hc hn =>
    have h := (admitted_iff_next? tail).1 (hf c List.mem_cons_self)
    exact absurd hn (h.resolve_left hc)
  | case4 here c tail hc l rest hn later ih =>
    obtain ⟨ht, hl, hm⟩ := Lexeme.next?_eq_some_iff.1 hn
    have hm' : ∀ d ∈ (rest ++ back).head?, l.kind.goesOn d = false := by
      cases rest with
      | nil => exact fun d hd => eq_false_of_ne_true (mt Token.Kind.admitted_of_goesOn (hb d hd))
      | cons e rest => exact hm
    have hrest : ∀ d ∈ rest, Admitted d := fun d hd => hf d (ht ▸ List.mem_append_right _ hd)
    rw [ht, List.append_assoc, of_lexeme hl hm', ih hrest, Position.afterText_append]

theorem of_all_admitted (h : ∀ c ∈ front, Admitted c) (here : Position) :
    of here front = ⟨(of here front).tokens, here.afterText front, []⟩ := by
  have hb : ∀ c ∈ ([] : List Char).head?, ¬ Admitted c := by simp
  have hscan := of_admitted h hb here
  rwa [List.append_nil] at hscan

end Scan

theorem tokenize_of_admitted {text : String} (h : ∀ c ∈ text.toList, Admitted c) (source : String) :
    tokenize source text = .ok ⟨(Scan.of (.start source) text.toList).tokens,
      Scan.endMark (.behind source text.toList), rfl⟩ := by
  rw [tokenize, Scan.of_all_admitted h, Position.afterText_start]
  rfl

theorem tokenize_of_not_admitted {source text : String} {c : Char}
    (ht : text.toList = front ++ c :: back) (hf : ∀ d ∈ front, Admitted d) (hc : ¬ Admitted c) :
    tokenize source text = .error ⟨.unknownCharacter c, .behind source front⟩ := by
  have hb : ∀ d ∈ (c :: back).head?, ¬ Admitted d := by simpa using hc
  have hscan := Scan.of_admitted hf hb (.start source)
  rw [tokenize, ht, hscan, Position.afterText_start]
  rfl

theorem tokenize_eq_ok_iff_admitted {source text : String} :
    (∃ seq, tokenize source text = .ok seq) ↔ ∀ c ∈ text.toList, Admitted c := by
  constructor
  · intro h c hc
    obtain ⟨seq, hseq⟩ := h
    obtain ⟨front, back, ht, hf, hb⟩ := exists_admitted_front text.toList
    cases back with
    | nil =>
      rw [ht, List.append_nil] at hc
      exact hf c hc
    | cons d back => cases hseq.symm.trans (tokenize_of_not_admitted ht hf (hb d rfl))
  · exact fun h => ⟨_, tokenize_of_admitted h source⟩

namespace Lexer

variable {l : Lexer}

theorem pass_front (h : l.rest = front ++ back) : l.pass front.length =
    ⟨front.reverse ++ l.passed, back, l.here.afterText front, l.tokens⟩ := by
  rw [pass, h, List.take_left, List.drop_left]

/-- The lexer takes up the admitted characters in front of it and stops before any other one. -/
theorem tokenize_eq (h : l.rest = front ++ back) (hf : ∀ c ∈ front, Admitted c)
    (hb : ∀ c ∈ back.head?, ¬ Admitted c) : l.tokenize =
      let stop := l.here.afterText front
      let ts := l.tokens ++ (Scan.of l.here front).tokens
      match back.head? with
      | some c => (.error ⟨.unknownCharacter c, stop⟩, ⟨front.reverse ++ l.passed, back, stop, ts⟩)
      | none => (.ok (), ⟨front.reverse ++ l.passed, back, stop, ts ++ [Scan.endMark stop]⟩) := by
  have hscan := Scan.of_admitted hf hb l.here
  have hlen : (front ++ back).length - back.length = front.length := by simp
  have hpass := pass_front h
  rw [tokenize, h, hscan]
  simp only [hlen, hpass, Scan.fault?]
  cases back <;> rfl

end Lexer

/-- A text has tokens just if all of its characters are admitted. Else the first other one is
quoted, at its line and column; the lexer stops in front of it, and the tokens it has by then are
those of the text before it, less their end mark. -/
theorem tokenize_stops_at_unadmitted (source text : String) :
    ((∃ seq, tokenize source text = .ok seq) ↔ ∀ c ∈ text.toList, Admitted c) ∧
    ((¬ ∀ c ∈ text.toList, Admitted c) → ∃ k c seq, text.toList[k]? = some c ∧ ¬ Admitted c ∧
      (∀ d ∈ text.toList.take k, Admitted d) ∧
      tokenize source (.ofList (text.toList.take k)) = .ok seq ∧
      let fault : LexFault := ⟨.unknownCharacter c, .behind source (text.toList.take k)⟩
      let stopped := (Lexer.start source text).tokenize
      tokenize source text = .error fault ∧
        fault.cause.message = "Found unknown character in \"" ++ c.toString ++ "\" in file." ∧
        stopped.1 = .error fault ∧ stopped.2.index = k ∧ stopped.2.here = fault.position ∧
        stopped.2.rest = text.toList.drop k ∧ stopped.2.tokens = seq.body) := by
  refine ⟨tokenize_eq_ok_iff_admitted, fun h => ?_⟩
  obtain ⟨front, back, ht, hf, hb⟩ := exists_admitted_front text.toList
  cases back with
  | nil =>
    rw [ht, List.append_nil] at h
    exact absurd hf h
  | cons c back =>
    have hc : ¬ Admitted c := hb c rfl
    have hstop := Position.afterText_start source front
    have hl := Lexer.tokenize_eq (l := Lexer.start source text) ht hf hb
    have hfront : ∀ d ∈ (String.ofList front).toList, Admitted d := by simpa using hf
    have hseq := tokenize_of_admitted hfront source
    refine ⟨front.length, c, _, by simp [ht], hc, by simpa [ht] using hf,
      by simpa [ht] using hseq, ?_⟩
    rw [ht, List.take_left, List.drop_left, hl]
    exact ⟨tokenize_of_not_admitted ht hf hc, rfl, by rw [← hstop]; rfl,
      by simp [Lexer.index, Lexer.start], hstop, rfl, by simp [Lexer.start]⟩

/-- A character behind an equals sign that might have been doubled. -/
example : (Lexer.start "in" "a\n=?").tokenize = (.error ⟨.unknownCharacter '?', ⟨"in", 2, 2⟩⟩,
    ⟨['=', '\n', 'a'], ['?'], ⟨"in", 2, 2⟩,
      [⟨.identifier, "a", ⟨"in", 1, 1⟩⟩, ⟨.assign, "=", ⟨"in", 2, 1⟩⟩]⟩) := by cbv

end Scriptlet
