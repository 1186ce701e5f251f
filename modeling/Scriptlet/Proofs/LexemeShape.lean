import Mathlib.Data.List.TakeWhile
import Scriptlet.Token.Scan

/-!
The shapes of lexemes, and where each one ends. The lexeme at the head of a text is the valid one
that the next character does not make longer.
-/

namespace Scriptlet

namespace Token.Kind

/-- The characters that make a lexeme of this kind longer. -/
def goesOn : Token.Kind → Char → Bool
  | identifier, c | trueWord, c | falseWord, c => isWordChar c
  | number, c => c.isDigit
  | assign, c => c = '='
  | _, _ => false

end Token.Kind

section characters
variable {c : Char}

theorem isBlank_iff : isBlank c ↔ c = ' ' ∨ c = '\t' ∨ c = '\r' ∨ c = '\n' := by
  simp [isBlank, or_assoc]

theorem isBlank_eq_false {p : Char → Bool} (h : p c)
    (hp : [' ', '\t', '\r', '\n'].any p = false) : isBlank c = false := by
  rw [Bool.eq_false_iff]
  intro hb
  have hc : c ∈ [' ', '\t', '\r', '\n'] := by simpa using isBlank_iff.1 hb
  exact List.any_eq_false.1 hp c hc h

theorem isWordStart_eq_false_of_isDigit (h : c.isDigit) : isWordStart c = false := by
  have hd : c.toNat ≤ 57 := (Char.isDigit_iff_toNat.1 h).2
  rw [Bool.eq_false_iff]
  intro hs
  have hs : (c.isUpper || c.isLower || c == '_') = true := hs
  simp only [Bool.or_eq_true, beq_iff_eq] at hs
  rcases hs with (hu | hl) | rfl
  · have hu : 65 ≤ c.toNat := (of_decide_eq_true hu).1
    omega
  · have hl : 97 ≤ c.toNat := of_decide_eq_true (Bool.and_eq_true_iff.1 hl).1
    omega
  · exact absurd hd (by decide)

/-- Marks are neither blanks nor parts of words. -/
theorem class_of_punctuation? {k : Token.Kind} (h : Lexeme.punctuation? c = some k) :
    isBlank c = false ∧ isWordStart c = false ∧ c.isDigit = false := by
  unfold Lexeme.punctuation? at h
  split at h <;> first | decide | simp at h

/-- Of the marks only an equals sign can be made longer. -/
theorem goesOn_of_punctuation? {k : Token.Kind} (h : Lexeme.punctuation? c = some k) (d : Char) :
    k.goesOn d ↔ c = '=' ∧ d = '=' := by
  unfold Lexeme.punctuation? at h
  split at h <;> cases h <;> simp [Token.Kind.goesOn]

end characters

section runs
variable {p : Char → Bool} {run rest : List Char}

theorem takeWhile_run (hr : ∀ c ∈ run, p c) (hs : ∀ c ∈ rest.head?, p c = false) :
    (run ++ rest).takeWhile p = run := by
  rw [List.takeWhile_append_of_pos hr]
  cases rest with
  | nil => simp
  | cons c rest => simp [hs c rfl]

theorem dropWhile_run (hr : ∀ c ∈ run, p c) (hs : ∀ c ∈ rest.head?, p c = false) :
    (run ++ rest).dropWhile p = rest := by
  rw [List.dropWhile_append_of_pos hr]
  cases rest with
  | nil => rfl
  | cons c rest => simp [hs c rfl]

/-- A run of one sort of characters can be told from what follows. -/
theorem run_unique {run' rest' : List Char} (hr : ∀ c ∈ run, p c) (hr' : ∀ c ∈ run', p c)
    (hs : ∀ c ∈ rest.head?, p c = false) (hs' : ∀ c ∈ rest'.head?, p c = false)
    (h : run ++ rest = run' ++ rest') : run = run' ∧ rest = rest' := by
  have htake := congrArg (List.takeWhile p) h
  have hdrop := congrArg (List.dropWhile p) h
  rw [takeWhile_run hr hs, takeWhile_run hr' hs'] at htake
  rw [dropWhile_run hr hs, dropWhile_run hr' hs'] at hdrop
  exact ⟨htake, hdrop⟩

theorem head?_dropWhile {c : Char} (h : c ∈ (rest.dropWhile p).head?) : p c = false := by
  have hn := List.head?_dropWhile_not p rest
  rw [Option.mem_def.1 h] at hn
  exact hn

end runs

namespace Lexeme

/-- The lexical grammar. -/
inductive Valid : Lexeme → Prop
  | trueWord : Valid ⟨.trueWord, ['t', 'r', 'u', 'e']⟩
  | falseWord : Valid ⟨.falseWord, ['f', 'a', 'l', 's', 'e']⟩
  | identifier {c : Char} {cs : List Char} (hc : isWordStart c) (hs : ∀ d ∈ cs, isWordChar d)
      (ht : c :: cs ≠ ['t', 'r', 'u', 'e']) (hf : c :: cs ≠ ['f', 'a', 'l', 's', 'e']) :
      Valid ⟨.identifier, c :: cs⟩
  | number {c : Char} {cs : List Char} (hc : c.isDigit) (hs : ∀ d ∈ cs, d.isDigit) :
      Valid ⟨.number, c :: cs⟩
  | equals : Valid ⟨.equals, ['=', '=']⟩
  | mark {c : Char} {k : Token.Kind} (h : punctuation? c = some k) : Valid ⟨k, [c]⟩

variable {c : Char} {cs text rest : List Char} {l : Lexeme}

theorem valid_number (hd : ∀ d ∈ text, d.isDigit) (hne : text ≠ []) : Valid ⟨.number, text⟩ := by
  obtain ⟨c, cs, rfl⟩ := List.exists_cons_of_ne_nil hne
  exact .number (hd c List.mem_cons_self) fun d h => hd d (List.mem_cons_of_mem _ h)

theorem next?_word (hc : isWordStart c) (hcs : ∀ d ∈ cs, isWordChar d)
    (hs : ∀ d ∈ rest.head?, isWordChar d = false) :
    next? (c :: (cs ++ rest)) = some (⟨wordKind (c :: cs), c :: cs⟩, rest) := by
  rw [next?, if_pos hc, takeWhile_run hcs hs, dropWhile_run hcs hs]

theorem next?_number (hc : c.isDigit) (hcs : ∀ d ∈ cs, d.isDigit)
    (hs : ∀ d ∈ rest.head?, d.isDigit = false) :
    next? (c :: (cs ++ rest)) = some (⟨.number, c :: cs⟩, rest) := by
  rw [next?, if_neg (by simp [isWordStart_eq_false_of_isDigit hc]), if_pos hc, takeWhile_run hcs hs,
    dropWhile_run hcs hs]

theorem next?_mark {k : Token.Kind} (h : punctuation? c = some k)
    (hs : ∀ d ∈ cs.head?, k.goesOn d = false) : next? (c :: cs) = some (⟨k, [c]⟩, cs) := by
  obtain ⟨-, hw, hd⟩ := class_of_punctuation? h
  have he : ¬ (c = '=' ∧ cs.head? = some '=') := by
    intro h
    obtain ⟨rfl, hh⟩ := h
    exact absurd ((goesOn_of_punctuation? h '=').2 ⟨rfl, rfl⟩) (by simp [hs _ hh])
  rw [next?, if_neg (by simp [hw]), if_neg (by simp [hd]), if_neg he, h]
  rfl

theorem next?_eq_none_iff : next? (c :: cs) = none ↔
    isWordStart c = false ∧ c.isDigit = false ∧ punctuation? c = none := by
  rw [next?]
  split
  next h => simp [h]
  next h =>
    split
    next h' => simp [h']
    next h' =>
      split
      next he => simp [he.1, punctuation?]
      next he => simp [h, h']

/-- A word is valid under the kind it is given, and all word characters make it longer. -/
theorem valid_wordKind (hc : isWordStart c) (hs : ∀ d ∈ cs, isWordChar d) :
    Valid ⟨wordKind (c :: cs), c :: cs⟩ ∧
      ∀ d, (wordKind (c :: cs)).goesOn d = isWordChar d := by
  unfold wordKind
  split
  next ht => exact ⟨ht ▸ .trueWord, fun _ => rfl⟩
  next ht =>
    split
    next hf => exact ⟨hf ▸ .falseWord, fun _ => rfl⟩
    next hf => exact ⟨.identifier hc hs ht hf, fun _ => rfl⟩

theorem next?_of_valid (hl : l.Valid) (hs : ∀ c ∈ rest.head?, l.kind.goesOn c = false) :
    next? (l.text ++ rest) = some (l, rest) := by
  cases hl with
  | trueWord | falseWord => exact next?_word (by decide) (List.all_eq_true.1 (by decide)) hs
  | identifier hc hcs ht hf =>
    have hk : wordKind _ = .identifier := (if_neg ht).trans (if_neg hf)
    exact hk ▸ next?_word hc hcs hs
  | number hc hcs => exact next?_number hc hcs hs
  | equals => rfl
  | mark h => exact next?_mark h hs

theorem valid_of_next? (h : next? text = some (l, rest)) :
    l.Valid ∧ ∀ c ∈ rest.head?, l.kind.goesOn c = false := by
  cases text with
  | nil => simp at h
  | cons c tail =>
    simp only [next?] at h
    split at h
    next hc =>
      cases h
      obtain ⟨hv, hg⟩ := valid_wordKind hc fun d hd => List.mem_takeWhile_imp hd
      exact ⟨hv, fun d hd => (hg d).trans (head?_dropWhile hd)⟩
    next hw =>
      split at h
      next hc =>
        cases h
        exact ⟨.number hc fun d hd => List.mem_takeWhile_imp hd, fun d hd => head?_dropWhile hd⟩
      next hd =>
        split at h
        next he =>
          cases h
          exact ⟨.equals, fun _ _ => rfl⟩
        next he =>
          obtain ⟨k, hk, hl⟩ := Option.map_eq_some_iff.1 h
          cases hl
          refine ⟨.mark hk, fun d hd => ?_⟩
          rw [Bool.eq_false_iff]
          intro hg
          obtain ⟨hc, rfl⟩ := (goesOn_of_punctuation? hk d).1 hg
          exact he ⟨hc, hd⟩

/-- The lexeme at the head of a text is valid, and the text behind it does not make it longer; no
other lexeme at the head is so. -/
theorem next?_eq_some_iff : next? text = some (l, rest) ↔
    text = l.text ++ rest ∧ l.Valid ∧ ∀ c ∈ rest.head?, l.kind.goesOn c = false := by
  constructor
  · exact fun h => ⟨(next?_eq_some h).1, valid_of_next? h⟩
  · intro h
    obtain ⟨rfl, hl, hs⟩ := h
    exact next?_of_valid hl hs

theorem next?_text_iff : next? l.text = some (l, []) ↔ l.Valid := by simp [next?_eq_some_iff]

instance : DecidablePred Valid := fun _ => decidable_of_iff _ next?_text_iff

/-- A valid lexeme has a first character, which is no blank. -/
theorem Valid.head (h : l.Valid) : ∃ c cs, l.text = c :: cs ∧ isBlank c = false := by
  cases h with
  | trueWord | falseWord | equals => exact ⟨_, _, rfl, by decide⟩
  | identifier hc => exact ⟨_, _, rfl, isBlank_eq_false hc (by decide)⟩
  | number hc => exact ⟨_, _, rfl, isBlank_eq_false hc (by decide)⟩
  | mark h => exact ⟨_, _, rfl, (class_of_punctuation? h).1⟩

theorem Valid.kind_ne_finish (h : l.Valid) : l.kind ≠ .finish := by
  cases h with
  | mark h =>
    intro h
    subst h
    unfold punctuation? at h
    split at h <;> cases h
  | _ => simp

/-- The text of a lexeme decides its kind. -/
theorem Valid.eq_of_text {m : Lexeme} (hl : l.Valid) (hm : m.Valid) (h : l.text = m.text) :
    l = m := by
  have hn := next?_text_iff.2 hl
  rw [h, next?_text_iff.2 hm] at hn
  cases hn
  rfl

end Lexeme

end Scriptlet
