import Scriptlet.Proofs.LexerHistory
import Scriptlet.Proofs.ReadingElsewhere
import Scriptlet.Proofs.Coordinates

/-!
A lexer driven by calls in any order. All that it keeps of the characters behind it is the place it
has come to: from there it reads the text to come as it would read that text alone, with the places
counted on.
-/

namespace Scriptlet

namespace Lexer

variable {l : Lexer} {source : String} {text : List Char}

/-- The lexer is somewhere in this text, and it knows at which line and column. -/
structure StandsIn (l : Lexer) (source : String) (text : List Char) : Prop where
  text_eq : l.text = text
  here_eq : l.here = .behind source l.passed.reverse

theorem standsIn_start (source text : String) : (start source text).StandsIn source text.toList where
  text_eq := rfl
  here_eq := rfl

namespace StandsIn

theorem goes {l' : Lexer} {front : List Char} {ts : List Token} (h : l.StandsIn source text)
    (hg : l.Goes front ts l') : l'.StandsIn source text where
  text_eq := hg.text_eq.trans h.text_eq
  here_eq := by
    rw [hg.here, h.here_eq, Position.afterText_behind, hg.passed, List.reverse_append,
      List.reverse_reverse]

theorem after (h : l.StandsIn source text) (call : Call) :
    (l.after call).StandsIn source text := by
  obtain ⟨front, ts, hg⟩ := l.exists_goes_after call
  exact h.goes hg

theorem drive (h : l.StandsIn source text) (calls : List Call) :
    (l.drive calls).StandsIn source text := by
  obtain ⟨front, ts, hg⟩ := l.exists_goes_drive calls
  exact h.goes hg

theorem rest_eq (h : l.StandsIn source text) : l.rest = text.drop l.index := by
  rw [← h.text_eq, Lexer.text, index, ← List.length_reverse, List.drop_left]

theorem source_here (h : l.StandsIn source text) : l.here.source = source := by
  rw [h.here_eq]
  rfl

end StandsIn

/-- To read on is to read the text to come alone, from its own start, and to count the places on
from here: the same failure if it fails, the tokens behind those that are there, the same characters
passed over. -/
def Resumes (l : Lexer) (source : String) : Prop :=
  let shift := Position.shift l.here
  let own := (start source (.ofList l.rest)).tokenize
  l.tokenize = (own.1.mapError (LexFault.relocate shift), ⟨own.2.passed ++ l.passed, own.2.rest,
    shift own.2.here, l.tokens ++ own.2.tokens.map (Token.relocate shift)⟩)

theorem resumes (h : l.here.source = source) : l.Resumes source := by
  have hstart := Position.shift_start h
  have hshift (front : List Char) : Position.shift l.here ((Position.start source).afterText front) =
      l.here.afterText front := by
    rw [Position.afterText_start, ← h, Position.afterText_eq_shift]
  have hscan := Scan.of_relocate (Position.shift l.here) (.start source) l.rest
    fun front => by rw [hshift, hstart]
  rw [hstart] at hscan
  simp only [Resumes, tokenize, start, String.toList_ofList, hscan, Scan.fault?, pass,
    List.append_nil]
  cases (Scan.of (.start source) l.rest).rest with
  | nil => simp [hshift, Except.mapError, Token.relocate, Scan.endMark]
  | cons c rest => simp [hshift, Except.mapError, LexFault.relocate]

theorem tokenize_start_of_ok {text : String} {seq : TokenSeq}
    (h : Scriptlet.tokenize source text = .ok seq) :
    (start source text).tokenize.1 = .ok () ∧
      (start source text).tokenize.2.tokens = seq.toList := by
  rw [Scriptlet.tokenize] at h
  rw [tokenize]
  split at h
  next => cases h
  next hf =>
    cases h
    simp only [start, hf]
    exact ⟨trivial, rfl⟩

theorem tokenize_start_of_error {text : String} {fault : LexFault}
    (h : Scriptlet.tokenize source text = .error fault) :
    (start source text).tokenize.1 = .error fault := by
  rw [Scriptlet.tokenize] at h
  rw [tokenize]
  split at h
  next hf =>
    cases h
    simp only [start, hf]
  next => cases h

/-- Where a lexer has stopped it stops again, until it is moved over the character it does not
know. -/
theorem exists_stopped {fault : LexFault} (h : l.tokenize.1 = .error fault) :
    l.tokenize.2.tokenize = (.error fault, l.tokenize.2) ∧
      ∃ c back, l.tokenize.2.rest = c :: back ∧
        fault = ⟨.unknownCharacter c, l.tokenize.2.here⟩ := by
  obtain ⟨front, back, hrest, hf, hb⟩ := exists_admitted_front l.rest
  have hl := tokenize_eq hrest hf hb
  cases back with
  | nil => cases (congrArg Prod.fst hl).symm.trans h
  | cons c back =>
    cases (congrArg Prod.fst hl).symm.trans h
    have hrest : l.tokenize.2.rest = [] ++ c :: back := by
      rw [hl]
      rfl
    rw [tokenize_eq hrest (by simp) hb, hl]
    simp

end Lexer

/-- Wherever a lexer has been driven to, it reads on as it would read the rest of the text alone,
with the start of that text moved to where the lexer stands. If that text has tokens, they come
behind the others with their end mark; if it has none, the lexer fails likewise, and likewise again
as often as it is told to read on, but moved over the character in front of it, it reads on from
there. -/
theorem drive_resumes (source text : String) (calls : List Lexer.Call) :
    let l := (Lexer.start source text).drive calls
    let shift := Position.shift l.here
    l.rest = text.toList.drop l.index ∧ shift (.start source) = l.here ∧ l.Resumes source ∧
      (∀ seq, tokenize source (.ofList l.rest) = .ok seq → l.tokenize.1 = .ok () ∧
        l.tokenize.2.tokens = l.tokens ++ seq.toList.map (Token.relocate shift)) ∧
      ∀ fault, tokenize source (.ofList l.rest) = .error fault →
        let stopped := l.tokenize.2
        l.tokenize.1 = .error (fault.relocate shift) ∧
          stopped.tokenize = (.error (fault.relocate shift), stopped) ∧
          ∃ c, fault.cause = .unknownCharacter c ∧ stopped.here = shift fault.position ∧
            stopped.advance.1 = some c ∧ stopped.rest = c :: stopped.advance.2.rest ∧
            stopped.advance.2.tokens = stopped.tokens ∧ stopped.advance.2.Resumes source := by
  intro l shift
  have hl : l.StandsIn source text.toList := (Lexer.standsIn_start source text).drive calls
  have hr : l.Resumes source := Lexer.resumes hl.source_here
  refine ⟨hl.rest_eq, Position.shift_start hl.source_here, hr, fun seq hseq => ?_,
    fun fault hfault => ?_⟩
  · obtain ⟨hok, htokens⟩ := Lexer.tokenize_start_of_ok hseq
    rw [Lexer.Resumes] at hr
    rw [hr, hok, htokens]
    exact ⟨rfl, rfl⟩
  · have hfails : l.tokenize.1 = .error (fault.relocate shift) := by
      rw [Lexer.Resumes] at hr
      rw [hr, Lexer.tokenize_start_of_error hfault]
      rfl
    obtain ⟨hagain, c, back, hrest, hc⟩ := Lexer.exists_stopped hfails
    have hon : l.tokenize.2.advance.2.StandsIn source text.toList :=
      (hl.after .tokenize).after .advance
    refine ⟨hfails, hagain, c, congrArg LexFault.cause hc, (congrArg LexFault.position hc).symm,
      ?_, ?_, rfl, Lexer.resumes hon.source_here⟩
    · simp [Lexer.advance, hrest]
    · simp [Lexer.advance, Lexer.pass, hrest]

/-- From between the two characters of an equals mark, and once more behind the end mark. -/
example : ((Lexer.start "in" "==").drive [.advance, .tokenize, .tokenize]).tokens =
    [⟨.assign, "=", ⟨"in", 1, 2⟩⟩, ⟨.finish, "", ⟨"in", 1, 3⟩⟩, ⟨.finish, "", ⟨"in", 1, 3⟩⟩] := by
  cbv

end Scriptlet
