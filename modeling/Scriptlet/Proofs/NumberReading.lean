import Scriptlet.Proofs.CursorReading
import Scriptlet.Proofs.DecimalValue
import Scriptlet.Proofs.NumeralGrammar

/-!
Reading a number. A numeral is read as the double nearest to what it says, and a text that is no
numeral is blamed where the cursor stands.
-/

namespace Scriptlet

namespace Numeral

/-- The double that a numeral is read as. -/
def Means : Numeral → Float → Prop
  | nan, x => Double.ofFloat x = .nan
  | infinity negative, x => Double.ofFloat x = .infinite negative
  | decimal negative d, x => Double.Rounds negative d.value x

theorem means_toFloat (n : Numeral) : n.Means n.toFloat := by
  cases n with
  | nan => exact Double.ofFloat_nan
  | infinity negative => exact Double.ofFloat_withSign_infinityBits negative
  | decimal negative d => exact rounds_nearest negative d

theorem Means.unique {n : Numeral} {x y : Float} (hx : n.Means x) (hy : n.Means y) : x = y := by
  cases n with
  | nan => exact Double.ofFloat_injective (hx.trans hy.symm)
  | infinity negative => exact Double.ofFloat_injective (hx.trans hy.symm)
  | decimal negative d => exact Double.Rounds.unique hx hy

theorem read?_eq_some_iff {text : String} {x : Float} :
    read? text = some x ↔ ∃ n, NamesNumeral text.toList n ∧ n.Means x := by
  rw [read?, Option.map_eq_some_iff]
  constructor
  · rintro ⟨n, hn, rfl⟩
    exact ⟨n, parse_strip_eq_some_iff.1 hn, means_toFloat n⟩
  · rintro ⟨n, hn, hx⟩
    exact ⟨n, parse_strip_eq_some_iff.2 hn, (means_toFloat n).unique hx⟩

/-- Digits of another script, behind a blank that is none of ASCII. -/
example : parse (strip ("\u3000٤٢".toList.map Text.toAscii)) = some (.decimal false ⟨42, 0⟩) := by
  decide

theorem read?_eq_none_iff {text : String} :
    read? text = none ↔ ∀ n, ¬ NamesNumeral text.toList n := by
  rw [read?, Option.map_eq_none_iff, Option.eq_none_iff_forall_ne_some]
  exact forall_congr' fun n => not_congr parse_strip_eq_some_iff

end Numeral

theorem parseNumber_eq_ok_iff {here : Position} {text : String} {v : Value} :
    parseNumber here text = .ok v ↔ ∃ n x, NamesNumeral text.toList n ∧ n.Means x ∧ v = .number x := by
  rw [parseNumber]
  cases h : Numeral.read? text with
  | none =>
    have hnone := Numeral.read?_eq_none_iff.1 h
    exact ⟨nofun, fun ⟨n, x, hn, _⟩ => absurd hn (hnone n)⟩
  | some x =>
    obtain ⟨n, hn, hx⟩ := Numeral.read?_eq_some_iff.1 h
    constructor
    · rintro ⟨⟩
      exact ⟨n, x, hn, hx, rfl⟩
    · rintro ⟨n', y, hn', hy, rfl⟩
      have hread := Numeral.read?_eq_some_iff.2 ⟨n', hn', hy⟩
      rw [h] at hread
      cases hread
      rfl

theorem parseNumber_eq_error_iff {here : Position} {text : String} {report : Diagnostic} :
    parseNumber here text = .error report ↔ (∀ n, ¬ NamesNumeral text.toList n) ∧
      report = .syntactic ⟨.numeral, ⟨.number, text, here⟩⟩ := by
  rw [parseNumber]
  cases h : Numeral.read? text with
  | none =>
    have hnone := Numeral.read?_eq_none_iff.1 h
    constructor
    · rintro ⟨⟩
      exact ⟨hnone, rfl⟩
    · rintro ⟨-, rfl⟩
      rfl
  | some x =>
    obtain ⟨n, hn, -⟩ := Numeral.read?_eq_some_iff.1 h
    exact ⟨nofun, fun ⟨hnone, _⟩ => absurd hn (hnone n)⟩

namespace Cursor

variable {c : Cursor}

/-- A number token whose text is no numeral is blamed, and the cursor stays on it. -/
theorem expression_of_read?_none (hk : c.current.kind = .number)
    (hn : Numeral.read? c.current.text = none) (room : Nat) :
    c.expression room = (.error (.syntactic ⟨.numeral, c.current⟩), c) := by
  have hrest := rest_eq_cons (c := c) (index_lt_of_kind (by rw [hk]; decide))
  have hoperand : Parser.operandRun (Parser.inside room) c.rest =
      .error (.unexpected .numeral c.rest) := by
    simp only [hrest, Parser.operandRun, hk, hn]
  have hrun : (Parser.expression room).run c.rest = .error (.unexpected .numeral c.rest) := by
    rw [Parser.expression_eq]
    exact Parser.chainRun_error hoperand
  simp only [expression, hrun, halted, moveToRest_rest rfl]

/-- A text is read as a number if it is a numeral, and then as the double nearest to what the numeral
says; if it is none, it is blamed where the cursor stands, and there the cursor stays. -/
theorem parseNumber_iff_names (c : Cursor) (text : String) :
    (∀ v, parseNumber c.current.position text = .ok v ↔
      ∃ n x, NamesNumeral text.toList n ∧ n.Means x ∧ v = .number x) ∧
    (∀ report, parseNumber c.current.position text = .error report ↔
      (∀ n, ¬ NamesNumeral text.toList n) ∧
        report = .syntactic ⟨.numeral, ⟨.number, text, c.current.position⟩⟩) ∧
    (c.current.kind = .number → (∀ n, ¬ NamesNumeral c.current.text.toList n) →
      ∀ room, c.expression room = (.error (.syntactic ⟨.numeral, c.current⟩), c)) :=
  ⟨fun _ => parseNumber_eq_ok_iff, fun _ => parseNumber_eq_error_iff, fun hk hn =>
    expression_of_read?_none hk (Numeral.read?_eq_none_iff.2 hn)⟩

theorem parseNumber_iff_names_two_underscores :
    let token : Token := ⟨.number, "1__2", ⟨"in", 1, 1⟩⟩
    let c : Cursor := .start ⟨[token], ⟨.finish, "", ⟨"in", 1, 5⟩⟩, rfl⟩
    c.current.kind = .number ∧ (∀ n, ¬ NamesNumeral c.current.text.toList n) ∧
      (∃ report, parseNumber c.current.position c.current.text = .error report) ∧
      c.expression 0 = (.error (.syntactic ⟨.numeral, token⟩), c) := by
  intro token c
  have hread : Numeral.parse (Numeral.strip (c.current.text.toList.map Text.toAscii)) = none := by decide
  have hnone : ∀ n, ¬ NamesNumeral c.current.text.toList n :=
    Numeral.read?_eq_none_iff.1 (congrArg (Option.map Numeral.toFloat) hread)
  obtain ⟨-, herror, hstay⟩ := parseNumber_iff_names c c.current.text
  exact ⟨rfl, hnone, ⟨_, (herror _).2 ⟨hnone, rfl⟩⟩, hstay rfl hnone 0⟩

end Cursor

end Scriptlet
