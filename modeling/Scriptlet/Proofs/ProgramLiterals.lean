import Scriptlet.Proofs.NumberOrder
import Scriptlet.Proofs.NumberReading
import Scriptlet.Proofs.ProgramText

/-!
The literals of a text. A number in it is a run of digits, which always is a numeral and never
one for a number that is none; so a tree that has been read is the same as itself.
-/

namespace Scriptlet

open Scriptlet.Expr

/-- Digits are read as the whole number that they are. -/
theorem Numeral.read?_of_digits {text : String} (hd : Digits text.toList) (hne : text ≠ "") :
    ∃ x, read? text = some x ∧ Double.Rounds false (Nat.ofDigitChars 10 text.toList 0) x := by
  let d : Decimal := ⟨Nat.ofDigitChars 10 text.toList 0, 0 - (0 : ℕ)⟩
  have hw : WrittenNumeral (.decimal false d) ([] ++ (text.toList ++ [])) :=
    .decimal .absent (.whole hd) (by simpa using hne) .absent
  rw [List.nil_append, List.append_nil] at hw
  have hx := means_toFloat (.decimal false d)
  have hv : d.value = (Nat.ofDigitChars 10 text.toList 0 : ℚ) := by simp [d, Decimal.value]
  refine ⟨_, read?_eq_some_iff.2 ⟨_, namesNumeral_of_written hw, hx⟩, ?_⟩
  rw [← hv]
  exact hx

namespace Expr

mutual

/-- The literals of a tree, in the order of the source. -/
def literals : Expr → List Value
  | block ss _ => literalsAll ss
  | call _ args _ => literalsAll args
  | literal v _ => [v]
  | assign _ e _ => literals e
  | var .. => []
  | binary _ lhs rhs _ => literals lhs ++ literals rhs

def literalsAll : List Expr → List Value
  | [] => []
  | e :: es => literals e ++ literalsAll es

end

mutual

theorem same_self_iff : ∀ e : Expr, same e e = true ↔ ∀ v ∈ e.literals, (v == v) = true
  | block ss _ => by simp [same, literals, sameAll_self_iff ss]
  | call _ args _ => by simp [same, literals, sameAll_self_iff args]
  | literal _ _ => by simp [same, literals]
  | assign _ e _ => by simp [same, literals, same_self_iff e]
  | var .. => by simp [same, literals]
  | binary _ lhs rhs _ => by
    simp [same, literals, same_self_iff lhs, same_self_iff rhs, or_imp, forall_and]

theorem sameAll_self_iff : ∀ es : List Expr,
    sameAll es es = true ↔ ∀ v ∈ literalsAll es, (v == v) = true
  | [] => by simp [sameAll, literalsAll]
  | e :: es => by
    simp [sameAll, literalsAll, same_self_iff e, sameAll_self_iff es, or_imp, forall_and]

end

/-- A truth value, or what a number among the tokens is read as. -/
def SpelledIn (ts : List Token) (v : Value) : Prop :=
  (∃ b, v = .boolean b) ∨
    ∃ t ∈ ts, t.kind = .number ∧ ∃ x, Numeral.read? t.text = some x ∧ v = .number x

theorem SpelledIn.mono {ts us : List Token} {v : Value} (h : SpelledIn ts v) (hs : ts ⊆ us) :
    SpelledIn us v :=
  h.imp_right fun ⟨t, ht, hx⟩ => ⟨t, hs ht, hx⟩

mutual

theorem Written.spelledIn {e : Expr} {ts : List Token} :
    Written e ts → ∀ v ∈ e.literals, SpelledIn ts v
  | .var _, v, hv => by simp [literals] at hv
  | .trueWord _, v, hv => .inl ⟨true, by simpa [literals] using hv⟩
  | .falseWord _, v, hv => .inl ⟨false, by simpa [literals] using hv⟩
  | @Written.number t x ht hx, v, hv =>
    .inr ⟨t, List.mem_singleton_self t, ht, x, hx, by simpa [literals] using hv⟩
  | .assign _ _ hw, v, hv => (hw.spelledIn v hv).mono fun t ht => by simp [ht]
  | .call _ _ ha _, v, hv => (ha.spelledIn v hv).mono fun t ht => by simp [ht]
  | .binary hl _ hr, v, hv => by
    rcases List.mem_append.1 hv with hv | hv
    · exact (hl.spelledIn v hv).mono (List.subset_append_left _ _)
    · exact (hr.spelledIn v hv).mono fun t ht => by simp [ht]

theorem WrittenArgs.spelledIn {es : List Expr} {ts : List Token} :
    WrittenArgs es ts → ∀ v ∈ literalsAll es, SpelledIn ts v
  | .none, v, hv => by simp [literalsAll] at hv
  | .last he, v, hv => he.spelledIn v (by simpa [literalsAll] using hv)
  | .more he _ hs _, v, hv => by
    rcases List.mem_append.1 hv with hv | hv
    · exact (he.spelledIn v hv).mono (List.subset_append_left _ _)
    · exact (hs.spelledIn v hv).mono fun t ht => by simp [ht]

end

end Expr

theorem WrittenProgram.spelledIn {es : List Expr} {last : Option Expr} {ts : List Token}
    (h : WrittenProgram es last ts) : ∀ v ∈ literalsAll es, SpelledIn ts v := by
  induction h with
  | trailing => simp [literalsAll]
  | last hw =>
    intro v hv
    exact (hw.spelledIn v (by simpa [literalsAll] using hv)).mono (List.subset_append_left _ _)
  | more hw _ _ ih =>
    intro v hv
    rcases List.mem_append.1 hv with hv | hv
    · exact (hw.spelledIn v hv).mono (List.subset_append_left _ _)
    · exact (ih v hv).mono fun t ht => by simp [ht]

theorem Lexeme.Valid.digits {l : Lexeme} (h : l.Valid) (hk : l.kind = .number) :
    Digits l.text ∧ l.text ≠ [] := by
  cases h with
  | trueWord | falseWord | identifier | equals => cases hk
  | number hc hs => exact ⟨List.forall_mem_cons.2 ⟨hc, hs⟩, by simp⟩
  | @mark c k h =>
    unfold Lexeme.punctuation? at h
    split at h <;> cases h <;> cases hk

theorem Laid.digits_of_number {source : String} {before text : List Char} {ts : List Token}
    (h : Laid source before text ts) :
    ∀ t ∈ ts, t.kind = .number → Digits t.text.toList ∧ t.text ≠ "" := by
  induction h with
  | tail => simp
  | token _ hl _ _ ih =>
    rw [List.forall_mem_cons]
    exact ⟨fun hk => by simpa [Scan.token] using hl.digits hk, ih⟩

/-- A tree that the parser makes of a text: an expression or a program, from any of its tokens on. -/
def Expr.ReadFrom (source text : String) (e : Expr) : Prop :=
  ∃ (c : Cursor) (room : Nat), tokenize source text = .ok c.tokens ∧
    ((c.expression room).1 = .ok e ∨ (c.block room).1 = .ok e)

theorem Expr.readFrom_of_parseProgram {source text : String} {b : Expr}
    (h : parseProgram source text = .ok b) : b.ReadFrom source text := by
  obtain ⟨seq, -, -, ht, -⟩ := parseProgram_eq_ok_iff.1 h
  exact ⟨.start seq, _, ht, .inr ((parseProgram_eq_block ht).symm.trans h)⟩

namespace Cursor

variable {c d : Cursor} {room : Nat} {e : Expr}

theorem subset_body {front rest : List Token} (h : c.rest = front ++ rest) :
    front ⊆ c.tokens.body :=
  fun _ ht => List.mem_of_mem_drop (h ▸ List.mem_append_left rest ht)

theorem spelledIn_of_expression (h : c.expression room = (.ok e, d)) :
    ∀ v ∈ e.literals, SpelledIn c.tokens.body v := by
  obtain ⟨rest, hrun, -⟩ := expression_eq_ok_iff_run.1 h
  obtain ⟨front, hrest, hw, -⟩ := (Parser.reads_expression room).1 hrun
  exact fun v hv => (hw.spelledIn v hv).mono (subset_body hrest)

theorem spelledIn_of_block (h : c.block room = (.ok e, d)) :
    ∀ v ∈ e.literals, SpelledIn c.tokens.body v := by
  obtain ⟨es, rfl, hp⟩ := block_eq_ok_iff.1 h
  obtain ⟨rest, hrun, -⟩ := program_eq_ok_iff_run.1 hp
  obtain ⟨front, last, hrest, hw, -⟩ :=
    Parser.written_of_statementsRun (Parser.reads_expression room) hrun
  exact fun v hv => (hw.spelledIn v hv).mono (subset_body hrest)

end Cursor

namespace Expr

/-- Every literal of a tree that is read is a truth value or the double nearest to a whole number. -/
theorem ReadFrom.literals {source text : String} {e : Expr} (h : e.ReadFrom source text) :
    ∀ v ∈ e.literals,
      (∃ c, v = .boolean c) ∨ ∃ (n : ℕ) (x : Float), v = .number x ∧ Double.Rounds false n x := by
  obtain ⟨c, room, ht, h⟩ := h
  have hs : ∀ v ∈ e.literals, SpelledIn c.tokens.body v := by
    rcases h with h | h
    · exact Cursor.spelledIn_of_expression (Prod.ext h rfl)
    · exact Cursor.spelledIn_of_block (Prod.ext h rfl)
  intro v hv
  refine (hs v hv).imp_right fun ⟨t, hmem, hk, x, hx, hv⟩ => ?_
  obtain ⟨hd, hne⟩ := (tokenize_eq_ok_iff_laid.1 ht).1.digits_of_number t hmem hk
  obtain ⟨y, hy, hr⟩ := Numeral.read?_of_digits hd hne
  cases hx.symm.trans hy
  exact ⟨_, x, hv, hr⟩

/-- A tree that has been read is the same as itself. -/
theorem ReadFrom.beq_self {source text : String} {e : Expr} (h : e.ReadFrom source text) :
    (e == e) = true := by
  refine (same_self_iff e).2 fun v hv => ?_
  rcases h.literals v hv with ⟨c, rfl⟩ | ⟨n, x, rfl, hr⟩
  · exact beq_self_eq_true c
  · exact Double.beq_self_iff.2 hr.ne_nan

end Expr

theorem beq_self_of_parseProgram {source text : String} {b : Expr}
    (h : parseProgram source text = .ok b) : (b == b) = true :=
  (readFrom_of_parseProgram h).beq_self

end Scriptlet
