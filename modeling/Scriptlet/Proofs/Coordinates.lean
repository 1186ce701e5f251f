import Mathlib.Data.List.Induction
import Scriptlet.Proofs.TokenLayout

/-!
Places counted from the start of a text and places counted on from another one. A place in a text is
the place of one offset only.
-/

namespace Scriptlet.Position

/-- A place in a text that begins at `origin`, from its place in the text alone. Only the first line
has something in front of it, so columns behind it stay. -/
def shift (origin p : Position) : Position :=
  ⟨p.source, origin.line + p.line - 1,
    if p.line = 1 then origin.column + p.column - 1 else p.column⟩

theorem line_shift (origin p : Position) :
    (origin.shift p).line = origin.line + p.line - 1 := rfl

theorem column_shift (origin : Position) {p : Position} (h : p.line = 1) :
    (origin.shift p).column = origin.column + p.column - 1 := if_pos h

variable {source : String} {text : List Char}

theorem behind_line (source : String) (text : List Char) :
    (behind source text).line = 1 + text.count '\n' := rfl

theorem behind_column (h : '\n' ∉ text) : (behind source text).column = 1 + text.length := by
  have htake : text.reverse.takeWhile (· ≠ '\n') = text.reverse :=
    List.takeWhile_eq_self_iff.2 fun c hc => by
      have hc : c ≠ '\n' := fun he => h (he ▸ List.mem_reverse.1 hc)
      simpa using hc
  rw [behind, htake, List.length_reverse]

theorem shift_start {origin : Position} (h : origin.source = source) :
    origin.shift (.start source) = origin := by
  subst h
  simp [shift, start]

/-- To count on from a place is to count the text alone and to shift the outcome. -/
theorem afterText_eq_shift (origin : Position) (text : List Char) :
    origin.afterText text = origin.shift (behind origin.source text) := by
  induction text using List.reverseRecOn with
  | nil => exact (shift_start rfl).symm
  | append_singleton text c ih =>
    rw [afterText_append, ih, ← after_behind]
    have hline := behind_line origin.source text
    by_cases hc : c = '\n'
    · simp [shift, after, newline, hc, hline]
      omega
    · simp only [shift, after, advance, hc, if_false, afterText_cons, afterText_nil]
      split
      · congr 1
        omega
      · rfl

theorem behind_append (source : String) (before text : List Char) :
    behind source (before ++ text) = (behind source before).shift (behind source text) := by
  rw [← afterText_behind, afterText_eq_shift]
  rfl

/-- A later offset is on a later line or in a later column. -/
theorem behind_take_ne {j k : Nat} (hjk : j < k) (hk : k ≤ text.length) :
    behind source (text.take j) ≠ behind source (text.take k) := by
  intro h
  have hsplit : text.take k = text.take j ++ (text.take k).drop j := by
    conv_lhs => rw [← List.take_append_drop j (text.take k), List.take_take,
      Nat.min_eq_left (Nat.le_of_lt hjk)]
  rw [hsplit, behind_append] at h
  have hline := congrArg Position.line h
  have hcolumn := congrArg Position.column h
  rw [line_shift, behind_line, behind_line] at hline
  have hn : '\n' ∉ (text.take k).drop j := List.count_eq_zero.1 (by omega)
  have hfirst : (behind source ((text.take k).drop j)).line = 1 := by rw [behind_line]; omega
  rw [column_shift _ hfirst, behind_column hn, List.length_drop, List.length_take] at hcolumn
  omega

theorem behind_take_inj {j k : Nat} (hj : j ≤ text.length) (hk : k ≤ text.length)
    (h : behind source (text.take j) = behind source (text.take k)) : j = k := by
  rcases Nat.lt_trichotomy j k with hlt | he | hgt
  · exact absurd h (behind_take_ne hlt hk)
  · exact he
  · exact absurd h.symm (behind_take_ne hgt hj)

end Scriptlet.Position
