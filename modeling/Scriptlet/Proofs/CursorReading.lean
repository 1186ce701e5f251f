import Scriptlet.Proofs.ExpressionReading
import Scriptlet.Program

/-!
Reading at a cursor: an expression takes the tokens from the cursor to where it comes to stand, and
one more token is looked at.
-/

namespace Scriptlet

open Token Scriptlet.Expr

namespace TokenSeq

/-- The tokens at the indexes from `i` up to `j`, the latter left out. -/
def segment (s : TokenSeq) (i j : Nat) : List Token := (List.range' i (j - i)).map s.get

variable {s t : TokenSeq} {i j k : Nat}

@[simp] theorem length_segment : (s.segment i j).length = j - i := by simp [segment]

theorem segment_congr (h : ∀ k, i ≤ k → k < j → s.get k = t.get k) :
    s.segment i j = t.segment i j := by
  refine List.map_congr_left fun k hk => ?_
  have hk := List.mem_range'_1.1 hk
  exact h k hk.1 (by omega)

theorem segment_append_drop (hi : i ≤ j) (hj : j ≤ s.body.length) :
    s.segment i j ++ s.body.drop j = s.body.drop i := by
  have hs : s.segment i j = (s.body.drop i).take (j - i) := by
    refine List.ext_getElem (by simp; omega) fun k hk hk' => ?_
    have hk : i + k < s.body.length := by simp at hk; omega
    simp [segment, get, List.getElem?_eq_getElem hk]
  have hd : s.body.drop j = (s.body.drop i).drop (j - i) := by
    rw [List.drop_drop]
    congr
    omega
  rw [hs, hd, List.take_append_drop]

theorem get_mem (s : TokenSeq) (i : Nat) : s.get i ∈ s.toList := by
  rw [get, toList, List.mem_append, List.mem_singleton]
  cases h : s.body[i]? with
  | none => exact .inr rfl
  | some t => exact .inl (List.mem_of_getElem? h)

theorem get_body_length : s.get s.body.length = s.last := get_of_length_le (Nat.le_refl _)

theorem head?_drop_getD : (s.body.drop i).head?.getD s.last = s.get i := by
  simp [get, List.head?_drop]

end TokenSeq

namespace Cursor

variable {c d : Cursor} {i room : Nat} {e : Expr} {front rest : List Token}

theorem eq_moveTo_iff (hi : i ≤ c.tokens.body.length) :
    c.moveTo i = d ↔ d.tokens = c.tokens ∧ d.index = i := by
  obtain ⟨s, k, hk⟩ := d
  constructor
  · intro h
    cases h
    exact ⟨rfl, Nat.min_eq_left hi⟩
  · intro h
    obtain ⟨rfl, rfl⟩ := h
    simp [moveTo, Nat.min_eq_left hi]

theorem index_lt_of_kind (h : c.current.kind ≠ .finish) : c.index < c.tokens.body.length := by
  refine Nat.lt_of_not_le fun hle => h ?_
  rw [current, TokenSeq.get_of_length_le hle, c.tokens.last_kind]

theorem index_next (h : c.index < c.tokens.body.length) : c.next.index = c.index + 1 :=
  Nat.min_eq_left h

theorem rest_eq_cons (h : c.index < c.tokens.body.length) : c.rest = c.current :: c.next.rest := by
  rw [rest, rest, tokens_next, index_next h, List.drop_eq_getElem_cons h, current, TokenSeq.get,
    List.getElem?_eq_getElem h, Option.getD_some]

/-- The next token is the one that is looked at, also on the end mark. -/
theorem current_next (c : Cursor) : c.next.current = c.peek := by
  by_cases h : c.index < c.tokens.body.length
  · rw [current, index_next h, tokens_next, peek]
  · have hle : c.tokens.body.length ≤ c.index + 1 := by omega
    rw [current, tokens_next, peek, TokenSeq.get_of_length_le hle]
    exact TokenSeq.get_of_length_le (Nat.le_min.2 ⟨hle, Nat.le_refl _⟩)

theorem moveToRest_rest (h : d.tokens = c.tokens) : c.moveToRest d.rest = d := by
  have hd := d.index_le
  rw [h] at hd
  rw [moveToRest, eq_moveTo_iff (Nat.sub_le _ _), rest, List.length_drop, h]
  exact ⟨rfl, by omega⟩

/-- What is split off the tokens to come is a segment. -/
theorem rest_eq_append_iff : c.rest = front ++ rest ↔
    ∃ j, c.index ≤ j ∧ j ≤ c.tokens.body.length ∧ front = c.tokens.segment c.index j ∧
      rest = c.tokens.body.drop j := by
  constructor
  · intro h
    have hlen : c.tokens.body.length - c.index = front.length + rest.length := by
      simpa [Cursor.rest] using congrArg List.length h
    have hle := c.index_le
    have hj : c.index + front.length ≤ c.tokens.body.length := by omega
    have hs := TokenSeq.segment_append_drop (Nat.le_add_right c.index front.length) hj
    obtain ⟨hf, hr⟩ := List.append_inj (h.symm.trans hs.symm) (by simp)
    exact ⟨_, Nat.le_add_right _ _, hj, hf, hr⟩
  · intro h
    obtain ⟨j, hi, hj, rfl, rfl⟩ := h
    exact (TokenSeq.segment_append_drop hi hj).symm

theorem expression_eq_ok_iff_run : c.expression room = (.ok e, d) ↔
    ∃ rest, (Parser.expression room).run c.rest = .ok (e, rest) ∧
      c.moveTo (c.tokens.body.length - rest.length - 1) = d := by
  rw [expression]
  split
  next e' rest h =>
    constructor
    · intro hd
      cases hd
      exact ⟨rest, h, rfl⟩
    · intro h
      obtain ⟨rest', h', rfl⟩ := h
      cases h.symm.trans h'
      rfl
  next halt h => simp [h]

end Cursor

end Scriptlet
