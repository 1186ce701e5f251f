import Scriptlet.Value

/-!
No value is shown over more than one line, so what a call writes is one line.
-/

namespace Scriptlet

namespace NumberStyle

theorem newline_notMem_positional {wholeEnd digits : List Char} (hw : '\n' ∉ wholeEnd)
    (hd : '\n' ∉ digits) (exponent : Int) : '\n' ∉ positional wholeEnd digits exponent := by
  have hz (n : Nat) : '\n' ∉ List.replicate n '0' := fun h => by
    simpa using List.eq_of_mem_replicate h
  have htake (n : Nat) : '\n' ∉ digits.take n := fun h => hd (List.mem_of_mem_take h)
  have hdrop (n : Nat) : '\n' ∉ digits.drop n := fun h => hd (List.mem_of_mem_drop h)
  simp only [positional]
  split
  · simp [hw, hd]
  · split <;> simp [hd, htake, hdrop]

theorem newline_notMem_double (d : Double) : '\n' ∉ shown.double d := by
  cases d with
  | nan => decide
  | infinite negative => cases negative <;> decide
  | finite negative mantissa exponent =>
    have hs : '\n' ∉ double.sign negative := by cases negative <;> decide
    have hd (c : Nat) : '\n' ∉ Nat.toDigits 10 c := fun h => by
      simpa using Nat.isDigit_of_mem_toDigits (by decide) (by decide) h
    rw [double, List.mem_append, not_or]
    exact ⟨hs, newline_notMem_positional (by decide) (hd _) _⟩

end NumberStyle

theorem Value.newline_notMem_text (v : Value) : '\n' ∉ v.text.toList := by
  cases v with
  | number x => simpa [text, NumberStyle.render] using NumberStyle.newline_notMem_double _
  | boolean b => cases b <;> decide
  | nothing => decide
  | native f => exact (by decide : '\n' ∉ "BuiltIn function".toList)

theorem newline_notMem_spaced {parts : List String} (h : ∀ s ∈ parts, '\n' ∉ s.toList) :
    '\n' ∉ (" ".intercalate parts).toList := by
  induction parts with
  | nil => decide
  | cons s parts ih =>
    obtain ⟨hs, hp⟩ := List.forall_mem_cons.1 h
    cases parts with
    | nil => simpa using hs
    | cons t parts => simpa [String.intercalate_cons_cons, hs] using ih hp

theorem Native.newline_notMem_line (f : Native) (args : List Value) :
    '\n' ∉ (f.invoke args).1.toList := by
  cases f with
  | print =>
    refine newline_notMem_spaced fun s hs => ?_
    obtain ⟨v, -, rfl⟩ := List.mem_map.1 hs
    exact v.newline_notMem_text

end Scriptlet
