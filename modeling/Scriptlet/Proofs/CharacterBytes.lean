import Mathlib.Data.List.Forall2
import Scriptlet.Text.Utf8

/-!
The bytes of one character. The lead bytes and the ranges behind them give just the encodings of the
characters, and whatever meets the first of the ranges can be completed to one.
-/

namespace Scriptlet.Utf8

variable {b x y z : UInt8} {bits n : Nat} {r : ByteRange} {c : Char}
  {ranges front back : List ByteRange} {bytes more run rest text : List UInt8}

/-- Every byte is in its range. -/
def Meets (ranges : List ByteRange) (bytes : List UInt8) : Prop :=
  List.Forall₂ (fun r b => r.contains b) ranges bytes

@[simp] theorem meets_nil : Meets [] bytes ↔ bytes = [] := List.forall₂_nil_left_iff

@[simp] theorem meets_cons :
    Meets (r :: ranges) (b :: bytes) ↔ r.contains b ∧ Meets ranges bytes :=
  List.forall₂_cons

theorem Meets.length_eq (h : Meets ranges bytes) : ranges.length = bytes.length :=
  List.Forall₂.length_eq h

theorem Meets.exists_cons (h : Meets (r :: ranges) bytes) :
    ∃ b rest, bytes = b :: rest ∧ r.contains b ∧ Meets ranges rest := by
  cases h with
  | cons hb hs => exact ⟨_, _, rfl, hb, hs⟩

theorem Meets.append (h : Meets front bytes) (h' : Meets back more) :
    Meets (front ++ back) (bytes ++ more) :=
  List.rel_append h h'

/-- What is split off the bytes meets what is split off the ranges. -/
theorem Meets.split (h : Meets ranges (bytes ++ more)) : ∃ front back,
    ranges = front ++ back ∧ Meets front bytes ∧ Meets back more := by
  induction bytes generalizing ranges with
  | nil => exact ⟨[], ranges, rfl, .nil, h⟩
  | cons b bytes ih =>
    cases h with
    | @cons r _ ranges _ hb hs =>
      obtain ⟨front, back, rfl, hf, hm⟩ := ih hs
      exact ⟨r :: front, back, rfl, .cons hb hf, hm⟩

/-- The range of the second of three bytes. -/
def secondOfThree (lead : Nat) : ByteRange :=
  if lead = 0xe0 then ⟨0xa0, 0xbf⟩ else if lead = 0xed then ⟨0x80, 0x9f⟩ else continuation

/-- The range of the second of four bytes. -/
def secondOfFour (lead : Nat) : ByteRange :=
  if lead = 0xf0 then ⟨0x90, 0xbf⟩ else if lead = 0xf4 then ⟨0x80, 0x8f⟩ else continuation

theorem lead?_eq_some_iff : lead? b = some (bits, ranges) ↔
    b.toNat < 0x80 ∧ bits = b.toNat ∧ ranges = [] ∨
    (0xc2 ≤ b.toNat ∧ b.toNat < 0xe0) ∧ bits = b.toNat - 0xc0 ∧ ranges = [continuation] ∨
    (0xe0 ≤ b.toNat ∧ b.toNat < 0xf0) ∧ bits = b.toNat - 0xe0 ∧
      ranges = [secondOfThree b.toNat, continuation] ∨
    (0xf0 ≤ b.toNat ∧ b.toNat < 0xf5) ∧ bits = b.toNat - 0xf0 ∧
      ranges = [secondOfFour b.toNat, continuation, continuation] := by
  simp only [lead?, secondOfThree, secondOfFour, UInt8.lt_iff_toNat_lt, ← UInt8.toNat_inj,
    UInt8.toNat_ofNat]
  grind

theorem contains_iff : r.contains b ↔ r.low.toNat ≤ b.toNat ∧ b.toNat ≤ r.high.toNat := by
  simp [ByteRange.contains, UInt8.le_iff_toNat_le]

theorem continuation_contains_iff : continuation.contains b ↔ 0x80 ≤ b.toNat ∧ b.toNat < 0xc0 := by
  rw [contains_iff]
  simp [continuation]
  omega

theorem secondOfThree_contains_iff {lead : Nat} : (secondOfThree lead).contains b ↔
    (0x80 ≤ b.toNat ∧ b.toNat < 0xc0) ∧ (lead = 0xe0 → 0xa0 ≤ b.toNat) ∧
      (lead = 0xed → b.toNat < 0xa0) := by
  rw [contains_iff, secondOfThree]
  split
  · simp
    omega
  · split <;> simp [continuation] <;> omega

theorem secondOfFour_contains_iff {lead : Nat} : (secondOfFour lead).contains b ↔
    (0x80 ≤ b.toNat ∧ b.toNat < 0xc0) ∧ (lead = 0xf0 → 0x90 ≤ b.toNat) ∧
      (lead = 0xf4 → b.toNat < 0x90) := by
  rw [contains_iff, secondOfFour]
  split
  · simp
    omega
  · split <;> simp [continuation] <;> omega

/-- Every range that a lead byte asks for holds a byte. -/
theorem exists_meets_of_lead (h : lead? b = some (bits, front ++ back)) :
    ∃ fill, Meets back fill := by
  have hlow : ∀ r ∈ front ++ back, r.contains r.low := by
    have hthree : (secondOfThree b.toNat).contains (secondOfThree b.toNat).low := by
      rw [secondOfThree]
      split <;> [decide; split <;> decide]
    have hfour : (secondOfFour b.toNat).contains (secondOfFour b.toNat).low := by
      rw [secondOfFour]
      split <;> [decide; split <;> decide]
    have hmore : continuation.contains continuation.low := by decide
    rcases lead?_eq_some_iff.1 h with ⟨-, -, hr⟩ | ⟨-, -, hr⟩ | ⟨-, -, hr⟩ | ⟨-, -, hr⟩ <;>
      simp [hr, hthree, hfour, hmore]
  refine ⟨back.map ByteRange.low, ?_⟩
  rw [Meets, List.forall₂_map_right_iff, List.forall₂_same]
  exact fun r hr => hlow r (List.mem_append_right _ hr)

theorem toNat_ofNat (h : n < 256) : (UInt8.ofNat n).toNat = n := by
  rw [UInt8.toNat_ofNat', Nat.mod_eq_of_lt h]

theorem ofNat_eq_iff (h : n < 256) : UInt8.ofNat n = b ↔ n = b.toNat := by
  rw [← UInt8.toNat_inj, toNat_ofNat h]

/-- The bytes are a lead byte and bytes in the ranges that it asks for, and give the number. -/
def Spells (bytes : List UInt8) (number : Nat) : Prop := ∃ b more bits ranges,
  bytes = b :: more ∧ lead? b = some (bits, ranges) ∧ Meets ranges more ∧
    codePoint bits more = number

section spells
variable {v : Nat}

theorem spells_one (h : v < 0x80) : Spells [.ofNat v] v := by
  have hb := toNat_ofNat (n := v) (by omega)
  exact ⟨_, _, v, [], rfl, lead?_eq_some_iff.2 (.inl ⟨by omega, by omega, rfl⟩), .nil, rfl⟩

theorem spells_two (hl : 0x80 ≤ v) (hh : v < 0x800) :
    Spells [.ofNat (v / 64 % 0x20 + 0xc0), .ofNat (v % 0x40 + 0x80)] v := by
  have hb := toNat_ofNat (n := v / 64 % 0x20 + 0xc0) (by omega)
  have hx := toNat_ofNat (n := v % 0x40 + 0x80) (by omega)
  refine ⟨_, _, v / 64, _, rfl,
    lead?_eq_some_iff.2 (.inr (.inl ⟨by omega, by omega, rfl⟩)), ?_, ?_⟩
  · simp only [meets_cons, meets_nil, and_true, continuation_contains_iff]
    omega
  · simp only [codePoint, List.foldl_cons, List.foldl_nil]
    omega

theorem spells_three (hl : 0x800 ≤ v) (hh : v < 0x10000) (hs : v < 0xd800 ∨ 0xdfff < v) :
    Spells [.ofNat (v / 4096 % 0x10 + 0xe0), .ofNat (v / 64 % 0x40 + 0x80),
      .ofNat (v % 0x40 + 0x80)] v := by
  have hb := toNat_ofNat (n := v / 4096 % 0x10 + 0xe0) (by omega)
  have hx := toNat_ofNat (n := v / 64 % 0x40 + 0x80) (by omega)
  have hy := toNat_ofNat (n := v % 0x40 + 0x80) (by omega)
  refine ⟨_, _, v / 4096, _, rfl,
    lead?_eq_some_iff.2 (.inr (.inr (.inl ⟨by omega, by omega, rfl⟩))), ?_, ?_⟩
  · simp only [meets_cons, meets_nil, and_true, continuation_contains_iff,
      secondOfThree_contains_iff]
    omega
  · simp only [codePoint, List.foldl_cons, List.foldl_nil]
    omega

theorem spells_four (hl : 0x10000 ≤ v) (hh : v < 0x110000) :
    Spells [.ofNat (v / 262144 % 0x08 + 0xf0), .ofNat (v / 4096 % 0x40 + 0x80),
      .ofNat (v / 64 % 0x40 + 0x80), .ofNat (v % 0x40 + 0x80)] v := by
  have hb := toNat_ofNat (n := v / 262144 % 0x08 + 0xf0) (by omega)
  have hx := toNat_ofNat (n := v / 4096 % 0x40 + 0x80) (by omega)
  have hy := toNat_ofNat (n := v / 64 % 0x40 + 0x80) (by omega)
  have hz := toNat_ofNat (n := v % 0x40 + 0x80) (by omega)
  refine ⟨_, _, v / 262144, _, rfl,
    lead?_eq_some_iff.2 (.inr (.inr (.inr ⟨by omega, by omega, rfl⟩))), ?_, ?_⟩
  · simp only [meets_cons, meets_nil, and_true, continuation_contains_iff,
      secondOfFour_contains_iff]
    omega
  · simp only [codePoint, List.foldl_cons, List.foldl_nil]
    omega

end spells

theorem spells_encode (c : Char) : Spells (String.utf8EncodeChar c) c.toNat := by
  have hv : c.val.toNat.isValidChar := c.valid
  rw [Nat.isValidChar] at hv
  have hc : c.toNat = c.val.toNat := rfl
  rw [hc, String.utf8EncodeChar]
  generalize c.val.toNat = v at hv ⊢
  split
  next => exact spells_one (by omega)
  next =>
    split
    next => exact spells_two (by omega) (by omega)
    next =>
      split
      next => exact spells_three (by omega) (by omega) (by omega)
      next => exact spells_four (by omega) (by omega)

theorem exists_char (h : n.isValidChar) : ∃ c : Char, c.val.toNat = n := ⟨.ofNatAux n h, rfl⟩

theorem exists_encode_one (hb : b.toNat < 0x80) : ∃ c, String.utf8EncodeChar c = [b] := by
  obtain ⟨c, hc⟩ := exists_char (n := b.toNat) (by rw [Nat.isValidChar]; omega)
  refine ⟨c, ?_⟩
  rw [String.utf8EncodeChar, hc, if_pos (by omega), (ofNat_eq_iff b.toNat_lt).2 rfl]

theorem exists_encode_two (hb : 0xc2 ≤ b.toNat ∧ b.toNat < 0xe0) (hx : continuation.contains x) :
    ∃ c, String.utf8EncodeChar c = [b, x] := by
  rw [continuation_contains_iff] at hx
  obtain ⟨c, hc⟩ := exists_char (n := 64 * (b.toNat - 0xc0) + (x.toNat - 0x80))
    (by rw [Nat.isValidChar]; omega)
  refine ⟨c, ?_⟩
  rw [String.utf8EncodeChar, hc, if_neg (by omega), if_pos (by omega)]
  simp only [List.cons.injEq, and_true]
  rw [ofNat_eq_iff (by omega), ofNat_eq_iff (by omega)]
  omega

theorem exists_encode_three (hb : 0xe0 ≤ b.toNat ∧ b.toNat < 0xf0)
    (hx : (secondOfThree b.toNat).contains x) (hy : continuation.contains y) :
    ∃ c, String.utf8EncodeChar c = [b, x, y] := by
  rw [secondOfThree_contains_iff] at hx
  rw [continuation_contains_iff] at hy
  obtain ⟨c, hc⟩ := exists_char
    (n := 4096 * (b.toNat - 0xe0) + 64 * (x.toNat - 0x80) + (y.toNat - 0x80))
    (by rw [Nat.isValidChar]; omega)
  refine ⟨c, ?_⟩
  rw [String.utf8EncodeChar, hc, if_neg (by omega), if_neg (by omega), if_pos (by omega)]
  simp only [List.cons.injEq, and_true]
  rw [ofNat_eq_iff (by omega), ofNat_eq_iff (by omega), ofNat_eq_iff (by omega)]
  omega

theorem exists_encode_four (hb : 0xf0 ≤ b.toNat ∧ b.toNat < 0xf5)
    (hx : (secondOfFour b.toNat).contains x) (hy : continuation.contains y)
    (hz : continuation.contains z) : ∃ c, String.utf8EncodeChar c = [b, x, y, z] := by
  rw [secondOfFour_contains_iff] at hx
  rw [continuation_contains_iff] at hy hz
  obtain ⟨c, hc⟩ := exists_char (n := 262144 * (b.toNat - 0xf0) + 4096 * (x.toNat - 0x80) +
    64 * (y.toNat - 0x80) + (z.toNat - 0x80)) (by rw [Nat.isValidChar]; omega)
  refine ⟨c, ?_⟩
  rw [String.utf8EncodeChar, hc, if_neg (by omega), if_neg (by omega), if_neg (by omega)]
  simp only [List.cons.injEq, and_true]
  rw [ofNat_eq_iff (by omega), ofNat_eq_iff (by omega), ofNat_eq_iff (by omega),
    ofNat_eq_iff (by omega)]
  omega

/-- A lead byte and bytes in the ranges that it asks for are the bytes of a character. -/
theorem exists_encode_of_lead (hb : lead? b = some (bits, ranges)) (hm : Meets ranges more) :
    ∃ c, String.utf8EncodeChar c = b :: more := by
  rcases lead?_eq_some_iff.1 hb with ⟨hn, -, rfl⟩ | ⟨hn, -, rfl⟩ | ⟨hn, -, rfl⟩ | ⟨hn, -, rfl⟩
  · obtain rfl := meets_nil.1 hm
    exact exists_encode_one hn
  · obtain ⟨x, xs, rfl, hx, hm⟩ := hm.exists_cons
    obtain rfl := meets_nil.1 hm
    exact exists_encode_two hn hx
  · obtain ⟨x, xs, rfl, hx, hm⟩ := hm.exists_cons
    obtain ⟨y, ys, rfl, hy, hm⟩ := hm.exists_cons
    obtain rfl := meets_nil.1 hm
    exact exists_encode_three hn hx hy
  · obtain ⟨x, xs, rfl, hx, hm⟩ := hm.exists_cons
    obtain ⟨y, ys, rfl, hy, hm⟩ := hm.exists_cons
    obtain ⟨z, zs, rfl, hz, hm⟩ := hm.exists_cons
    obtain rfl := meets_nil.1 hm
    exact exists_encode_four hn hx hy hz

/-- The lead byte and the bytes behind it say which character they are the bytes of. -/
theorem encode_eq_cons_iff : String.utf8EncodeChar c = b :: more ↔ ∃ bits ranges,
    lead? b = some (bits, ranges) ∧ Meets ranges more ∧ c = Char.ofNat (codePoint bits more) := by
  constructor
  · intro h
    obtain ⟨b', more', bits, ranges, he, hb, hm, hc⟩ := spells_encode c
    cases h.symm.trans he
    exact ⟨bits, ranges, hb, hm, by rw [hc, Char.ofNat_toNat]⟩
  · intro h
    obtain ⟨bits, ranges, hb, hm, rfl⟩ := h
    obtain ⟨d, hd⟩ := exists_encode_of_lead hb hm
    obtain ⟨b', more', bits', ranges', he, hb', -, hc⟩ := spells_encode d
    cases hd.symm.trans he
    cases hb.symm.trans hb'
    rw [hc, Char.ofNat_toNat, hd]

/-- The bytes are the beginning of a character that has more than one byte. -/
def Begins (run : List UInt8) : Prop :=
  ∃ c, 1 < (String.utf8EncodeChar c).length ∧ run <+: String.utf8EncodeChar c

theorem Begins.of_prefix (h : Begins run) (hp : bytes <+: run) : Begins bytes := by
  obtain ⟨c, hc, hr⟩ := h
  exact ⟨c, hc, hp.trans hr⟩

theorem begins_cons_iff : Begins (b :: run) ↔ ∃ bits front back,
    lead? b = some (bits, front ++ back) ∧ front ++ back ≠ [] ∧ Meets front run := by
  constructor
  · intro h
    obtain ⟨c, hlen, more, hc⟩ := h
    rw [List.cons_append] at hc
    obtain ⟨bits, ranges, hb, hm, -⟩ := encode_eq_cons_iff.1 hc.symm
    obtain ⟨front, back, rfl, hf, -⟩ := hm.split
    refine ⟨bits, front, back, hb, ?_, hf⟩
    intro hnil
    have hall := hm.length_eq
    rw [← hc, List.length_cons, ← hall, hnil] at hlen
    simp at hlen
  · intro h
    obtain ⟨bits, front, back, hb, hne, hf⟩ := h
    obtain ⟨fill, hfill⟩ := exists_meets_of_lead hb
    obtain ⟨c, hc⟩ := exists_encode_of_lead hb (hf.append hfill)
    refine ⟨c, ?_, fill, hc.symm⟩
    have hpos := List.length_pos_iff.2 hne
    rw [(hf.append hfill).length_eq] at hpos
    rw [hc, List.length_cons]
    omega

end Scriptlet.Utf8
