import Scriptlet.Diagnostic

/-!
Reading bytes as UTF-8. Each character is one byte, or a lead byte and the bytes that may follow it;
the first byte that rules the rest out, or the end inside a character, is reported.
-/

namespace Scriptlet.Utf8

/-- A range of bytes, both ends included. -/
structure ByteRange where
  low : UInt8
  high : UInt8
deriving DecidableEq

def ByteRange.contains (r : ByteRange) (b : UInt8) : Bool := r.low ≤ b && b ≤ r.high

def continuation : ByteRange := ⟨0x80, 0xbf⟩

/-- What a byte at the start of a character says: the bits it gives to the code point, and the
ranges of the bytes that follow. The narrower second ranges leave out overlong forms, surrogates
and all beyond the last code point. -/
def lead? (b : UInt8) : Option (Nat × List ByteRange) :=
  if b < 0x80 then some (b.toNat, [])
  else if b < 0xc2 then none
  else if b < 0xe0 then some (b.toNat - 0xc0, [continuation])
  else if b < 0xf0 then
    let second : ByteRange :=
      if b = 0xe0 then ⟨0xa0, 0xbf⟩ else if b = 0xed then ⟨0x80, 0x9f⟩ else continuation
    some (b.toNat - 0xe0, [second, continuation])
  else if b < 0xf5 then
    let second : ByteRange :=
      if b = 0xf0 then ⟨0x90, 0xbf⟩ else if b = 0xf4 then ⟨0x80, 0x8f⟩ else continuation
    some (b.toNat - 0xf0, [second, continuation, continuation])
  else none

/-- Bytes that are as the ranges ask for, and what comes behind them; or the good ones before the
first that is not, and why it is not. -/
def follow : List ByteRange → List UInt8 → Except (List UInt8 × Utf8Reason) (List UInt8 × List UInt8)
  | [], rest => .ok ([], rest)
  | _ :: _, [] => .error ([], .truncated)
  | r :: rs, b :: rest =>
    if r.contains b then
      match follow rs rest with
      | .ok (bytes, rest) => .ok (b :: bytes, rest)
      | .error (good, reason) => .error (b :: good, reason)
    else .error ([], .continuation)

theorem length_le_of_follow {rs : List ByteRange} {text bytes rest : List UInt8}
    (h : follow rs text = .ok (bytes, rest)) : rest.length ≤ text.length := by
  induction rs generalizing text bytes rest with
  | nil => cases h; simp
  | cons r rs ih =>
    cases text with
    | nil => simp [follow] at h
    | cons b text =>
      simp only [follow] at h
      split at h
      · split at h
        next hf =>
          cases h
          have := ih hf
          simp only [List.length_cons]
          omega
        next => simp at h
      · simp at h

/-- The code point with the given leading bits, six more from each byte. -/
def codePoint (bits : Nat) (bytes : List UInt8) : Nat :=
  bytes.foldl (fun n b => 64 * n + b.toNat % 64) bits

/-- The characters of bytes that start at an offset. -/
def decodeFrom (offset : Nat) (bytes : List UInt8) : Except Utf8Fault (List Char) :=
  match bytes with
  | [] => .ok []
  | b :: rest =>
    match lead? b with
    | none => .error ⟨offset, [b], .start⟩
    | some (bits, ranges) =>
      match _h : follow ranges rest with
      | .error (good, reason) => .error ⟨offset, b :: good, reason⟩
      | .ok (more, rest) =>
        match decodeFrom (offset + 1 + more.length) rest with
        | .error fault => .error fault
        | .ok text => .ok (Char.ofNat (codePoint bits more) :: text)
termination_by bytes.length
decreasing_by exact Nat.lt_succ_of_le (length_le_of_follow _h)

def decode (bytes : List UInt8) : Except Utf8Fault String :=
  (decodeFrom 0 bytes).map String.ofList

end Scriptlet.Utf8
