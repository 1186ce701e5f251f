import Mathlib
import Scriptlet.FileTable
import Scriptlet.Proofs.CharacterBytes

/-!
Bytes and the texts that they encode. Bytes are read as a text just if they are its encoding; all
others are reported where the longest readable part ends, with the bytes that still go together.
-/

namespace Scriptlet

namespace Utf8

variable {b : UInt8} {bits offset : Nat} {ranges : List ByteRange}
  {bytes more good rest text : List UInt8} {reason : Utf8Reason} {fault : Utf8Fault}

/-- The bytes of a text. -/
def encode (text : List Char) : List UInt8 := text.flatMap String.utf8EncodeChar

@[simp] theorem encode_nil : encode [] = [] := rfl

@[simp] theorem encode_cons (c : Char) (text : List Char) :
    encode (c :: text) = String.utf8EncodeChar c ++ encode text := rfl

theorem toByteArray_inj {bytes more : List UInt8} :
    bytes.toByteArray = more.toByteArray ↔ bytes = more := by
  refine ⟨fun h => ?_, fun h => by rw [h]⟩
  simpa using congrArg (fun a => a.data.toList) h

theorem toByteArray_eq_toUTF8_iff {text : String} :
    bytes.toByteArray = text.toUTF8 ↔ bytes = encode text.toList := by
  rw [← toByteArray_inj, String.toUTF8, ← String.utf8Encode_toList]
  rfl

theorem isValidUTF8_iff : bytes.toByteArray.IsValidUTF8 ↔ ∃ text, bytes = encode text := by
  constructor
  · intro h
    obtain ⟨text, ht⟩ := h
    exact ⟨text, toByteArray_inj.1 ht⟩
  · intro h
    obtain ⟨text, rfl⟩ := h
    exact ⟨text, rfl⟩

theorem follow_of_meets (h : Meets ranges bytes) : follow ranges (bytes ++ rest) =
    .ok (bytes, rest) := by
  induction h with
  | nil => rfl
  | cons hb _ ih => simp [follow, hb, ih]

theorem follow_eq_ok (h : follow ranges text = .ok (bytes, rest)) :
    text = bytes ++ rest ∧ Meets ranges bytes := by
  induction ranges generalizing text bytes with
  | nil =>
    cases h
    exact ⟨rfl, .nil⟩
  | cons r ranges ih =>
    cases text with
    | nil => simp [follow] at h
    | cons b text =>
      simp only [follow] at h
      split at h
      next hb =>
        split at h
        next hf =>
          cases h
          obtain ⟨rfl, hm⟩ := ih hf
          exact ⟨rfl, .cons hb hm⟩
        next => simp at h
      next => simp at h

/-- Why the bytes behind a lead byte stop: there is none left, or the next one is out of its range. -/
theorem follow_eq_error (h : follow ranges text = .error (good, reason)) :
    ∃ front r back rest, ranges = front ++ r :: back ∧ text = good ++ rest ∧ Meets front good ∧
      (reason = .truncated ∧ rest = [] ∨
        reason = .continuation ∧ ∃ next tail, rest = next :: tail ∧ ¬ r.contains next) := by
  induction ranges generalizing text good with
  | nil => simp [follow] at h
  | cons r ranges ih =>
    cases text with
    | nil =>
      cases h
      exact ⟨[], r, ranges, [], rfl, rfl, .nil, .inl ⟨rfl, rfl⟩⟩
    | cons b text =>
      simp only [follow] at h
      split at h
      next hb =>
        split at h
        next => simp at h
        next hf =>
          cases h
          obtain ⟨front, s, back, rest, rfl, rfl, hm, hr⟩ := ih hf
          exact ⟨r :: front, s, back, rest, rfl, rfl, .cons hb hm, hr⟩
      next hb =>
        cases h
        exact ⟨[], r, ranges, b :: text, rfl, rfl, .nil, .inr ⟨rfl, b, text, rfl, hb⟩⟩

end Utf8

open Utf8

/-- What is said of bytes from which no character follows: what is shown of them begins none, or the
byte behind it goes on with none, or no byte is behind it. -/
inductive SaysWhy (rest shown : List UInt8) : String → Prop
  | start (h : ∀ c, ¬ shown <+: String.utf8EncodeChar c) : SaysWhy rest shown "invalid start byte"
  | continuation {next : UInt8} (h : Begins shown) (hp : shown ++ [next] <+: rest)
      (hn : ¬ Begins (shown ++ [next])) : SaysWhy rest shown "invalid continuation byte"
  | truncated (h : Begins shown) (hr : shown = rest) : SaysWhy rest shown "unexpected end of data"

theorem SaysWhy.unique {rest shown : List UInt8} {reason other : String}
    (h : SaysWhy rest shown reason) (h' : SaysWhy rest shown other) : reason = other := by
  have hstart (hn : ∀ c, ¬ shown <+: String.utf8EncodeChar c) : ¬ Begins shown := by
    intro hb
    obtain ⟨c, -, hp⟩ := hb
    exact hn c hp
  have hend (hr : shown = rest) (next : UInt8) : ¬ shown ++ [next] <+: rest := by
    intro hp
    have hlen := hp.length_le
    rw [← hr, List.length_append, List.length_singleton] at hlen
    omega
  cases h with
  | start hn =>
    cases h' with
    | start => rfl
    | continuation hb => exact absurd hb (hstart hn)
    | truncated hb => exact absurd hb (hstart hn)
  | continuation hb hp =>
    cases h' with
    | start hn => exact absurd hb (hstart hn)
    | continuation => rfl
    | truncated _ hr => exact absurd hp (hend hr _)
  | truncated hb hr =>
    cases h' with
    | start hn => exact absurd hb (hstart hn)
    | continuation _ hp => exact absurd hp (hend hr _)
    | truncated => rfl

theorem Utf8Reason.message_injective {reason other : Utf8Reason}
    (h : reason.message = other.message) : reason = other := by
  revert h
  cases reason <;> cases other <;> decide

/-- No character follows. What is shown of the bytes is the first one and as many as go together. -/
structure Breaks (rest shown : List UInt8) (reason : Utf8Reason) : Prop where
  ne_nil : shown ≠ []
  shown_prefix : shown <+: rest
  begins : shown.length = 1 ∨ Begins shown
  longest : ∀ run, run <+: rest → Begins run → run.length ≤ shown.length
  explained : SaysWhy rest shown reason.message

namespace Breaks

variable {b : UInt8} {bits : Nat} {ranges : List ByteRange} {good rest shown seen : List UInt8}
  {reason other : Utf8Reason}

theorem of_no_lead (h : lead? b = none) : Breaks (b :: rest) [b] .start := by
  have hnone : ∀ c, ¬ [b] <+: String.utf8EncodeChar c := by
    intro c hp
    obtain ⟨more, hc⟩ := hp
    obtain ⟨bits, ranges, hb, -⟩ := encode_eq_cons_iff.1 hc.symm
    simp [h] at hb
  refine ⟨by simp, by simp, .inl rfl, fun run hr hb => ?_, .start hnone⟩
  cases run with
  | nil => simp
  | cons d run =>
    obtain ⟨rfl, -⟩ := List.cons_prefix_cons.1 hr
    have hd : [d] <+: d :: run := by simp
    obtain ⟨c, -, hp⟩ := hb.of_prefix hd
    exact absurd hp (hnone c)

theorem of_follow (hb : lead? b = some (bits, ranges))
    (h : follow ranges rest = .error (good, reason)) : Breaks (b :: rest) (b :: good) reason := by
  obtain ⟨front, r, back, tail, rfl, rfl, hm, hr⟩ := follow_eq_error h
  have hbegins : Begins (b :: good) := begins_cons_iff.2 ⟨bits, front, r :: back, hb, by simp, hm⟩
  -- the byte behind what goes together is out of the range that it would have to be in
  have hstop {next : UInt8} (hn : ¬ r.contains next) : ¬ Begins (b :: good ++ [next]) := by
    intro hbegins
    obtain ⟨bits', front', back', hb', -, hm'⟩ := begins_cons_iff.1 hbegins
    obtain ⟨met, last, rfl, hmet, hlast⟩ := hm'.split
    obtain ⟨s, hs⟩ : ∃ s, last = [s] := List.length_eq_one_iff.1 hlast.length_eq
    subst hs
    have hall : front ++ r :: back = met ++ s :: back' := by
      have he := (Prod.mk.inj (Option.some.inj (hb.symm.trans hb'))).2
      simpa using he
    have hlen : front.length = met.length := hm.length_eq.trans hmet.length_eq.symm
    obtain ⟨-, htail⟩ := List.append_inj hall hlen
    obtain ⟨rfl, -⟩ := List.cons.inj htail
    exact hn (meets_cons.1 hlast).1
  refine ⟨by simp, List.prefix_append (b :: good) tail, .inr hbegins, fun run hrun hbr => ?_, ?_⟩
  · rcases hr with ⟨-, rfl⟩ | ⟨-, next, tail, rfl, hn⟩
    · simpa using hrun.length_le
    · refine Nat.le_of_not_lt fun hlt => hstop hn (hbr.of_prefix ?_)
      have hnext : b :: good ++ [next] <+: b :: (good ++ next :: tail) := by simp
      refine List.prefix_of_prefix_length_le hnext hrun ?_
      simpa using Nat.succ_le_of_lt hlt
  · rcases hr with ⟨rfl, rfl⟩ | ⟨rfl, next, tail, rfl, hn⟩
    · exact .truncated hbegins (by simp)
    · exact .continuation hbegins (by simp) (hstop hn)

theorem length_le (h : Breaks rest shown reason) (h' : Breaks rest seen other) :
    shown.length ≤ seen.length := by
  rcases h.begins with hone | hbegins
  · have hpos := List.length_pos_iff.2 h'.ne_nil
    omega
  · exact h'.longest shown h.shown_prefix hbegins

/-- The bytes settle what is shown of them and why. -/
theorem unique (h : Breaks rest shown reason) (h' : Breaks rest seen other) :
    shown = seen ∧ reason = other := by
  have hlen := Nat.le_antisymm (h.length_le h') (h'.length_le h)
  have hshown : shown = seen :=
    (List.prefix_of_prefix_length_le h.shown_prefix h'.shown_prefix (Nat.le_of_eq hlen)).eq_of_length
      hlen
  subst hshown
  exact ⟨rfl, Utf8Reason.message_injective (h.explained.unique h'.explained)⟩

end Breaks

namespace Utf8

variable {b : UInt8} {bits offset : Nat} {bytes rest : List UInt8} {text : List Char}
  {fault : Utf8Fault}

theorem decodeFrom_char (c : Char) : decodeFrom offset (String.utf8EncodeChar c ++ rest) =
    (decodeFrom (offset + (String.utf8EncodeChar c).length) rest).map (c :: ·) := by
  obtain ⟨b, more, bits, ranges, he, hb, hm, hc⟩ := spells_encode c
  have hf : follow ranges (more ++ rest) = .ok (more, rest) := follow_of_meets hm
  rw [he, List.cons_append, decodeFrom, hb]
  simp only
  split
  next h => simp [hf] at h
  next h =>
    cases hf.symm.trans h
    rw [hc, Char.ofNat_toNat, List.length_cons, ← Nat.add_assoc, Nat.add_right_comm]
    cases decodeFrom (offset + more.length + 1) rest <;> rfl

theorem decodeFrom_encode (text : List Char) : decodeFrom offset (encode text ++ rest) =
    (decodeFrom (offset + (encode text).length) rest).map (text ++ ·) := by
  induction text generalizing offset with
  | nil =>
    cases h : decodeFrom offset rest <;> simp [h, Except.map]
  | cons c text ih =>
    rw [encode_cons, List.append_assoc, decodeFrom_char, ih, List.length_append, ← Nat.add_assoc]
    cases decodeFrom (offset + (String.utf8EncodeChar c).length + (encode text).length) rest <;> rfl

theorem decodeFrom_eq_ok (h : decodeFrom offset bytes = .ok text) : bytes = encode text := by
  fun_induction decodeFrom offset bytes generalizing text with
  | case1 =>
    cases h
    rfl
  | case2 | case3 => simp at h
  | case4 offset b rest bits ranges hb more tail hf fault hd ih =>
    simp at h
  | case5 offset b rest bits ranges hb more tail hf text' hd ih =>
    cases h
    obtain ⟨rfl, hm⟩ := follow_eq_ok hf
    have hc := encode_eq_cons_iff.2 ⟨bits, ranges, hb, hm, rfl⟩
    rw [encode_cons, hc, ← ih hd, List.cons_append]

theorem decodeFrom_eq_error (h : decodeFrom offset bytes = .error fault) :
    ∃ text rest, bytes = encode text ++ rest ∧ fault.start = offset + (encode text).length ∧
      Breaks rest fault.bytes fault.reason := by
  fun_induction decodeFrom offset bytes with
  | case1 => simp at h
  | case2 offset b rest hb =>
    cases h
    exact ⟨[], b :: rest, rfl, rfl, .of_no_lead hb⟩
  | case3 offset b rest bits ranges hb good reason hf =>
    cases h
    exact ⟨[], b :: rest, rfl, rfl, .of_follow hb hf⟩
  | case4 offset b rest bits ranges hb more tail hf fault' hd ih =>
    cases h
    obtain ⟨rfl, hm⟩ := follow_eq_ok hf
    obtain ⟨text, rest, rfl, hstart, hbreaks⟩ := ih hd
    have hc := encode_eq_cons_iff.2 ⟨bits, ranges, hb, hm, rfl⟩
    refine ⟨Char.ofNat (codePoint bits more) :: text, rest, ?_, ?_, hbreaks⟩
    · rw [encode_cons, hc, List.append_assoc, List.cons_append]
    · rw [encode_cons, hc, hstart]
      simp only [List.length_append, List.length_cons]
      omega
  | case5 => simp at h

theorem decode_eq_ok_iff {text : String} :
    decode bytes = .ok text ↔ bytes.toByteArray = text.toUTF8 := by
  rw [toByteArray_eq_toUTF8_iff, decode]
  constructor
  · intro h
    cases hd : decodeFrom 0 bytes with
    | error fault => simp [hd, Except.map] at h
    | ok chars =>
      rw [hd] at h
      cases h
      rw [String.toList_ofList]
      exact decodeFrom_eq_ok hd
  · intro h
    have hd : decodeFrom 0 (encode text.toList ++ []) =
        (decodeFrom (0 + (encode text.toList).length) []).map (text.toList ++ ·) :=
      decodeFrom_encode text.toList
    rw [List.append_nil, ← h, decodeFrom] at hd
    rw [hd]
    simp [Except.map]

end Utf8

/-- The fault says how far the bytes are UTF-8 and why they are not from there on. -/
structure Utf8Fault.Describes (fault : Utf8Fault) (bytes : List UInt8) : Prop where
  start_le : fault.start ≤ bytes.length
  valid : (bytes.take fault.start).toByteArray.IsValidUTF8
  longest : ∀ n ≤ bytes.length, (bytes.take n).toByteArray.IsValidUTF8 → n ≤ fault.start
  breaks : Breaks (bytes.drop fault.start) fault.bytes fault.reason

namespace Utf8Fault

variable {bytes : List UInt8} {fault other : Utf8Fault}

theorem Describes.unique (h : fault.Describes bytes) (h' : other.Describes bytes) :
    fault = other := by
  obtain ⟨start, shown, reason⟩ := fault
  obtain ⟨start', shown', reason'⟩ := other
  obtain rfl : start = start' :=
    Nat.le_antisymm (h'.longest start h.start_le h.valid) (h.longest start' h'.start_le h'.valid)
  obtain ⟨rfl, rfl⟩ := h.breaks.unique h'.breaks
  rfl

theorem describes_of_decode (h : Utf8.decode bytes = .error fault) : fault.Describes bytes := by
  have hd : Utf8.decodeFrom 0 bytes = .error fault := by
    rw [Utf8.decode] at h
    cases hd : Utf8.decodeFrom 0 bytes with
    | error other =>
      rw [hd] at h
      cases h
      rfl
    | ok chars => simp [hd, Except.map] at h
  obtain ⟨text, rest, hbytes, hstart, hbreaks⟩ := Utf8.decodeFrom_eq_error hd
  rw [Nat.zero_add] at hstart
  have htake : bytes.take fault.start = Utf8.encode text := by rw [hbytes, hstart, List.take_left]
  have hdrop : bytes.drop fault.start = rest := by rw [hbytes, hstart, List.drop_left]
  refine ⟨?_, Utf8.isValidUTF8_iff.2 ⟨text, htake⟩, fun n hn hv => ?_, hdrop ▸ hbreaks⟩
  · rw [hbytes, hstart, List.length_append]
    omega
  · obtain ⟨longer, hl⟩ := Utf8.isValidUTF8_iff.1 hv
    have hlen : (Utf8.encode longer).length = n := by rw [← hl, List.length_take, Nat.min_eq_left hn]
    -- reading goes over the longer text first, so it stops no earlier than behind it
    have hd' : Utf8.decodeFrom 0 (Utf8.encode longer ++ bytes.drop n) =
        (Utf8.decodeFrom (0 + (Utf8.encode longer).length) (bytes.drop n)).map (longer ++ ·) :=
      Utf8.decodeFrom_encode longer
    rw [← hl, List.take_append_drop, hd, hl, hlen, Nat.zero_add] at hd'
    cases hr : Utf8.decodeFrom n (bytes.drop n) with
    | ok chars => simp [hr, Except.map] at hd'
    | error later =>
      obtain ⟨_, _, _, hlater, _⟩ := Utf8.decodeFrom_eq_error hr
      rw [hr] at hd'
      cases hd'
      omega

/-- The broken bytes as a report names them: one by its digits, several by their places. -/
def spot (fault : Utf8Fault) : String :=
  match fault.bytes with
  | [b] => "byte 0x" ++ String.ofList (Text.hexDigits 2 b.toNat) ++ " in position " ++
      toString fault.start
  | bytes => "bytes in position " ++ toString fault.start ++ "-" ++
      toString (fault.start + bytes.length - 1)

theorem message_eq (fault : Utf8Fault) : fault.message =
    "'utf-8' codec can't decode " ++ fault.spot ++ ": " ++ fault.reason.message := rfl

end Utf8Fault

/-- A readable file holds a text just if its bytes are the encoding of the text. Every other file is
refused at its start; the report names the place where the longest part that is UTF-8 ends, the
bytes that go together from there on, and what is wrong behind them. -/
theorem loadText_decodes {read : Path → Except OpenFault (List UInt8)} {p : Path}
    {bytes : List UInt8} (h : read p = .ok bytes) :
    (∀ text, loadText read p = .ok text ↔ bytes.toByteArray = text.toUTF8) ∧
    ((¬ ∃ text : String, bytes.toByteArray = text.toUTF8) → ∃ fault : Utf8Fault,
      let report : LoadFault := ⟨p.text, .notUtf8 fault⟩
      loadText read p = .error report ∧
      (∀ other : Utf8Fault, other.Describes bytes ↔ other = fault) ∧
      (Diagnostic.load report).position = ⟨p.text, 1, 1⟩ ∧
      (Diagnostic.load report).message = "Can't open " ++ p.text ++ (", file is not valid utf8. " ++
        ("'utf-8' codec can't decode " ++ fault.spot ++ ": " ++ fault.reason.message))) := by
  have hload : loadText read p =
      (Utf8.decode bytes).mapError fun fault => ⟨p.text, .notUtf8 fault⟩ := by
    rw [loadText, h]
  rw [hload]
  have hok (text : String) : (Utf8.decode bytes).mapError (fun fault =>
      (⟨p.text, .notUtf8 fault⟩ : LoadFault)) = .ok text ↔ bytes.toByteArray = text.toUTF8 := by
    rw [← Utf8.decode_eq_ok_iff]
    cases Utf8.decode bytes <;> simp [Except.mapError]
  refine ⟨hok, fun hnone => ?_⟩
  cases hd : Utf8.decode bytes with
  | ok text => exact absurd ⟨text, Utf8.decode_eq_ok_iff.1 hd⟩ hnone
  | error fault =>
    have hdescribes := Utf8Fault.describes_of_decode hd
    refine ⟨fault, rfl, fun other => ⟨fun ho => ho.unique hdescribes, fun ho => ?_⟩, rfl, ?_⟩
    · rw [ho]
      exact hdescribes
    · rw [← Utf8Fault.message_eq]
      rfl

/-- Three of the four bytes of a character at the end of a file. -/
theorem loadText_decodes_cut_character :
    let bytes : List UInt8 := [0x61, 0xf0, 0x9f, 0x98]
    let table := FileTable.ofList [("a.omg", some bytes)]
    let p : Path := ⟨"a.omg", by decide⟩
    let fault : Utf8Fault := ⟨1, [0xf0, 0x9f, 0x98], .truncated⟩
    table.read p = .ok bytes ∧ (¬ ∃ text : String, bytes.toByteArray = text.toUTF8) ∧
      loadText table.read p = .error ⟨"a.omg", .notUtf8 fault⟩ ∧
      ∀ other : Utf8Fault, other.Describes bytes ↔ other = fault := by
  intro bytes table p fault
  have hread : table.read p = .ok bytes := by cbv
  have hload : loadText table.read p = .error ⟨"a.omg", .notUtf8 fault⟩ := by cbv
  obtain ⟨hok, herror⟩ := loadText_decodes hread
  have hnone : ¬ ∃ text : String, bytes.toByteArray = text.toUTF8 := by
    intro hsome
    obtain ⟨text, ht⟩ := hsome
    have hload' := (hok text).2 ht
    rw [hload] at hload'
    cases hload'
  obtain ⟨other, hother, hdescribes, -⟩ := herror hnone
  rw [hload] at hother
  cases hother
  exact ⟨hread, hnone, hload, hdescribes⟩

end Scriptlet
