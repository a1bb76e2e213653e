import Mathlib.Tactic.Common
import RoundRobin.Text.Reading

/-!
# Texts and their bytes

The bytes of a text are read back as that text (`decode_encode`), whatever characters it holds. A
character is encoded in one to four bytes (`Shape`), and for each number of bytes there is a lemma that
says what the decoder makes of a lead byte in its range and of bytes that may follow it (`Decoded.of_one`
to `Decoded.of_four`). If the bytes end too early, they await more (`Shape.decodeFrom_cut`).
-/

namespace RoundRobin.Text

namespace Decoded

variable {position : Nat} {lead second third fourth : UInt8} {r : Bytes}

theorem of_one (low : lead.toNat < 0x80) :
    decodeFrom position (lead :: r) = (decodeFrom (position + 1) r).prepend lead.toNat := by
  rw [decodeFrom.eq_def]
  exact if_pos (UInt8.lt_iff_toNat_lt.2 low)

theorem of_two (low : 0xC2 ≤ lead.toNat) (high : lead.toNat < 0xE0) (two : isContinuation second) :
    decodeFrom position (lead :: second :: r) = (decodeFrom (position + 2) r).prepend
      (lead.toNat % 32 * 64 + payload second) := by
  rw [decodeFrom.eq_def]
  simp only [UInt8.lt_iff_toNat_lt, UInt8.le_iff_toNat_le, UInt8.reduceToNat]
  rw [if_neg (by omega), if_neg (by omega), if_pos high, if_pos two]

theorem of_three (low : 0xE0 ≤ lead.toNat) (high : lead.toNat < 0xF0) (two : isSecond lead second)
    (three : isContinuation third) :
    decodeFrom position (lead :: second :: third :: r) = (decodeFrom (position + 3) r).prepend
      (lead.toNat % 16 * 4096 + payload second * 64 + payload third) := by
  rw [decodeFrom.eq_def]
  simp only [UInt8.lt_iff_toNat_lt, UInt8.le_iff_toNat_le, UInt8.reduceToNat]
  rw [if_neg (by omega), if_neg (by omega), if_neg (by omega), two, if_neg (by decide), three,
    if_neg (by decide), if_pos high]

theorem of_four (low : 0xF0 ≤ lead.toNat) (high : lead.toNat < 0xF5) (two : isSecond lead second)
    (three : isContinuation third) (four : isContinuation fourth) :
    decodeFrom position (lead :: second :: third :: fourth :: r)
      = (decodeFrom (position + 4) r).prepend (lead.toNat % 8 * 262144 + payload second * 4096
          + payload third * 64 + payload fourth) := by
  rw [decodeFrom.eq_def]
  simp only [UInt8.lt_iff_toNat_lt, UInt8.le_iff_toNat_le, UInt8.reduceToNat]
  rw [if_neg (by omega), if_neg (by omega), if_neg (by omega), two, if_neg (by decide), three,
    if_neg (by decide), if_neg (by omega), if_pos four]

theorem cut_one (low : 0xC2 ≤ lead.toNat) (high : lead.toNat < 0xF5) :
    decodeFrom position [lead] = .cut position [lead] := by
  rw [decodeFrom.eq_def]
  simp only [UInt8.lt_iff_toNat_lt, UInt8.le_iff_toNat_le, UInt8.reduceToNat]
  rw [if_neg (by omega), if_neg (by omega)]

theorem cut_two (low : 0xE0 ≤ lead.toNat) (high : lead.toNat < 0xF5) (two : isSecond lead second) :
    decodeFrom position [lead, second] = .cut position [lead, second] := by
  rw [decodeFrom.eq_def]
  simp only [UInt8.lt_iff_toNat_lt, UInt8.le_iff_toNat_le, UInt8.reduceToNat]
  rw [if_neg (by omega), if_neg (by omega), if_neg (by omega), two, if_neg (by decide)]

theorem cut_three (low : 0xF0 ≤ lead.toNat) (high : lead.toNat < 0xF5) (two : isSecond lead second)
    (three : isContinuation third) :
    decodeFrom position [lead, second, third] = .cut position [lead, second, third] := by
  rw [decodeFrom.eq_def]
  simp only [UInt8.lt_iff_toNat_lt, UInt8.le_iff_toNat_le, UInt8.reduceToNat]
  rw [if_neg (by omega), if_neg (by omega), if_neg (by omega), two, if_neg (by decide), three,
    if_neg (by decide), if_neg (by omega)]

end Decoded

/-! ### The bytes of a character -/

theorem toNat_ofNat {n : Nat} (small : n < 256) : (UInt8.ofNat n).toNat = n := by
  rw [UInt8.toNat_ofNat']
  omega

theorem isContinuation_ofNat (n : Nat) : isContinuation (UInt8.ofNat (n % 64 + 128)) := by
  simp only [isContinuation, Bool.and_eq_true, decide_eq_true_eq, UInt8.le_iff_toNat_le,
    toNat_ofNat (show n % 64 + 128 < 256 by omega), UInt8.reduceToNat]
  omega

theorem payload_ofNat (n : Nat) : payload (UInt8.ofNat (n % 64 + 128)) = n % 64 := by
  rw [payload, toNat_ofNat (by omega)]
  omega

/-- Which second bytes may follow a lead byte, in terms of their numbers. -/
theorem isSecond_iff (lead b : UInt8) : isSecond lead b ↔
    (if lead.toNat = 0xE0 then 0xA0 else if lead.toNat = 0xF0 then 0x90 else 0x80) ≤ b.toNat ∧
      b.toNat ≤ if lead.toNat = 0xED then 0x9F else if lead.toNat = 0xF4 then 0x8F else 0xBF := by
  unfold isSecond isContinuation
  simp only [← UInt8.toNat_inj, UInt8.le_iff_toNat_le, UInt8.reduceToNat]
  split_ifs <;> simp <;> omega

/-- The bytes of the character with a code: how many there are, in which range each of them is, and how
the code is made up of them. -/
inductive Shape (code : Nat) : Bytes → Prop where
  | one {lead : UInt8} (low : lead.toNat < 0x80) (sum : lead.toNat = code) : Shape code [lead]
  | two {lead second : UInt8} (low : 0xC2 ≤ lead.toNat) (high : lead.toNat < 0xE0)
    (two : isContinuation second) (sum : lead.toNat % 32 * 64 + payload second = code) :
    Shape code [lead, second]
  | three {lead second third : UInt8} (low : 0xE0 ≤ lead.toNat) (high : lead.toNat < 0xF0)
    (two : isSecond lead second) (three : isContinuation third)
    (sum : lead.toNat % 16 * 4096 + payload second * 64 + payload third = code) :
    Shape code [lead, second, third]
  | four {lead second third fourth : UInt8} (low : 0xF0 ≤ lead.toNat) (high : lead.toNat < 0xF5)
    (two : isSecond lead second) (three : isContinuation third) (four : isContinuation fourth)
    (sum : lead.toNat % 8 * 262144 + payload second * 4096 + payload third * 64 + payload fourth
      = code) : Shape code [lead, second, third, fourth]

theorem shape_encodeChar (c : Char) : Shape c.toNat (String.utf8EncodeChar c) := by
  -- surrogates and codes beyond the last one are no characters; this bounds the second byte
  have valid : c.toNat < 0xD800 ∨ 0xDFFF < c.toNat ∧ c.toNat < 0x110000 := c.valid
  have code : c.val.toNat = c.toNat := rfl
  unfold String.utf8EncodeChar
  simp only [code]
  generalize c.toNat = v at valid
  split_ifs with one two three
  · refine .one ?_ (toNat_ofNat (by omega))
    rw [toNat_ofNat (by omega)]
    exact Nat.lt_succ_of_le one
  · have lead : (UInt8.ofNat (v / 64 % 32 + 192)).toNat = v / 64 % 32 + 192 :=
      toNat_ofNat (by omega)
    refine .two ?_ ?_ (isContinuation_ofNat v) ?_
    · omega
    · omega
    · rw [payload_ofNat, lead]
      omega
  · have lead : (UInt8.ofNat (v / 4096 % 16 + 224)).toNat = v / 4096 % 16 + 224 :=
      toNat_ofNat (by omega)
    refine .three ?_ ?_ ?_ (isContinuation_ofNat v) ?_
    · omega
    · omega
    · rw [isSecond_iff, lead, toNat_ofNat (by omega)]
      split_ifs <;> omega
    · rw [payload_ofNat, payload_ofNat, lead]
      omega
  · have lead : (UInt8.ofNat (v / 262144 % 8 + 240)).toNat = v / 262144 % 8 + 240 :=
      toNat_ofNat (by omega)
    refine .four ?_ ?_ ?_ (isContinuation_ofNat _) (isContinuation_ofNat v) ?_
    · omega
    · omega
    · rw [isSecond_iff, lead, toNat_ofNat (by omega)]
      split_ifs <;> omega
    · rw [payload_ofNat, payload_ofNat, payload_ofNat, lead]
      omega

namespace Shape

variable {code : Nat} {bytes : Bytes}

/-- A character is read back from its bytes, and then what follows them. -/
theorem decodeFrom_append (shape : Shape code bytes) (position : Nat) (r : Bytes) :
    decodeFrom position (bytes ++ r)
      = (decodeFrom (position + bytes.length) r).prepend code := by
  cases shape with
  | one low sum => exact sum ▸ Decoded.of_one low
  | two low high two sum => exact sum ▸ Decoded.of_two low high two
  | three low high two three sum => exact sum ▸ Decoded.of_three low high two three
  | four low high two three four sum => exact sum ▸ Decoded.of_four low high two three four

/-- Some of the bytes of a character, but not all of them, await more. -/
theorem decodeFrom_cut (shape : Shape code bytes) (position : Nat) {begun left : Bytes}
    (split : bytes = begun ++ left) (some_begun : begun ≠ []) (some_left : left ≠ []) :
    decodeFrom position begun = .cut position begun := by
  cases begun with
  | nil => exact absurd rfl some_begun
  | cons lead begun =>
    cases shape with
    | one => simp_all
    | two low high two =>
      obtain ⟨rfl, later⟩ := List.cons_eq_cons.1 split
      cases begun with
      | nil => exact Decoded.cut_one low (by omega)
      | cons second begun => simp_all
    | three low high two three =>
      obtain ⟨rfl, later⟩ := List.cons_eq_cons.1 split
      cases begun with
      | nil => exact Decoded.cut_one (by omega) (by omega)
      | cons second begun =>
        obtain ⟨rfl, last⟩ := List.cons_eq_cons.1 later
        cases begun with
        | nil => exact Decoded.cut_two low (by omega) two
        | cons third begun => simp_all
    | four low high two three four =>
      obtain ⟨rfl, later⟩ := List.cons_eq_cons.1 split
      cases begun with
      | nil => exact Decoded.cut_one (by omega) high
      | cons second begun =>
        obtain ⟨rfl, last⟩ := List.cons_eq_cons.1 later
        cases begun with
        | nil => exact Decoded.cut_two (by omega) high two
        | cons third begun =>
          obtain ⟨rfl, rest⟩ := List.cons_eq_cons.1 last
          cases begun with
          | nil => exact Decoded.cut_three low high two three
          | cons fourth begun => simp_all

end Shape

/-- A character is read back from its bytes, and then what follows them. -/
theorem decodeFrom_encodeChar (position : Nat) (c : Char) (r : Bytes) :
    decodeFrom position (String.utf8EncodeChar c ++ r)
      = (decodeFrom (position + (String.utf8EncodeChar c).length) r).prepend c.toNat :=
  (shape_encodeChar c).decodeFrom_append position r

/-! ### Whole texts -/

theorem decodeFrom_encode (position : Nat) (cs : List Char) :
    decodeFrom position (encode cs) = ⟨cs, none⟩ := by
  induction cs generalizing position with
  | nil => rfl
  | cons c r ih =>
    have bytes : encode (c :: r) = String.utf8EncodeChar c ++ encode r := List.flatMap_cons
    rw [bytes, decodeFrom_encodeChar, ih, Decoded.prepend, Char.ofNat_toNat]

/-- A text is read back from its bytes. -/
theorem decode_encode (cs : List Char) : decode (encode cs) = ⟨cs, none⟩ := decodeFrom_encode 0 cs

/-- Two texts with the same bytes are the same. -/
theorem encode_inj {cs ds : List Char} (same : encode cs = encode ds) : cs = ds := by
  have decoded := congrArg (fun bytes => (decode bytes).chars) same
  simpa only [decode_encode] using decoded

theorem readWhole_encode (cs : List Char) : readWhole (encode cs) = .ok cs := by
  simp only [readWhole, decode_encode]

end RoundRobin.Text
