import RoundRobin.Text.Line

/-!
# UTF-8

Texts as bytes and back. Decoding reads as many whole characters as it can and then says what
stopped it, if anything did: a byte that starts no character, a byte that does not continue the
character begun, or the end of the bytes within a character. The strict ranges of the second byte
exclude overlong forms, surrogates and codes beyond the last one. A text is made of characters, which
surrogates are not, so every text has bytes.
-/

namespace RoundRobin.Text

/-- The content of a file. -/
abbrev Bytes := List UInt8

/-- The bytes of a text. -/
def encode (cs : List Char) : Bytes := cs.flatMap String.utf8EncodeChar

/-- Why bytes are not a character. -/
inductive FlawKind where
  | invalidStart
  | invalidContinuation
  | unexpectedEnd
  deriving DecidableEq, Repr

/-- The first bytes that are not part of a character: where they stand, which they are, and what
is wrong with them. -/
structure Flaw where
  position : Nat
  bytes : Bytes
  kind : FlawKind
  /-- Whether a reader that is given the bytes piece by piece waits for more of them before it sees
  the flaw. -/
  awaitsMore : Bool
  deriving DecidableEq, Repr

/-- What decoding makes of some bytes: the characters before the first flaw, and the flaw. -/
structure Decoded where
  chars : List Char
  flaw : Option Flaw
  deriving DecidableEq, Repr

namespace Decoded

/-- Nothing decoded, because of a flaw that more bytes cannot mend. -/
def stop (position : Nat) (bytes : Bytes) (kind : FlawKind) : Decoded :=
  ⟨[], some ⟨position, bytes, kind, false⟩⟩

/-- Nothing decoded, because the bytes end. -/
def cut (position : Nat) (bytes : Bytes) : Decoded :=
  ⟨[], some ⟨position, bytes, .unexpectedEnd, true⟩⟩

/-- Nothing decoded, because of a second byte that cannot follow the given one. A surrogate is no
character, but is waited for until its third byte. -/
def refuseSecond (position : Nat) (lead second : UInt8) (later : Bytes) : Decoded :=
  let awaitsMore := lead = 0xED ∧ 0xA0 ≤ second ∧ second ≤ 0xBF ∧ later.isEmpty
  ⟨[], some ⟨position, [lead], .invalidContinuation, awaitsMore⟩⟩

/-- One more character in front. -/
def prepend (code : Nat) (rest : Decoded) : Decoded := ⟨Char.ofNat code :: rest.chars, rest.flaw⟩

end Decoded

/-- Whether a byte continues a character. -/
def isContinuation (b : UInt8) : Bool := 0x80 ≤ b && b ≤ 0xBF

/-- Whether a byte may be the second one of a character of three or four bytes that starts with
the given byte. -/
def isSecond (lead b : UInt8) : Bool :=
  if lead = 0xE0 then 0xA0 ≤ b && b ≤ 0xBF
  else if lead = 0xED then 0x80 ≤ b && b ≤ 0x9F
  else if lead = 0xF0 then 0x90 ≤ b && b ≤ 0xBF
  else if lead = 0xF4 then 0x80 ≤ b && b ≤ 0x8F
  else isContinuation b

/-- The part of a code that a continuing byte carries. -/
def payload (b : UInt8) : Nat := b.toNat % 64

/-- The characters of some bytes, the first of which has the given position. -/
def decodeFrom : Nat → Bytes → Decoded
  | _, [] => ⟨[], none⟩
  | position, lead :: r =>
    if lead < 0x80 then (decodeFrom (position + 1) r).prepend lead.toNat
    else if lead < 0xC2 ∨ 0xF5 ≤ lead then .stop position [lead] .invalidStart
    else
      match r with
      | [] => .cut position [lead]
      | second :: r =>
        if lead < 0xE0 then
          if isContinuation second then
            (decodeFrom (position + 2) r).prepend (lead.toNat % 32 * 64 + payload second)
          else .stop position [lead] .invalidContinuation
        else if !isSecond lead second then .refuseSecond position lead second r
        else
          match r with
          | [] => .cut position [lead, second]
          | third :: r =>
            if !isContinuation third then .stop position [lead, second] .invalidContinuation
            else if lead < 0xF0 then
              (decodeFrom (position + 3) r).prepend
                (lead.toNat % 16 * 4096 + payload second * 64 + payload third)
            else
              match r with
              | [] => .cut position [lead, second, third]
              | fourth :: r =>
                if isContinuation fourth then
                  (decodeFrom (position + 4) r).prepend
                    (lead.toNat % 8 * 262144 + payload second * 4096 + payload third * 64
                      + payload fourth)
                else .stop position [lead, second, third] .invalidContinuation

/-- The characters of a whole file up to its first flaw. -/
def decode (bytes : Bytes) : Decoded := decodeFrom 0 bytes

namespace FlawKind

def message : FlawKind → String
  | invalidStart => "invalid start byte"
  | invalidContinuation => "invalid continuation byte"
  | unexpectedEnd => "unexpected end of data"

end FlawKind

namespace Flaw

/-- A byte in hexadecimal. -/
def hexByte (b : UInt8) : String :=
  let ds := Nat.toDigits 16 b.toNat
  String.ofList ('0' :: 'x' :: List.replicate (2 - ds.length) '0' ++ ds)

/-- A single byte is shown, several are given by their positions. -/
def message (f : Flaw) : String :=
  let place :=
    match f.bytes with
    | [b] => "byte " ++ hexByte b ++ " in position " ++ toString f.position
    | bs => "bytes in position " ++ toString f.position ++ "-"
        ++ toString (f.position + bs.length - 1)
  "'utf-8' codec can't decode " ++ place ++ ": " ++ f.kind.message

end Flaw

end RoundRobin.Text
