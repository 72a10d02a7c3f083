/-!
# UTF-8

Characters as bytes and back.  Encoding is the standard one.  Decoding is a
left fold of a small state machine over the bytes: the machine knows how many
continuation bytes the current character still needs and which values the next
one may have, so it notices at the first impossible byte that what it has read
is no character.

The bytes read up to that point form one *invalid part*, and the impossible
byte starts afresh.  A reader that must not lose its place replaces each invalid
part by one replacement character (`lossy`); a reader that insists on text
refuses the whole input (`strict?`).
-/

namespace TinyLisp.Utf8

/-- The bytes of a text. -/
def encode (s : String) : List UInt8 :=
  s.toList.flatMap String.utf8EncodeChar

/-- What the decoder is in the middle of. -/
inductive State
  /-- Between two characters. -/
  | start
  /-- Inside a character: `need + 1` more bytes are to come, the next of them in
  `lo`–`hi`, and `acc` holds the bits gathered so far. -/
  | inside (need : Nat) (lo hi : UInt8) (acc : Nat)
  deriving DecidableEq, Repr

/-- A decoder: what it is in the middle of, and what it has decoded, last first.
An invalid part is decoded to `none`. -/
structure Decoder where
  state : State := .start
  decoded : List (Option Char) := []

namespace Decoder

/-- The decoder has recognised a character or an invalid part. -/
def emit (d : Decoder) (c : Option Char) : Decoder :=
  { state := .start, decoded := c :: d.decoded }

/-- Reads the first byte of a character.  The ranges for the second byte exclude
overlong forms, surrogates and code points above U+10FFFF. -/
def lead (d : Decoder) (b : UInt8) : Decoder :=
  if b < 0x80 then d.emit (some (Char.ofNat b.toNat))
  else if b < 0xC2 then d.emit none
  else if b < 0xE0 then { d with state := .inside 0 0x80 0xBF (b.toNat % 32) }
  else if b = 0xE0 then { d with state := .inside 1 0xA0 0xBF 0 }
  else if b = 0xED then { d with state := .inside 1 0x80 0x9F 13 }
  else if b < 0xF0 then { d with state := .inside 1 0x80 0xBF (b.toNat % 16) }
  else if b = 0xF0 then { d with state := .inside 2 0x90 0xBF 0 }
  else if b < 0xF4 then { d with state := .inside 2 0x80 0xBF (b.toNat % 8) }
  else if b = 0xF4 then { d with state := .inside 2 0x80 0x8F 4 }
  else d.emit none

/-- Reads one byte. -/
def feed (d : Decoder) (b : UInt8) : Decoder :=
  match d.state with
  | .start => d.lead b
  | .inside need lo hi acc =>
    if lo ≤ b ∧ b ≤ hi then
      match need with
      | 0 => d.emit (some (Char.ofNat (acc * 64 + b.toNat % 64)))
      | need + 1 => { d with state := .inside need 0x80 0xBF (acc * 64 + b.toNat % 64) }
    else (d.emit none).lead b

/-- Everything decoded, in order; a character that the end of the input cuts
short is an invalid part. -/
def finish (d : Decoder) : List (Option Char) :=
  match d.state with
  | .start => d.decoded.reverse
  | .inside .. => (none :: d.decoded).reverse

end Decoder

/-- The characters and invalid parts of a byte sequence, in order. -/
def scan (bytes : List UInt8) : List (Option Char) :=
  (bytes.foldl Decoder.feed {}).finish

/-- The character that stands for an invalid part. -/
def replacement : Char := '\uFFFD'

/-- Decodes any bytes, with one replacement character for each invalid part. -/
def lossy (bytes : List UInt8) : List Char :=
  (scan bytes).map (·.getD replacement)

/-- What is reported of bytes that hold an invalid part. -/
def complaint : String := "stream did not contain valid UTF-8"

/-- Decodes bytes that hold no invalid part. -/
def strict? (bytes : List UInt8) : Option String :=
  if (scan bytes).all Option.isSome then some (String.ofList ((scan bytes).filterMap id))
  else none

end TinyLisp.Utf8
