import MapScript.Text.Basic

/-!
# UTF-8

Octets as text and text as octets.  The first octet of a character fixes how many
octets follow it and the bounds of the next one, which rules out overlong forms
and surrogates; a fault names what is wrong with the first sequence that is not
a character.
-/

namespace MapScript.Text.Utf8

/-- What is wrong with an octet sequence. -/
inductive Fault where
  /-- An octet that begins no character. -/
  | start
  /-- An octet that does not continue the character begun before it. -/
  | continuation
  /-- The octets end inside a character. -/
  | truncated
deriving DecidableEq, Repr

/-- The words for a fault. -/
def Fault.message : Fault → Text
  | .start => "invalid start byte".toList
  | .continuation => "invalid continuation byte".toList
  | .truncated => "unexpected end of data".toList

/-- What the first octet of a longer character promises: the octets to follow,
the bits it contributes and the bounds of the next octet. -/
structure Lead where
  tail : Nat
  bits : Nat
  low : Nat
  high : Nat

/-- The promise of an octet that begins a character of several octets. -/
def lead? (octet : Nat) : Option Lead :=
  if octet < 0xC2 then none
  else if octet < 0xE0 then some ⟨1, octet - 0xC0, 0x80, 0xBF⟩
  else if octet == 0xE0 then some ⟨2, 0, 0xA0, 0xBF⟩
  else if octet == 0xED then some ⟨2, 0xD, 0x80, 0x9F⟩
  else if octet < 0xF0 then some ⟨2, octet - 0xE0, 0x80, 0xBF⟩
  else if octet == 0xF0 then some ⟨3, 0, 0x90, 0xBF⟩
  else if octet < 0xF4 then some ⟨3, octet - 0xF0, 0x80, 0xBF⟩
  else if octet == 0xF4 then some ⟨3, 4, 0x80, 0x8F⟩
  else none

/-- A character of which `owed` octets are missing: the bits so far and the
bounds of the next octet. -/
structure Pending where
  owed : Nat
  bits : Nat
  low : Nat
  high : Nat

/-- Decodes octets, continuing the character that stands open, if any. -/
def decodeFrom : Option Pending → List UInt8 → Except Fault Text
  | none, [] => .ok []
  | some _, [] => .error .truncated
  | none, octet :: rest =>
    if octet < 0x80 then do
      let text ← decodeFrom none rest
      return Char.ofNat octet.toNat :: text
    else
      match lead? octet.toNat with
      | none => .error .start
      | some lead => decodeFrom (some ⟨lead.tail, lead.bits, lead.low, lead.high⟩) rest
  | some p, octet :: rest =>
    if p.low ≤ octet.toNat && octet.toNat ≤ p.high then
      let bits := p.bits * 64 + octet.toNat % 64
      if p.owed ≤ 1 then do
        let text ← decodeFrom none rest
        return Char.ofNat bits :: text
      else decodeFrom (some ⟨p.owed - 1, bits, 0x80, 0xBF⟩) rest
    else .error .continuation

/-- The text that the octets encode. -/
def decode (octets : List UInt8) : Except Fault Text := decodeFrom none octets

/-- The octets of a character. -/
def encodeChar (c : Char) : List UInt8 :=
  let n := c.toNat
  let tail (shift : Nat) : UInt8 := (0x80 + n / shift % 64).toUInt8
  if n < 0x80 then [n.toUInt8]
  else if n < 0x800 then [(0xC0 + n / 64).toUInt8, tail 1]
  else if n < 0x10000 then [(0xE0 + n / 4096).toUInt8, tail 64, tail 1]
  else [(0xF0 + n / 262144).toUInt8, tail 4096, tail 64, tail 1]

/-- The octets of a text. -/
def encode (t : Text) : List UInt8 := t.flatMap encodeChar

end MapScript.Text.Utf8
