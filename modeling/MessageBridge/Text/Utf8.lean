/-!
# Reading UTF-8

Bytes are read into symbols: a character, or the mark `none` for bytes that
encode no character. One mark stands for one longest run of bytes that begins a
character and is then broken off, which is where a reader that replaces invalid
bytes puts one replacement character.

The reader is a machine that takes one byte at a time. Between two characters
nothing is owed; inside one it holds the bits read so far, the number of bytes
still owed, and the bounds of the next byte. The bounds are those of a
continuation byte, except that the byte after `E0`, `ED`, `F0` and `F4` is held
to the range that excludes overlong forms, surrogates and numbers beyond the
last character.
-/

namespace MessageBridge.Text

/-- A character, or `none` for bytes that encode none. -/
abbrev Symbol := Option Char

namespace Utf8

/-- A character of which some bytes have been read. -/
structure Partial where
  /-- The bits read so far. -/
  bits : Nat
  /-- How many bytes are still owed, less one. -/
  owed : Nat
  /-- The least value of the next byte. -/
  low : Nat
  /-- The greatest value of the next byte. -/
  high : Nat

/-- What a byte does between two characters. -/
inductive Lead where
  | character (c : Char)
  | opens (p : Partial)
  | invalid

/-- The role of a byte between two characters. -/
def lead (b : Nat) : Lead :=
  if b < 0x80 then .character (Char.ofNat b)
  else if b < 0xC2 then .invalid
  else if b < 0xE0 then .opens ⟨b - 0xC0, 0, 0x80, 0xBF⟩
  else if b = 0xE0 then .opens ⟨0, 1, 0xA0, 0xBF⟩
  else if b = 0xED then .opens ⟨0xD, 1, 0x80, 0x9F⟩
  else if b < 0xF0 then .opens ⟨b - 0xE0, 1, 0x80, 0xBF⟩
  else if b = 0xF0 then .opens ⟨0, 2, 0x90, 0xBF⟩
  else if b < 0xF4 then .opens ⟨b - 0xF0, 2, 0x80, 0xBF⟩
  else if b = 0xF4 then .opens ⟨4, 2, 0x80, 0x8F⟩
  else .invalid

/-- Read on, with the character that is open, if one is. A byte outside the
bounds breaks the open character off and is then read afresh. -/
def symbolsFrom : Option Partial → List UInt8 → List Symbol
  | none, [] => []
  | some _, [] => [none]
  | none, b :: rest =>
    match lead b.toNat with
    | .character c => some c :: symbolsFrom none rest
    | .opens p => symbolsFrom (some p) rest
    | .invalid => none :: symbolsFrom none rest
  | some p, b :: rest =>
    let n := b.toNat
    if p.low ≤ n ∧ n ≤ p.high then
      let bits := p.bits * 64 + (n - 0x80)
      match p.owed with
      | 0 => some (Char.ofNat bits) :: symbolsFrom none rest
      | owed + 1 => symbolsFrom (some ⟨bits, owed, 0x80, 0xBF⟩) rest
    else
      match lead n with
      | .character c => none :: some c :: symbolsFrom none rest
      | .opens p => none :: symbolsFrom (some p) rest
      | .invalid => none :: none :: symbolsFrom none rest

end Utf8

/-- The symbols that a sequence of bytes encodes. -/
def symbols (bytes : ByteArray) : List Symbol :=
  Utf8.symbolsFrom none bytes.data.toList

/-- The text that a sequence of bytes encodes, with the replacement character
wherever the bytes encode none. -/
def decodeLossy (bytes : ByteArray) : String :=
  String.ofList ((symbols bytes).map (·.getD '\uFFFD'))

/-- The text that a sequence of bytes encodes, if all of them encode characters. -/
def decode? (bytes : ByteArray) : Option String :=
  ((symbols bytes).mapM id).map String.ofList

end MessageBridge.Text
