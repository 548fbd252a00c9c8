/-!
# UTF-8

`encode` writes the bytes of a text. `decode` reads a text from any bytes: what is no
UTF-8 is replaced, one replacement character for each longest piece that a well-formed
sequence could start with, and for each byte that no sequence starts with.

The decoder reads one byte at a time. A lead byte settles how many bytes follow and, so
that no character has a second encoding and no surrogate has any, the range of the
first of them; all others lie between `80` and `BF`.
-/
namespace AutomatonCheck.Utf8

/-- An inclusive range of bytes. -/
structure ByteRange where
  low : UInt8
  high : UInt8
  deriving DecidableEq

namespace ByteRange

def contains (range : ByteRange) (b : UInt8) : Bool := range.low ≤ b && b ≤ range.high

end ByteRange

/-- The range of a byte that continues a sequence, where the lead byte does not narrow it. -/
def trail : ByteRange := ⟨0x80, 0xBF⟩

/-- What the decoder has read of an unfinished sequence. -/
inductive Progress where
  | idle
  /-- The bits so far, the range of the next byte and the ranges of the bytes after it. -/
  | within (bits : Nat) (following : ByteRange) (later : List ByteRange)
  deriving DecidableEq

def replacement : Char := '\uFFFD'

/-- Start a sequence with a byte. -/
def lead (b : UInt8) : List Char × Progress :=
  if b < 0x80 then ([Char.ofNat b.toNat], .idle)
  else if b < 0xC2 then ([replacement], .idle)
  else if b < 0xE0 then ([], .within (b.toNat % 0x20) trail [])
  else if b = 0xE0 then ([], .within (b.toNat % 0x10) ⟨0xA0, 0xBF⟩ [trail])
  else if b = 0xED then ([], .within (b.toNat % 0x10) ⟨0x80, 0x9F⟩ [trail])
  else if b < 0xF0 then ([], .within (b.toNat % 0x10) trail [trail])
  else if b = 0xF0 then ([], .within (b.toNat % 0x08) ⟨0x90, 0xBF⟩ [trail, trail])
  else if b < 0xF4 then ([], .within (b.toNat % 0x08) trail [trail, trail])
  else if b = 0xF4 then ([], .within (b.toNat % 0x08) ⟨0x80, 0x8F⟩ [trail, trail])
  else ([replacement], .idle)

/-- Read a byte. One that cannot continue the sequence cuts it off and starts another. -/
def step : Progress → UInt8 → List Char × Progress
  | .idle, b => lead b
  | .within bits following later, b =>
    if following.contains b then
      let bits := bits * 0x40 + b.toNat % 0x40
      match later with
      | [] => ([Char.ofNat bits], .idle)
      | range :: rest => ([], .within bits range rest)
    else
      let (chars, progress) := lead b
      (replacement :: chars, progress)

/-- What becomes of an unfinished sequence at the end. -/
def flush : Progress → List Char
  | .idle => []
  | .within .. => [replacement]

/-- The characters read so far, last character first, and the sequence being read. -/
structure Decoder where
  chars : List Char
  progress : Progress
  deriving DecidableEq

namespace Decoder

def start : Decoder := ⟨[], .idle⟩

def push (decoder : Decoder) (b : UInt8) : Decoder :=
  let (chars, progress) := step decoder.progress b
  ⟨chars.reverse ++ decoder.chars, progress⟩

/-- The text of the bytes taken in. -/
def close (decoder : Decoder) : List Char := decoder.chars.reverse ++ flush decoder.progress

end Decoder

def decode (bytes : List UInt8) : List Char := (bytes.foldl Decoder.push .start).close

def encode (chars : List Char) : List UInt8 := chars.flatMap String.utf8EncodeChar

end AutomatonCheck.Utf8
