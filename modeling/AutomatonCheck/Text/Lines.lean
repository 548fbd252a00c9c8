import AutomatonCheck.Description.Section
import AutomatonCheck.Text.Utf8

/-!
# Reading the lines of a description

A source hands out its bytes in chunks and then ends or fails. Its lines are cut at line
feeds, no more of them than a description has, and a line loses one carriage return at
its end. The bytes after the last line feed are a line if there are any. A source that
fails before the lines are complete has none at all.
-/
namespace AutomatonCheck

def lineFeed : UInt8 := 10

def carriageReturn : UInt8 := 13

/-- What follows the last byte of a source. -/
inductive Ending where
  | finished
  | failed
  deriving DecidableEq

structure Source where
  chunks : List (List UInt8)
  ending : Ending
  deriving DecidableEq

namespace Source

/-- A source that hands out all bytes at once. -/
def ofBytes (bytes : List UInt8) : Source := ⟨[bytes], .finished⟩

end Source

/-- The lines that were cut off so far, and the bytes of the next line, last byte first. -/
structure LineCutter where
  lines : List (List UInt8)
  pending : List UInt8
  deriving DecidableEq

namespace LineCutter

def start : LineCutter := ⟨[], []⟩

/-- All lines of a description have been cut off. -/
def isFull (cutter : LineCutter) : Bool := lineCount ≤ cutter.lines.length

/-- Take in a byte, unless there are enough lines. -/
def push (cutter : LineCutter) (b : UInt8) : LineCutter :=
  if cutter.isFull then cutter
  else if b = lineFeed then ⟨cutter.lines ++ [cutter.pending.reverse], []⟩
  else ⟨cutter.lines, b :: cutter.pending⟩

def feed (cutter : LineCutter) (chunk : List UInt8) : LineCutter := chunk.foldl push cutter

/-- The lines of a source that ends here, if it may. -/
def close? (cutter : LineCutter) (ending : Ending) : Option (List (List UInt8)) :=
  if cutter.isFull then some cutter.lines
  else
    match ending with
    | .failed => none
    | .finished =>
      some (if cutter.pending.isEmpty then cutter.lines
        else cutter.lines ++ [cutter.pending.reverse])

end LineCutter

/-- A line without the carriage return at its end. -/
def dropReturn (bytes : List UInt8) : List UInt8 :=
  ([carriageReturn].isSuffixOf? bytes).getD bytes

/-- The text of a line. -/
def lineText (bytes : List UInt8) : String := String.ofList (Utf8.decode (dropReturn bytes))

/-- The bytes of the lines, unless the source fails while they are read. -/
def cutLines? (source : Source) : Option (List (List UInt8)) :=
  (source.chunks.foldl LineCutter.feed .start).close? source.ending

/-- The lines of a description, unless the source fails while they are read. -/
def readLines? (source : Source) : Option (List String) :=
  (cutLines? source).map fun lines => lines.map lineText

end AutomatonCheck
