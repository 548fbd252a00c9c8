import AutomatonCheck.Command.Run

/-!
# The command `fsa`

The command on the real files and streams. Inputs are read in chunks and no further
than the lines of a description need.
-/
namespace AutomatonCheck

/-- Read on from a handle until the lines are complete, the input ends or reading fails. -/
partial def gather (handle : IO.FS.Stream) (cutter : LineCutter) (chunks : List (List UInt8)) :
    IO Source := do
  if cutter.isFull then return ⟨chunks.reverse, .finished⟩
  try
    let chunk := (← handle.read 8192).toList
    if chunk.isEmpty then return ⟨chunks.reverse, .finished⟩
    gather handle (cutter.feed chunk) (chunk :: chunks)
  catch _ => return ⟨chunks.reverse, .failed⟩

/-- The result of an action, unless it fails. -/
def attempt {α : Type} (action : IO α) : IO (Option α) := do
  try return some (← action) catch _ => return none

/-- The files and streams of this process as a host. -/
def processHost : Host IO IO.FS.Stream where
  openInput
    | .standard => return some (← gather (← IO.getStdin) .start [])
    | .file path => do
      match ← attempt (IO.FS.Handle.mk path .read) with
      | none => return none
      | some handle => return some (← gather (.ofHandle handle) .start [])
  createOutput
    | .standard => return some (← IO.getStdout)
    | .file path => do
      return (← attempt (IO.FS.Handle.mk path .write)).map IO.FS.Stream.ofHandle
  append stream text := do
    return (← attempt do stream.putStr text; stream.flush).isSome
  note text := IO.eprintln text

end AutomatonCheck

def main (arguments : List String) : IO UInt32 := do
  return (← AutomatonCheck.runCommand AutomatonCheck.processHost arguments).code.toUInt32
