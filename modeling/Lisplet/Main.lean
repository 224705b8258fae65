import Lisplet.CommandLine

/-!
The program. Its argument names a script; without one the script is read from
standard input.
-/
namespace Lisplet

def obstacle : IO.Error → CommandLine.Obstacle
  | .noFileOrDirectory .. => .missing
  | .permissionDenied .. => .denied
  | .inappropriateType .. => .isDirectory
  | e => .other (toString e)

/-- All bytes of a stream. -/
partial def readAll (stream : IO.FS.Stream) (got : ByteArray) : IO ByteArray := do
  let chunk ← stream.read 65536
  if chunk.isEmpty then return got else readAll stream (got ++ chunk)

def fetch (read : IO ByteArray) : IO (Except CommandLine.Obstacle ByteArray) := do
  try
    return .ok (← read)
  catch e =>
    return .error (obstacle e)

end Lisplet

open Lisplet in
def main (args : List String) : IO UInt32 := do
  let (name, script) ← match args with
    | path :: _ => do pure (path, ← fetch (IO.FS.readBinFile path))
    | [] => do pure ("stdin", ← fetch do readAll (← IO.getStdin) .empty)
  let outcome := CommandLine.run name script
  IO.print outcome.stdout
  IO.eprint outcome.stderr
  return outcome.status
