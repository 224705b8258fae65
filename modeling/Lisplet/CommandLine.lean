import Lisplet.Session

/-!
The command line: it runs one script, from a file or from standard input. What
`print` writes goes to standard output, a report to standard error.
-/
namespace Lisplet.CommandLine

inductive Obstacle where
  | missing
  | denied
  | isDirectory
  /-- The bytes are not UTF-8. -/
  | notText
  | other (reason : String)
  deriving DecidableEq, Repr

def Obstacle.message : Obstacle → String
  | missing => "No such file or directory (os error 2)"
  | denied => "Permission denied (os error 13)"
  | isDirectory => "Is a directory (os error 21)"
  | notText => "stream did not contain valid UTF-8"
  | other reason => reason

structure Outcome where
  stdout : String := ""
  stderr : String := ""
  status : UInt32 := 0

def failure (stdout message : String) : Outcome :=
  { stdout, stderr := message ++ "\n", status := 1 }

/-- Run the bytes of a script that goes by `name`, or report why there are none. -/
def run (name : String) (script : Except Obstacle ByteArray) : Outcome :=
  match script with
  | .error obstacle => unreadable obstacle
  | .ok bytes =>
    match String.fromUTF8? bytes with
    | none => unreadable .notText
    | some text =>
      match Session.fresh.runScript text with
      | (none, s) => { stdout := s.state.out.text }
      | (some report, s) => failure s.state.out.text report
where
  unreadable (obstacle : Obstacle) : Outcome :=
    failure "" ("unable to read " ++ name ++ ": " ++ obstacle.message)

end Lisplet.CommandLine
