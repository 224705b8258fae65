/-!
Where text is written to. A sink that is broken refuses every write and keeps
what it has; a refused write is reported to the writer.
-/
namespace Lisplet

structure Sink where
  text : String := ""
  broken : Bool := false
  deriving DecidableEq, Repr

namespace Sink

def write? (s : Sink) (text : String) : Option Sink :=
  if s.broken then none else some { s with text := s.text ++ text }

def writeLine? (s : Sink) (line : String) : Option Sink := s.write? (line ++ "\n")

/-- Write a line if possible and make nothing of a refusal. -/
def tryLine (s : Sink) (line : String) : Sink := (s.writeLine? line).getD s

end Sink
end Lisplet
