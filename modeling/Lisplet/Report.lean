import Lisplet.Fault
import Lisplet.Text.Source

/-!
The text of a report: place and message, and under them the line concerned with
a caret below the column. A line that the source does not know is left out
together with its caret.
-/
namespace Lisplet.Report

def excerpt (line : String) (col : Nat) : String :=
  "\n" ++ line ++ "\n" ++ String.ofList (List.replicate col ' ') ++ "^"

def headline (e : Error) : String :=
  toString e.place ++ ": error: " ++ e.what.message

def render {σ : Type} [Source σ] (e : Error) (source : σ) : String :=
  match Source.line? source e.place.line with
  | some line => headline e ++ excerpt line e.place.col
  | none => headline e

end Lisplet.Report
