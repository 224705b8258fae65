import Lisplet.Text.Source

/-!
A source that is a bare sequence of characters. It has a single line whose text
it cannot quote, and no line feed is supplied, so input may end anywhere. It
stays where it ends, however often it is asked for more.
-/
namespace Lisplet

structure CharReader where
  rest : List Char
  /-- How many characters have been consumed. -/
  consumed : Nat := 0
  deriving DecidableEq, Repr

namespace CharReader

def ofString (s : String) : CharReader := { rest := s.toList }

def next? (r : CharReader) : Option (Char × CharReader) :=
  match r.rest with
  | [] => none
  | c :: rest => some (c, ⟨rest, r.consumed + 1⟩)

def skipLine (r : CharReader) : CharReader := ⟨[], r.consumed + r.rest.length⟩

instance : Source CharReader where
  next? := next?
  place r := ⟨0, r.consumed⟩
  line? _ _ := none
  atLineEnd r := r.rest.isEmpty
  skipLine := skipLine
  left r := r.rest.length
  left_next? {s s' c} h := by
    unfold next? at h
    split at h
    next => cases h
    next d rest hr =>
      cases h
      simp [hr]
  left_skipLine r := by simp [skipLine]

end CharReader
end Lisplet
