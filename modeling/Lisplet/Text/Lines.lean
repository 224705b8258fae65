import Lisplet.Text.Blank
import Lisplet.Text.Source

/-!
A source fed line by line. A line is taken from the feed when its first
character is asked for and not before. Lines that have been taken are kept, so
that a report can quote them. Every line ends in a line feed, which is supplied
where the feed lacks it; a line feed further inside does not end the line.
-/
namespace Lisplet

/-- A line, given by the text before its final line feed. -/
structure Line where
  text : List Char
  deriving DecidableEq, Repr

namespace Line

def ofString (s : String) : Line :=
  let cs := s.toList
  if cs.getLast? = some '\n' then ⟨cs.dropLast⟩ else ⟨cs⟩

/-- All characters of the line, the final line feed included. -/
def chars (l : Line) : List Char := l.text ++ ['\n']

/-- The first character of the line, which is its line feed if it has no text. -/
def first (l : Line) : Char := l.text.headD '\n'

def others (l : Line) : List Char := l.chars.tail

theorem chars_eq (l : Line) : l.chars = l.first :: l.others := by
  cases l with
  | mk text => cases text <;> rfl

/-- The text as a report quotes it: without any line feed at its end. -/
def shown (l : Line) : String :=
  String.ofList (l.text.reverse.dropWhile (· = '\n')).reverse

end Line

/-- The lines of a text. A text that ends in a line feed has no empty line after it. -/
def splitLines (text : String) : List Line :=
  go [] text.toList
where
  go (acc : List Char) : List Char → List Line
    | [] => if acc.isEmpty then [] else [⟨acc.reverse⟩]
    | c :: cs => if c = '\n' then ⟨acc.reverse⟩ :: go [] cs else go (c :: acc) cs

structure LineReader where
  /-- Lines taken from the feed so far, the current one last. -/
  read : Array Line := #[]
  /-- What is left of the current line. -/
  rest : List Char := []
  /-- The column of the first character of `rest`. -/
  col : Nat := 0
  feed : List Line
  deriving Repr

namespace LineReader

def ofLines (lines : List String) : LineReader := { feed := lines.map Line.ofString }

def ofText (text : String) : LineReader := { feed := splitLines text }

def next? (r : LineReader) : Option (Char × LineReader) :=
  match r.rest with
  | c :: rest => some (c, { r with rest, col := r.col + 1 })
  | [] =>
    match r.feed with
    | [] => none
    | line :: feed =>
      some (line.first, { read := r.read.push line, rest := line.others, col := 1, feed })

/-- At the end of a line the place is the start of the line after it. -/
def place (r : LineReader) : Place :=
  if r.rest.isEmpty then ⟨r.read.size, 0⟩ else ⟨r.read.size - 1, r.col⟩

def line? (r : LineReader) (n : Nat) : Option String := r.read[n]?.map Line.shown

def atLineEnd (r : LineReader) : Bool :=
  match r.rest.find? fun c => !Text.isWhiteSpace c with
  | none => true
  | some c => c = ';'

def skipLine (r : LineReader) : LineReader := { r with rest := [] }

def left (r : LineReader) : Nat := (r.rest ++ r.feed.flatMap Line.chars).length

theorem next?_eq_none_iff {r : LineReader} : r.next? = none ↔ r.rest = [] ∧ r.feed = [] := by
  unfold next?
  split
  next h => simp [h]
  next h => split <;> simp_all

/-- A character is the next one of the current line, or the first one of a line that is taken from
the feed because the current one is used up. -/
theorem next?_cases {r r' : LineReader} {c : Char} (h : r.next? = some (c, r')) :
    (∃ rest, r.rest = c :: rest ∧ r' = { r with rest, col := r.col + 1 }) ∨
      (∃ line feed, r.rest = [] ∧ r.feed = line :: feed ∧ c = line.first ∧
        r' = { read := r.read.push line, rest := line.others, col := 1, feed }) := by
  unfold next? at h
  split at h
  next d rest hr =>
    cases h
    exact .inl ⟨rest, hr, rfl⟩
  next hr =>
    split at h
    next => cases h
    next line feed hf =>
      cases h
      exact .inr ⟨line, feed, hr, hf, rfl, rfl⟩

theorem left_next? {r r' : LineReader} {c : Char} (h : r.next? = some (c, r')) :
    r'.left < r.left := by
  obtain ⟨rest, hr, rfl⟩ | ⟨line, feed, hr, hf, -, rfl⟩ := next?_cases h
  · simp [left, hr]
  · simp [left, hr, hf, line.chars_eq]

theorem left_skipLine (r : LineReader) : r.skipLine.left ≤ r.left := by
  simp [left, skipLine]

instance : Source LineReader where
  next? := next?
  place := place
  line? := line?
  atLineEnd := atLineEnd
  skipLine := skipLine
  left := left
  left_next? := left_next?
  left_skipLine := left_skipLine

end LineReader
end Lisplet
