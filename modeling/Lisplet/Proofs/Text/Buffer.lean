import Lisplet.Proofs.Text.Placed
import Mathlib.Data.List.DropRight
import Mathlib.Data.Nat.PSub

/-!
The current line as a buffer with a position in it. To take a character is to
look it up at the position, which may be out of bounds. It never is: a line that
has been taken from the feed has its line feed at least. So the buffer hands out
what a line reader does, which keeps only what is left of the line.
-/
namespace Lisplet

def withoutLineFeeds (cs : List Char) : String := String.ofList (cs.rdropWhile (· = '\n'))

theorem Line.shown_eq (l : Line) : l.shown = withoutLineFeeds l.chars := by
  rw [withoutLineFeeds, Line.chars, List.rdropWhile_concat_pos _ _ _ (by simp)]
  rfl

structure LineBuffer where
  /-- Lines taken from the feed so far, with their line feeds. -/
  read : Array (List Char) := #[]
  /-- The current line, all of it. -/
  current : List Char := []
  /-- How many characters of the current line have been taken. -/
  col : Nat := 0
  feed : List String
  deriving Repr

namespace LineBuffer

def ofLines (lines : List String) : LineBuffer := { feed := lines }

def fetch? (b : LineBuffer) : Option LineBuffer :=
  match b.feed with
  | [] => none
  | line :: feed =>
    some { read := b.read.push (completed line), current := completed line, col := 0, feed }

/-- The character at the position, if that is within bounds. -/
def take? (b : LineBuffer) : Option (Char × LineBuffer) :=
  b.current[b.col]?.map fun c => (c, { b with col := b.col + 1 })

/-- The next character, or that there is none; nothing if the position is out of bounds. -/
def next? (b : LineBuffer) : Option (Option (Char × LineBuffer)) :=
  if b.current.length ≤ b.col then
    match b.fetch? with
    | some b' => b'.take?.map some
    | none => some none
  else b.take?.map some

def skipLine (b : LineBuffer) : LineBuffer := { b with col := b.current.length }

/-- Where the next character stands; nothing if the index of the last line is out of bounds. -/
def place? (b : LineBuffer) : Option Place :=
  if b.read.isEmpty then some ⟨0, 0⟩
  else if b.current.length ≤ b.col then some ⟨b.read.size, 0⟩
  else b.read.size.ppred.map fun line => ⟨line, b.col⟩

def line? (b : LineBuffer) (n : Nat) : Option String := b.read[n]?.map withoutLineFeeds

def atLineEnd (b : LineBuffer) : Bool :=
  match (b.current.drop b.col).find? fun c => !Text.isWhiteSpace c with
  | none => true
  | some c => c = ';'

structure Represents (b : LineBuffer) (r : LineReader) : Prop where
  read : r.read.toList.map Line.chars = b.read.toList
  rest : r.rest = b.current.drop b.col
  col : b.col < b.current.length → r.col = b.col
  feed : r.feed = b.feed.map Line.ofString
  /-- The current line has been read. -/
  current : b.read.isEmpty = true → b.current = []

theorem represents_ofLines (lines : List String) :
    (ofLines lines).Represents (LineReader.ofLines lines) :=
  ⟨rfl, rfl, fun h => absurd h (Nat.lt_irrefl 0), rfl, fun _ => rfl⟩

variable {b : LineBuffer} {r : LineReader}

/-- A character behind the position is that of the reader. -/
theorem Represents.take (h : b.Represents r) (hcol : b.col < b.current.length) : ∃ c rest b',
    r.rest = c :: rest ∧ b.take? = some (c, b') ∧
      b'.Represents { r with rest, col := r.col + 1 } := by
  have hrest := h.rest
  rw [List.drop_eq_getElem_cons hcol] at hrest
  have htake : b.take? = some (b.current[b.col], { b with col := b.col + 1 }) := by
    rw [take?, List.getElem?_eq_getElem hcol, Option.map_some]
  refine ⟨_, _, _, hrest, htake, h.read, rfl, ?_, h.feed, h.current⟩
  intro _
  exact congrArg (· + 1) (h.col hcol)

/-- A line that is taken from the feed is represented by all of its characters. -/
theorem Represents.fetch (h : b.Represents r) {line : Line} {feed : List Line}
    (hfeed : r.feed = line :: feed) : ∃ b', b.fetch? = some b' ∧ b'.col < b'.current.length ∧
      b'.Represents { read := r.read.push line, rest := line.chars, col := 0, feed } := by
  obtain ⟨text, texts, htexts, rfl, rfl⟩ := List.map_eq_cons_iff.1 (h.feed.symm.trans hfeed)
  have hchars := Line.chars_ofString text
  have hfetch : b.fetch? = some ⟨b.read.push (completed text), completed text, 0, texts⟩ := by
    rw [fetch?, htexts]
  refine ⟨_, hfetch, ?_, ?_, hchars, fun _ => rfl, rfl, ?_⟩
  · rw [← hchars, Line.chars_eq]
    exact Nat.succ_pos _
  · simp [h.read, hchars]
  · simp

/-- The position is within bounds whenever a character is looked up, for a line that has just been
fetched has a first character; and the buffer hands out what the reader does. -/
theorem Represents.next (h : b.Represents r) : ∃ o, b.next? = some o ∧
    Option.Rel (fun p q => p.1 = q.1 ∧ p.2.Represents q.2) o r.next? := by
  unfold next? LineReader.next?
  split
  next hcol =>
    have hrest : r.rest = [] := h.rest.trans (List.drop_eq_nil_of_le hcol)
    rw [hrest]
    cases hfeed : r.feed with
    | nil =>
      have htexts : b.feed = [] := List.map_eq_nil_iff.1 (h.feed.symm.trans hfeed)
      rw [fetch?, htexts]
      exact ⟨none, rfl, .none⟩
    | cons line feed =>
      obtain ⟨b', hfetch, hcol', h'⟩ := h.fetch hfeed
      obtain ⟨c, rest, b'', hc, htake, h''⟩ := h'.take hcol'
      rw [Line.chars_eq] at hc
      cases hc
      simp only [hfetch, htake]
      exact ⟨_, rfl, .some ⟨rfl, h''⟩⟩
  next hcol =>
    obtain ⟨c, rest, b', hc, htake, h'⟩ := h.take (Nat.lt_of_not_le hcol)
    rw [hc, htake]
    exact ⟨_, rfl, .some ⟨rfl, h'⟩⟩

theorem Represents.skipLine (h : b.Represents r) : b.skipLine.Represents r.skipLine :=
  ⟨h.read, (List.drop_length).symm, fun hcol => absurd hcol (Nat.lt_irrefl _), h.feed, h.current⟩

theorem Represents.size (h : b.Represents r) : r.read.size = b.read.size := by
  have hlength := congrArg List.length h.read
  simpa using hlength

/-- Characters are left of the current line only if it has been read. -/
theorem Represents.place (h : b.Represents r) : b.place? = some r.place := by
  unfold place? LineReader.place
  rw [h.rest, h.size]
  split
  next hempty =>
    have hsize : b.read.size = 0 := Array.isEmpty_iff_size_eq_zero.1 hempty
    rw [h.current hempty, List.drop_nil, hsize]
    rfl
  next hempty =>
    split
    next hcol => rw [List.drop_eq_nil_of_le hcol]; rfl
    next hcol =>
      have hlt := Nat.lt_of_not_le hcol
      have hsize : 0 < b.read.size := Nat.pos_of_ne_zero (hempty ∘ Array.isEmpty_iff_size_eq_zero.2)
      rw [Nat.ppred_eq_pred hsize, List.drop_eq_getElem_cons hlt, h.col hlt]
      rfl

theorem Represents.line (h : b.Represents r) (n : Nat) : b.line? n = r.line? n := by
  have hread : b.read[n]? = r.read[n]?.map Line.chars := by
    rw [← Array.getElem?_toList, ← h.read, List.getElem?_map, Array.getElem?_toList]
  rw [line?, hread, LineReader.line?, Option.map_map]
  exact congrArg (Option.map · r.read[n]?) (funext fun l => l.shown_eq.symm)

theorem Represents.atLineEnd (h : b.Represents r) : b.atLineEnd = r.atLineEnd := by
  rw [LineBuffer.atLineEnd, ← h.rest]
  rfl

end LineBuffer

/-- The pieces of a text that end in a line feed, and what follows the last one. -/
def linePieces (acc : List Char) : List Char → List (List Char)
  | [] => if acc.isEmpty then [] else [acc.reverse]
  | c :: cs => if c = '\n' then (c :: acc).reverse :: linePieces [] cs else linePieces (c :: acc) cs

def LineBuffer.ofText (text : String) : LineBuffer :=
  .ofLines ((linePieces [] text.toList).map String.ofList)

/-- The pieces that a text is fed in are its lines. -/
theorem map_linePieces (acc cs : List Char) (hacc : '\n' ∉ acc) :
    ((linePieces acc cs).map String.ofList).map Line.ofString = splitLines.go acc cs := by
  induction cs generalizing acc with
  | nil =>
    cases acc with
    | nil => rfl
    | cons c acc =>
      have hc : c ≠ '\n' := fun h => hacc (by simp [h])
      simp [linePieces, splitLines.go, Line.ofString, hc]
  | cons c cs ih =>
    by_cases hc : c = '\n'
    · have htail := ih [] List.not_mem_nil
      rw [linePieces, splitLines.go, if_pos hc, if_pos hc, List.map_cons, List.map_cons, htail]
      simp [Line.ofString, hc]
    · have htail := ih (c :: acc) (by simp [hacc, Ne.symm hc])
      rw [linePieces, splitLines.go, if_neg hc, if_neg hc, htail]

theorem LineBuffer.represents_ofText (text : String) :
    (LineBuffer.ofText text).Represents (LineReader.ofText text) := by
  have h := represents_ofLines ((linePieces [] text.toList).map String.ofList)
  rwa [LineReader.ofLines, map_linePieces [] text.toList List.not_mem_nil] at h

inductive Request where
  | next
  | place
  | atLineEnd
  | line (n : Nat)
  | skipLine
  deriving DecidableEq, Repr

inductive Reply where
  /-- The next character, or that there is none. -/
  | char (c : Option Char)
  | place (p : Place)
  | atLineEnd (b : Bool)
  | line (text : Option String)
  | done
  deriving DecidableEq, Repr

namespace LineReader

def ask (r : LineReader) : Request → Reply × LineReader
  | .next =>
    match r.next? with
    | some (c, r') => (.char (some c), r')
    | none => (.char none, r)
  | .place => (.place r.place, r)
  | .atLineEnd => (.atLineEnd r.atLineEnd, r)
  | .line n => (.line (r.line? n), r)
  | .skipLine => (.done, r.skipLine)

def asks (r : LineReader) : List Request → List Reply × LineReader
  | [] => ([], r)
  | q :: qs => ((r.ask q).1 :: (asks (r.ask q).2 qs).1, (asks (r.ask q).2 qs).2)

theorem ask_of_end {r : LineReader} (h : r.next? = none) : r.ask .next = (.char none, r) := by
  simp [ask, h]

theorem ask_of_char {r r' : LineReader} {c : Char} (h : r.next? = some (c, r')) :
    r.ask .next = (.char (some c), r') := by
  simp [ask, h]

theorem asks_append (r : LineReader) (asked more : List Request) :
    (r.asks (asked ++ more)).2 = ((r.asks asked).2.asks more).2 := by
  induction asked generalizing r with
  | nil => rfl
  | cons q qs ih => exact ih (r.ask q).2

end LineReader

namespace LineBuffer

def ask? (b : LineBuffer) : Request → Option (Reply × LineBuffer)
  | .next => b.next?.map fun
    | some (c, b') => (.char (some c), b')
    | none => (.char none, b)
  | .place => b.place?.map fun p => (.place p, b)
  | .atLineEnd => some (.atLineEnd b.atLineEnd, b)
  | .line n => some (.line (b.line? n), b)
  | .skipLine => some (.done, b.skipLine)

/-- One request after another; nothing if the position is out of bounds for one of them. -/
def asks? (b : LineBuffer) : List Request → Option (List Reply × LineBuffer)
  | [] => some ([], b)
  | q :: qs =>
    (b.ask? q).bind fun (a, b') => (asks? b' qs).map fun (as, b'') => (a :: as, b'')

variable {b : LineBuffer} {r : LineReader}

/-- One request: the buffer replies what the reader does, and goes on representing it. -/
theorem Represents.ask (h : b.Represents r) (q : Request) : ∃ b',
    b.ask? q = some ((r.ask q).1, b') ∧ b'.Represents (r.ask q).2 := by
  cases q with
  | next =>
    obtain ⟨o, ho, hrel⟩ := h.next
    unfold ask? LineReader.ask
    simp only [ho]
    generalize r.next? = o' at hrel
    cases hrel with
    | none => exact ⟨b, rfl, h⟩
    | @some p q hpq =>
      obtain ⟨hchar, h'⟩ := hpq
      exact ⟨p.2, by simp [hchar], h'⟩
  | place => exact ⟨b, by rw [ask?, h.place]; rfl, h⟩
  | atLineEnd => exact ⟨b, by rw [ask?, h.atLineEnd]; rfl, h⟩
  | line n => exact ⟨b, by rw [ask?, h.line]; rfl, h⟩
  | skipLine => exact ⟨b.skipLine, rfl, h.skipLine⟩

/-- The induction is on the requests; the buffer represents the reader after each of them. -/
theorem Represents.asks (h : b.Represents r) (asked : List Request) : ∃ b',
    b.asks? asked = some ((r.asks asked).1, b') ∧ b'.Represents (r.asks asked).2 := by
  induction asked generalizing b r with
  | nil => exact ⟨b, rfl, h⟩
  | cons q qs ih =>
    obtain ⟨b', hb', h'⟩ := h.ask q
    obtain ⟨b'', hb'', h''⟩ := ih h'
    exact ⟨b'', by simp [asks?, hb', hb'', LineReader.asks], h''⟩

/-- Whatever is asked of it, the buffer stays within bounds, and it replies and stands where the
reader does. -/
def Serves (b : LineBuffer) (r : LineReader) : Prop :=
  ∀ asked, ∃ b', b.asks? asked = some ((r.asks asked).1, b') ∧
    b'.place? = some (r.asks asked).2.place

theorem Represents.serves (h : b.Represents r) : b.Serves r := by
  intro asked
  obtain ⟨b', hb', h'⟩ := h.asks asked
  exact ⟨b', hb', h'.place⟩

end LineBuffer
end Lisplet
