import Lisplet.Proofs.Text.Buffer
import Lisplet.Proofs.Token.Places
import Mathlib.Data.List.DropRight

/-!
Lines under any use. A line reader can be asked for the next character, for its
place, whether it is at the end of a line and for the text of a line, and it can
be told to give up the current line. Whatever is asked and in whatever order,
the characters that are handed out and those that are given up are those of the
lines, in order. The place is always that of the character which comes next, and
a line is taken from the feed when its first character is asked for and at no
other time.
-/
namespace Lisplet

/-- What is left of the line at a place in it. At the beginning of a line nothing is left: the line
before it is used up, and the line itself has not been begun. -/
def restOfLine (text : List (List Char)) (p : Place) : List (Char × Place) :=
  if p.col = 0 then [] else placedFrom p.line p.col ((text[p.line]?.getD []).drop p.col)

/-- The characters that a reply disposes of at a place: the one that it hands out, or those of the
line that it gives up. -/
def Request.spends (text : List (List Char)) (p : Place) : Request → Reply → List (Char × Place)
  | .next, .char (some c) => [(c, p)]
  | .skipLine, _ => restOfLine text p
  | _, _ => []

def LineReader.spent (text : List (List Char)) (r : LineReader) : List Request → List (Char × Place)
  | [] => []
  | q :: qs => q.spends text r.place (r.ask q).1 ++ spent text (r.ask q).2 qs

namespace LineReader

/-- A reader of these lines: some have been read and the others are in the feed. What is left of the
current line is the end of the last one that has been read, and never all of it. -/
structure Reads (lines : List Line) (r : LineReader) : Prop where
  lines : r.read.toList ++ r.feed = lines
  onLine : r.OnLine
  begun : r.rest ≠ [] → r.col ≠ 0

theorem reads_ofLines (lines : List String) :
    (ofLines lines).Reads (lines.map Line.ofString) :=
  ⟨rfl, onLine_of_rest rfl, fun h => absurd rfl h⟩

variable {lines : List Line} {r r' : LineReader}

theorem Reads.next? (h : r.Reads lines) {c : Char} (hnext : r.next? = some (c, r')) :
    r'.Reads lines := by
  have honLine : r'.OnLine := (points_of_next? h.onLine hnext).1
  obtain ⟨rest, hrest, rfl⟩ | ⟨line, feed, hrest, hfeed, -, rfl⟩ := next?_cases hnext
  · exact ⟨h.lines, honLine, fun _ => Nat.succ_ne_zero r.col⟩
  · refine ⟨?_, honLine, fun _ => Nat.one_ne_zero⟩
    rw [← h.lines, hfeed]
    simp

/-- Whatever is asked, it stays a reader of these lines. -/
theorem Reads.ask (h : r.Reads lines) (q : Request) : (r.ask q).2.Reads lines := by
  cases q with
  | next =>
    cases hnext : r.next? with
    | none =>
      rw [ask_of_end hnext]
      exact h
    | some x =>
      rw [ask_of_char hnext]
      exact h.next? hnext
  | place | atLineEnd | line n => exact h
  | skipLine => exact ⟨h.lines, onLine_of_rest rfl, fun hne => absurd rfl hne⟩

/-- A line is begun exactly where the column is not the first. -/
theorem Reads.place_col (h : r.Reads lines) : r.place.col = 0 ↔ r.rest = [] := by
  by_cases hrest : r.rest = []
  · simp [place_of_end hrest, hrest]
  · simp [place_of_rest hrest, hrest, h.begun hrest]

/-- Inside a line, it is the one with the number that the place names. -/
theorem Reads.line (h : r.Reads lines) (hrest : r.rest ≠ []) :
    ∃ line, lines[r.place.line]? = some line ∧ r.rest = line.chars.drop r.place.col := by
  obtain ⟨line, hline, hdrop⟩ := h.onLine hrest
  rw [place_of_rest hrest]
  refine ⟨line, ?_, hdrop⟩
  rw [← Array.getElem?_toList] at hline
  rw [← h.lines, List.getElem?_append_left (List.getElem?_eq_some_iff.1 hline).1, hline]

theorem Reads.restOfLine (h : r.Reads lines) :
    restOfLine (lines.map Line.chars) r.place = r.lineRest := by
  by_cases hrest : r.rest = []
  · rw [Lisplet.restOfLine, if_pos (h.place_col.2 hrest), lineRest, hrest]
    rfl
  · obtain ⟨line, hline, hdrop⟩ := h.line hrest
    rw [Lisplet.restOfLine, if_neg (fun hcol => hrest (h.place_col.1 hcol)), List.getElem?_map,
      hline, lineRest, hdrop, place_of_rest hrest]
    rfl

/-- The next character is the one that stands at the place. -/
theorem Reads.char (h : r.Reads lines) :
    r.next?.map Prod.fst = (lines.map Line.chars)[r.place.line]?.bind (·[r.place.col]?) := by
  by_cases hrest : r.rest = []
  · have hfeed : lines[r.read.size]? = r.feed.head? := by
      rw [← h.lines, ← Array.length_toList, List.getElem?_append_right (Nat.le_refl _), Nat.sub_self,
        List.head?_eq_getElem?]
    rw [place_of_end hrest, List.getElem?_map, hfeed]
    cases hlines : r.feed with
    | nil => simp [LineReader.next?, hrest, hlines]
    | cons line feed => simp [LineReader.next?, hrest, hlines, line.chars_eq]
  · obtain ⟨line, hline, hdrop⟩ := h.line hrest
    obtain ⟨c, rest, hcons⟩ := List.exists_cons_of_ne_nil hrest
    have hchar : line.chars[r.place.col]? = some c := by
      rw [← List.head?_drop, ← hdrop, hcons]
      rfl
    rw [List.getElem?_map, hline]
    simp [LineReader.next?, hcons, hchar]

/-- What a request disposes of is the first of what is ahead, and the rest is still ahead. -/
theorem Reads.spends (h : r.Reads lines) (q : Request) :
    q.spends (lines.map Line.chars) r.place (r.ask q).1 ++ Source.chars (r.ask q).2 =
      Source.chars r := by
  cases q with
  | next =>
    cases hnext : r.next? with
    | none =>
      rw [ask_of_end hnext]
      rfl
    | some x =>
      rw [ask_of_char hnext, chars_of_next? hnext]
      rfl
  | place | atLineEnd | line n => rfl
  | skipLine =>
    have hskip : (r.ask .skipLine).2 = r.skipLine := rfl
    rw [hskip, chars_eq_placed, chars_eq_placed]
    exact congrArg (· ++ _) h.restOfLine

/-- The induction is on the requests: the reader is one of these lines after each of them. -/
theorem Reads.asks (h : r.Reads lines) (asked : List Request) :
    (r.asks asked).2.Reads lines ∧
      r.spent (lines.map Line.chars) asked ++ Source.chars (r.asks asked).2 = Source.chars r := by
  induction asked generalizing r with
  | nil => exact ⟨h, rfl⟩
  | cons q qs ih =>
    obtain ⟨hreads, hspent⟩ := ih (h.ask q)
    refine ⟨hreads, ?_⟩
    rw [spent, List.append_assoc]
    exact (congrArg _ hspent).trans (h.spends q)

theorem Reads.place_eq_iff (h : r.Reads lines) (i : Nat) :
    r.place = ⟨i, 0⟩ ↔ r.rest = [] ∧ i = r.read.size := by
  by_cases hrest : r.rest = []
  · simp [place_of_end hrest, hrest, eq_comm]
  · have hcol : r.place.col ≠ 0 := fun hcol => hrest (h.place_col.1 hcol)
    simp only [hrest, false_and, iff_false]
    intro hplace
    exact hcol (congrArg Place.col hplace)

theorem Reads.read_eq (h : r.Reads lines) :
    r.read.toList.map Line.chars = (lines.map Line.chars).take r.read.size := by
  rw [← List.map_take, ← h.lines, ← Array.length_toList, List.take_left]

theorem Reads.feed_eq (h : r.Reads lines) :
    r.feed.map Line.chars = (lines.map Line.chars).drop r.read.size := by
  rw [← List.map_drop, ← h.lines, ← Array.length_toList, List.drop_left]

theorem Reads.size_add (h : r.Reads lines) : r.read.size + r.feed.length = lines.length := by
  rw [← h.lines, List.length_append, Array.length_toList]

/-- One more line is taken for a character that is not on the current line, if there is one. -/
theorem size_ask (r : LineReader) (q : Request) :
    (r.ask q).2.read.size =
      if q = .next ∧ r.rest = [] then r.read.size + min 1 r.feed.length else r.read.size := by
  cases q with
  | next =>
    cases hnext : r.next? with
    | none =>
      obtain ⟨hrest, hfeed⟩ := next?_eq_none_iff.1 hnext
      simp [ask_of_end hnext, hrest, hfeed]
    | some x =>
      rw [ask_of_char hnext]
      obtain ⟨rest, hrest, hx⟩ | ⟨line, feed, hrest, hfeed, -, hx⟩ := next?_cases hnext
      · simp [hx, hrest]
      · simp [hx, hrest, hfeed]
  | place | atLineEnd | line n | skipLine => simp [ask, skipLine]

/-- A line is taken from the feed exactly when its first character is asked for. -/
theorem Reads.takes_iff (h : r.Reads lines) (q : Request) (i : Nat) :
    r.read.size ≤ i ∧ i < (r.ask q).2.read.size ↔
      q = .next ∧ r.place = ⟨i, 0⟩ ∧ i < lines.length := by
  rw [size_ask, h.place_eq_iff, ← h.size_add]
  by_cases hq : q = .next ∧ r.rest = []
  · simp only [hq, and_self, if_true, true_and]
    omega
  · rw [if_neg hq]
    constructor
    · omega
    · rintro ⟨hnext, ⟨hrest, -⟩, -⟩
      exact absurd ⟨hnext, hrest⟩ hq

theorem chars_eq_nil_iff : Source.chars r = [] ↔ r.rest = [] ∧ r.feed = [] := by
  rw [← next?_eq_none_iff]
  cases hnext : r.next? with
  | none =>
    have hchars : Source.chars r = [] := Source.chars_of_end hnext
    simp [hchars]
  | some x => simp [chars_of_next? hnext]

theorem skipLine_eq_self_iff : r.skipLine = r ↔ r.rest = [] := by
  cases r
  simp [skipLine, eq_comm]

/-- How a reader of this text stands once these characters of it are spent, and what it replies to
what is asked next. A line is given by all of its characters. -/
structure Delivers (text : List (List Char)) (cs : List (Char × Place)) (r : LineReader) : Prop where
  /-- The first lines have been taken from the feed, and it has the others. -/
  read : r.read.toList.map Line.chars = text.take r.read.size
  feed : r.feed.map Line.chars = text.drop r.read.size
  /-- Together with what is left of the current line, the characters spent are all of those of the
  lines that have been taken, in order. -/
  inOrder : cs ++ restOfLine text r.place = placedLines 0 (text.take r.read.size)
  /-- The next character is the one that stands at the place, if that is in the text. -/
  next : (r.ask .next).1 = .char (text[r.place.line]?.bind (·[r.place.col]?))
  /-- The place is named without any change. -/
  place : r.ask .place = (.place r.place, r)
  /-- Where all is spent, the place is on the line after all lines. -/
  atEnd : cs = placedLines 0 text ↔ r.place = ⟨text.length, 0⟩
  /-- A line is taken when its first character is asked for, and never otherwise. -/
  takes : ∀ q i, r.read.size ≤ i ∧ i < (r.ask q).2.read.size ↔
    q = .next ∧ r.place = ⟨i, 0⟩ ∧ i < text.length
  /-- The lines that have been taken can be looked up, without the line feeds at their ends. -/
  line : ∀ n, r.ask (.line n) = (.line ((text.take r.read.size)[n]?.map withoutLineFeeds), r)
  /-- The test for the end of a line is about what is left of it. -/
  atLineEnd : ∃ b, r.ask .atLineEnd = (.atLineEnd b, r) ∧
    (b = true ↔ ¬ Follows (restOfLine text r.place))
  /-- At the end of a line, or before any has been taken, there is nothing to give up. -/
  skips : cs = placedLines 0 (text.take r.read.size) ↔ (r.ask .skipLine).2 = r

variable {cs : List (Char × Place)}

/-- What is ahead begins with the rest of the current line, and the others are all in the feed. -/
theorem Reads.inOrder (h : r.Reads lines)
    (hcs : cs ++ Source.chars r = placedLines 0 (lines.map Line.chars)) :
    cs ++ r.lineRest = placedLines 0 ((lines.map Line.chars).take r.read.size) := by
  have hsize : ((lines.map Line.chars).take r.read.size).length = r.read.size := by
    rw [← h.read_eq, List.length_map, Array.length_toList]
  apply (List.append_left_inj (placedLines r.read.size (r.feed.map Line.chars))).1
  calc cs ++ r.lineRest ++ placedLines r.read.size (r.feed.map Line.chars)
    _ = placedLines 0 (lines.map Line.chars) := by rw [List.append_assoc, ← chars_eq_placed, hcs]
    _ = placedLines 0 ((lines.map Line.chars).take r.read.size ++
          (lines.map Line.chars).drop r.read.size) := by rw [List.take_append_drop]
    _ = placedLines 0 ((lines.map Line.chars).take r.read.size) ++
          placedLines r.read.size (r.feed.map Line.chars) := by
        rw [placedLines_append, hsize, Nat.zero_add, h.feed_eq]

theorem Reads.reply_next (h : r.Reads lines) :
    (r.ask .next).1 = .char ((lines.map Line.chars)[r.place.line]?.bind (·[r.place.col]?)) := by
  rw [← h.char]
  cases hnext : r.next? with
  | none => rw [ask_of_end hnext]; rfl
  | some x => rw [ask_of_char hnext]; rfl

theorem Reads.reply_line (h : r.Reads lines) (n : Nat) :
    r.ask (.line n) =
      (.line (((lines.map Line.chars).take r.read.size)[n]?.map withoutLineFeeds), r) := by
  have hline : r.line? n = (r.read[n]?.map Line.chars).map withoutLineFeeds := by
    rw [line?, Option.map_map]
    exact congrArg (Option.map · r.read[n]?) (funext Line.shown_eq)
  rw [← h.read_eq, List.getElem?_map, Array.getElem?_toList, ← hline]
  rfl

theorem Reads.atLineEnd_iff (h : r.Reads lines) :
    r.atLineEnd = true ↔ ¬ Follows (Lisplet.restOfLine (lines.map Line.chars) r.place) := by
  rw [h.restOfLine, LineReader.atLineEnd, Follows, lineRest, map_fst_placedFrom]
  cases r.rest.find? fun c => !Text.isWhiteSpace c <;> simp

theorem Reads.end_iff (h : r.Reads lines)
    (hcs : cs ++ Source.chars r = placedLines 0 (lines.map Line.chars)) :
    cs = placedLines 0 (lines.map Line.chars) ↔ r.place = ⟨(lines.map Line.chars).length, 0⟩ := by
  have hsize := h.size_add
  rw [← hcs, List.self_eq_append_right, chars_eq_nil_iff, h.place_eq_iff, List.length_map,
    ← List.length_eq_zero_iff (l := r.feed)]
  refine and_congr_right fun _ => ?_
  omega

theorem Reads.skips_iff (h : r.Reads lines)
    (hcs : cs ++ Source.chars r = placedLines 0 (lines.map Line.chars)) :
    cs = placedLines 0 ((lines.map Line.chars).take r.read.size) ↔ (r.ask .skipLine).2 = r := by
  have hskip : (r.ask .skipLine).2 = r.skipLine := rfl
  rw [← h.inOrder hcs, List.self_eq_append_right, hskip, skipLine_eq_self_iff, lineRest]
  cases r.rest <;> simp

/-- A reader of lines delivers what is left of them. -/
theorem Reads.delivers (h : r.Reads lines)
    (hcs : cs ++ Source.chars r = placedLines 0 (lines.map Line.chars)) :
    Delivers (lines.map Line.chars) cs r where
  read := h.read_eq
  feed := h.feed_eq
  inOrder := h.restOfLine ▸ h.inOrder hcs
  next := h.reply_next
  place := rfl
  atEnd := h.end_iff hcs
  takes q i := by simpa using h.takes_iff q i
  line := h.reply_line
  atLineEnd := ⟨r.atLineEnd, rfl, h.atLineEnd_iff⟩
  skips := h.skips_iff hcs

end LineReader

/-- Whatever is asked of a reader of lines, it delivers the lines, each with the line feed that it may
lack. With the current line as a buffer the replies are the same, and the position in it is never out
of bounds. -/
theorem delivers_asks (lines : List String) (asked : List Request) :
    let text := lines.map completed
    let r := LineReader.ofLines lines
    LineReader.Delivers text (r.spent text asked) (r.asks asked).2 ∧
      ∃ b, (LineBuffer.ofLines lines).asks? asked = some ((r.asks asked).1, b) ∧
        b.Represents (r.asks asked).2 := by
  have htext : lines.map completed = (lines.map Line.ofString).map Line.chars := by
    simp [Function.comp_def, Line.chars_ofString]
  have hreads := LineReader.reads_ofLines lines
  obtain ⟨hasks, hspent⟩ := hreads.asks asked
  rw [LineReader.chars_ofLines, htext] at hspent
  simp only [htext]
  exact ⟨hasks.delivers hspent, (LineBuffer.represents_ofLines lines).asks asked⟩

open Request in
/-- The rest of the first line is given up. The line feed in the third one does not end it, and the
one that it lacks is supplied. -/
example : ((LineReader.ofLines ["ab", "", "c\nd"]).asks
    [skipLine, place, next, skipLine, skipLine, place, next, place, next, next, next, line 0,
      line 2, place, next, next, place]).1 =
    [.done, .place ⟨0, 0⟩, .char (some 'a'), .done, .done, .place ⟨1, 0⟩, .char (some '\n'),
      .place ⟨2, 0⟩, .char (some 'c'), .char (some '\n'), .char (some 'd'), .line (some "ab"),
      .line (some "c\nd"), .place ⟨2, 3⟩, .char (some '\n'), .char none, .place ⟨3, 0⟩] := by
  decide

end Lisplet
