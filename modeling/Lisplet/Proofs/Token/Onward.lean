import Lisplet.Proofs.Token.Drained
import Lisplet.Proofs.Token.LineEnd

/-!
A stream of lines with more lines to come. As long as input has not ended,
nothing tells how many lines are still in the feed, so a token is scanned as it
is without the lines that come later. Where input has ended and there are more
lines after all, scanning goes on with them: as every line is ended by its line
feed, the scan stands between two tokens there, and no part of a word or of a
comment is left open.
-/
namespace Lisplet

namespace LineReader

def extend (r : LineReader) (more : List Line) : LineReader := { r with feed := r.feed ++ more }

@[simp] theorem read_extend (r : LineReader) (more : List Line) :
    (r.extend more).read = r.read := rfl
@[simp] theorem rest_extend (r : LineReader) (more : List Line) :
    (r.extend more).rest = r.rest := rfl
@[simp] theorem feed_extend (r : LineReader) (more : List Line) :
    (r.extend more).feed = r.feed ++ more := rfl
@[simp] theorem lineRest_extend (r : LineReader) (more : List Line) :
    (r.extend more).lineRest = r.lineRest := rfl

theorem next?_extend {r r' : LineReader} {c : Char} (h : r.next? = some (c, r'))
    (more : List Line) : (r.extend more).next? = some (c, r'.extend more) := by
  obtain ⟨rest, hrest, rfl⟩ | ⟨line, feed, hrest, hfeed, rfl, rfl⟩ := next?_cases h
  · simp [next?, extend, hrest]
  · simp [next?, extend, hrest, hfeed]

end LineReader

namespace Scan

/-- A line feed leaves a scan between two tokens, unless it is in a string. -/
theorem gap_or_string_of_lineFeed {s next : Scan} {place : Place}
    (h : s.step '\n' place = .go next) : next = .gap ∨ ∃ start seen, next = .string start seen := by
  cases s with
  | gap | comment => cases h; exact .inl rfl
  | word start seen => cases h
  | string start seen => cases h; exact .inr ⟨_, _, rfl⟩
  | escape start seen slash => cases h

/-- So does a line that is scanned from its beginning to its end. -/
theorem gap_or_string_of_run {cs : List (Char × Place)} {m : Scan} (hends : EndsLine cs)
    (h : gap.run cs = .inl m) : m = .gap ∨ ∃ start seen, m = .string start seen := by
  by_cases hne : cs = []
  · subst hne
    cases h
    exact .inl rfl
  · obtain ⟨ds, p, rfl⟩ := hends.eq_concat hne
    obtain ⟨s, -, hs⟩ := run_append_of_go [('\n', p)] h
    obtain ⟨next, hstep, ⟨⟩⟩ := go_of_run hs
    exact gap_or_string_of_lineFeed hstep

/-- The end of input is no token that characters complete. -/
theorem ne_eof_of_run {s : Scan} {cs rest : List (Char × Place)} {t : Token}
    (h : s.run cs = .inr (.ok t, rest)) : t.lexeme ≠ .eof := by
  induction cs generalizing s with
  | nil => cases h
  | cons x cs ih =>
    obtain ⟨c, place⟩ := x
    cases hstep : s.step c place with
    | go next =>
      rw [run_go hstep] at h
      exact ih h
    | done token =>
      obtain ⟨rfl, -⟩ : token = t ∧ cs = rest := by simpa [run, hstep] using h
      exact ne_eof_of_step (.inl hstep)
    | hold token =>
      obtain ⟨rfl, -⟩ : token = t ∧ (c, place) :: cs = rest := by simpa [run, hstep] using h
      exact ne_eof_of_step (.inr hstep)
    | fail error => simp [run, hstep] at h

end Scan

namespace TokenStream

def extend (ts : TokenStream LineReader) (more : List Line) : TokenStream LineReader :=
  { ts with source := ts.source.extend more }

variable {ts ts' : TokenStream LineReader} (more : List Line)

@[simp] theorem source_extend : (ts.extend more).source = ts.source.extend more := rfl
@[simp] theorem lineRest_extend : (ts.extend more).lineRest = ts.lineRest := rfl

/-- A character that is handed out is the same if more lines follow. -/
theorem pull?_extend {c : Char} {place : Place} (h : ts.pull? = some (c, place, ts')) :
    (ts.extend more).pull? = some (c, place, ts'.extend more) := by
  unfold pull? at h
  split at h
  next c' p hheld =>
    cases h
    simp [pull?, extend, hheld]
  next hheld =>
    split at h
    next source hnext =>
      cases h
      have hsource : Source.next? (ts.source.extend more) = some (c, source.extend more) :=
        LineReader.next?_extend hnext more
      have hplace : Source.place (ts.source.extend more) = Source.place ts.source := rfl
      simp [pull?, extend, hheld, hsource, hplace]
    next => cases h

theorem rest_of_end (h : ts.pull? = none) : ts.source.rest = [] ∧ ts.source.feed = [] := by
  unfold pull? at h
  split at h
  next => cases h
  next =>
    split at h
    next => cases h
    next hnext => exact LineReader.next?_eq_none_iff.1 hnext

/-- A scan that is complete before input ends is the same with more lines. -/
theorem scan_extend_of_run {s : Scan} {y : Except ScanError Token × List (Char × Place)}
    (h : s.run ts.chars = .inr y) :
    scan s (ts.extend more) = ((scan s ts).1, (scan s ts).2.extend more) := by
  fun_induction scan s ts with
  | case1 s ts hpull =>
    rw [(chars_of_end hpull).1] at h
    cases h
  | case2 s ts c place ts' hpull next hstep ih =>
    rw [(chars_of_char hpull).1, Scan.run_go hstep] at h
    rw [scan_of_char (pull?_extend more hpull), hstep]
    exact ih h
  | case3 s ts c place ts' hpull token hstep | case5 s ts c place ts' hpull error hstep =>
    rw [scan_of_char (pull?_extend more hpull), hstep]
  | case4 s ts c place ts' hpull token hstep =>
    rw [scan_of_char (pull?_extend more hpull), hstep]
    rfl

/-- A scan that is not complete when input ends goes on with the lines that there are more. -/
theorem scan_extend_of_go {s m : Scan} (h : s.run ts.chars = .inl m) :
    scan s (ts.extend more) = scan m ((scan s ts).2.extend more) := by
  fun_induction scan s ts with
  | case1 s ts hpull =>
    rw [(chars_of_end hpull).1] at h
    cases h
    rfl
  | case2 s ts c place ts' hpull next hstep ih =>
    rw [(chars_of_char hpull).1, Scan.run_go hstep] at h
    rw [scan_of_char (pull?_extend more hpull), hstep]
    exact ih h
  | case3 s ts c place ts' hpull token hstep | case4 s ts c place ts' hpull token hstep
  | case5 s ts c place ts' hpull error hstep =>
    rw [(chars_of_char hpull).1] at h
    obtain ⟨next, hgo, -⟩ := Scan.go_of_run h
    rw [hstep] at hgo
    cases hgo

/-- Where the current line is ended by a line feed, a token is complete before input ends, and the
end of input is found between two tokens. -/
theorem run_of_next (hends : EndsLine ts.lineRest) {t : Token} (h : ts.next.1 = .ok t) :
    (t.lexeme ≠ .eof ∧ ∃ y, Scan.gap.run ts.chars = .inr y) ∨
      (t.lexeme = .eof ∧ Scan.gap.run ts.chars = .inl .gap) := by
  have hscan : (Scan.gap.consume ts.endPlace ts.chars).1 = ts.next.1 :=
    congrArg Prod.fst (scan_eq_consume .gap ts).1
  rw [Scan.consume_eq_run, h] at hscan
  cases hrun : Scan.gap.run ts.chars with
  | inl m =>
    rw [hrun] at hscan
    obtain rfl | ⟨start, seen, rfl⟩ := Scan.gap_or_string_of_run (endsLine_chars hends) hrun
    · cases hscan
      exact .inr ⟨rfl, rfl⟩
    · cases hscan
  | inr y =>
    obtain ⟨x, rest⟩ := y
    rw [hrun] at hscan
    obtain rfl : x = .ok t := hscan
    exact .inl ⟨Scan.ne_eof_of_run hrun, _, rfl⟩

/-- A token is the next one with more lines, too. -/
theorem next_extend (hends : EndsLine ts.lineRest) {t : Token} (h : ts.next = (.ok t, ts'))
    (hne : t.lexeme ≠ .eof) : (ts.extend more).next = (.ok t, ts'.extend more) := by
  obtain ⟨-, y, hrun⟩ | ⟨he, -⟩ := run_of_next hends (congrArg Prod.fst h)
  · have hscan := scan_extend_of_run more hrun
    rwa [show scan .gap ts = (.ok t, ts') from h] at hscan
  · exact absurd he hne

/-- Where input has ended, the next token is that of the lines that there are more. -/
theorem next_extend_of_eof (hends : EndsLine ts.lineRest) {t : Token} (h : ts.next = (.ok t, ts'))
    (he : t.lexeme = .eof) : (ts.extend more).next = (ts'.extend more).next := by
  obtain ⟨hne, -⟩ | ⟨-, hrun⟩ := run_of_next hends (congrArg Prod.fst h)
  · exact absurd he hne
  · have hscan := scan_extend_of_go more hrun
    rwa [show scan .gap ts = (.ok t, ts') from h] at hscan

end TokenStream
end Lisplet
