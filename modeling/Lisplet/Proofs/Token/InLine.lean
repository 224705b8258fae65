import Lisplet.Proofs.Token.Segments

/-!
Scanning inside a line. The rest of the current line decides whether a scan
stays on it: it does if a token or error is complete by the end of the line. As
every line ends in a line feed, which ends a word and a comment and cannot be
escaped, only a string whose quote stays open goes on to the next line.
-/
namespace Lisplet

namespace LineReader

/-- From one reader to a later one these lines were taken from the feed. -/
structure Takes (r : LineReader) (lines : List Line) (r' : LineReader) : Prop where
  read : r'.read.toList = r.read.toList ++ lines
  feed : r.feed = lines ++ r'.feed

theorem Takes.refl (r : LineReader) : r.Takes [] r := ⟨(List.append_nil _).symm, rfl⟩

theorem Takes.trans {r r' r'' : LineReader} {lines lines' : List Line} (h : r.Takes lines r')
    (h' : r'.Takes lines' r'') : r.Takes (lines ++ lines') r'' :=
  ⟨by rw [h'.read, h.read, List.append_assoc], by rw [h.feed, h'.feed, List.append_assoc]⟩

end LineReader

namespace TokenStream

def lineRest (ts : TokenStream LineReader) : List (Char × Place) :=
  ts.held.toList ++ ts.source.lineRest

theorem chars_eq_lineRest (ts : TokenStream LineReader) :
    ts.chars = ts.lineRest ++ placedLines ts.source.read.size (ts.source.feed.map Line.chars) := by
  rw [chars, lineRest, LineReader.chars_eq_placed, List.append_assoc]

theorem endsLine_chars {ts : TokenStream LineReader} (h : EndsLine ts.lineRest) :
    EndsLine ts.chars := by
  rw [chars_eq_lineRest]
  exact h.append (endsLine_placedLines _ ts.source.feed)

theorem pull?_eq_none {ts : TokenStream LineReader} (h : ts.pull? = none) :
    ts.lineRest = [] ∧ ts.source.feed = [] := by
  unfold pull? at h
  split at h
  next => cases h
  next hheld =>
    split at h
    next => cases h
    next hnext =>
      obtain ⟨hrest, hfeed⟩ := LineReader.next?_eq_none_iff.1 hnext
      simp [lineRest, hheld, LineReader.lineRest, hrest, hfeed]

/-- A character is the next one of the current line, or the first one of a line that is taken. -/
theorem pull?_cases {ts ts' : TokenStream LineReader} {c : Char} {place : Place}
    (h : ts.pull? = some (c, place, ts')) :
    (ts.lineRest = (c, place) :: ts'.lineRest ∧ ts.source.Takes [] ts'.source) ∨
      ∃ line, ts.lineRest = [] ∧ ts.source.Takes [line] ts'.source ∧
        (c, place) :: ts'.lineRest = placedFrom ts.source.read.size 0 line.chars := by
  unfold pull? at h
  split at h
  next c' p hheld =>
    cases h
    exact .inl ⟨by simp [lineRest, hheld], .refl _⟩
  next hheld =>
    split at h
    next c' source hnext =>
      have hplace : Source.place ts.source = ts.source.place := rfl
      cases h
      obtain ⟨rest, hrest, rfl⟩ | ⟨line, feed, hrest, hfeed, rfl, rfl⟩ :=
        LineReader.next?_cases hnext
      · refine .inl ⟨?_, ⟨(List.append_nil _).symm, rfl⟩⟩
        simp [lineRest, hheld, LineReader.lineRest, hrest, hplace, LineReader.place]
      · refine .inr ⟨line, ?_, ⟨by simp, hfeed⟩, ?_⟩
        · simp [lineRest, hheld, LineReader.lineRest, hrest]
        · simp [lineRest, LineReader.lineRest, hrest, hplace, LineReader.place, line.chars_eq]
    next => cases h

theorem takes_pull? {ts ts' : TokenStream LineReader} {c : Char} {place : Place}
    (h : ts.pull? = some (c, place, ts')) : ∃ lines, ts.source.Takes lines ts'.source := by
  obtain ⟨-, htakes⟩ | ⟨line, -, htakes, -⟩ := pull?_cases h
  · exact ⟨[], htakes⟩
  · exact ⟨[line], htakes⟩

/-- To scan a token takes lines from the feed, and gives none back. -/
theorem takes_scan (s : Scan) (ts : TokenStream LineReader) :
    ∃ lines, ts.source.Takes lines (scan s ts).2.source := by
  fun_induction scan s ts with
  | case1 s ts h => exact ⟨[], .refl _⟩
  | case2 s ts c place ts' h next _ ih =>
    obtain ⟨lines, htakes⟩ := takes_pull? h
    obtain ⟨lines', htakes'⟩ := ih
    exact ⟨lines ++ lines', htakes.trans htakes'⟩
  | case3 s ts c place ts' h => exact takes_pull? h
  | case4 s ts c place ts' h =>
    obtain ⟨lines, htakes⟩ := takes_pull? h
    exact ⟨lines, htakes⟩
  | case5 s ts c place ts' h => exact takes_pull? h

/-- Every scan leaves a line that ends in a line feed. -/
theorem endsLine_pull? {ts ts' : TokenStream LineReader} {c : Char} {place : Place}
    (hts : EndsLine ts.lineRest) (h : ts.pull? = some (c, place, ts')) :
    EndsLine ((c, place) :: ts'.lineRest) := by
  obtain ⟨hrest, -⟩ | ⟨line, -, -, hline⟩ := pull?_cases h
  · rwa [hrest] at hts
  · rw [hline]
    exact endsLine_line _ line

theorem endsLine_scan (s : Scan) (ts : TokenStream LineReader) (hts : EndsLine ts.lineRest) :
    EndsLine (scan s ts).2.lineRest := by
  fun_induction scan s ts with
  | case1 s ts h => exact hts
  | case2 s ts c place ts' h next _ ih => exact ih (endsLine_pull? hts h).tail
  | case3 s ts c place ts' h => exact (endsLine_pull? hts h).tail
  | case4 s ts c place ts' h =>
    have hheld := held_pull? h
    have hends := endsLine_pull? hts h
    simpa [lineRest, hheld] using hends
  | case5 s ts c place ts' h => exact (endsLine_pull? hts h).tail

theorem endsLine_next {ts : TokenStream LineReader} (hts : EndsLine ts.lineRest) :
    EndsLine ts.next.2.lineRest := endsLine_scan .gap ts hts

end TokenStream

namespace Scan

/-- Go on with a scan over characters after which there may be more: how far it comes if it takes
all of them, or what it yields and the characters that it leaves. -/
def run : Scan → List (Char × Place) → Scan ⊕ (Except ScanError Token × List (Char × Place))
  | s, [] => .inl s
  | s, (c, place) :: cs =>
    match s.step c place with
    | .go next => run next cs
    | .done token => .inr (.ok token, cs)
    | .hold token => .inr (.ok token, (c, place) :: cs)
    | .fail error => .inr (.error error, cs)

@[simp] theorem run_nil (s : Scan) : s.run [] = .inl s := rfl

theorem run_go {s next : Scan} {c : Char} {place : Place} (h : s.step c place = .go next)
    (cs : List (Char × Place)) : s.run ((c, place) :: cs) = next.run cs := by
  simp [run, h]

theorem go_of_run {s s' : Scan} {c : Char} {place : Place} {cs : List (Char × Place)}
    (h : s.run ((c, place) :: cs) = .inl s') :
    ∃ next, s.step c place = .go next ∧ next.run cs = .inl s' := by
  unfold run at h
  split at h
  next next hstep => exact ⟨next, hstep, h⟩
  all_goals cases h

/-- Where input ends, a scan that is not complete is finished. -/
theorem consume_eq_run (final : Place) (s : Scan) (cs : List (Char × Place)) :
    s.consume final cs = match s.run cs with
      | .inl s' => (s'.finish final, [])
      | .inr y => y := by
  induction cs generalizing s with
  | nil => rfl
  | cons x cs ih =>
    obtain ⟨c, place⟩ := x
    cases h : s.step c place with
    | go next => simpa [consume, run, h] using ih next
    | done token => simp [consume, run, h]
    | hold token => simp [consume, run, h]
    | fail error => simp [consume, run, h]

theorem run_append_of_go {s s' : Scan} {cs : List (Char × Place)} (ds : List (Char × Place))
    (h : s.run (cs ++ ds) = .inl s') : ∃ m, s.run cs = .inl m ∧ m.run ds = .inl s' := by
  induction cs generalizing s with
  | nil => exact ⟨s, rfl, h⟩
  | cons x cs ih =>
    obtain ⟨next, hstep, hrun⟩ := go_of_run h
    rw [run_go hstep]
    exact ih hrun

def Inside : Scan → Prop
  | gap | comment => False
  | word _ _ | string _ _ | escape _ _ _ => True

/-- Once inside a token, a scan stays there until the token ends. -/
theorem inside_step {s next : Scan} {c : Char} {place : Place} (hs : s.Inside)
    (h : s.step c place = .go next) : next.Inside := by
  cases s with
  | gap => exact hs.elim
  | comment => exact hs.elim
  | word start seen =>
    simp only [step] at h
    split at h
    next => cases h
    next =>
      split at h
      next => cases h
      next => cases h; trivial
  | string start seen =>
    simp only [step] at h
    split at h
    next => cases h
    next => split at h <;> cases h <;> trivial
  | escape start seen slash =>
    simp only [step] at h
    split at h
    next => cases h; trivial
    next => cases h

theorem inside_run {s s' : Scan} {cs : List (Char × Place)} (hs : s.Inside)
    (h : s.run cs = .inl s') : s'.Inside := by
  induction cs generalizing s with
  | nil => cases h; exact hs
  | cons x cs ih =>
    obtain ⟨next, hstep, hrun⟩ := go_of_run h
    exact ih (inside_step hs hstep) hrun

theorem inside_first {c : Char} {place : Place} {next : Scan} (h : first c place = .go next) :
    next.Inside := by
  unfold first at h
  split at h
  next => cases h
  next => split at h <;> cases h <;> trivial

/-- A line feed ends a word and cannot be escaped. -/
theorem eq_string_of_lineFeed {s next : Scan} {place : Place} (h : s.step '\n' place = .go next)
    (hnext : next.Inside) : ∃ start seen, next = .string start seen := by
  cases s with
  | gap => cases h; exact hnext.elim
  | comment => cases h; exact hnext.elim
  | word start seen => cases h
  | string start seen => cases h; exact ⟨_, _, rfl⟩
  | escape start seen slash => cases h

theorem step_fail {s : Scan} {c : Char} {place : Place} {e : ScanError}
    (h : s.step c place = .fail e) : e = ⟨.unknownEscape c, place⟩ := by
  unfold step first at h
  repeat' split at h
  all_goals cases h
  rfl

/-- A scan reports an open string only where input ends. -/
theorem run_ne_unterminated {cs : List (Char × Place)} {y : Except ScanError Token × List (Char × Place)}
    {s : Scan} (h : s.run cs = .inr y) (p : Place) : y.1 ≠ .error ⟨.unterminatedString, p⟩ := by
  induction cs generalizing s with
  | nil => cases h
  | cons x cs ih =>
    obtain ⟨c, place⟩ := x
    cases hstep : s.step c place with
    | go next =>
      rw [run_go hstep] at h
      exact ih h
    | done token =>
      obtain rfl : (.ok token, cs) = y := by simpa [run, hstep] using h
      simp
    | hold token =>
      obtain rfl : (.ok token, (c, place) :: cs) = y := by simpa [run, hstep] using h
      simp
    | fail error =>
      obtain rfl : (.error error, cs) = y := by simpa [run, hstep] using h
      simp [step_fail hstep]

end Scan

/-- Something other than white space and a comment is left of a line. White space is taken as a
console does that looks for the end of a line. -/
def Follows (cs : List (Char × Place)) : Prop :=
  ∃ c ∈ (cs.map Prod.fst).find? (fun c => !Text.isWhiteSpace c), c ≠ ';'

/-- What follows on a line begins with a token or with what is wrong with one. -/
theorem Follows.inside {cs : List (Char × Place)} (h : Follows cs) {s : Scan}
    (hrun : Scan.gap.run cs = .inl s) : s.Inside := by
  induction cs with
  | nil =>
    obtain ⟨c, hc, -⟩ := h
    cases hc
  | cons x cs ih =>
    obtain ⟨c, place⟩ := x
    obtain ⟨next, hstep, hnext⟩ := Scan.go_of_run hrun
    by_cases hblank : Text.isBlank c = true
    · obtain rfl : .gap = next := by simpa [Scan.step, hblank] using hstep
      refine ih ?_ hnext
      simpa [Follows, Text.isWhiteSpace_of_isBlank hblank] using h
    have hcomment : c ≠ ';' := by
      rintro rfl
      have hsemicolon : Text.isWhiteSpace ';' = false := by decide
      simp [Follows, hsemicolon] at h
    have hfirst : Scan.gap.step c place = Scan.first c place := by
      simp [Scan.step, hblank, hcomment]
    rw [hfirst] at hstep
    exact Scan.inside_run (Scan.inside_first hstep) hnext

/-- A scan that takes all that follows on a line is in a string whose quote is still open. -/
theorem Follows.openString {cs : List (Char × Place)} (h : Follows cs) (hends : EndsLine cs)
    {s : Scan} (hrun : Scan.gap.run cs = .inl s) : ∃ start seen, s = .string start seen := by
  have hne : cs ≠ [] := by
    rintro rfl
    obtain ⟨c, hc, -⟩ := h
    cases hc
  obtain ⟨ds, p, rfl⟩ := hends.eq_concat hne
  obtain ⟨m, -, hm⟩ := Scan.run_append_of_go [('\n', p)] hrun
  obtain ⟨next, hstep, ⟨⟩⟩ := Scan.go_of_run hm
  exact Scan.eq_string_of_lineFeed hstep (h.inside hrun)

namespace TokenStream

theorem pull?_of_run {s : Scan} {ts ts' : TokenStream LineReader} {c : Char} {place : Place}
    {y : Except ScanError Token × List (Char × Place)} (h : s.run ts.lineRest = .inr y)
    (hpull : ts.pull? = some (c, place, ts')) :
    ts.lineRest = (c, place) :: ts'.lineRest ∧ ts.source.Takes [] ts'.source := by
  obtain hcases | ⟨line, hrest, -⟩ := pull?_cases hpull
  · exact hcases
  · rw [hrest] at h
    cases h

/-- A scan that is complete within the line takes no other line. -/
theorem scan_of_run {s : Scan} {ts : TokenStream LineReader}
    {y : Except ScanError Token × List (Char × Place)} (h : s.run ts.lineRest = .inr y) :
    (scan s ts).1 = y.1 ∧ ts.source.Takes [] (scan s ts).2.source := by
  fun_induction scan s ts with
  | case1 s ts hpull =>
    rw [(pull?_eq_none hpull).1] at h
    cases h
  | case2 s ts c place ts' hpull next hstep ih =>
    obtain ⟨hrest, htakes⟩ := pull?_of_run h hpull
    rw [hrest, Scan.run_go hstep] at h
    obtain ⟨hx, htakes'⟩ := ih h
    exact ⟨hx, htakes.trans htakes'⟩
  | case3 s ts c place ts' hpull token hstep =>
    obtain ⟨hrest, htakes⟩ := pull?_of_run h hpull
    obtain rfl : (.ok token, ts'.lineRest) = y := by simpa [hrest, Scan.run, hstep] using h
    exact ⟨rfl, htakes⟩
  | case4 s ts c place ts' hpull token hstep =>
    obtain ⟨hrest, htakes⟩ := pull?_of_run h hpull
    obtain rfl : (.ok token, (c, place) :: ts'.lineRest) = y := by
      simpa [hrest, Scan.run, hstep] using h
    exact ⟨rfl, htakes⟩
  | case5 s ts c place ts' hpull error hstep =>
    obtain ⟨hrest, htakes⟩ := pull?_of_run h hpull
    obtain rfl : (.error error, ts'.lineRest) = y := by simpa [hrest, Scan.run, hstep] using h
    exact ⟨rfl, htakes⟩

/-- A scan that ends later than the line does ends with a character of a line that is taken. -/
theorem takes_of_run_go {s s' : Scan} {ts ts' : TokenStream LineReader} {c : Char} {place : Place}
    (h : s.run ts.lineRest = .inl s') (hpull : ts.pull? = some (c, place, ts'))
    (hstep : ∀ next, s.step c place ≠ .go next) : ∃ line, ts.source.Takes [line] ts'.source := by
  obtain ⟨hrest, -⟩ | ⟨line, -, htakes, -⟩ := pull?_cases hpull
  · rw [hrest] at h
    obtain ⟨next, hgo, -⟩ := Scan.go_of_run h
    exact absurd hgo (hstep next)
  · exact ⟨line, htakes⟩

/-- A scan that is not complete at the end of the line takes the next one, if there is one. -/
theorem scan_of_run_go {s s' : Scan} {ts : TokenStream LineReader}
    (h : s.run ts.lineRest = .inl s') (hfeed : ts.source.feed ≠ []) :
    ∃ line lines, ts.source.Takes (line :: lines) (scan s ts).2.source := by
  fun_induction scan s ts with
  | case1 s ts hpull => exact absurd (pull?_eq_none hpull).2 hfeed
  | case2 s ts c place ts' hpull next hstep ih =>
    obtain ⟨hrest, htakes⟩ | ⟨line, -, htakes, -⟩ := pull?_cases hpull
    · rw [hrest, Scan.run_go hstep] at h
      obtain ⟨line, lines, htakes'⟩ := ih h (by rwa [htakes.feed] at hfeed)
      exact ⟨line, lines, htakes.trans htakes'⟩
    · obtain ⟨lines, htakes'⟩ := takes_scan next ts'
      exact ⟨line, lines, htakes.trans htakes'⟩
  | case3 s ts c place ts' hpull token hstep =>
    obtain ⟨line, htakes⟩ := takes_of_run_go h hpull (by simp [hstep])
    exact ⟨line, [], htakes⟩
  | case4 s ts c place ts' hpull token hstep =>
    obtain ⟨line, htakes⟩ := takes_of_run_go h hpull (by simp [hstep])
    exact ⟨line, [], htakes⟩
  | case5 s ts c place ts' hpull error hstep =>
    obtain ⟨line, htakes⟩ := takes_of_run_go h hpull (by simp [hstep])
    exact ⟨line, [], htakes⟩

/-- What is first in the text that follows on a line is what a stream yields next, and no line is
taken for it, unless it is a string that the line leaves open and another line is there. -/
theorem next_of_follows {ts : TokenStream LineReader} (hends : EndsLine ts.lineRest)
    (hfollows : Follows ts.lineRest) {x : Except ScanError Token}
    (hx : BeginsWith ⟨ts.source.read.size, 0⟩ ts.lineRest x) :
    ∃ lines, ts.source.Takes lines ts.next.2.source ∧ (lines = [] → ts.next.1 = x) ∧
      (lines ≠ [] ↔ (∃ p, x = .error ⟨.unterminatedString, p⟩) ∧ ts.source.feed ≠ []) := by
  have hconsume := hx.eq_consume
  rw [Scan.consume_eq_run] at hconsume
  cases hrun : Scan.gap.run ts.lineRest with
  | inr y =>
    rw [hrun] at hconsume
    obtain ⟨hnext, htakes⟩ := scan_of_run hrun
    refine ⟨[], htakes, fun _ => hnext.trans hconsume, ?_⟩
    have hclosed := Scan.run_ne_unterminated hrun
    rw [hconsume] at hclosed
    simp [hclosed]
  | inl s =>
    rw [hrun] at hconsume
    obtain ⟨start, seen, rfl⟩ := hfollows.openString hends hrun
    by_cases hfeed : ts.source.feed = []
    · -- there is no line to be taken, so input ends where the line does
      obtain ⟨lines, htakes⟩ := takes_scan .gap ts
      obtain rfl : lines = [] := by
        have happend := htakes.feed
        rw [hfeed] at happend
        exact (List.append_eq_nil_iff.1 happend.symm).1
      have hchars : ts.chars = ts.lineRest := by simp [chars_eq_lineRest, hfeed]
      have hend : ts.endPlace = ⟨ts.source.read.size, 0⟩ := by
        simp [endPlace, LineReader.endPlace_eq, hfeed]
      have hscan := (scan_eq_consume .gap ts).1
      rw [hchars, hend, Scan.consume_eq_run, hrun] at hscan
      refine ⟨[], htakes, fun _ => ?_, by simp [hfeed]⟩
      exact (congrArg Prod.fst hscan).symm.trans hconsume
    · obtain ⟨line, lines, htakes⟩ := scan_of_run_go hrun hfeed
      refine ⟨line :: lines, htakes, by simp, ?_⟩
      simp only [ne_eq, reduceCtorEq, not_false_eq_true, true_iff]
      exact ⟨⟨start, hconsume.symm⟩, hfeed⟩

end TokenStream
end Lisplet
