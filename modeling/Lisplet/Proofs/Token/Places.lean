import Lisplet.Proofs.Token.Onward

/-!
Where tokens stand. The places that a scan notes down are those of characters
that it has taken, so each of them is a column of a line that has been read. The
one place that belongs to no character is the end of input: it is on the line
after all lines, and only the token that stands for the end is there.
-/
namespace Lisplet

namespace LineReader

def Points (r : LineReader) (p : Place) : Prop :=
  ∃ line, r.read[p.line]? = some line ∧ p.col < line.chars.length

/-- A character stands here, or this is where input ends. -/
def Marks (r : LineReader) (p : Place) : Prop :=
  r.Points p ∨ r.feed = [] ∧ p = ⟨r.read.size, 0⟩

/-- What is left of the current line is the end of it, from column `col`. -/
def OnLine (r : LineReader) : Prop :=
  r.rest ≠ [] → ∃ line, r.read[r.read.size - 1]? = some line ∧ r.rest = line.chars.drop r.col

variable {r r' : LineReader} {lines : List Line} {p : Place}

theorem onLine_of_rest (h : r.rest = []) : r.OnLine := fun hne => absurd h hne

/-- Lines that have been read stay where they are. -/
theorem Points.takes (h : r.Points p) (htakes : r.Takes lines r') : r'.Points p := by
  obtain ⟨line, hline, hcol⟩ := h
  refine ⟨line, ?_, hcol⟩
  rw [← Array.getElem?_toList] at hline ⊢
  rw [htakes.read, List.getElem?_append_left (List.getElem?_eq_some_iff.1 hline).1, hline]

theorem Marks.takes (h : r.Marks p) (htakes : r.Takes lines r') : r'.Marks p := by
  obtain hpoints | ⟨hfeed, rfl⟩ := h
  · exact .inl (hpoints.takes htakes)
  · have happend := htakes.feed
    rw [hfeed, eq_comm, List.append_eq_nil_iff] at happend
    obtain ⟨rfl, hfeed'⟩ := happend
    have hread : r'.read = r.read := Array.toList_inj.1 (by rw [htakes.read, List.append_nil])
    exact .inr ⟨hfeed', by rw [hread]⟩

/-- Once a line has been read, its first character is one. -/
theorem Points.first (h : r.Points p) : r.Points ⟨0, 0⟩ := by
  obtain ⟨line, hline, -⟩ := h
  have hsize : 0 < r.read.size := Nat.zero_lt_of_lt (Array.getElem?_eq_some_iff.1 hline).1
  exact ⟨r.read[0], Array.getElem?_eq_getElem hsize, by simp [Line.chars]⟩

/-- A character that is handed out stands where the source said. -/
theorem points_of_next? {c : Char} (hr : r.OnLine) (h : r.next? = some (c, r')) :
    r'.OnLine ∧ r'.Points r.place := by
  obtain ⟨rest, hrest, rfl⟩ | ⟨line, feed, hrest, hfeed, rfl, rfl⟩ := next?_cases h
  · obtain ⟨line, hline, hdrop⟩ := hr (by simp [hrest])
    rw [hrest] at hdrop
    have hcol : r.col < line.chars.length := by
      refine Nat.lt_of_not_le fun hle => ?_
      rw [List.drop_eq_nil_of_le hle] at hdrop
      cases hdrop
    refine ⟨fun _ => ⟨line, hline, ?_⟩, line, ?_, ?_⟩
    · rw [← List.tail_drop, ← hdrop]
      rfl
    · simpa [place, hrest] using hline
    · simpa [place, hrest] using hcol
  · refine ⟨fun _ => ⟨line, by simp, ?_⟩, line, ?_, ?_⟩
    · rw [Line.others, List.drop_one]
    · simp [place, hrest]
    · simp [place, hrest, Line.chars]

end LineReader

namespace Scan

variable {P Q : Place → Prop}

def Within (P : Place → Prop) : Scan → Prop
  | gap | comment => True
  | word start _ | string start _ => P start
  | escape start _ slash => P start ∧ P slash

theorem Within.mono {s : Scan} (h : s.Within P) (hPQ : ∀ p, P p → Q p) : s.Within Q := by
  cases s with
  | gap | comment => trivial
  | word start seen | string start seen => exact hPQ _ h
  | escape start seen slash => exact ⟨hPQ _ h.1, hPQ _ h.2⟩

def Move.Within (P : Place → Prop) : Move → Prop
  | .go next => next.Within P
  | .done t | .hold t => P t.place
  | .fail e => P e.place

/-- A step makes up no place. -/
theorem step_within {s : Scan} {c : Char} {place : Place} (hs : s.Within P) (hplace : P place) :
    (s.step c place).Within P := by
  cases s with
  | gap =>
    simp only [step, first]
    repeat' split
    all_goals trivial
  | comment => simp only [step]; split <;> trivial
  | word start seen =>
    simp only [step]
    split
    · exact hs
    · split <;> exact hs
  | string start seen =>
    simp only [step]
    split
    · exact hs
    · split
      · exact ⟨hs, hplace⟩
      · exact hs
  | escape start seen slash =>
    simp only [step]
    split
    · exact hs.1
    · exact hplace

end Scan

namespace TokenStream

/-- The line that is being scanned and the character that is held are in their places. -/
structure InText (ts : TokenStream LineReader) : Prop where
  source : ts.source.OnLine
  held : ∀ x ∈ ts.held, ts.source.Points x.2

variable {ts ts' : TokenStream LineReader}

theorem inText_of_rest (hheld : ts.held = none) (hrest : ts.source.rest = []) : ts.InText :=
  ⟨LineReader.onLine_of_rest hrest, by simp [hheld]⟩

/-- A character comes with its place in the text, held or not. -/
theorem InText.pull? {c : Char} {p : Place} (h : ts.InText) (hpull : ts.pull? = some (c, p, ts')) :
    ts'.InText ∧ ts'.source.Points p := by
  unfold TokenStream.pull? at hpull
  split at hpull
  next c' p' hheld =>
    cases hpull
    exact ⟨⟨h.source, by simp⟩, h.held _ hheld⟩
  next =>
    split at hpull
    next source hnext =>
      cases hpull
      obtain ⟨honLine, hpoints⟩ := LineReader.points_of_next? h.source hnext
      exact ⟨⟨honLine, by simp⟩, hpoints⟩
    next => cases hpull

/-- A token stands at a character, or it is the end of input and stands there. -/
def Stands (source : LineReader) (t : Token) : Prop :=
  source.Points t.place ∨
    t.lexeme = .eof ∧ source.feed = [] ∧ t.place = ⟨source.read.size, 0⟩

def Reports (source : LineReader) : Except ScanError Token → Prop
  | .ok t => Stands source t
  | .error e => source.Points e.place

variable {source source' : LineReader} {lines : List Line} {t : Token}

theorem Stands.takes (h : Stands source t) (htakes : source.Takes lines source') :
    Stands source' t := by
  obtain hpoints | ⟨he, hfeed, hplace⟩ := h
  · exact .inl (hpoints.takes htakes)
  · have hmarks : source.Marks t.place := .inr ⟨hfeed, hplace⟩
    obtain hpoints | ⟨hfeed', hplace'⟩ := hmarks.takes htakes
    · exact .inl hpoints
    · exact .inr ⟨he, hfeed', hplace'⟩

theorem Stands.marks (h : Stands source t) : source.Marks t.place :=
  h.imp_right And.right

theorem Stands.points (h : Stands source t) (hne : t.lexeme ≠ .eof) : source.Points t.place :=
  h.resolve_right fun heof => hne heof.1

theorem reports_finish {s : Scan} (hs : s.Within ts.source.Points) (hpull : ts.pull? = none) :
    Reports ts.source (s.finish (Source.place ts.source)) := by
  obtain ⟨hrest, hfeed⟩ := rest_of_end hpull
  have hplace : Source.place ts.source = ⟨ts.source.read.size, 0⟩ :=
    LineReader.place_of_end hrest
  cases s with
  | gap | comment => exact .inr ⟨rfl, hfeed, hplace⟩
  | word start seen => exact .inl hs
  | string start seen => exact hs
  | escape start seen slash => exact hs.2

/-- What a scan makes of the next character, with the places that it has noted down. -/
theorem InText.move {s : Scan} (h : ts.InText) (hs : s.Within ts.source.Points) {c : Char}
    {p : Place} (hpull : ts.pull? = some (c, p, ts')) :
    ts'.InText ∧ ts'.source.Points p ∧ (s.step c p).Within ts'.source.Points := by
  obtain ⟨hts', hpoints⟩ := h.pull? hpull
  obtain ⟨lines, htakes⟩ := takes_pull? hpull
  exact ⟨hts', hpoints, Scan.step_within (hs.mono fun q hq => hq.takes htakes) hpoints⟩

/-- The induction is on the scan. Its places are those of characters that it has taken, wherever it
has come. -/
theorem InText.scan {s : Scan} (h : ts.InText) (hs : s.Within ts.source.Points) :
    (scan s ts).2.InText ∧ Reports (scan s ts).2.source (scan s ts).1 := by
  fun_induction TokenStream.scan s ts with
  | case1 s ts hpull => exact ⟨h, reports_finish hs hpull⟩
  | case2 s ts c place ts' hpull next hstep ih =>
    obtain ⟨hts', -, hmove⟩ := h.move hs hpull
    rw [hstep] at hmove
    exact ih hts' hmove
  | case3 s ts c place ts' hpull token hstep =>
    obtain ⟨hts', -, hmove⟩ := h.move hs hpull
    rw [hstep] at hmove
    exact ⟨hts', .inl hmove⟩
  | case4 s ts c place ts' hpull token hstep =>
    obtain ⟨hts', hpoints, hmove⟩ := h.move hs hpull
    rw [hstep] at hmove
    exact ⟨⟨hts'.source, by rintro _ ⟨⟩; exact hpoints⟩, .inl hmove⟩
  | case5 s ts c place ts' hpull error hstep =>
    obtain ⟨hts', -, hmove⟩ := h.move hs hpull
    rw [hstep] at hmove
    exact ⟨hts', hmove⟩

theorem InText.next (h : ts.InText) : ts.next.2.InText ∧ Reports ts.next.2.source ts.next.1 :=
  h.scan trivial

end TokenStream
end Lisplet
