import Lisplet.Proofs.Datum.Written
import Lisplet.Proofs.Reader.Pending
import Lisplet.Proofs.Reading.Accepts

/-!
What is written is read back. The reader takes the tokens that stand ahead as
its reading does, so it completes the datum that they spell, or stops where the
datum goes deeper than a reading may nest; nothing but the end of input is left.
-/
namespace Lisplet

/-- What is scanned token by token is what the stream yields. -/
theorem TokenStream.results_of_scans {σ : Type} [Source σ] (tk : TokenStream σ) {final : Place}
    {cs : List (Char × Place)} {ts : List Token} (h : Scans final cs ts)
    (hf : tk.endPlace = final) (hc : tk.chars = cs) :
    ∃ rest, tk.results = ts.map .ok ++ₛ rest ∧ rest.head = .ok ⟨.eof, final⟩ := by
  induction h generalizing tk with
  | eof h =>
    subst hf hc
    obtain ⟨hconsume, -⟩ := TokenStream.scan_eq_consume .gap tk
    rw [h, Prod.mk.injEq] at hconsume
    refine ⟨tk.results, rfl, ?_⟩
    rw [TokenStream.results_eq, Stream'.head_cons]
    exact hconsume.1.symm
  | token h _ ih =>
    subst hf hc
    obtain ⟨hconsume, hend⟩ := TokenStream.scan_eq_consume .gap tk
    rw [h, Prod.mk.injEq] at hconsume
    obtain ⟨rest, hrest, heof⟩ := ih _ hend hconsume.2.symm
    refine ⟨rest, ?_, heof⟩
    rw [TokenStream.results_eq, TokenStream.next, hrest, ← hconsume.1]
    rfl

namespace Reader

variable {σ : Type} [Source σ]

/-- One turn of the loop that reads an expression, told by what is ahead. -/
theorem resume_of_ahead {r : Reader σ} {t : Token} {rest : Stream' (Except ReadError Token)}
    (h : r.ahead = .cons (.ok t) rest) : ∃ s : Reader σ, s.ahead = rest ∧ r.resume =
      match r.reading.take t with
      | .more reading => resume { s with reading }
      | .done d => (.ok d, s.settle)
      | .fail e => (.error e, s.giveBack) := by
  cases hn : r.next with
  | mk x s =>
    rw [ahead_of_next hn] at h
    obtain ⟨rfl, hs⟩ := Stream'.cons_injective2 h
    exact ⟨s, hs, resume_of_token hn⟩

/-- The attempt ends as a reading did that was fed all the tokens before `rest`. -/
def EndsAs (rest : Stream' (Except ReadError Token)) (x : Except ReadError Datum × Reader σ) :
    Reading.Move × List Token → Prop
  | (.more _, _) => True
  | (.done d, us) => ∃ s, x = (.ok d, s) ∧ s.ahead = us.map .ok ++ₛ rest
  | (.fail e, _) => ∃ s, x = (.error e, s)

/-- A reader that has these tokens ahead ends as the reading does that is fed with them. -/
theorem resume_endsAs {r : Reader σ} {ts : List Token} {rest : Stream' (Except ReadError Token)}
    (h : r.ahead = ts.map .ok ++ₛ rest) :
    EndsAs rest r.resume (Reading.feed (.more r.reading) ts) := by
  induction ts generalizing r with
  | nil => trivial
  | cons t ts ih =>
    obtain ⟨s, hs, hr⟩ := resume_of_ahead (by rw [h, List.map_cons, Stream'.cons_append_stream])
    rw [Reading.feed_more, hr]
    cases r.reading.take t with
    | more reading => exact ih (r := { s with reading }) hs
    | done d =>
      rw [Reading.feed_done]
      exact ⟨s.settle, rfl, hs⟩
    | fail e =>
      rw [Reading.feed_fail]
      exact ⟨s.giveBack, rfl⟩

/-- Tokens that spell a datum are read as that datum, and no others are used up. -/
theorem read_of_spells {r : Reader σ} {n : Nat} {ts : List Token} {d : Datum}
    {rest : Stream' (Except ReadError Token)} (hr : r.Idle) (ha : r.ahead = ts.map .ok ++ₛ rest)
    (h : Spells n ts d) (hn : n ≤ maxNesting) : ∃ s, r.read = (.ok d, s) ∧ s.ahead = rest := by
  have hread := resume_endsAs ha
  have hfeed := Reading.feed_spells h [] [] (by simpa using hn)
  rw [List.append_nil] at hfeed
  rw [hr.reading, Reading.start, hfeed] at hread
  exact hread

/-- What nests too deep is refused, and the reader says so. -/
theorem read_of_spells_tooDeep {r : Reader σ} {n : Nat} {ts : List Token} {d : Datum}
    {rest : Stream' (Except ReadError Token)} (hr : r.Idle) (ha : r.ahead = ts.map .ok ++ₛ rest)
    (h : Spells n ts d) (hn : maxNesting < n) :
    ∃ place s, r.read = (.error ⟨.tooDeep, place⟩, s) := by
  have hread := resume_endsAs ha
  obtain ⟨place, left, hfeed⟩ :=
    Reading.feed_spells_tooDeep h [] [] (Nat.zero_le _) (by simpa using hn)
  rw [List.append_nil] at hfeed
  rw [hr.reading, Reading.start, hfeed] at hread
  obtain ⟨s, hs⟩ := hread
  exact ⟨place, s, hs⟩

theorem atEnd_of_ahead {r : Reader σ} {place : Place} (h : r.ahead.head = .ok ⟨.eof, place⟩) :
    r.atEnd.1 = .ok true := by
  cases hp : r.peek with
  | mk x s =>
    cases x with
    | ok t =>
      have ht := (ahead_of_peek hp).2
      rw [h] at ht
      cases ht
      simp [atEnd, hp]
    | error e =>
      rw [ahead_of_peek_error hp] at h
      cases h

/-- Ahead of a reader of the text stand tokens with these lexemes, and the end of input. Whether
a line feed is added to the text must not matter. -/
theorem ahead_ofText {text : String} {ls : List Lexeme} (h : Lexes text.toList ls)
    (hblank : Lexes (text.toList ++ ['\n']) ls) :
    ∃ (ts : List Token) (rest : Stream' (Except ReadError Token)) (place : Place),
      (ofSource (LineReader.ofText text)).ahead = ts.map .ok ++ₛ rest ∧
        ts.map Token.lexeme = ls ∧ rest.head = .ok ⟨.eof, place⟩ := by
  obtain ⟨tail, htail, hchars⟩ := LineReader.chars_ofText text
  have htext : Lexes (text.toList ++ tail) ls := by
    rcases htail with rfl | rfl
    · rwa [List.append_nil]
    · exact hblank
  obtain ⟨ts, hts, hls⟩ := htext (Source.endPlace (LineReader.ofText text)) _ hchars
  obtain ⟨rest, hrest, heof⟩ :=
    TokenStream.results_of_scans { source := LineReader.ofText text } hts rfl rfl
  refine ⟨ts, rest.map (.mapError (.map .scan)), Source.endPlace (LineReader.ofText text), ?_,
    hls, ?_⟩
  · simp only [ahead, ofSource, hrest, Stream'.map_append_stream, List.map_map]
    rfl
  · rw [Stream'.head_map, heof]
    rfl

end Reader

/-- A written datum is scanned to its lexemes, whatever blank stands after it. -/
theorem lexes_toString {d : Datum} {tail : List Char} (h : d.readable = true)
    (htail : endsWord tail = true) (hlexes : Lexes tail []) :
    Lexes ((toString d).toList ++ tail) d.lexemes := by
  have hd := lexes_datum d h htail hlexes
  rw [List.append_nil] at hd
  simpa [ToString.toString] using hd

/-- The reader that is given the written form of a datum. -/
def Reader.ofDatum (d : Datum) : Reader LineReader := .ofSource (.ofText (toString d))

namespace Reader

/-- Ahead of the reader of a written datum stand tokens that spell it, and the end of input. -/
theorem ahead_ofDatum {d : Datum} (h : d.readable = true) :
    ∃ (e : Datum) (ts : List Token) (rest : Stream' (Except ReadError Token)) (place : Place),
      Spells d.levels ts e ∧ (e == d) = true ∧ (ofDatum d).ahead = ts.map .ok ++ₛ rest ∧
        rest.head = .ok ⟨.eof, place⟩ := by
  have hnil := lexes_toString h rfl lexes_nil
  rw [List.append_nil] at hnil
  have hblank := lexes_toString h rfl (lexes_blank (c := '\n') rfl lexes_nil)
  obtain ⟨ts, rest, final, hahead, hls, heof⟩ := ahead_ofText hnil hblank
  obtain ⟨e, hspells, hsame⟩ := spells_of_lexemes d h hls
  exact ⟨e, ts, rest, final, hspells, hsame, hahead, heof⟩

theorem read_ofDatum {d : Datum} (h : d.readable = true) (hle : d.levels ≤ 128) :
    ∃ e s, (ofDatum d).read = (.ok e, s) ∧ (e == d) = true ∧ s.atEnd.1 = .ok true := by
  obtain ⟨e, ts, rest, final, hspells, hsame, hahead, heof⟩ := ahead_ofDatum h
  obtain ⟨s, hs, hrest⟩ := read_of_spells (idle_ofSource _) hahead hspells hle
  refine ⟨e, s, hs, hsame, ?_⟩
  exact atEnd_of_ahead (by rw [hrest]; exact heof)

theorem read_ofDatum_tooDeep {d : Datum} (h : d.readable = true) (hlt : 128 < d.levels) :
    ∃ place s, (ofDatum d).read = (.error ⟨.tooDeep, place⟩, s) := by
  obtain ⟨e, ts, rest, final, hspells, -, hahead, -⟩ := ahead_ofDatum h
  exact read_of_spells_tooDeep (idle_ofSource _) hahead hspells hlt

/-- A written datum is read back exactly if it nests at most 128 levels. -/
theorem read_ofDatum_iff {d : Datum} (h : d.readable = true) :
    (∃ e s, (ofDatum d).read = (.ok e, s) ∧ (e == d) = true ∧ s.atEnd.1 = .ok true) ↔
      d.levels ≤ 128 := by
  refine ⟨?_, read_ofDatum h⟩
  rintro ⟨e, s, hs, -⟩
  by_contra hlt
  obtain ⟨place, s', hs'⟩ := read_ofDatum_tooDeep h (by omega)
  rw [hs] at hs'
  cases hs'

end Reader

/-- The written form of a datum is read back as the same datum and nothing is left over, exactly
if the datum does not nest too deep; if it does, that is the error. -/
theorem read_toString (d : Datum) (h : d.readable = true) :
    ((∃ e s, (Reader.ofDatum d).read = (.ok e, s) ∧ (e == d) = true ∧ s.atEnd.1 = .ok true) ↔
      d.levels ≤ 128) ∧
    (128 < d.levels → ∃ place s, (Reader.ofDatum d).read = (.error ⟨.tooDeep, place⟩, s)) :=
  ⟨Reader.read_ofDatum_iff h, Reader.read_ofDatum_tooDeep h⟩

/-- A call with a quoted type, a text with escapes and a negative number. -/
theorem read_toString_call :
    let d : Datum := .list default [.ident default "f", .quote default (.type default
      (.union (.atom .int) (.infer "t"))), .str default "\"\n", .int default (-7)]
    ∃ e s, (Reader.ofDatum d).read = (.ok e, s) ∧ (e == d) = true ∧ s.atEnd.1 = .ok true := by
  intro d
  exact (read_toString d (by decide)).1.2 (by decide)

end Lisplet
