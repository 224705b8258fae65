import Lisplet.Proofs.Reader.Lockstep
import Lisplet.Text.Lines

/-!
Lines that stand elsewhere. A scan asks for characters and copies their places.
So two streams with the same characters left of the current line, and the same
lines to come, yield tokens and errors that differ in places only. If only the
numbers of the lines differ, then so do the places.
-/
namespace Lisplet

variable (f : Place → Place)

namespace Scan

def relocate : Scan → Scan
  | gap => gap
  | comment => comment
  | word start seen => word (f start) seen
  | string start seen => string (f start) seen
  | escape start seen slash => escape (f start) seen (f slash)

def Move.relocate : Move → Move
  | .go next => .go (next.relocate f)
  | .done t => .done (t.relocate f)
  | .hold t => .hold (t.relocate f)
  | .fail e => .fail ⟨e.what, f e.place⟩

theorem first_relocate (c : Char) (place : Place) :
    (first c place).relocate f = first c (f place) := by
  unfold first
  split
  next => rfl
  next => split <;> rfl

/-- Moving all places before a step comes to the same as moving them after it. -/
theorem step_relocate (s : Scan) (c : Char) (place : Place) :
    (s.step c place).relocate f = (s.relocate f).step c (f place) := by
  cases s with
  | gap =>
    simp only [step, relocate]
    split
    · rfl
    · split
      · rfl
      · exact first_relocate f c place
  | comment => simp only [step, relocate]; split <;> rfl
  | word start seen =>
    simp only [step, relocate]
    split
    · rfl
    · split <;> rfl
  | string start seen =>
    simp only [step, relocate]
    split
    · rfl
    · split <;> rfl
  | escape start seen slash => simp only [step, relocate]; split <;> rfl

inductive Move.Alike : Move → Move → Prop where
  | go {s s' : Scan} : s.relocate f = s'.relocate f → Alike (.go s) (.go s')
  | done {t u : Token} : t.relocate f = u.relocate f → Alike (.done t) (.done u)
  | hold {t u : Token} : t.relocate f = u.relocate f → Alike (.hold t) (.hold u)
  | fail {x y : ScanError} : x.what = y.what → f x.place = f y.place → Alike (.fail x) (.fail y)

/-- A character does the same to a scan wherever both of them stand. -/
theorem step_alike {s s' : Scan} (hs : s.relocate f = s'.relocate f) (c : Char) {p q : Place}
    (hpq : f p = f q) : Move.Alike f (s.step c p) (s'.step c q) := by
  have heq : (s.step c p).relocate f = (s'.step c q).relocate f := by
    rw [step_relocate, step_relocate, hs, hpq]
  generalize s.step c p = m at heq
  generalize s'.step c q = m' at heq
  cases m with
  | go next =>
    cases m' <;> simp only [Move.relocate, reduceCtorEq] at heq
    exact .go (Move.go.inj heq)
  | done t =>
    cases m' <;> simp only [Move.relocate, reduceCtorEq] at heq
    exact .done (Move.done.inj heq)
  | hold t =>
    cases m' <;> simp only [Move.relocate, reduceCtorEq] at heq
    exact .hold (Move.hold.inj heq)
  | fail e =>
    cases m' <;> simp only [Move.relocate, reduceCtorEq] at heq
    obtain ⟨hwhat, hplace⟩ := Located.mk.inj (Move.fail.inj heq)
    exact .fail hwhat hplace

theorem finish_alike {s s' : Scan} (hs : s.relocate f = s'.relocate f) {p q : Place}
    (hpq : f p = f q) : ScansAlike f (s.finish p) (s'.finish q) := by
  cases s with
  | gap =>
    cases s' <;> simp only [relocate, reduceCtorEq] at hs
    exact .ok (congrArg (Token.mk .eof) hpq)
  | comment =>
    cases s' <;> simp only [relocate, reduceCtorEq] at hs
    exact .ok (congrArg (Token.mk .eof) hpq)
  | word start seen =>
    cases s' <;> simp only [relocate, reduceCtorEq, word.injEq] at hs
    obtain ⟨hstart, rfl⟩ := hs
    exact .ok (congrArg (Token.mk _) hstart)
  | string start seen =>
    cases s' <;> simp only [relocate, reduceCtorEq, string.injEq] at hs
    exact .error ⟨rfl, hs.1⟩
  | escape start seen slash =>
    cases s' <;> simp only [relocate, reduceCtorEq, escape.injEq] at hs
    exact .error ⟨rfl, hs.2.2⟩

end Scan

namespace TokenStream

/-- The same characters are left of the current line, in the same columns, and the same lines are
to come. -/
structure LinesAlike (ts us : TokenStream LineReader) : Prop where
  held : ts.held.map (fun x => (x.1, f x.2)) = us.held.map fun x => (x.1, f x.2)
  rest : ts.source.rest = us.source.rest
  col : ts.source.rest ≠ [] → ts.source.col = us.source.col
  feed : ts.source.feed = us.source.feed

def KeepsColumns (f : Place → Place) : Prop := ∀ p q : Place, p.col = q.col → f p = f q

variable {f} {ts us ts' : TokenStream LineReader}

theorem LinesAlike.place (hf : KeepsColumns f) (h : LinesAlike f ts us) :
    f (Source.place ts.source) = f (Source.place us.source) := by
  refine hf _ _ ?_
  change (ts.source.place).col = (us.source.place).col
  unfold LineReader.place
  rw [← h.rest]
  split
  next => rfl
  next hne => exact h.col (by simpa using hne)

theorem LinesAlike.held_eq_none (h : LinesAlike f ts us) (hts : ts.held = none) :
    us.held = none := by
  have hheld := h.held
  rw [hts, Option.map_none] at hheld
  exact Option.map_eq_none_iff.1 hheld.symm

theorem LinesAlike.pull?_eq_none (h : LinesAlike f ts us) (hpull : ts.pull? = none) :
    us.pull? = none := by
  unfold TokenStream.pull? at hpull
  split at hpull
  next => cases hpull
  next hts =>
    split at hpull
    next => cases hpull
    next hnext =>
      obtain ⟨hrest, hfeed⟩ := LineReader.next?_eq_none_iff.1 hnext
      have hnext' : us.source.next? = none :=
        LineReader.next?_eq_none_iff.2 ⟨h.rest ▸ hrest, h.feed ▸ hfeed⟩
      have hsource : Source.next? us.source = none := hnext'
      simp [TokenStream.pull?, h.held_eq_none hts, hsource]

theorem LinesAlike.exists_next? (h : LinesAlike f ts us) {c : Char} {source : LineReader}
    (hnext : ts.source.next? = some (c, source)) : ∃ source', us.source.next? = some (c, source') ∧
      LinesAlike f { source } { source := source' } := by
  obtain ⟨rest, hrest, rfl⟩ | ⟨line, feed, hrest, hfeed, rfl, rfl⟩ := LineReader.next?_cases hnext
  · have hrest' : us.source.rest = c :: rest := h.rest ▸ hrest
    have hcol : ts.source.col = us.source.col := h.col (by simp [hrest])
    refine ⟨{ us.source with rest, col := us.source.col + 1 }, ?_, rfl, rfl, ?_, h.feed⟩
    · simp [LineReader.next?, hrest']
    · intro _
      simp [hcol]
  · have hrest' : us.source.rest = [] := h.rest ▸ hrest
    have hfeed' : us.source.feed = line :: feed := h.feed ▸ hfeed
    refine ⟨⟨us.source.read.push line, line.others, 1, feed⟩, ?_, rfl, rfl, fun _ => rfl, rfl⟩
    simp [LineReader.next?, hrest', hfeed']

theorem LinesAlike.exists_pull? (hf : KeepsColumns f) (h : LinesAlike f ts us) {c : Char}
    {p : Place} (hpull : ts.pull? = some (c, p, ts')) :
    ∃ q us', us.pull? = some (c, q, us') ∧ f p = f q ∧ LinesAlike f ts' us' := by
  unfold TokenStream.pull? at hpull
  split at hpull
  next c' p' hts =>
    cases hpull
    have hheld := h.held
    rw [hts, Option.map_some] at hheld
    obtain ⟨⟨c', q⟩, hus, hcq⟩ := Option.map_eq_some_iff.1 hheld.symm
    obtain ⟨rfl, hpq⟩ := Prod.mk.inj hcq
    refine ⟨q, { us with held := none }, ?_, hpq.symm, rfl, h.rest, h.col, h.feed⟩
    simp [TokenStream.pull?, hus]
  next hts =>
    split at hpull
    next source hnext =>
      cases hpull
      obtain ⟨source', hnext', hafter⟩ := h.exists_next? hnext
      have hsource : Source.next? us.source = some (c, source') := hnext'
      refine ⟨Source.place us.source, { source := source' }, ?_, h.place hf, hafter⟩
      simp [TokenStream.pull?, h.held_eq_none hts, hsource]
    next => cases hpull

/-- A scan in two places takes the same next character and makes the same of it. -/
theorem LinesAlike.exists_move (hf : KeepsColumns f) (h : LinesAlike f ts us) {s s' : Scan}
    (hs : s.relocate f = s'.relocate f) {c : Char} {p : Place} {m : Scan.Move}
    (hpull : ts.pull? = some (c, p, ts')) (hstep : s.step c p = m) :
    ∃ q us' m', us.pull? = some (c, q, us') ∧ s'.step c q = m' ∧ f p = f q ∧
      Scan.Move.Alike f m m' ∧ LinesAlike f ts' us' := by
  obtain ⟨q, us', hpull', hplace, hafter⟩ := h.exists_pull? hf hpull
  have hmove := Scan.step_alike f hs c hplace
  rw [hstep] at hmove
  exact ⟨q, us', _, hpull', rfl, hplace, hmove, hafter⟩

/-- The induction is on the scan of the first stream; the second one takes the same characters. -/
theorem LinesAlike.scan (hf : KeepsColumns f) (h : LinesAlike f ts us) {s s' : Scan}
    (hs : s.relocate f = s'.relocate f) :
    ScansAlike f (scan s ts).1 (scan s' us).1 ∧ LinesAlike f (scan s ts).2 (scan s' us).2 := by
  fun_induction TokenStream.scan s ts generalizing s' us with
  | case1 s ts hpull =>
    rw [scan_of_end (h.pull?_eq_none hpull)]
    exact ⟨Scan.finish_alike f hs (h.place hf), h⟩
  | case2 s ts c place ts' hpull next hstep ih =>
    obtain ⟨q, us', m', hpull', hstep', -, hmove, hafter⟩ := h.exists_move hf hs hpull hstep
    rw [scan_of_char hpull', hstep']
    cases hmove with
    | go hnext => exact ih hafter hnext
  | case3 s ts c place ts' hpull token hstep =>
    obtain ⟨q, us', m', hpull', hstep', -, hmove, hafter⟩ := h.exists_move hf hs hpull hstep
    rw [scan_of_char hpull', hstep']
    cases hmove with
    | done htu => exact ⟨.ok htu, hafter⟩
  | case4 s ts c place ts' hpull token hstep =>
    obtain ⟨q, us', m', hpull', hstep', hplace, hmove, hafter⟩ := h.exists_move hf hs hpull hstep
    rw [scan_of_char hpull', hstep']
    cases hmove with
    | hold htu =>
      exact ⟨.ok htu, congrArg (fun x => some (c, x)) hplace, hafter.rest, hafter.col, hafter.feed⟩
  | case5 s ts c place ts' hpull error hstep =>
    obtain ⟨q, us', m', hpull', hstep', -, hmove, hafter⟩ := h.exists_move hf hs hpull hstep
    rw [scan_of_char hpull', hstep']
    cases hmove with
    | fail hwhat hxy => exact ⟨.error ⟨hwhat, hxy⟩, hafter⟩

/-- Wherever lines stand, they are read alike, line by line. -/
theorem keepsLines_linesAlike (hf : KeepsColumns f) : Reader.KeepsLines f (LinesAlike f) where
  next _ _ h := h.scan hf rfl
  atLineEnd ts us h := by
    have hheld := congrArg Option.isNone h.held
    simp only [Option.isNone_map] at hheld
    have hsource : Source.atLineEnd ts.source = Source.atLineEnd us.source := by
      change ts.source.atLineEnd = us.source.atLineEnd
      rw [LineReader.atLineEnd, LineReader.atLineEnd, h.rest]
    rw [atLineEnd, atLineEnd, hheld, hsource]
  skipLine _ _ h := ⟨rfl, rfl, fun hne => absurd rfl hne, h.feed⟩

end TokenStream
end Lisplet
