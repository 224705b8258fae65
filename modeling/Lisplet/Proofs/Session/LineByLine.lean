import Lisplet.Proofs.Reader.OneLine
import Lisplet.Proofs.Session.Pieces
import Lisplet.Proofs.Session.Script

/-!
Three ways to run a program. A script does what the evaluation of the same text
does, and reports its error. The console does the same with lines of at most one
expression each, one line after the other: between two lines its reader keeps
nothing but a gap, so a line is evaluated as if it were alone.
-/
namespace Lisplet

namespace Reader

/-- These lines have been read, and those below them are still in the feed. Nothing is kept, and
nothing but a gap is left of the current line. -/
structure Between (above below : List String) (r : Reader LineReader) : Prop where
  idle : r.Idle
  pending : r.pending = []
  gap : Gap r.tokens.lineRest
  read : r.source.read.toList = above.map Line.ofString
  feed : r.source.feed = below.map Line.ofString

variable {r s : Reader LineReader} {above below : List String} {line : String}

theorem between_ofLines (lines : List String) :
    Between [] lines (ofSource (LineReader.ofLines lines)) :=
  ⟨⟨rfl, rfl⟩, rfl, .nil, rfl, rfl⟩

/-- Of the next line the reader reads what it would read of it alone, if more lines were to come. -/
theorem Between.read?_cons (h : r.Between above (line :: below)) :
    r.read? =
      ((ofSource (LineReader.below above line)).extend (below.map Line.ofString)).read? := by
  refine read?_congr h.idle ⟨rfl, rfl⟩ h.pending rfl ?_
  have hfeed : r.tokens.source.feed = (line :: below).map Line.ofString := h.feed
  have hread : r.tokens.source.read = (above.map Line.ofString).toArray :=
    Array.toList_inj.1 h.read
  rw [TokenStream.next_anew h.gap (by simp [hfeed]), LineReader.anew, hread, hfeed]
  rfl

/-- At the end of the lines nothing is read. -/
theorem Between.read?_nil (h : r.Between above []) : ∃ s, r.read? = (.ok none, s) := by
  have hfeed : r.tokens.source.feed = [] := h.feed
  exact read?_of_gap h.pending (by simpa [TokenStream.chars_eq_lineRest, hfeed] using h.gap)

/-- The line is used up when something has been read of it, or has not. -/
theorem lines_read?_below (above : List String) (line : String) :
    let s := (ofSource (LineReader.below above line)).read?.2
    s.source.read.toList = (above ++ [line]).map Line.ofString ∧ s.source.feed = [] := by
  intro s
  obtain ⟨l, lines, htakes⟩ :=
    takes_of_read? (r := ofSource (LineReader.below above line)) rfl rfl (List.cons_ne_nil _ _)
  have hfeed : [Line.ofString line] = l :: lines ++ s.source.feed := htakes.feed
  obtain ⟨rfl, hnil⟩ := List.cons.inj hfeed
  obtain ⟨rfl, hfeed'⟩ := List.append_eq_nil_iff.1 hnil.symm
  refine ⟨?_, hfeed'⟩
  have hread : s.source.read.toList = (above.map Line.ofString).toArray.toList ++ [_] := htakes.read
  rw [hread, List.map_append]
  rfl

/-- A line with no expression is passed over. -/
theorem Between.read?_bare (h : r.Between above (line :: below))
    (hbare : (ofSource (LineReader.below above line)).read? = (.ok none, s)) :
    ∃ q : Reader LineReader, q.Between (above ++ [line]) below ∧ r.read? = q.read? := by
  have hready : (ofSource (LineReader.below above line)).Ready := ready_ofSource rfl
  obtain ⟨hrest, -, hmore⟩ :=
    read?_extend_of_end (below.map Line.ofString) hready (idle_ofSource _) hbare
  obtain ⟨hread, hfeed⟩ := lines_read?_below above line
  rw [hbare] at hread hfeed
  refine ⟨ofSource (s.source.extend (below.map Line.ofString)),
    ⟨⟨rfl, rfl⟩, rfl, ?_, hread, ?_⟩, h.read?_cons.trans hmore⟩
  · simpa [ofSource, TokenStream.lineRest, LineReader.lineRest, hrest] using Gap.nil
  · change s.source.feed ++ below.map Line.ofString = _
    rw [hfeed, List.nil_append]

/-- Of a line with one expression the reader reads what it reads of the line alone, and then it is
between two lines again: when it has read the expression, and also when it gives up the line. -/
theorem Between.read?_expr (h : r.Between above (line :: below)) {toks : List Token}
    {final : Place} {n : Nat}
    (hdrain : ({ source := LineReader.below above line } : TokenStream LineReader).drain =
      (toks ++ [(⟨.eof, final⟩ : Token)]).map .ok)
    (hderives : Derives .expr n (toks.map Token.lexeme)) :
    let alone := (ofSource (LineReader.below above line)).read?
    r.read? = (alone.1, alone.2.extend (below.map Line.ofString)) ∧
      (alone.2.extend (below.map Line.ofString)).skipLine.Between (above ++ [line]) below ∧
      ∀ d, alone.1 = .ok (some d) →
        Gap alone.2.tokens.lineRest ∧
          (alone.2.extend (below.map Line.ofString)).atLineEnd = true ∧
          (alone.2.extend (below.map Line.ofString)).Between (above ++ [line]) below := by
  intro alone
  obtain ⟨rest, hahead⟩ := ahead_of_drain hdrain
  rw [List.map_append, Stream'.append_append_stream] at hahead
  have hidle : (ofSource (LineReader.below above line)).Idle := idle_ofSource _
  have hends : EndsLine (ofSource (LineReader.below above line)).tokens.lineRest := endsLine_nil
  obtain ⟨hread, hfeed⟩ := lines_read?_below above line
  have hread' : (alone.2.extend (below.map Line.ofString)).source.read.toList =
      (above ++ [line]).map Line.ofString := hread
  have hfeed' : (alone.2.extend (below.map Line.ofString)).source.feed =
      below.map Line.ofString := by
    rw [source_extend, LineReader.feed_extend, hfeed, List.nil_append]
  refine ⟨h.read?_cons.trans (read?_extend_of_derives hidle hends hahead hderives _),
    ⟨⟨rfl, rfl⟩, rfl, .nil, hread', hfeed'⟩, fun d hd => ?_⟩
  have halone : (ofSource (LineReader.below above line)).read? = (.ok (some d), alone.2) :=
    Prod.ext hd rfl
  have hgap : Gap alone.2.tokens.lineRest :=
    gap_of_read? hidle rfl hends hahead hderives halone
  have hpending : alone.2.pending = [] := pending_read? rfl halone
  have hholds : alone.2.tokens.HoldsDelimiter := by
    have hreaches := reaches_read? (r := ofSource (LineReader.below above line)) .refl
    exact hreaches.holdsDelimiter (TokenStream.holdsDelimiter_of_none rfl)
  have hsettles := settles_read? hidle
  refine ⟨hgap, ?_, hsettles.idle.extend _, hpending, hgap, hread', hfeed'⟩
  have hend : alone.2.tokens.atLineEnd = true :=
    (TokenStream.atLineEnd_iff hholds).2 hgap.not_follows
  rw [atLineEnd, pending_extend, hpending]
  exact hend

end Reader

namespace Session

/-- Evaluate the lines one after another, each as a text of its own that `source` makes of it and
the lines above it. Every line with an expression has a value or an error, which comes with the
lines up to this one. -/
def evalLines (source : List String → String → LineReader) :
    Session → List String → List String → List (List String × Except Error Datum) × Session
  | s, _, [] => ([], s)
  | s, above, line :: lines =>
    let (result, s', _) := s.evalAll (.nil default) (.ofSource (source above line))
    let (results, t) := evalLines source s' (above ++ [line]) lines
    (if Bare line then results else (above ++ [line], result) :: results, t)

/-- How the console shows a result: a value as it is printed, and an error against the lines so
far. -/
def shown (x : List String × Except Error Datum) : String :=
  match x.2 with
  | .ok value => toString value
  | .error e =>
    Report.render e ({ read := (x.1.map Line.ofString).toArray, feed := [] } : LineReader)

/-- An answer is shown against the lines that have been read so far. -/
theorem text_eq_shown {a : Answer LineReader} {lines : List String}
    (h : a.reader.source.read.toList = lines.map Line.ofString) :
    a.text = shown (lines, a.result) := by
  have hread : a.reader.source.read = (lines.map Line.ofString).toArray := Array.toList_inj.1 h
  unfold Answer.text shown
  cases a.result with
  | ok value => rfl
  | error e =>
    have hline : Source.line? a.reader.source e.place.line =
        Source.line? ({ read := (lines.map Line.ofString).toArray, feed := [] } : LineReader)
          e.place.line := by
      change a.reader.source.line? _ = LineReader.line? _ _
      rw [LineReader.line?, LineReader.line?, hread]
    simp only [Report.render, hline]

/-- A line is bare or has an expression on it, wherever it stands. -/
theorem bare_iff_below (above : List String) (line : String) :
    Bare line ↔ ({ source := LineReader.below above line } : TokenStream LineReader).drain.length =
      1 := by
  have hdrain : TokenStream.DrainAlike Datum.nowhere { source := LineReader.ofText line }
      { source := LineReader.below above line } :=
    TokenStream.drainAlike_below (fun _ _ _ => rfl) above (.inl fun _ _ => rfl)
  rw [Bare, hdrain.length_eq]

variable {s : Session} {r q : Reader LineReader} {above below : List String} {line : String}

theorem evalAll_of_bare (hbare : Bare line) (above : List String) (last : Datum) (s : Session) :
    ∃ r, s.evalAll last (.ofSource (LineReader.below above line)) = (.ok last, s, r) := by
  obtain ⟨r, hread⟩ := (Reader.read?_none_iff _).2 ((bare_iff_below above line).1 hbare)
  exact ⟨r, by rw [evalAll_eq, hread]⟩

/-- What the console answers to is what its reader reads. -/
theorem answers_congr (h : r.read? = q.read?) : s.answers r = s.answers q := by
  have hanswer : s.answer? r = s.answer? q := by
    rw [answer?, answer?, Reader.readLine?, Reader.readLine?, h]
  rcases ha : s.answer? q with _ | ⟨a, t⟩
  · rw [answers_of_none ha, answers_of_none (hanswer.trans ha)]
  · rw [answers_of_some ha, answers_of_some (hanswer.trans ha)]

/-- One line with one expression: the console answers to it what the line alone is evaluated to, and
goes on between two lines again. -/
theorem answer?_of_line (h : r.Between above (line :: below)) {toks : List Token}
    {final : Place} {n : Nat}
    (hdrain : ({ source := LineReader.below above line } : TokenStream LineReader).drain =
      (toks ++ [(⟨.eof, final⟩ : Token)]).map .ok)
    (hderives : Derives .expr n (toks.map Token.lexeme)) (s : Session) :
    let x := s.evalAll (.nil default) (.ofSource (LineReader.below above line))
    ∃ a, s.answer? r = some (a, x.2.1) ∧ a.result = x.1 ∧
      a.reader.source.read.toList = (above ++ [line]).map Line.ofString ∧
      a.rest.Between (above ++ [line]) below := by
  intro x
  obtain ⟨hread, hskip, hexpr⟩ := h.read?_expr hdrain hderives
  obtain ⟨hlines, hfeed⟩ := Reader.lines_read?_below above line
  have hne : ∀ u, (Reader.ofSource (LineReader.below above line)).read? ≠ (.ok none, u) := by
    intro u hnone
    have hlength := (Reader.read?_none_iff _).1 ⟨u, hnone⟩
    rw [hdrain, List.length_map, List.length_append, List.length_singleton, Nat.add_eq_right,
      List.length_eq_zero_iff] at hlength
    subst hlength
    cases hderives
  rcases halone : (Reader.ofSource (LineReader.below above line)).read? with ⟨e | _ | d, u⟩
  · rw [halone] at hread hskip hlines
    have hx : x = (.error (e.map .read), s, u) := by simp only [x, evalAll_eq, halone]
    refine ⟨⟨.error (e.map .read), u.extend _⟩, ?_, by rw [hx], hlines, hskip⟩
    simp only [hx, answer?, Reader.readLine?, hread]
  · exact absurd halone (hne u)
  · rw [halone] at hread hskip hlines hexpr hfeed
    obtain ⟨hgap, hend, hbetween⟩ := hexpr d rfl
    rcases heval : s.eval d with ⟨e | value, s'⟩
    · have hx : x = (.error (e.map .eval), s', u) := by simp only [x, evalAll_eq, halone, heval]
      refine ⟨⟨.error (e.map .eval), u.extend _⟩, ?_, by rw [hx], hlines, hskip⟩
      simp only [hx, answer?, Reader.readLine?, hread, hend, if_true, heval]
    · -- the rest of the line is a gap, so there is no other expression on it
      have hnil : u.tokens.source.feed = [] := hfeed
      obtain ⟨u', hlast⟩ := evalAll_of_gap (Reader.pending_read? rfl halone)
        (by simpa [TokenStream.chars_eq_lineRest, hnil] using hgap) s' value
      have hx : x = (.ok value, s', u') := by
        simp only [x, evalAll_eq (.nil default), halone, heval, hlast]
      refine ⟨⟨.ok value, u.extend _⟩, ?_, by rw [hx], hlines, hbetween⟩
      simp only [hx, answer?, Reader.readLine?, hread, hend, if_true, heval]

theorem answer?_at_end (h : r.Between above []) : s.answer? r = none := by
  obtain ⟨q, hread⟩ := h.read?_nil
  simp only [answer?, Reader.readLine?, hread]

/-- The induction is on the lines that are still in the feed. -/
theorem answers_eq_evalLines (h : r.Between above below)
    (hlines : ∀ line ∈ below,
      ({ source := LineReader.ofText line } : TokenStream LineReader).OneExpr) :
    (s.answers r).1.map Answer.text = (s.evalLines LineReader.below above below).1.map shown ∧
      (s.answers r).2 = (s.evalLines LineReader.below above below).2 := by
  induction below generalizing above r s with
  | nil =>
    rw [answers_of_none (answer?_at_end h)]
    exact ⟨rfl, rfl⟩
  | cons line below ih =>
    rw [List.forall_mem_cons] at hlines
    have hline := hlines.1.alike (TokenStream.drainAlike_below (f := Datum.nowhere)
      (fun _ _ _ => rfl) above (.inl fun _ _ => rfl))
    obtain ⟨toks, final, hdrain, hone⟩ := hline
    by_cases hbare : Bare line
    · obtain ⟨u, hread⟩ := (Reader.read?_none_iff _).2 ((bare_iff_below above line).1 hbare)
      obtain ⟨q, hq, hsame⟩ := h.read?_bare hread
      obtain ⟨u', hall⟩ := evalAll_of_bare hbare above (.nil default) s
      rw [answers_congr hsame]
      simp only [evalLines, hall, if_pos hbare]
      exact ih hq hlines.2
    · obtain rfl | ⟨n, hderives⟩ := hone
      · exact absurd ((bare_iff_below above line).2 (by rw [hdrain]; rfl)) hbare
      obtain ⟨a, hanswer, hresult, hread, hrest⟩ := answer?_of_line h hdrain hderives s
      obtain ⟨hanswers, hsession⟩ := ih (s := (s.evalAll (.nil default)
        (.ofSource (LineReader.below above line))).2.1) hrest hlines.2
      rw [answers_of_some hanswer]
      simp only [evalLines, if_neg hbare, List.map_cons]
      rw [text_eq_shown hread, hresult, hanswers]
      exact ⟨rfl, hsession⟩

/-- Lines that are evaluated as texts have results that are alike to those that they have in place,
up to all places, or up to the numbers of lines if no line has a line feed inside. The induction is
on the lines. -/
theorem Alike.evalLines {f : Place → Place} (hf : TokenStream.KeepsColumns f) {s t : Session}
    (h : Alike f s t) (above lines : List String)
    (hlines : ∀ line ∈ lines, (∀ p q, f p = f q) ∨ '\n' ∉ line.toList.dropLast) :
    List.Forall₂ (fun x y => x.1 = y.1 ∧
        SameEnd (Located.Alike f (Fault.Alike f)) (Datum.Alike f) x.2 y.2)
        (s.evalLines (fun _ => LineReader.ofText) above lines).1
        (t.evalLines LineReader.below above lines).1 ∧
      GoesAlike f s t (s.evalLines (fun _ => LineReader.ofText) above lines).2
        (t.evalLines LineReader.below above lines).2 := by
  induction lines generalizing above s t with
  | nil => exact ⟨.nil, h.goes⟩
  | cons line lines ih =>
    rw [List.forall_mem_cons] at hlines
    obtain ⟨hresult, hgoes⟩ := h.evalAll (TokenStream.keepsAlike_drainAlike f)
      (.refl rfl : Datum.Alike f (.nil default) _)
      (Reader.inStep_ofSource (TokenStream.drainAlike_below hf above hlines.1))
    obtain ⟨hresults, hgoes'⟩ := ih hgoes.sessions (above ++ [line]) hlines.2
    simp only [Session.evalLines]
    refine ⟨?_, hgoes.trans hgoes'⟩
    split
    · exact hresults
    · exact .cons ⟨rfl, hresult⟩ hresults

/-- Equal values, shown by the same text, or errors that differ in their places only, which are
related. -/
def SameResult (P : Place → Place → Prop) : Except Error Datum → Except Error Datum → Prop :=
  SameEnd (fun e e' => Fault.Same e.what e'.what ∧ P e.place e'.place)
    (fun v w => (v == w) = true ∧ toString v = toString w)

theorem sameResult_of_alike {f : Place → Place} {P : Place → Place → Prop}
    (hP : ∀ p q, f p = f q → P p q) {x y : Except Error Datum}
    (h : SameEnd (Located.Alike f (Fault.Alike f)) (Datum.Alike f) x y) : SameResult P x y := by
  cases h with
  | error he => exact .error ⟨he.what.same, hP _ _ he.place⟩
  | ok hvw => exact .ok ⟨hvw.beq, hvw.toString⟩

/-- A script does to a session what the evaluation of the text does. It succeeds if that does, and
else it reports the same error against the lines that have been read by then. And the console does
to a session what the evaluation of its lines does, one by one, if none of them has more than one
expression and all are scanned without errors. In order it shows the value of every line that has
one, or its error against the lines up to this one; the error is that of the line in its place. In
any settled session the lines have the same results as texts of their own, up to the numbers of
lines in places, and they print the same and leave equal bindings. -/
theorem runs_agree :
    (∀ (s : Session) (text : String),
      let r := (s.evalAll (.nil default) (.ofSource (LineReader.ofText text))).2.2
      (s.runScript text).2 = (s.evalText text).2 ∧
        ((s.runScript text).1 = none ↔ ∃ v, (s.evalText text).1 = .ok v) ∧
        (∀ e, (s.evalText text).1 = .error e →
          (s.runScript text).1 = some (Report.render e r.source)) ∧
        r.source.read.toList ++ r.source.feed = splitLines text) ∧
    ∀ (s : Session) (screen : Sink) (lines : List String), screen.broken = false →
      (∀ line ∈ lines,
        ({ source := LineReader.ofText line } : TokenStream LineReader).OneExpr) →
      let inPlace := s.evalLines LineReader.below [] lines
      let alone := s.evalLines (fun _ => LineReader.ofText) [] lines
      s.console screen (.ofSource (LineReader.ofLines lines)) =
          ⟨inPlace.2, (inPlace.1.map shown).foldl Sink.tryLine screen, true⟩ ∧
        (s.Settled →
          List.Forall₂ (fun x y => x.1 = y.1 ∧ SameResult (fun _ _ => True) x.2 y.2)
              alone.1 inPlace.1 ∧
            ((∀ line ∈ lines, '\n' ∉ line.toList.dropLast) →
              List.Forall₂ (fun x y => SameResult (fun p q => p.col = q.col) x.2 y.2)
                alone.1 inPlace.1) ∧
            alone.2.state.out = inPlace.2.state.out ∧ SameBindings alone.2 inPlace.2) := by
  constructor
  · intro s text r
    have hlines : r.source.read.toList ++ r.source.feed = splitLines text := lines_evalAll _ s text
    rcases hall : s.evalAll (.nil default) (.ofSource (LineReader.ofText text)) with ⟨x, s', q⟩
    have hr : r = q := congrArg (·.2.2) hall
    rw [hr] at hlines ⊢
    rw [runScript, runAll_eq (.nil default)]
    simp only [evalText, hall]
    cases x with
    | error e => exact ⟨rfl, by simp [scriptOf], by rintro _ ⟨⟩; rfl, hlines⟩
    | ok value => exact ⟨rfl, by simp [scriptOf], by rintro _ ⟨⟩, hlines⟩
  · intro s screen lines hscreen hlines inPlace alone
    obtain ⟨hanswers, hsession⟩ :=
      answers_eq_evalLines (s := s) (Reader.between_ofLines lines) hlines
    refine ⟨by rw [console_eq_answers hscreen, hanswers, hsession], fun hs => ?_⟩
    obtain ⟨hresults, hsessions, printed, hout, hout'⟩ :=
      (hs.alike : Alike Datum.nowhere s s).evalLines (fun _ _ _ => rfl) [] lines
        fun _ _ => .inl fun _ _ => rfl
    refine ⟨hresults.imp fun x y h => ⟨h.1, sameResult_of_alike (fun _ _ _ => trivial) h.2⟩, ?_,
      hout.trans hout'.symm, hsessions.sameBindings⟩
    intro hinner
    obtain ⟨hresults, -⟩ :=
      (hs.alike : Alike Place.onFirstLine s s).evalLines TokenStream.keepsColumns_onFirstLine []
        lines fun line hline => .inr (hinner line hline)
    exact hresults.imp fun x y h => sameResult_of_alike (fun p q hpq => (Place.mk.inj hpq).2) h.2

/-- A number with a comment behind it, an empty line, and a division that fails. -/
theorem runs_agree_division :
    let lines := ["7 ; seven", "", "(/ 7 0)"]
    let inPlace := fresh.evalLines LineReader.below [] lines
    let alone := fresh.evalLines (fun _ => LineReader.ofText) [] lines
    (fresh.runScript "(/ 7 0)").2 = (fresh.evalText "(/ 7 0)").2 ∧
      fresh.console {} (.ofSource (LineReader.ofLines lines)) =
        ⟨inPlace.2, (inPlace.1.map shown).foldl Sink.tryLine {}, true⟩ ∧
      inPlace.1.map shown = ["7", "3:6: error: Division by zero\n(/ 7 0)\n     ^"] ∧
      List.Forall₂ (fun x y => SameResult (fun p q => p.col = q.col) x.2 y.2)
        alone.1 inPlace.1 := by
  intro lines inPlace alone
  have hlines : ∀ line ∈ lines,
      ({ source := LineReader.ofText line } : TokenStream LineReader).OneExpr := by
    simp only [lines, List.forall_mem_cons]
    refine ⟨⟨[⟨.int "7", ⟨0, 0⟩⟩], ⟨1, 0⟩, by decide +kernel, .inr ⟨1, .value rfl⟩⟩,
      ⟨[], ⟨0, 0⟩, by decide +kernel, .inl rfl⟩, ⟨[⟨.lparen, ⟨0, 0⟩⟩, ⟨.ident "/", ⟨0, 1⟩⟩,
        ⟨.int "7", ⟨0, 3⟩⟩, ⟨.int "0", ⟨0, 5⟩⟩, ⟨.rparen, ⟨0, 6⟩⟩], ⟨1, 0⟩, by decide +kernel,
        .inr ⟨2, ?_⟩⟩, by simp⟩
    exact .list (.more (.value (l := .ident "/") rfl) (.more (.value (l := .int "7") rfl)
      (.more (.value (l := .int "0") rfl) .none)))
  obtain ⟨hscript, hconsole⟩ := runs_agree
  obtain ⟨hsession, -⟩ := hscript fresh "(/ 7 0)"
  obtain ⟨hscreen, hsettled⟩ := hconsole fresh {} lines rfl hlines
  obtain ⟨-, hcolumns, -⟩ := hsettled settled_fresh
  exact ⟨hsession, hscreen, by decide +kernel, hcolumns (by decide)⟩

end Session
end Lisplet
