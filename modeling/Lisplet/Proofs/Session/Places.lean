import Lisplet.Proofs.Eval.Places
import Lisplet.Proofs.Reader.Places
import Lisplet.Proofs.Session.Resync
import Lisplet.Proofs.Session.Script

/-!
Where reports point. Whatever is bound in a session that began anew has its
places in the lines that have been read since, so an error has its place there
as well, be it in the body of a function that was made many lines before. Only
an error that is found at the end of input stands on no line. A report quotes
the line that it points into.
-/
namespace Lisplet

variable {source source' : LineReader} {lines : List Line}

namespace Report

/-- The error is at a character of a line that has been read, the line feed at its end included, and
the report quotes this line with the caret below the character. Or it is where input ends, behind
all lines, and no line is quoted. -/
def PointsInto (source : LineReader) (e : Error) : Prop :=
  (∃ line, source.read[e.place.line]? = some line ∧ e.place.col < line.chars.length ∧
      render e source = headline e ++ excerpt line.shown e.place.col) ∨
    source.feed = [] ∧ e.place = ⟨source.read.size, 0⟩ ∧ render e source = headline e

/-- An error at a marked place quotes its line, or is at the end of input. -/
theorem pointsInto_of_marks {e : Error} (h : source.Marks e.place) : PointsInto source e := by
  have hline : Source.line? source e.place.line = source.read[e.place.line]?.map Line.shown := rfl
  obtain ⟨line, hread, hcol⟩ | ⟨hfeed, hplace⟩ := h
  · refine .inl ⟨line, hread, hcol, ?_⟩
    rw [render, hline, hread]
    rfl
  · refine .inr ⟨hfeed, hplace, ?_⟩
    rw [render, hline, hplace, Array.getElem?_size]
    rfl

end Report

namespace Session

variable {s s' : Session} {d : Datum}

/-- Every name is bound to a value with its places in the lines that have been read, or with the
place of the standard forms. -/
structure InText (source : LineReader) (s : Session) : Prop where
  settled : s.Settled
  bound : ∀ name v, s.state.scopes.lookup? name = some v →
    v.Within fun p => p = default ∨ source.Points p

/-- The standard forms are at the beginning of any text. -/
theorem inText_fresh (source : LineReader) : InText source fresh := by
  have hforms : ∀ b ∈ fresh.state.scopes.top.bindings, ∀ p ∈ b.2.places, p = default := by decide
  refine ⟨settled_fresh, fun name v hl p hp => .inl ?_⟩
  obtain ⟨c, hc, hv⟩ := List.exists_of_findSome?_eq_some hl
  obtain rfl : c = fresh.state.scopes.top := List.mem_singleton.1 hc
  exact hforms _ (Scope.mem_of_get? hv) p hp

theorem InText.takes (h : s.InText source) (htakes : source.Takes lines source') :
    s.InText source' :=
  ⟨h.settled, fun name v hl => (h.bound name v hl).mono fun _ hp =>
    hp.imp_right fun hpoints => hpoints.takes htakes⟩

/-- The expression is read from some line, so the first line has been read, and the standard forms
are at a character of the text like all else. -/
theorem InText.eval (h : s.InText source) (hd : d.standard = true) (hdP : d.Within source.Points) :
    (∀ e, (s.eval d).1 = .error e → source.Points e.place) ∧ (s.eval d).2.InText source := by
  have hfirst : source.Points default := hdP.place.first
  obtain ⟨-, herror, hbound⟩ := Eval.evaluate_within s.hosts maxCalls hd
    (hdP.mono fun _ hp => .inr hp) h.settled.standard h.bound
  refine ⟨fun e he => ?_, (continues_eval h.settled hd).settled, hbound⟩
  obtain hdefault | hpoints := herror e he
  · rwa [hdefault]
  · exact hpoints

variable {r q : Reader LineReader}

/-- An expression that is read stands in the lines that have been read by then, and so it can be
evaluated. -/
theorem InText.eval_answer {ε : Type} {x : Except (Located ε) (Option Datum) × Reader LineReader}
    (h : s.InText r.source) (htakes : ∃ taken, r.source.Takes taken x.2.source)
    (htells : Reader.Tells Reader.FitsAnswer x) (hsettles : Reader.Settles x)
    (hx : x.1 = .ok (some d)) :
    (∀ e, (s.eval d).1 = .error e → x.2.source.Points e.place) ∧
      (s.eval d).2.InText x.2.source := by
  obtain ⟨taken, htakes⟩ := htakes
  exact (h.takes htakes).eval (hsettles.standard d hx) (htells.value _ hx d rfl)

/-- The induction is on the evaluation. As lines are read, the places that are known stay known. -/
theorem InText.evalAll (h : s.InText r.source) (hr : r.InText) (hidle : r.Idle) (last : Datum) :
    ∀ e, (s.evalAll last r).1 = .error e → (s.evalAll last r).2.2.source.Marks e.place := by
  fun_induction Session.evalAll last s r with
  | case1 last s r e r' hread =>
    have htells := hr.read? hidle
    rw [hread] at htells
    rintro _ ⟨⟩
    exact htells.error e rfl
  | case2 => rintro _ ⟨⟩
  | case3 last s r d r' hread e s' heval =>
    obtain ⟨herror, -⟩ := h.eval_answer (Reader.reaches_read? .refl).takes (hr.read? hidle)
      (Reader.settles_read? hidle) (congrArg Prod.fst hread)
    rw [heval, hread] at herror
    rintro _ ⟨⟩
    exact .inl (herror e rfl)
  | case4 last s r d r' hread value s' heval ih =>
    have htells := hr.read? hidle
    have hsettles := Reader.settles_read? hidle
    obtain ⟨-, hs'⟩ := h.eval_answer (Reader.reaches_read? .refl).takes htells hsettles
      (congrArg Prod.fst hread)
    rw [hread] at htells hsettles hs'
    rw [heval] at hs'
    exact ih hs' htells.reader hsettles.idle

/-- An answer and its error have their places in the lines that have been read. -/
theorem InText.answer? (h : s.InText r.source) (hr : r.InText) (hidle : r.Idle)
    {a : Answer LineReader} (hanswer : s.answer? r = some (a, s')) :
    a.reader.InText ∧ s'.InText a.reader.source ∧
      ∀ e, a.result = .error e → a.reader.source.Marks e.place := by
  have htells := hr.readLine? hidle
  have htakes := (reaches_readLine? (q := r) .refl).takes
  unfold Session.answer? at hanswer
  split at hanswer
  next => cases hanswer
  next e q hq =>
    rw [hq] at htells htakes
    obtain ⟨taken, htakes⟩ := htakes
    cases hanswer
    exact ⟨htells.reader, h.takes htakes, by rintro _ ⟨⟩; exact htells.error e rfl⟩
  next d q hq =>
    obtain ⟨herror, hs'⟩ := h.eval_answer htakes htells (Reader.settles_readLine? hidle)
      (congrArg Prod.fst hq)
    rw [hq] at htells herror hs'
    split at hanswer
    next heval =>
      rw [heval] at hs'
      cases hanswer
      exact ⟨htells.reader, hs', by rintro _ ⟨⟩⟩
    next e t heval =>
      rw [heval] at herror hs'
      cases hanswer
      exact ⟨htells.reader, hs', by rintro _ ⟨⟩; exact .inl (herror e rfl)⟩

theorem InText.turn? (h : s.InText r.source) (hr : r.InText) (hidle : r.Idle) {text : String}
    (hturn : s.turn? r = some (text, s', q)) : q.InText ∧ s'.InText q.source := by
  rw [turn?_eq_answer?, Option.map_eq_some_iff] at hturn
  obtain ⟨⟨a, t⟩, hanswer, heq⟩ := hturn
  cases heq
  obtain ⟨hreader, hs', -⟩ := h.answer? hr hidle hanswer
  unfold Answer.rest
  split
  · exact ⟨hreader, hs'⟩
  · exact ⟨.skipLine _, hs'.takes ⟨(List.append_nil _).symm, rfl⟩⟩

/-- Wherever the console has come with the lines that it began with. -/
theorem Turns.inText {t : Session} (h : Turns s r t q) (hs : s.InText r.source) (hr : r.InText)
    (hidle : r.Idle) : q.InText ∧ t.InText q.source := by
  induction h with
  | none => exact ⟨hr, hs⟩
  | turn hturns hturn ih => exact ih.2.turn? ih.1 (hturns.idle hidle) hturn

/-- A new session runs a script that fails, or answers lines of the console, the last one with an
error. The report is that of the error against the lines of the text that have been read by then.
It points at a character of one of them and quotes the line, or it is at the end of input and
quotes nothing. -/
theorem reports_point_into_text :
    (∀ text report, (fresh.runScript text).1 = some report →
      let r := (fresh.evalAll (.nil default) (.ofSource (LineReader.ofText text))).2.2
      ∃ e, (fresh.evalText text).1 = .error e ∧ report = Report.render e r.source ∧
        r.source.read.toList ++ r.source.feed = splitLines text ∧
        Report.PointsInto r.source e) ∧
    ∀ (lines : List String) (t t' : Session) (r : Reader LineReader) (a : Answer LineReader)
      (e : Error), Turns fresh (.ofSource (LineReader.ofLines lines)) t r →
      t.answer? r = some (a, t') → a.result = .error e →
      t.turn? r = some (Report.render e a.reader.source, t', a.rest) ∧
        a.reader.source.read.toList ++ a.reader.source.feed = lines.map Line.ofString ∧
        Report.PointsInto a.reader.source e := by
  constructor
  · intro text report hscript r
    have hmarks := (inText_fresh (LineReader.ofText text)).evalAll
      (r := .ofSource (LineReader.ofText text)) (Reader.inText_ofSource rfl)
      (Reader.idle_ofSource _) (.nil default)
    have hlines := lines_evalAll (.nil default) fresh text
    rw [runScript, runAll_eq (.nil default)] at hscript
    simp only [evalText]
    rcases hall : fresh.evalAll (.nil default) (.ofSource (LineReader.ofText text)) with ⟨x, s', q⟩
    rw [hall] at hscript hmarks hlines
    cases x with
    | ok value => cases hscript
    | error e =>
      have hreport : Report.render e q.source = report := Option.some.inj hscript
      have hr : r = q := congrArg (·.2.2) hall
      rw [hr]
      exact ⟨e, rfl, hreport.symm, hlines, Report.pointsInto_of_marks (hmarks e rfl)⟩
  · intro lines t t' r a e hturns hanswer he
    have hidle := hturns.idle (Reader.idle_ofSource _)
    obtain ⟨hr, ht⟩ := hturns.inText (inText_fresh _) (Reader.inText_ofSource rfl)
      (Reader.idle_ofSource _)
    obtain ⟨-, -, hmarks⟩ := ht.answer? hr hidle hanswer
    have hreaches := reaches_readLine? hturns.reaches
    rw [← reader_of_answer? hanswer] at hreaches
    obtain ⟨taken, htakes⟩ := hreaches.takes
    have hturn := turn?_of_answer? hanswer
    rw [Answer.text, he] at hturn
    exact ⟨hturn, htakes.lines, Report.pointsInto_of_marks (hmarks e he)⟩

/-- A list is not closed, which is found at the end of input. And a division fails in the body of a
function, one line below it. -/
theorem reports_point_into_text_body :
    (∃ e, (fresh.evalText "(half").1 = .error e ∧
      Report.PointsInto
        (fresh.evalAll (.nil default) (.ofSource (LineReader.ofText "(half"))).2.2.source e) ∧
    ∃ t t' r a e,
      Turns fresh (.ofSource (.ofLines ["(set half (lambda (n) (/ 10 n)))", "(half 0)"])) t r ∧
      t.answer? r = some (a, t') ∧ a.result = .error e ∧
      Report.render e a.reader.source = "1:29: error: Division by zero\n" ++
        "(set half (lambda (n) (/ 10 n)))\n                            ^" ∧
      a.reader.source.read.size = 2 ∧ Report.PointsInto a.reader.source e := by
  obtain ⟨hscript, hconsole⟩ := reports_point_into_text
  constructor
  · have hreport : (fresh.runScript "(half").1 = some "2:1: error: Expected an expression" := by
      decide +kernel
    obtain ⟨e, he, -, -, hpoints⟩ := hscript "(half" _ hreport
    exact ⟨e, he, hpoints⟩
  let lines := ["(set half (lambda (n) (/ 10 n)))", "(half 0)"]
  have hsecond : (((fresh.turn? (.ofSource (LineReader.ofLines lines))).bind fun x =>
      x.2.1.answer? x.2.2).map fun y =>
        (y.1.result.toOption.isNone, y.1.text, y.1.reader.source.read.size)) =
      some (true, "1:29: error: Division by zero\n" ++
        "(set half (lambda (n) (/ 10 n)))\n                            ^", 2) := by
    decide +kernel
  rcases hfirst : fresh.turn? (.ofSource (LineReader.ofLines lines)) with _ | ⟨text, t, r⟩
  · rw [hfirst] at hsecond
    cases hsecond
  rw [hfirst, Option.bind_some] at hsecond
  rcases hanswer : t.answer? r with _ | ⟨a, t'⟩
  · rw [hanswer] at hsecond
    cases hsecond
  rw [hanswer, Option.map_some, Option.some.injEq, Prod.mk.injEq, Prod.mk.injEq] at hsecond
  obtain ⟨hfails, htext, hsize⟩ := hsecond
  cases he : a.result with
  | ok value => simp [he, Except.toOption] at hfails
  | error e =>
    rw [Answer.text, he] at htext
    have hturns : Turns fresh (.ofSource (.ofLines lines)) t r := .turn .none hfirst
    obtain ⟨-, -, hpoints⟩ := hconsole lines t t' r a e hturns hanswer he
    exact ⟨t, t', r, a, e, hturns, hanswer, he, htext, hsize, hpoints⟩

end Session
end Lisplet
