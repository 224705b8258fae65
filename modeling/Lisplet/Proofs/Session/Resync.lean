import Lisplet.Proofs.Session.Answers
import Lisplet.Proofs.Session.Layout
import Lisplet.Proofs.Session.ReadAhead
import Lisplet.Proofs.Token.Relocate

/-!
After an error the console begins anew. Wherever the error was found, nothing of
what led to it is kept, and what is read next is the first line that is still in
the feed. So the rest of the run is that of a new reader of the lines in the
feed, except that it counts its lines from another number.
-/
namespace Lisplet

def Place.onFirstLine (p : Place) : Place := ⟨0, p.col⟩

theorem TokenStream.keepsColumns_onFirstLine : KeepsColumns Place.onFirstLine :=
  fun _ _ h => congrArg (Place.mk 0) h

/-- The same answer from other lines: equal values, shown by the same text, or errors that differ in
the numbers of lines only. -/
def Answer.Same {σ τ : Type} (a : Answer σ) (b : Answer τ) : Prop :=
  SameEnd (fun e e' => Fault.Same e.what e'.what ∧ e.place.col = e'.place.col)
    (fun v w => (v == w) = true ∧ toString v = toString w) a.result b.result

theorem Answer.Alike.same {σ τ : Type} {T : TokenStream σ → TokenStream τ → Prop} {a : Answer σ}
    {b : Answer τ} (h : Answer.Alike Place.onFirstLine T a b) : Answer.Same a b := by
  obtain ⟨⟨x, r⟩, ⟨y, q⟩⟩ := a, b
  obtain ⟨hresult, -⟩ := h
  cases hresult with
  | error he => exact .error ⟨he.what.same, (Place.mk.inj he.place).2⟩
  | ok hvw => exact .ok ⟨hvw.beq, hvw.toString⟩

namespace Session

section Answers

variable {σ : Type} [Source σ] {s s' t : Session} {r q : Reader σ} {a : Answer σ}

theorem reader_of_answer? (h : s.answer? r = some (a, s')) : a.reader = r.readLine?.2 := by
  unfold answer? at h
  split at h
  next => cases h
  next hq => cases h; rw [hq]
  next hq => split at h <;> cases h <;> rw [hq]

theorem Turns.settled (h : Turns s r t q) (hs : s.Settled) (hr : r.Idle) : t.Settled := by
  induction h with
  | none => exact hs
  | turn hturns hturn ih => exact (continues_turn? ih (hturns.idle hr) hturn).1.settled

end Answers

/-- Wherever the console has come with its lines, at an error that it answers no form is open. It
shows the error, and gives up the rest of the line: then nothing is pending, taken or held, and what is
left to read are the lines that have not been taken from the feed, from the first character of the
first of them. The rest of the run gives the same answers as a new reader of these lines does in the
same session, prints the same and leaves equal bindings, and the console shows all of its answers. -/
theorem answers_after_error {s t t' : Session} {lines : List String} {r : Reader LineReader}
    {a : Answer LineReader} {e : Error} (hs : s.Settled)
    (hturns : Turns s (Reader.ofSource (LineReader.ofLines lines)) t r)
    (hanswer : t.answer? r = some (a, t')) (he : a.result = .error e) :
    t.turn? r = some (Report.render e a.reader.source, t', a.rest) ∧
      a.reader.taken = [] ∧ a.reader.reading.nesting = 0 ∧
      a.rest.pending = [] ∧ a.rest.taken = [] ∧ a.rest.reading.nesting = 0 ∧
      a.rest.tokens.held = none ∧
      ∃ k ≤ lines.length,
        a.rest.source.read.toList = (lines.map Line.ofString).take k ∧
        a.rest.source.feed = (lines.map Line.ofString).drop k ∧
        a.rest.tokens.chars = placedLines k ((lines.drop k).map completed) ∧
        let anew := Reader.ofSource (LineReader.ofLines (lines.drop k))
        List.Forall₂ Answer.Same (t'.answers a.rest).1 (t'.answers anew).1 ∧
          (t'.answers a.rest).2.state.out = (t'.answers anew).2.state.out ∧
          SameBindings (t'.answers a.rest).2 (t'.answers anew).2 ∧
          ∀ (screen : Sink) (q : Reader LineReader), screen.broken = false →
            t'.console screen q = ⟨(t'.answers q).2,
              ((t'.answers q).1.map Answer.text).foldl Sink.tryLine screen, true⟩ := by
  have hturn := turn?_of_answer? hanswer
  have hidle : r.Idle := hturns.idle (Reader.idle_ofSource _)
  have hsettled : t'.Settled :=
    (continues_turn? (hturns.settled hs (Reader.idle_ofSource _)) hidle hturn).1.settled
  have hreader : a.reader.Idle := reader_of_answer? hanswer ▸ (Reader.settles_readLine? hidle).idle
  have hrest : a.rest = a.reader.skipLine := by simp [Answer.rest, he]
  have htext : a.text = Report.render e a.reader.source := by simp [Answer.text, he]
  have hreaches := reaches_turn? hturns.reaches hturn
  obtain ⟨hpending, htaken, hnesting, hheld, hline⟩ : a.rest.pending = [] ∧ a.rest.taken = [] ∧
      a.rest.reading.nesting = 0 ∧ a.rest.tokens.held = none ∧ a.rest.tokens.lineRest = [] := by
    rw [hrest]
    exact ⟨rfl, rfl, rfl, rfl, rfl⟩
  obtain ⟨hread, hfeed⟩ := hreaches.lines
  have hstep : Reader.InStep Place.onFirstLine (TokenStream.LinesAlike Place.onFirstLine) a.rest
      (Reader.ofSource (LineReader.ofLines (lines.drop a.rest.tokens.source.read.size))) := by
    rw [hrest] at hfeed ⊢
    exact Reader.inStep_ofSource ⟨rfl, rfl, fun hne => absurd rfl hne,
      hfeed.trans List.map_drop.symm⟩
  obtain ⟨hanswers, hsessions, printed, hout, hout'⟩ := hsettled.alike.answers
    (TokenStream.keepsLines_linesAlike TokenStream.keepsColumns_onFirstLine) hstep
  exact ⟨htext ▸ hturn, hreader.taken, hreader.nesting, hpending, htaken, hnesting, hheld,
    _, hreaches.size_le, hread, hfeed, hreaches.chars_of_lineRest hline,
    hanswers.imp fun _ _ h => h.same, hout.trans hout'.symm, hsessions.sameBindings,
    fun screen q hscreen => console_eq_answers hscreen⟩

/-- A parenthesis is left over behind a number. The list on the next two lines is read from its
beginning, as if there had been nothing before it. -/
theorem answers_after_error_leftover :
    let r := Reader.ofSource (LineReader.ofLines ["1 (", "(+ 1", "2)"])
    let anew := Reader.ofSource (LineReader.ofLines ["(+ 1", "2)"])
    ∃ a t', fresh.answer? r = some (a, t') ∧ a.rest.pending = [] ∧
      List.Forall₂ Answer.Same (t'.answers a.rest).1 (t'.answers anew).1 ∧
      (t'.console {} a.rest).screen.text = "3\n" := by
  intro r anew
  have hfails : ((fresh.answer? r).map fun x => x.1.result.toOption.isNone) = some true := by
    decide +kernel
  have hsize : ((fresh.answer? r).map fun x => x.1.rest.source.read.size) = some 1 := by
    decide +kernel
  have hshown : ((fresh.answer? r).map fun x => (x.2.console {} x.1.rest).screen.text) =
      some "3\n" := by
    decide +kernel
  rcases hanswer : fresh.answer? r with _ | ⟨a, t'⟩
  · rw [hanswer] at hfails
    cases hfails
  simp only [hanswer, Option.map_some, Option.some.injEq] at hfails hsize hshown
  obtain ⟨e, he⟩ : ∃ e, a.result = .error e := by
    cases hresult : a.result with
    | error e => exact ⟨e, rfl⟩
    | ok value => simp [hresult, Except.toOption] at hfails
  obtain ⟨-, -, -, hpending, -, -, -, k, hk, hread, -, -, hanswers, -⟩ :=
    answers_after_error settled_fresh .none hanswer he
  obtain rfl : k = 1 := by
    have hlength := congrArg List.length hread
    rw [Array.length_toList, hsize, List.length_take, List.length_map] at hlength
    omega
  exact ⟨a, t', rfl, hpending, hanswers, hshown⟩

end Session
end Lisplet
