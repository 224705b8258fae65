import Lisplet.Proofs.Token.InLine
import Lisplet.Session.Console

/-!
What follows an expression on its line. The console reports it where it begins,
evaluates nothing, and goes on with the lines that it has not taken from the
feed. To find where the text begins it scans one token of it, which stays on the
line, with one exception: a string whose quote is still open at the end of the
line takes the lines after it as well, and these are given up together with it.
-/
namespace Lisplet

namespace Reader

section Pending

variable {σ : Type} [Source σ]

theorem pending_next (r : Reader σ) : r.next.2.pending = r.pending.tail := by
  unfold next
  split
  next hp => simp [hp]
  next hp => split <;> simp [hp]

/-- An expression that is read has used up a pending token, if there was one. -/
theorem pending_resume {r s : Reader σ} {d : Datum} (h : r.resume = (.ok d, s)) :
    s.pending <:+ r.pending.tail := by
  fun_induction resume r with
  | case1 => cases h
  | case2 r t r' hn reading hr ih =>
    have hnext := pending_next r
    rw [hn] at hnext
    have hpending : s.pending <:+ r'.pending.tail := ih h
    rw [hnext] at hpending
    exact hpending.trans (List.tail_suffix _)
  | case3 r t r' hn e hr =>
    cases h
    have hnext := pending_next r
    rw [hn] at hnext
    rw [← hnext]
    exact List.suffix_refl _
  | case4 => cases h

/-- The token that was looked at is the first one of the expression, so no token is left over. -/
theorem pending_read? {r s : Reader σ} {d : Datum} (hr : r.pending = [])
    (h : r.read? = (.ok (some d), s)) : s.pending = [] := by
  unfold read? at h
  split at h
  next => cases h
  next => cases h
  next s1 hend =>
    obtain ⟨t, hpeek, -⟩ := atEnd_false hend
    have hpending : s1.pending = [t] := by
      unfold peek at hpeek
      simp only [hr] at hpeek
      split at hpeek
      next => cases hpeek; rfl
      next => cases hpeek
    split at h
    next => cases h
    next hread =>
      cases h
      have hsuffix := pending_resume hread
      rw [hpending] at hsuffix
      exact List.suffix_nil.1 hsuffix

theorem pending_of_atLineEnd {r : Reader σ} (h : r.atLineEnd = true) : r.pending = [] := by
  simp only [atLineEnd, Bool.and_eq_true, List.isEmpty_iff] at h
  exact h.1

end Pending

structure Ready (r : Reader LineReader) : Prop where
  pending : r.pending = []
  line : EndsLine r.tokens.lineRest

theorem ready_ofSource {source : LineReader} (h : source.rest = []) : (ofSource source).Ready :=
  ⟨rfl, LineReader.endsLine_of_rest h⟩

theorem ready_skipLine (r : Reader LineReader) : r.skipLine.Ready := ready_ofSource rfl

theorem endsLine_read? {r : Reader LineReader} (h : r.Ready) :
    EndsLine r.read?.2.tokens.lineRest :=
  tokens_read? (P := fun ts => EndsLine ts.lineRest) (fun _ => TokenStream.endsLine_next) h.line

/-- An expression is answered only if nothing follows it on its line. -/
theorem readLine?_ok {σ : Type} [Source σ] {r s : Reader σ} {d : Datum}
    (h : r.readLine? = (.ok (some d), s)) : r.read? = (.ok (some d), s) ∧ s.atLineEnd = true := by
  unfold readLine? at h
  split at h
  next => cases h
  next => cases h
  next d' s' hread =>
    split at h
    next hend => cases h; exact ⟨hread, hend⟩
    next => split at h <;> cases h

def placeOf : Except ScanError Token → Place
  | .ok t => t.place
  | .error e => e.place

/-- Text that follows an expression is reported where scanning finds it. -/
theorem readLine?_of_leftover {σ : Type} [Source σ] {r r' : Reader σ} {d : Datum}
    (hread : r.read? = (.ok (some d), r')) (hpending : r'.pending = [])
    (hend : r'.atLineEnd = false) :
    ∃ q, r.readLine? = (.error ⟨.trailingText, placeOf r'.tokens.next.1⟩, q) ∧
      q.tokens = r'.tokens.next.2 := by
  cases hnext : r'.tokens.next with
  | mk y tokens =>
    cases y with
    | ok t => simp [readLine?, hread, hend, peek, hpending, hnext, placeOf]
    | error e => simp [readLine?, hread, hend, peek, hpending, hnext, placeOf]

/-- With something left on the line, the line is not at its end. -/
theorem atLineEnd_of_follows {r : Reader LineReader} (h : Follows r.tokens.lineRest) :
    r.atLineEnd = false := by
  obtain ⟨c, hc, hne⟩ := h
  cases hheld : r.tokens.held with
  | some x => simp [atLineEnd, TokenStream.atLineEnd, hheld]
  | none =>
    have hrest : r.tokens.source.rest.find? (fun c => !Text.isWhiteSpace c) = some c := by
      simpa [TokenStream.lineRest, hheld, LineReader.lineRest] using hc
    have hsource : Source.atLineEnd r.tokens.source = false := by
      change r.tokens.source.atLineEnd = false
      simp [LineReader.atLineEnd, hrest, hne]
    simp [atLineEnd, TokenStream.atLineEnd, hsource]

end Reader

namespace Session

inductive Turns {σ : Type} [Source σ] (s : Session) (r : Reader σ) : Session → Reader σ → Prop where
  | none : Turns s r s r
  | turn {t t' : Session} {q q' : Reader σ} {text : String} :
      Turns s r t q → t.turn? q = some (text, t', q') → Turns s r t' q'

/-- A turn leaves the reader ready for the next one. -/
theorem ready_turn? {s s' : Session} {r r' : Reader LineReader} {text : String} (h : r.Ready)
    (ht : s.turn? r = some (text, s', r')) : r'.Ready := by
  unfold turn? at ht
  split at ht
  next => cases ht
  next => cases ht; exact Reader.ready_skipLine _
  next d q hq =>
    split at ht
    next =>
      cases ht
      obtain ⟨hread, hend⟩ := Reader.readLine?_ok hq
      have hline := Reader.endsLine_read? h
      rw [hread] at hline
      exact ⟨Reader.pending_of_atLineEnd hend, hline⟩
    next => cases ht; exact Reader.ready_skipLine _

theorem Turns.ready {s t : Session} {r q : Reader LineReader} (h : Turns s r t q) (hr : r.Ready) :
    q.Ready := by
  induction h with
  | none => exact hr
  | turn _ hturn ih => exact ready_turn? ih hturn

/-- Wherever the console has come with its lines, an expression that text follows on its line is not
evaluated. The text is reported at its first token or error `x`, taken on its own. No line is taken
from the feed for that, unless `x` is a string that the line leaves open and there is another line;
in this case the report is at the first token or error `y` of all that is left to read, and the lines
taken for it are lost. The next turn begins at the start of the next line that is still in the
feed. -/
theorem turn?_of_leftover {s t : Session} {lines : List String} {r r' : Reader LineReader}
    {d : Datum} (hturns : Turns s (Reader.ofSource (LineReader.ofLines lines)) t r)
    (hread : r.read? = (.ok (some d), r')) (hfollows : Follows r'.tokens.lineRest) :
    ∃ x y source taken,
      BeginsWith ⟨r'.source.read.size, 0⟩ r'.tokens.lineRest x ∧
      BeginsWith r'.tokens.endPlace r'.tokens.chars y ∧
      t.turn? r = some (Report.render ⟨.trailingText, Reader.placeOf y⟩ source, t,
        Reader.ofSource source.skipLine) ∧
      r'.source.Takes taken source ∧ (taken = [] → y = x) ∧
      (taken ≠ [] ↔ (∃ p, x = .error ⟨.unterminatedString, p⟩) ∧ r'.source.feed ≠ []) ∧
      Source.chars source.skipLine =
        placedLines source.read.size (source.feed.map Line.chars) := by
  have hready : r.Ready := hturns.ready (Reader.ready_ofSource rfl)
  have hends := Reader.endsLine_read? hready
  rw [hread] at hends
  have hpending := Reader.pending_read? hready.pending hread
  obtain ⟨q, hline, hq⟩ :=
    Reader.readLine?_of_leftover hread hpending (Reader.atLineEnd_of_follows hfollows)
  obtain ⟨x, hx⟩ := exists_beginsWith ⟨r'.source.read.size, 0⟩ hends.noLooseEscape
  obtain ⟨y, hy⟩ :=
    exists_beginsWith r'.tokens.endPlace (TokenStream.endsLine_chars hends).noLooseEscape
  obtain ⟨taken, htakes, hfirst, htaken⟩ := TokenStream.next_of_follows hends hfollows hx
  have hnext : r'.tokens.next.1 = y := by
    have hscan := (TokenStream.scan_eq_consume .gap r'.tokens).1
    exact (congrArg Prod.fst hscan).symm.trans hy.eq_consume
  refine ⟨x, y, r'.tokens.next.2.source, taken, hx, hy, ?_, htakes, ?_, htaken, ?_⟩
  · rw [hnext] at hline
    simp only [turn?, hline, Reader.source, Reader.skipLine, hq]
    rfl
  · rwa [hnext] at hfirst
  · rw [LineReader.chars_eq_placed]
    rfl

/-- A number behind a number is reported, and the line after them stays in the feed. -/
theorem turn?_of_leftover_number :
    let r := Reader.ofSource (LineReader.ofLines ["1 2", "3"])
    ∃ d r' text, ∃ source : LineReader,
      r.read? = (.ok (some d), r') ∧ Follows r'.tokens.lineRest ∧
      fresh.turn? r = some (text, fresh, Reader.ofSource source.skipLine) ∧
      source.feed = [⟨['3']⟩] := by
  intro r
  obtain ⟨d, hd⟩ : ∃ d, r.read?.1 = .ok (some d) := by
    have hsome : (r.read?.1.toOption.bind id).isSome = true := by decide +kernel
    cases hx : r.read?.1 with
    | error e => simp [hx, Except.toOption] at hsome
    | ok d =>
      cases d with
      | none => simp [hx, Except.toOption] at hsome
      | some d => exact ⟨d, rfl⟩
  have hread : r.read? = (.ok (some d), r.read?.2) := Prod.ext hd rfl
  have hfollows : Follows r.read?.2.tokens.lineRest :=
    ⟨'2', Option.mem_def.2 (by decide +kernel), by decide⟩
  have htoken : (Scan.gap.consume ⟨r.read?.2.source.read.size, 0⟩
      r.read?.2.tokens.lineRest).1.isOk = true := by
    decide +kernel
  have hfeed : r.read?.2.source.feed = [⟨['3']⟩] := by decide +kernel
  obtain ⟨x, y, source, taken, hx, -, hturn, htakes, -, htaken, -⟩ :=
    turn?_of_leftover (s := fresh) (t := fresh) .none hread hfollows
  obtain rfl : taken = [] := by
    refine Classical.byContradiction fun hne => ?_
    obtain ⟨⟨p, rfl⟩, -⟩ := htaken.1 hne
    rw [hx.eq_consume] at htoken
    cases htoken
  exact ⟨d, r.read?.2, _, source, hread, hfollows, hturn, htakes.feed.symm.trans hfeed⟩

/-- A string that is left open behind an expression takes the next line with it: its `2` is never
evaluated. -/
theorem console_open_string :
    (fresh.console {} (Reader.ofSource (LineReader.ofLines ["1 \"abc", "2"]))).screen.text =
      "1:3: error: Unexpected text after expression\n1 \"abc\n  ^\n" := by
  decide +kernel

end Session
end Lisplet
