import Lisplet.Proofs.Session.Leftover
import Lisplet.Proofs.Token.LineEnd

/-!
The end of a line as the console sees it. An expression is evaluated if the test
for the end of its line finds nothing behind it. That is right as long as no
text is overlooked by the test.
-/
namespace Lisplet

theorem Reader.reaches_read? {σ : Type} [Source σ] {ts : TokenStream σ} {r : Reader σ}
    (h : ts.Reaches r.tokens) : ts.Reaches r.read?.2.tokens :=
  tokens_read? (P := fun us => ts.Reaches us) (fun _ hus => hus.next) h

theorem Reader.exists_of_read? {σ : Type} [Source σ] {r : Reader σ}
    (h : (r.read?.1.toOption.bind id).isSome = true) : ∃ d r', r.read? = (.ok (some d), r') := by
  cases hx : r.read? with
  | mk x r' =>
    cases x with
    | error e => simp [hx, Except.toOption] at h
    | ok d =>
      cases d with
      | none => simp [hx, Except.toOption] at h
      | some d => exact ⟨d, r', rfl⟩

namespace Session

variable {σ : Type} [Source σ] {s t t' : Session} {r q q' : Reader σ} {ts : TokenStream σ}

/-- A line is given up when an error has been found on it, possibly by the scan of what follows an
expression. -/
theorem reaches_readLine? (h : ts.Reaches q.tokens) : ts.Reaches q.readLine?.2.tokens := by
  have hread := Reader.reaches_read? h
  unfold Reader.readLine?
  split
  next hr => rwa [hr] at hread
  next hr => rwa [hr] at hread
  next d q' hr =>
    rw [hr] at hread
    have hpeek : ts.Reaches q'.peek.2.tokens :=
      Reader.tokens_peek (P := fun us => ts.Reaches us) (fun _ hus => hus.next) hread
    split
    next => exact hread
    next => split <;> next hp => rwa [hp] at hpeek

/-- A turn takes tokens and gives up lines, and does nothing else to the stream. -/
theorem reaches_turn? {text : String} (h : ts.Reaches q.tokens)
    (hturn : t.turn? q = some (text, t', q')) : ts.Reaches q'.tokens := by
  have hline := reaches_readLine? h
  unfold turn? at hturn
  split at hturn
  next => cases hturn
  next hq => cases hturn; rw [hq] at hline; exact hline.skipLine
  next d q'' hq =>
    rw [hq] at hline
    split at hturn
    next => cases hturn; exact hline
    next => cases hturn; exact hline.skipLine

theorem Turns.reaches (h : Turns s r t q) : r.tokens.Reaches q.tokens := by
  induction h with
  | none => exact .refl
  | turn _ hturn ih => exact reaches_turn? ih hturn

/-- An expression is answered if the test for the end of its line finds nothing behind it. -/
theorem readLine?_iff_atLineEnd {r' : Reader σ} {d : Datum} (h : r.read? = (.ok (some d), r')) :
    r.readLine? = (.ok (some d), r') ↔ r'.atLineEnd = true := by
  refine ⟨fun hline => (Reader.readLine?_ok hline).2, fun hend => ?_⟩
  simp [Reader.readLine?, h, hend]

/-- However a stream of lines has come to its state, nothing seems to be left of the current line
exactly if the rest of it is a gap or text on it is overlooked, and not both. A gap yields nothing:
the next token or error is that of the lines after it. Any other rest of a line yields what begins at
its first character that is in no gap. And wherever the console has come with its lines, it goes on
to evaluate an expression that it has read exactly if what follows on the line is a gap or is
overlooked. -/
theorem readLine?_iff_gap_or_overlooked (lines : List String) :
    (∀ ts, TokenStream.Reaches { source := LineReader.ofLines lines } ts →
      (ts.atLineEnd = true ↔ Gap ts.lineRest ∨ Overlooked ts.lineRest) ∧
      (Overlooked ts.lineRest → ¬ Gap ts.lineRest) ∧
      (Gap ts.lineRest → ts.next.1 = ts.skipLine.next.1) ∧
      (¬ Gap ts.lineRest → ∃ gap c p rest,
        ts.lineRest = gap ++ (c, p) :: rest ∧ Gap gap ∧ StartsAt c p ts.next.1)) ∧
    ∀ s t r r' d, Turns s (Reader.ofSource (LineReader.ofLines lines)) t r →
      r.read? = (.ok (some d), r') →
      (r.readLine? = (.ok (some d), r') ↔
        Gap r'.tokens.lineRest ∨ Overlooked r'.tokens.lineRest) := by
  constructor
  · intro ts hts
    obtain ⟨hiff, hnot⟩ := hts.atLineEnd_iff
    exact ⟨hiff, hnot, TokenStream.next_of_gap,
      TokenStream.next_of_not_gap (hts.endsLine endsLine_nil)⟩
  · intro s t r r' d hturns hread
    have hreaches := Reader.reaches_read? hturns.reaches
    rw [hread] at hreaches
    have hpending : r'.pending = [] :=
      Reader.pending_read? (hturns.ready (Reader.ready_ofSource rfl)).pending hread
    rw [readLine?_iff_atLineEnd hread, Reader.atLineEnd, hpending, List.isEmpty_nil, Bool.true_and]
    exact hreaches.atLineEnd_iff.1

/-- A comment behind a number is a gap, and the number is answered. -/
theorem readLine?_iff_gap_or_overlooked_comment :
    let lines := ["1 ;", "2"]
    let ts : TokenStream LineReader := { source := LineReader.ofLines lines }
    ts.next.2.atLineEnd = true ∧ ts.next.2.next.1 = ts.next.2.skipLine.next.1 ∧
      ∃ d r', (Reader.ofSource (LineReader.ofLines lines)).readLine? = (.ok (some d), r') := by
  intro lines ts
  obtain ⟨hstates, hturns⟩ := readLine?_iff_gap_or_overlooked lines
  obtain ⟨hend, -, hnext, -⟩ := hstates ts.next.2 (.next .refl)
  have hcomment : Gap ((';', ⟨0, 2⟩) :: ([] ++ [('\n', ⟨0, 3⟩)])) := .comment (by simp) .nil
  have hts : Gap ts.next.2.lineRest := by
    have hrest : ts.next.2.lineRest = [(';', ⟨0, 2⟩), ('\n', ⟨0, 3⟩)] := by decide +kernel
    rwa [hrest]
  let r := Reader.ofSource (LineReader.ofLines lines)
  obtain ⟨d, r', hread⟩ := Reader.exists_of_read? (r := r) (by decide +kernel)
  have hr' : Gap r'.tokens.lineRest := by
    have hrest : r.read?.2.tokens.lineRest = [(';', ⟨0, 2⟩), ('\n', ⟨0, 3⟩)] := by decide +kernel
    rw [hread] at hrest
    rwa [hrest]
  exact ⟨hend.2 (.inl hts), hnext hts, d, r', (hturns fresh fresh r r' d .none hread).2 (.inl hr')⟩

/-- A no-break space behind a number is a name for the scan, but the test for the end of the line
does not see it. So the number is answered, and the name is reported on its own. -/
theorem console_noBreakSpace :
    let lines := ["1 \u00a0"]
    let ts : TokenStream LineReader := { source := LineReader.ofLines lines }
    ts.next.2.atLineEnd = true ∧ ts.next.2.next.1.toOption = some ⟨.ident "\u00a0", ⟨0, 2⟩⟩ ∧
      (fresh.console {} (Reader.ofSource (LineReader.ofLines lines))).screen.text =
        "1\n1:3: error: Identifier '\u00a0' does not exist\n1 \u00a0\n  ^\n" := by
  decide +kernel

end Session
end Lisplet
