import Lisplet.Proofs.Reader.Onward
import Lisplet.Proofs.Session.Answers
import Lisplet.Proofs.Session.Script

/-!
The loops that read expressions make progress. A turn of the console takes up
something of what is left to read, whether it shows a value or an error, and so
does every pass of the loops that evaluate a text or run a script, the last one
apart. What is left are the characters that have not been read, the one that is
held back and the pending tokens. An attempt to read that fails gives its tokens
back, so the count may rise within a turn; what makes up for it is that the turn
gives up the line together with all that is kept. So none of the loops comes
round more often than there are characters and tokens left, and where the
console can write, it ends where input does.
-/
namespace Lisplet

/-- A loop that goes on with `step` comes round `n` times from one state to another. -/
inductive Rounds {α : Type} (step : α → Option α) : Nat → α → α → Prop where
  | none {a : α} : Rounds step 0 a a
  | more {n : Nat} {a b c : α} : step a = some b → Rounds step n b c → Rounds step (n + 1) a c

namespace Rounds

variable {α : Type} {step : α → Option α}

/-- What no step changes is the same after all of them. -/
theorem same {β : Type} {f : α → β} (hf : ∀ a b, step a = some b → f a = f b) {n : Nat} {a b : α}
    (h : Rounds step n a b) : f a = f b := by
  induction h with
  | none => rfl
  | more hstep _ ih => exact (hf _ _ hstep).trans ih

theorem keeps {P : α → Prop} (hP : ∀ a b, step a = some b → P a → P b) {n : Nat} {a b : α}
    (h : Rounds step n a b) (ha : P a) : P b := by
  induction h with
  | none => exact ha
  | more hstep _ ih => exact ih (hP _ _ hstep ha)

/-- A loop whose steps take up something of what is left ends, and comes round no more often than
there is something left. -/
theorem exists_last {left : α → Nat} (hleft : ∀ a b, step a = some b → left b < left a) (a : α) :
    ∃ n b, Rounds step n a b ∧ step b = Option.none ∧ n + left b ≤ left a := by
  cases hstep : step a with
  | none => exact ⟨0, a, .none, hstep, by omega⟩
  | some b =>
    have hlt := hleft a b hstep
    obtain ⟨n, c, hrounds, hlast, hle⟩ := exists_last hleft b
    exact ⟨n + 1, c, .more hstep hrounds, hlast, by omega⟩
termination_by left a

end Rounds

theorem TokenStream.left_of_end {ts : TokenStream LineReader} (h : ts.pull? = none) :
    ts.left = 0 := by
  obtain ⟨hrest, hfeed⟩ := rest_of_end h
  have hheld : ts.held = none := by
    unfold pull? at h
    split at h
    next => cases h
    next hheld => exact hheld
  change (ts.source.rest ++ ts.source.feed.flatMap Line.chars).length + _ = 0
  simp [hrest, hfeed, hheld]

namespace Reader

/-- The characters that have not been read, the one that is held back and the pending tokens. -/
theorem left_eq (r : Reader LineReader) :
    r.left = (r.source.rest ++ r.source.feed.flatMap Line.chars).length
      + r.tokens.held.toList.length + r.pending.length := rfl

def NoEndPending {σ : Type} (r : Reader σ) : Prop := ∀ t ∈ r.pending, t.lexeme ≠ .eof

theorem noEndPending_of_nil {σ : Type} {r : Reader σ} (h : r.pending = []) : r.NoEndPending := by
  simp [NoEndPending, h]

/-- Where input has ended, all of it has been read. -/
theorem left_of_atEnd {r : Reader LineReader} (hr : r.NoEndPending)
    (h : r.atEnd.1 = .ok true) : r.atEnd.2.tokens.left = 0 := by
  unfold atEnd at h ⊢
  split at h
  next t q hpeek =>
    have ht : t.lexeme = .eof := by simpa using h
    simp only
    unfold peek at hpeek
    split at hpeek
    next u later hpending =>
      cases hpeek
      exact absurd ht (hr t (by simp [hpending]))
    next =>
      split at hpeek
      next tokens hnext =>
        cases hpeek
        obtain ⟨hend, -⟩ := TokenStream.pull?_of_eof (s := .gap) (congrArg Prod.fst hnext) ht
        rw [show TokenStream.scan .gap r.tokens = (.ok t, tokens) from hnext] at hend
        exact TokenStream.left_of_end hend
      next => cases hpeek
  next => cases h

variable {σ : Type} [Source σ] {r s : Reader σ} {d : Datum}

theorem taken_resume (h : r.resume = (.ok d, s)) : s.taken = [] := by
  fun_induction resume r with
  | case1 => cases h
  | case2 r t s' hn reading hr ih => exact ih h
  | case3 => cases h; rfl
  | case4 => cases h

theorem taken_read? (h : r.read? = (.ok (some d), s)) : s.taken = [] := by
  unfold read? at h
  split at h
  next => cases h
  next => cases h
  next q hend =>
    split at h
    next => cases h
    next hread => cases h; exact taken_resume hread

/-- To ask for an expression finds that input has ended where to ask for its end does. -/
theorem read?_eq_none_iff : r.read?.1 = .ok none ↔ r.atEnd.1 = .ok true := by
  unfold read?
  split
  next hend => simp [hend]
  next hend => simp [hend]
  next q hend => split <;> simp [hend]

theorem readLine?_eq_none_iff : r.readLine?.1 = .ok none ↔ r.atEnd.1 = .ok true := by
  rw [← read?_eq_none_iff]
  unfold readLine?
  split
  next hread => simp [hread]
  next hread => simp [hread]
  next d q hread => split <;> [simp [hread]; split <;> simp [hread]]

/-- The token that was looked at is the first one of the expression, so no more than those that
were pending are left over. -/
theorem pending_suffix_read {q : Reader σ} (hend : r.atEnd = (.ok false, q))
    (hread : q.read = (.ok d, s)) : s.pending <:+ r.pending := by
  obtain ⟨t, hpeek, -⟩ := atEnd_false hend
  have hsuffix : q.pending.tail <:+ r.pending := by
    unfold peek at hpeek
    split at hpeek
    next => cases hpeek; exact List.tail_suffix _
    next =>
      split at hpeek
      next => cases hpeek; exact List.nil_suffix
      next => cases hpeek
  exact (pending_resume hread).trans hsuffix

end Reader

namespace Session

variable {σ : Type} [Source σ]

/-- One pass of the loop that evaluates a text or runs a script, unless it is the last one: an
expression is read and has a value. -/
def pass? (s : Session) (r : Reader σ) : Option (Datum × Session × Reader σ) :=
  match r.atEnd with
  | (.ok false, q) =>
    match s.evalNext q with
    | (.ok value, s', r') => some (value, s', r')
    | (.error _, _, _) => none
  | _ => none

def passed? : Datum × Session × Reader σ → Option (Datum × Session × Reader σ)
  | (_, s, r) => s.pass? r

section Pass

variable {s s' : Session} {r r' : Reader σ} {last value : Datum}

theorem evalNext_ok (h : s.evalNext r = (.ok value, s', r')) :
    ∃ d, r.read = (.ok d, r') ∧ s.eval d = (.ok value, s') := by
  unfold evalNext at h
  split at h
  next => cases h
  next d q hread =>
    split at h
    next => cases h
    next hvalue => cases h; exact ⟨d, hread, hvalue⟩

/-- A pass that is not the last one has read an expression and evaluated it. -/
theorem pass?_some (h : s.pass? r = some (value, s', r')) :
    ∃ q, r.atEnd = (.ok false, q) ∧ s.evalNext q = (.ok value, s', r') := by
  unfold pass? at h
  split at h
  next q hend =>
    split at h
    next hnext => cases h; exact ⟨q, hend, hnext⟩
    next => cases h
  next => cases h

theorem left_pass?_lt (h : s.pass? r = some (value, s', r')) : r'.left < r.left := by
  obtain ⟨q, hend, hnext⟩ := pass?_some h
  exact left_evalNext_lt hend hnext

/-- A pass keeps no token that was taken, and no pending token that was not pending before. -/
theorem clear_pass? (h : s.pass? r = some (value, s', r')) :
    r'.pending <:+ r.pending ∧ r'.taken = [] := by
  obtain ⟨q, hend, hnext⟩ := pass?_some h
  obtain ⟨d, hread, -⟩ := evalNext_ok hnext
  exact ⟨Reader.pending_suffix_read hend hread, Reader.taken_resume hread⟩

theorem evalAll_of_pass? (last : Datum) (h : s.pass? r = some (value, s', r')) :
    s.evalAll last r = s'.evalAll value r' := by
  obtain ⟨q, hend, hnext⟩ := pass?_some h
  obtain ⟨d, hread, hvalue⟩ := evalNext_ok hnext
  rw [evalAll_eq, Reader.read?, hend]
  simp only [hread, hvalue]

/-- The last pass finds the end of input, or an error. -/
theorem evalAll_of_last (last : Datum) (h : s.pass? r = none) :
    (r.atEnd.1 = .ok true ∧ s.evalAll last r = (.ok last, s, r.atEnd.2)) ∨
      (r.atEnd.1 ≠ .ok true ∧ ∃ e t q, s.evalAll last r = (.error e, t, q)) := by
  rw [evalAll_eq, Reader.read?]
  rcases hend : r.atEnd with ⟨x, q⟩
  cases x with
  | error e => exact .inr ⟨by simp, _, _, _, rfl⟩
  | ok ended =>
    cases ended with
    | true => exact .inl ⟨rfl, rfl⟩
    | false =>
      refine .inr ⟨by simp, ?_⟩
      simp only [pass?, hend, evalNext] at h
      rcases hread : q.read with ⟨y, q'⟩
      cases y with
      | error e =>
        simp only [hread]
        exact ⟨_, _, _, rfl⟩
      | ok d =>
        rcases heval : s.eval d with ⟨z, s'⟩
        cases z with
        | error e =>
          simp only [hread, heval]
          exact ⟨_, _, _, rfl⟩
        | ok value => simp [hread, heval] at h

/-- The passes of the loop up to its last one. -/
theorem exists_passes (last : Datum) (s : Session) (r : Reader σ) :
    ∃ n value t q, n ≤ r.left ∧ Rounds passed? n (last, s, r) (value, t, q) ∧
      t.pass? q = none ∧ s.evalAll last r = t.evalAll value q ∧
      (r.NoEndPending → q.NoEndPending) := by
  have hleft : ∀ x y : Datum × Session × Reader σ, passed? x = some y → y.2.2.left < x.2.2.left :=
    fun _ _ => left_pass?_lt
  obtain ⟨n, ⟨value, t, q⟩, hrounds, hlast, hle⟩ := Rounds.exists_last hleft (last, s, r)
  refine ⟨n, value, t, q, Nat.le_of_add_right_le hle, hrounds, hlast, ?_, ?_⟩
  · exact hrounds.same (f := fun x => x.2.1.evalAll x.1 x.2.2) fun _ _ => evalAll_of_pass? _
  · intro hr
    refine hrounds.keeps (P := fun x => x.2.2.NoEndPending) (fun _ _ hpass hpending t ht => ?_) hr
    exact hpending t ((clear_pass? hpass).1.subset ht)

end Pass

def shown? : Session × Sink × Reader σ → Option (Session × Sink × Reader σ)
  | (s, screen, r) =>
    match s.turn? r with
    | none => none
    | some (text, s', r') => (screen.writeLine? text).map fun screen' => (s', screen', r')

section Turn

variable {s s' : Session} {r r' : Reader σ} {screen screen' : Sink} {text : String}

theorem turn?_eq_none_iff : s.turn? r = none ↔ r.atEnd.1 = .ok true := by
  rw [← Reader.readLine?_eq_none_iff]
  unfold turn?
  split
  next hread => simp [hread]
  next hread => simp [hread]
  next d q hread => split <;> simp [hread]

/-- A turn leaves no token pending and none taken. -/
theorem clear_turn? (h : s.turn? r = some (text, s', r')) : r'.pending = [] ∧ r'.taken = [] := by
  unfold turn? at h
  split at h
  next => cases h
  next => cases h; exact ⟨rfl, rfl⟩
  next d q hline =>
    split at h
    next =>
      cases h
      obtain ⟨hread, hend⟩ := Reader.readLine?_ok hline
      exact ⟨Reader.pending_of_atLineEnd hend, Reader.taken_read? hread⟩
    next => cases h; exact ⟨rfl, rfl⟩

theorem shown?_some (h : shown? (s, screen, r) = some (s', screen', r')) :
    ∃ text, s.turn? r = some (text, s', r') ∧ screen.writeLine? text = some screen' := by
  simp only [shown?] at h
  split at h
  next => cases h
  next text t q hturn =>
    rw [Option.map_eq_some_iff] at h
    obtain ⟨screen'', hwrite, heq⟩ := h
    cases heq
    exact ⟨text, hturn, hwrite⟩

/-- The console is a turn that is written, and the console from there. -/
theorem console_of_turn? (h : s.turn? r = some (text, s', r')) :
    s.console screen r =
      match screen.writeLine? text with
      | none => ⟨s', screen, false⟩
      | some screen' => s'.console screen' r' := by
  rw [console]
  split
  next hnone => rw [h] at hnone; cases hnone
  next hsome => rw [h] at hsome; cases hsome; rfl

theorem console_of_end (h : s.turn? r = none) : s.console screen r = ⟨s, screen, true⟩ := by
  rw [console]
  split
  next => rfl
  next hsome => rw [h] at hsome; cases hsome

/-- The console stops at the end of input, or where a line is refused. -/
theorem console_of_last (h : shown? (s, screen, r) = none) :
    (r.atEnd.1 = .ok true ∧ s.console screen r = ⟨s, screen, true⟩) ∨
      (∃ text s' r', s.turn? r = some (text, s', r') ∧ screen.writeLine? text = none ∧
        s.console screen r = ⟨s', screen, false⟩) := by
  cases hturn : s.turn? r with
  | none => exact .inl ⟨turn?_eq_none_iff.1 hturn, console_of_end hturn⟩
  | some x =>
    obtain ⟨text, s', r'⟩ := x
    have hwrite : screen.writeLine? text = none := by
      simpa only [shown?, hturn, Option.map_eq_none_iff] using h
    refine .inr ⟨text, s', r', rfl, hwrite, ?_⟩
    rw [console_of_turn? hturn, hwrite]

/-- The turns of the console up to the last one that could be written. -/
theorem exists_turns (s : Session) (screen : Sink) (r : Reader σ) :
    ∃ n t screen' q, n ≤ r.left ∧ Rounds shown? n (s, screen, r) (t, screen', q) ∧
      shown? (t, screen', q) = none ∧ s.console screen r = t.console screen' q ∧
      (r.NoEndPending → q.NoEndPending) := by
  have hleft : ∀ x y : Session × Sink × Reader σ, shown? x = some y → y.2.2.left < x.2.2.left := by
    intro x y h
    obtain ⟨text, hturn, -⟩ := shown?_some h
    exact left_turn?_lt hturn
  obtain ⟨n, ⟨t, screen', q⟩, hrounds, hlast, hle⟩ := Rounds.exists_last hleft (s, screen, r)
  refine ⟨n, t, screen', q, Nat.le_of_add_right_le hle, hrounds, hlast, ?_, ?_⟩
  · refine hrounds.same (f := fun x => x.1.console x.2.1 x.2.2) fun _ _ h => ?_
    obtain ⟨text, hturn, hwrite⟩ := shown?_some h
    simp only [console_of_turn? hturn, hwrite]
  · refine hrounds.keeps (P := fun x => x.2.2.NoEndPending) fun _ _ h _ => ?_
    obtain ⟨text, hturn, -⟩ := shown?_some h
    exact Reader.noEndPending_of_nil (clear_turn? hturn).1

end Turn

/-- Every turn of the console and every pass of the other loops but the last one leaves less to
read, and keeps no token that was taken. So a text is evaluated, and a script is run, in at most as
many passes as there is something left to read; the last pass finds the end of input or the error
that is the answer. The console stops within as many turns, and it stops at the end of input unless
a line could not be written. Where input has ended, nothing is left, unless a token that says so was
pending from the beginning. -/
theorem loops_progress (s : Session) (last : Datum) (screen : Sink) (r : Reader LineReader) :
    r.left = (r.source.rest ++ r.source.feed.flatMap Line.chars).length
      + r.tokens.held.toList.length + r.pending.length ∧
    (∀ text s' r', s.turn? r = some (text, s', r') → r'.left < r.left ∧ r'.taken = []) ∧
    (∀ value s' r', s.pass? r = some (value, s', r') → r'.left < r.left ∧ r'.taken = []) ∧
    (∃ n value t q, n ≤ r.left ∧ Rounds passed? n (last, s, r) (value, t, q) ∧
      s.evalAll last r = t.evalAll value q ∧ s.runAll r = scriptOf (s.evalAll last r) ∧
      (q.atEnd.1 = .ok true ∧ (r.NoEndPending → q.atEnd.2.tokens.left = 0) ∧
          s.evalAll last r = (.ok value, t, q.atEnd.2) ∨
        q.atEnd.1 ≠ .ok true ∧ ∃ e t' q', s.evalAll last r = (.error e, t', q'))) ∧
    (∃ n t screen' q, n ≤ r.left ∧ Rounds shown? n (s, screen, r) (t, screen', q) ∧
      s.console screen r = t.console screen' q ∧
      (q.atEnd.1 = .ok true ∧ (r.NoEndPending → q.atEnd.2.tokens.left = 0) ∧
          s.console screen r = ⟨t, screen', true⟩ ∨
        ∃ text t' q', t.turn? q = some (text, t', q') ∧ screen'.writeLine? text = none ∧
          s.console screen r = ⟨t', screen', false⟩)) ∧
    (screen.broken = false → (s.console screen r).complete = true) := by
  refine ⟨Reader.left_eq r, ?_, ?_, ?_, ?_, ?_⟩
  · intro text s' r' hturn
    exact ⟨left_turn?_lt hturn, (clear_turn? hturn).2⟩
  · intro value s' r' hpass
    exact ⟨left_pass?_lt hpass, (clear_pass? hpass).2⟩
  · obtain ⟨n, value, t, q, hle, hrounds, hlast, heq, hpending⟩ := exists_passes last s r
    refine ⟨n, value, t, q, hle, hrounds, heq, runAll_eq last s r, ?_⟩
    rw [heq]
    obtain ⟨hend, hvalue⟩ | herror := evalAll_of_last value hlast
    · exact .inl ⟨hend, fun hr => Reader.left_of_atEnd (hpending hr) hend, hvalue⟩
    · exact .inr herror
  · obtain ⟨n, t, screen', q, hle, hrounds, hlast, heq, hpending⟩ := exists_turns s screen r
    refine ⟨n, t, screen', q, hle, hrounds, heq, ?_⟩
    rw [heq]
    obtain ⟨hend, hrun⟩ | hrefused := console_of_last hlast
    · exact .inl ⟨hend, fun hr => Reader.left_of_atEnd (hpending hr) hend, hrun⟩
    · exact .inr hrefused
  · intro hscreen
    rw [console_eq_answers hscreen]

end Session
end Lisplet
