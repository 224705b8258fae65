import Lisplet.Proofs.Reading.Reached
import Lisplet.Reader
import Mathlib.Data.Stream.Init

/-!
What a reader has still ahead: its pending tokens and then what scanning will
yield, errors included. Whatever is asked of a reader, nothing of it is lost,
doubled or put in another order. Reading an expression uses up the tokens that
spell it; a failure uses up nothing, except text that is no token.
-/
namespace Lisplet

def Reading.nesting (g : Reading) : Nat :=
  match g.goal with
  | .expr => g.stack.length
  | .inType _ types .type => g.stack.length + 1 + types.length
  | .inType _ types _ => g.stack.length + 2 + types.length

/-- What scanning yields, one token or error after another. -/
def TokenStream.results {σ : Type} [Source σ] (ts : TokenStream σ) :
    Stream' (Except ScanError Token) :=
  Stream'.corec (fun ts : TokenStream σ => ts.next.1) (fun ts => ts.next.2) ts

theorem TokenStream.results_eq {σ : Type} [Source σ] (ts : TokenStream σ) :
    ts.results = .cons ts.next.1 ts.next.2.results := Stream'.corec_eq ..

namespace Reader

variable {σ : Type}

structure Idle (r : Reader σ) : Prop where
  taken : r.taken = []
  reading : r.reading = .start

theorem idle_ofSource (source : σ) : (ofSource source).Idle := ⟨rfl, rfl⟩
theorem idle_giveBack (r : Reader σ) : r.giveBack.Idle := ⟨rfl, rfl⟩
theorem idle_settle (r : Reader σ) : r.settle.Idle := ⟨rfl, rfl⟩

theorem Idle.nesting {r : Reader σ} (h : r.Idle) : r.reading.nesting = 0 := by
  rw [h.reading]
  rfl

variable [Source σ]

/-- The tokens and errors that a reader will yield. -/
def ahead (r : Reader σ) : Stream' (Except ReadError Token) :=
  r.pending.map .ok ++ₛ r.tokens.results.map (.mapError (.map .scan))

/-- What is taken and what is ahead, that is, all that is not used up. -/
def unused (r : Reader σ) : Stream' (Except ReadError Token) :=
  r.taken.reverse.map .ok ++ₛ r.ahead

/-- The one error item is gone, and all tokens before it are still there. -/
def LosesOnly (e : ReadError) (before after : Stream' (Except ReadError Token)) : Prop :=
  ∃ (ts : List Token) (rest : Stream' (Except ReadError Token)),
    before = ts.map .ok ++ₛ .cons (.error e) rest ∧ after = ts.map .ok ++ₛ rest

theorem ahead_giveBack (r : Reader σ) : r.giveBack.ahead = r.unused := by
  simp [ahead, unused, giveBack]

theorem ahead_settle (r : Reader σ) : r.settle.ahead = r.ahead := rfl

theorem Idle.unused {r : Reader σ} (h : r.Idle) : r.unused = r.ahead := by
  simp [Reader.unused, h.taken]

/-- To take a token takes it off what is ahead, and so it is with an error. -/
theorem ahead_of_next {r s : Reader σ} {x : Except ReadError Token} (h : r.next = (x, s)) :
    r.ahead = .cons x s.ahead := by
  unfold next at h
  split at h
  next t pending hp =>
    cases h
    simp [ahead, hp, Stream'.cons_append_stream]
  next hp =>
    split at h
    all_goals
      next hn =>
        cases h
        simp [ahead, hp, r.tokens.results_eq, hn, Stream'.map_cons, Except.mapError]

theorem next_ok {r s : Reader σ} {t : Token} (h : r.next = (.ok t, s)) :
    s.taken = t :: r.taken ∧ s.reading = r.reading := by
  unfold next at h
  split at h
  next => cases h; exact ⟨rfl, rfl⟩
  next =>
    split at h
    next => cases h; exact ⟨rfl, rfl⟩
    next => cases h

theorem next_error {r s : Reader σ} {e : ReadError} (h : r.next = (.error e, s)) :
    s.taken = r.taken ∧ e.what.isScan = true := by
  unfold next at h
  split at h
  next => cases h
  next =>
    split at h
    next => cases h
    next => cases h; exact ⟨rfl, rfl⟩

/-- A token that is taken is not used up. -/
theorem unused_of_next {r s : Reader σ} {t : Token} (h : r.next = (.ok t, s)) :
    s.unused = r.unused := by
  simp [unused, ahead_of_next h, (next_ok h).1]

def Ends (before : Stream' (Except ReadError Token)) :
    Except ReadError Datum × Reader σ → Prop
  | (.ok d, s) => s.Idle ∧
      ∃ n ≤ maxNesting, ∃ ts, Spells n ts d ∧ before = ts.map .ok ++ₛ s.ahead
  | (.error e, s) => s.Idle ∧
      if e.what.isScan then LosesOnly e before s.ahead else s.ahead = before

/-- The reading in progress agrees with the tokens taken, so the attempt ends well. The induction
is on the attempt; every token it takes keeps the agreement and what is unused. -/
theorem ends_resume (r : Reader σ) (hr : Reading.Reached r.reading r.taken.reverse) :
    Ends r.unused r.resume := by
  fun_induction resume r with
  | case1 r e s h =>
    obtain ⟨htaken, hscan⟩ := next_error h
    refine ⟨idle_giveBack s, ?_⟩
    rw [if_pos hscan]
    refine ⟨r.taken.reverse, s.ahead, ?_, ?_⟩
    · rw [unused, ahead_of_next h]
    · rw [ahead_giveBack, unused, htaken]
  | case2 r t s h g hg ih =>
    have hmove := Reading.take_follows hr t
    rw [hg] at hmove
    have htaken : s.taken.reverse = r.taken.reverse ++ [t] := by simp [(next_ok h).1]
    rw [← unused_of_next h]
    exact ih (by rw [htaken]; exact hmove)
  | case3 r t s h d hd =>
    have hmove := Reading.take_follows hr t
    rw [hd] at hmove
    obtain ⟨n, hn, hspells⟩ := hmove
    have htaken : s.taken.reverse = r.taken.reverse ++ [t] := by simp [(next_ok h).1]
    refine ⟨idle_settle s, n, hn, s.taken.reverse, by rwa [htaken], ?_⟩
    rw [ahead_settle, ← unused_of_next h, unused]
  | case4 r t s h e he =>
    have hmove := Reading.take_follows hr t
    rw [he] at hmove
    refine ⟨idle_giveBack s, ?_⟩
    rw [if_neg (by rw [hmove]; exact Bool.false_ne_true), ahead_giveBack, unused_of_next h]

theorem ends_read {r : Reader σ} (h : r.Idle) : Ends r.ahead r.read := by
  rw [← h.unused]
  refine ends_resume r ?_
  rw [h.taken, h.reading]
  exact Reading.reached_start

/-- Readers with the same ahead take the same token next. -/
theorem next_congr {r s r' : Reader σ} {x : Except ReadError Token} (ha : r.ahead = s.ahead)
    (h : r.next = (x, r')) : ∃ s', s.next = (x, s') ∧ r'.ahead = s'.ahead := by
  cases hs : s.next with
  | mk y s' =>
    rw [ahead_of_next h, ahead_of_next hs] at ha
    obtain ⟨rfl, hrest⟩ := Stream'.cons_injective2 ha
    exact ⟨s', rfl, hrest⟩

/-- The answer of an attempt depends only on how far it has come and what is ahead. -/
theorem resume_congr {r s : Reader σ} (hg : r.reading = s.reading) (ha : r.ahead = s.ahead) :
    r.resume.1 = s.resume.1 := by
  fun_induction resume r generalizing s with
  | case1 r e r' h =>
    obtain ⟨s', hs, -⟩ := next_congr ha h
    rw [resume_of_error hs]
  | case2 r t r' h g hm ih =>
    obtain ⟨s', hs, ha'⟩ := next_congr ha h
    rw [resume_of_token hs, ← hg, hm]
    exact ih rfl ha'
  | case3 r t r' h d hm =>
    obtain ⟨s', hs, -⟩ := next_congr ha h
    rw [resume_of_token hs, ← hg, hm]
  | case4 r t r' h e hm =>
    obtain ⟨s', hs, -⟩ := next_congr ha h
    rw [resume_of_token hs, ← hg, hm]

theorem read_congr {r s : Reader σ} (hr : r.Idle) (hs : s.Idle) (ha : r.ahead = s.ahead) :
    r.read.1 = s.read.1 := resume_congr (hr.reading.trans hs.reading.symm) ha

theorem peek_keeps (r : Reader σ) :
    r.peek.2.taken = r.taken ∧ r.peek.2.reading = r.reading := by
  unfold peek
  split
  next => exact ⟨rfl, rfl⟩
  next => split <;> exact ⟨rfl, rfl⟩

theorem idle_peek {r : Reader σ} (h : r.Idle) : r.peek.2.Idle :=
  ⟨r.peek_keeps.1.trans h.taken, r.peek_keeps.2.trans h.reading⟩

/-- To look at a token leaves all of it ahead. -/
theorem ahead_of_peek {r s : Reader σ} {t : Token} (h : r.peek = (.ok t, s)) :
    s.ahead = r.ahead ∧ r.ahead.head = .ok t := by
  unfold peek at h
  split at h
  next t' pending hp =>
    cases h
    refine ⟨rfl, ?_⟩
    simp [ahead, hp, Stream'.cons_append_stream]
  next hp =>
    split at h
    next u tokens hn =>
      cases h
      simp [ahead, hp, r.tokens.results_eq, hn, Stream'.map_cons, Except.mapError,
        Stream'.cons_append_stream]
    next => cases h

/-- To look at what is no token takes the error off what is ahead. -/
theorem ahead_of_peek_error {r s : Reader σ} {e : ReadError} (h : r.peek = (.error e, s)) :
    r.ahead = .cons (.error e) s.ahead := by
  unfold peek at h
  split at h
  next => cases h
  next hp =>
    split at h
    next => cases h
    next u tokens hn =>
      cases h
      simp [ahead, hp, r.tokens.results_eq, hn, Stream'.map_cons, Except.mapError]

theorem losesOnly_peek {r s : Reader σ} {e : ReadError} (h : r.peek = (.error e, s)) :
    LosesOnly e r.ahead s.ahead := ⟨[], s.ahead, ahead_of_peek_error h, rfl⟩

theorem idle_read {r : Reader σ} (h : r.Idle) : r.read.2.Idle := by
  have := ends_read h
  cases hx : r.read with
  | mk x s =>
    rw [hx] at this
    cases x <;> exact this.1

theorem idle_atEnd {r : Reader σ} (h : r.Idle) : r.atEnd.2.Idle := by
  have := idle_peek h
  unfold atEnd
  split
  all_goals
    next hp => rwa [hp] at this

end Reader
end Lisplet
