import Lisplet.Proofs.Reader.Pending
import Lisplet.Reader.Parser

/-!
Productions against the reading of one expression. What a production does from
where a reading has come to is put as a pair of moves, the one that the reading
has made there and the one that the result amounts to. A production that runs,
fails, looks ahead or goes one level deeper keeps the pair, so what a whole
production does is put together from its parts. Along the way no check fails,
what was consumed before stays so, and the count of what is being read comes
back to what it was.
-/
namespace Lisplet

namespace Reader

variable {σ : Type} [Source σ] {r s : Reader σ} {t : Token} {e : ReadError}

/-- A token that was looked at is there to be looked at again. -/
theorem peek_of_peek (h : r.peek = (.ok t, s)) : s.peek = (.ok t, s) := by
  unfold peek at h
  split at h
  next hp =>
    cases h
    simp only [peek, hp]
  next =>
    split at h
    next => cases h; rfl
    next => cases h

theorem resume_of_peek (h : r.peek = (.ok t, s)) : s.resume = r.resume := by
  have hreading := r.peek_keeps.2
  rw [h] at hreading
  rw [resume_of_token (next_of_peek h), resume_of_token (next_of_peek (peek_of_peek h)), hreading]

end Reader

namespace Parser

variable {σ α β : Type}

def reader (s : Parser σ) (g : Reading) : Reader σ :=
  { tokens := s.tokens, pending := s.restore.reverse, taken := s.consumed.reverse, reading := g }

/-- The parser that has come as far as a reader, inside of so many expressions and types. -/
def ofReader (r : Reader σ) (nesting : Nat) : Parser σ :=
  { tokens := r.tokens, restore := r.pending.reverse, consumed := r.taken.reverse, nesting }

@[simp] theorem ofReader_reader (s : Parser σ) (g : Reading) :
    ofReader (s.reader g) s.nesting = s := by
  simp [ofReader, reader]

@[simp] theorem reader_ofReader (r : Reader σ) (n : Nat) (g : Reading) :
    (ofReader r n).reader g = { r with reading := g } := by
  simp [ofReader, reader]

theorem reader_ofReader_of_idle {r : Reader σ} (h : r.Idle) (n : Nat) :
    (ofReader r n).reader .start = r := by
  rw [reader_ofReader, ← h.reading]

variable [Source σ]

/-- A parser takes the token that the reader takes, and its checks pass. -/
theorem next_eq (s : Parser σ) (g : Reading) :
    next s = some ((s.reader g).next.1, ofReader (s.reader g).next.2 s.nesting) := by
  unfold next
  split
  next t ht =>
    obtain ⟨ts, hts⟩ := List.getLast?_eq_some_iff.1 ht
    simp [ofReader, reader, Reader.next, hts]
  next hs =>
    split
    all_goals
      next hn => simp [ofReader, reader, Reader.next, List.getLast?_eq_none_iff.1 hs, hn]

/-- A parser looks at the token that the reader looks at, and its checks pass. -/
theorem peek_eq (s : Parser σ) (g : Reading) :
    peek s = some ((s.reader g).peek.1, ofReader (s.reader g).peek.2 s.nesting) := by
  rw [peek_run]
  split
  next t ht =>
    obtain ⟨ts, hts⟩ := List.getLast?_eq_some_iff.1 ht
    have hpeek : (s.reader g).peek = (.ok t, s.reader g) := by simp [reader, Reader.peek, hts]
    rw [hpeek, ofReader_reader]
  next hs =>
    split
    all_goals
      next hn => simp [ofReader, reader, Reader.peek, List.getLast?_eq_none_iff.1 hs, hn]

theorem peek_ofReader (r : Reader σ) (n : Nat) :
    peek (ofReader r n) = some (r.peek.1, ofReader r.peek.2 n) := by
  rw [peek_eq _ r.reading, reader_ofReader]
  rfl

def finish (s : Parser σ) : Reading.Move → Except ReadError Datum × Reader σ
  | .more g => (s.reader g).resume
  | .done d => (.ok d, (s.reader .start).settle)
  | .fail e => (.error e, (s.reader .start).giveBack)

def moveOf (k : α → Reading.Move) : Except ReadError α → Reading.Move
  | .ok a => k a
  | .error e => .fail e

/-- Where one parser comes to with a result, a reading that has made the move `m` at the other has
made the move that `k` tells for the result. -/
structure Follows (m : Reading.Move) (k : α → Reading.Move) (s : Parser σ) (x : Except ReadError α)
    (s' : Parser σ) : Prop where
  consumed : s.consumed <+: s'.consumed
  nesting : s'.nesting = s.nesting
  finish : s.finish m = s'.finish (moveOf k x)

/-- All checks of the production pass, and it comes to what the reading comes to. -/
def Reads (m : Reading.Move) (k : α → Reading.Move) (p : Parse σ α) (s : Parser σ) : Prop :=
  ∃ x s', p s = some (x, s') ∧ Follows m k s x s'

def Next (s : Parser σ) (t : Token) : Prop := (s.reader .start).next.1 = .ok t

variable {m : Reading.Move} {k : α → Reading.Move} {p : Parse σ α} {s s' : Parser σ} {t u : Token}
  {g : Reading}

theorem Next.unique (ht : s.Next t) (hu : s.Next u) : t = u := Except.ok.inj (ht.symm.trans hu)

theorem next_of_run (h : next s = some (.ok t, s')) : s.Next t := by
  have hrun := next_eq s .start
  rw [h] at hrun
  exact (congrArg Prod.fst (Option.some.inj hrun)).symm

theorem next_of_held (h : s.restore.getLast? = some t) : s.Next t := by
  obtain ⟨ts, hts⟩ := List.getLast?_eq_some_iff.1 h
  simp [Next, reader, Reader.next, hts]

/-- A token that was looked at is put back, and it is the one that comes next. -/
theorem held_of_peek (h : peek s = some (.ok t, s')) :
    s'.restore.getLast? = some t ∧ s.Next t := by
  rw [peek_run] at h
  split at h
  next u hu =>
    cases h
    exact ⟨hu, next_of_held hu⟩
  next hs =>
    split at h
    next u tokens hn =>
      cases h
      refine ⟨rfl, ?_⟩
      simp [Next, reader, Reader.next, List.getLast?_eq_none_iff.1 hs, hn]
    next => cases h

theorem reads_pure (a : α) (hm : m = k a) : Reads m k (pure a) s :=
  ⟨.ok a, s, rfl, List.prefix_rfl, rfl, by rw [hm]; rfl⟩

theorem reads_throw (e : ReadError) (hm : m = .fail e) : Reads m k (throw e) s :=
  ⟨.error e, s, rfl, List.prefix_rfl, rfl, by rw [hm]; rfl⟩

theorem Follows.trans {l : β → Reading.Move} {s₁ : Parser σ} {a : α} {y : Except ReadError β}
    (h : Follows m k s (.ok a) s₁) (h' : Follows (k a) l s₁ y s') : Follows m l s y s' :=
  ⟨h.consumed.trans h'.consumed, h'.nesting.trans h.nesting, h.finish.trans h'.finish⟩

/-- Two computations, the second one from where the first one has come to. -/
theorem Reads.bind {l : β → Reading.Move} {f : α → Parse σ β} (hp : Reads m k p s)
    (hf : ∀ a s', p s = some (.ok a, s') → s'.nesting = s.nesting → Reads (k a) l (f a) s') :
    Reads m l (p >>= f) s := by
  obtain ⟨x, s₁, hx, hfollows⟩ := hp
  cases x with
  | ok a =>
    obtain ⟨y, s₂, hy, hfollows'⟩ := hf a s₁ hx hfollows.nesting
    exact ⟨y, s₂, by rw [bind_run, hx]; exact hy, hfollows.trans hfollows'⟩
  | error e =>
    exact ⟨.error e, s₁, by rw [bind_run, hx]; rfl, hfollows.consumed, hfollows.nesting,
      hfollows.finish⟩

omit [Source σ] in
theorem production_of_error {s₁ : Parser σ} {ts : List Token} {e : ReadError}
    (h : p s = some (.error e, s₁)) (hts : s.consumed ++ ts = s₁.consumed) :
    production p s = some (.error e,
      { s₁ with consumed := s.consumed, restore := s₁.restore ++ ts.reverse }) := by
  simp [production, putBack?, h, ← hts]

/-- To put tokens back changes nothing about how an attempt has failed. -/
theorem Reads.production (h : Reads m k p s) : Reads m k (production p) s := by
  obtain ⟨x, s₁, hx, hfollows⟩ := h
  cases x with
  | ok a => exact ⟨.ok a, s₁, by simp [Parser.production, hx], hfollows⟩
  | error e =>
    obtain ⟨ts, hts⟩ := hfollows.consumed
    refine ⟨_, _, production_of_error hx hts, List.prefix_rfl, hfollows.nesting, ?_⟩
    rw [hfollows.finish]
    simp [moveOf, Parser.finish, reader, Reader.giveBack, ← hts]

/-- A production that fails leaves as many tokens consumed as there were, and the same ones. -/
theorem consumed_of_production {e : ReadError} (h : Reads m k p s)
    (he : Parser.production p s = some (.error e, s')) : s'.consumed = s.consumed := by
  obtain ⟨x, s₁, hx, hfollows⟩ := h
  cases x with
  | ok a => simp [Parser.production, hx] at he
  | error e =>
    obtain ⟨ts, hts⟩ := hfollows.consumed
    rw [production_of_error hx hts] at he
    cases he
    rfl

/-- The next token moves the reading on. -/
theorem reads_next : Reads (.more g) g.take next s := by
  rcases hn : (s.reader g).next with ⟨x, r⟩
  have hrun := next_eq s g
  rw [hn] at hrun
  refine ⟨x, _, hrun, ?_⟩
  cases x with
  | error e =>
    refine ⟨?_, rfl, ?_⟩
    · simp [ofReader, (Reader.next_error hn).1, reader]
    · simp only [finish, moveOf, Reader.resume_of_error hn, reader_ofReader]
      rfl
  | ok t =>
    refine ⟨?_, rfl, ?_⟩
    · simp [ofReader, (Reader.next_ok hn).1, reader]
    · simp only [finish, moveOf, Reader.resume_of_token hn, reader_ofReader]
      have hg : (s.reader g).reading = g := rfl
      rw [hg]
      cases g.take t <;> rfl

/-- To look at the next token is no move. -/
theorem reads_peek : Reads (.more g) (fun _ => .more g) peek s := by
  rcases hn : (s.reader g).peek with ⟨x, r⟩
  have hrun := peek_eq s g
  obtain ⟨htaken, hreading⟩ := (s.reader g).peek_keeps
  rw [hn] at hrun htaken hreading
  refine ⟨x, _, hrun, ?_⟩
  have hconsumed : (ofReader r s.nesting).consumed = s.consumed := by
    simpa [ofReader, reader] using congrArg List.reverse htaken
  refine ⟨hconsumed ▸ List.prefix_rfl, rfl, ?_⟩
  cases x with
  | error e =>
    have hend := Reader.resume_of_error (Reader.next_of_peek_error hn)
    simp only [finish, moveOf, hend, reader_ofReader]
    rfl
  | ok t =>
    have hend := Reader.resume_of_peek hn
    simp only [finish, moveOf, reader_ofReader]
    rw [← hend]
    exact congrArg (fun g => ({ r with reading := g } : Reader σ).resume) hreading

/-- The class of a token is looked at as the reading machine does it. -/
theorem reads_expectKind {kind : Kind} {l : Token → Reading.Move}
    (h : ∀ t, s.Next t →
      g.take t = if t.kind = kind then l t else .fail ⟨.expectedKind kind, t.place⟩) :
    Reads (.more g) l (expectKind kind) s := by
  apply reads_next.bind
  intro t s' ht hnesting
  have hmove := h t (next_of_run ht)
  split
  next hk => exact reads_pure t (by rw [hmove, if_pos hk])
  next hk => exact reads_throw _ (by rw [hmove, if_neg hk])

theorem reads_expectText {kind : Kind} {text : String} {l : Token → Reading.Move}
    (h : ∀ t, s.Next t → g.take t =
      if t.kind = kind then if t.text = text then l t else .fail ⟨.expectedText text, t.place⟩
      else .fail ⟨.expectedKind kind, t.place⟩) :
    Reads (.more g) l (expectText kind text) s := by
  apply Reads.bind (reads_expectKind (l := fun t => if t.text = text then l t
    else .fail ⟨.expectedText text, t.place⟩) h)
  intro t s' ht hnesting
  split
  next hk => exact reads_pure t rfl
  next hk => exact reads_throw _ rfl

theorem next_of_expectKind {kind : Kind} (h : expectKind kind s = some (.ok t, s')) :
    s.Next t := by
  obtain ⟨u, s₁, hu, h⟩ := bind_ok h
  split at h
  next => cases h; exact next_of_run hu
  next => cases h

theorem next_of_expectText {kind : Kind} {text : String}
    (h : expectText kind text s = some (.ok t, s')) : s.Next t := by
  obtain ⟨u, s₁, hu, h⟩ := bind_ok h
  split at h
  next => cases h; exact next_of_expectKind hu
  next => cases h

/-- A production that takes the token it was chosen by goes on from there. -/
theorem Reads.opening {p : Parse σ Token} {f : Token → Parse σ α} (hu : s.Next u)
    (hp : Reads (.more g) g.take p s) (hnext : ∀ t s', p s = some (.ok t, s') → s.Next t)
    (hf : ∀ s', s'.nesting = s.nesting → Reads (g.take u) k (f u) s') :
    Reads (.more g) k (Parser.production (p >>= f)) s := by
  apply Reads.production
  apply hp.bind
  intro t s' ht hs'
  obtain rfl := (hnext t s' ht).unique hu
  exact hf s' hs'

theorem reads_openingKind {kind : Kind} {f : Token → Parse σ α} (hu : s.Next u)
    (hkind : u.kind = kind) (hf : ∀ s', s'.nesting = s.nesting → Reads (g.take u) k (f u) s') :
    Reads (.more g) k (production (expectKind kind >>= f)) s := by
  refine Reads.opening hu (reads_expectKind ?_) (fun _ _ => next_of_expectKind) hf
  intro t ht
  rw [ht.unique hu, if_pos hkind]

theorem reads_openingText {kind : Kind} {text : String} {f : Token → Parse σ α} (hu : s.Next u)
    (hkind : u.kind = kind) (htext : u.text = text)
    (hf : ∀ s', s'.nesting = s.nesting → Reads (g.take u) k (f u) s') :
    Reads (.more g) k (production (expectText kind text >>= f)) s := by
  refine Reads.opening hu (reads_expectText ?_) (fun _ _ => next_of_expectText) hf
  intro t ht
  rw [ht.unique hu, if_pos hkind, if_pos htext]

/-- A token that is put back stops the reading, taken or not. -/
theorem reads_throw_of_held {e : ReadError} (hu : s.restore.getLast? = some u)
    (hm : g.take u = .fail e) : Reads (.more g) k (throw e) s := by
  obtain ⟨ts, hts⟩ := List.getLast?_eq_some_iff.1 hu
  have hnext : (s.reader g).next = (.ok u, { s.reader g with
      pending := ts.reverse, taken := u :: s.consumed.reverse }) := by
    simp [reader, Reader.next, hts]
  refine ⟨.error e, s, rfl, List.prefix_rfl, rfl, ?_⟩
  change (s.reader g).resume = _
  rw [Reader.resume_of_token hnext]
  change (match g.take u with
    | .more _ => _
    | .done _ => _
    | .fail e => _) = _
  rw [hm]
  simp [finish, moveOf, reader, Reader.giveBack, hts]

theorem reads_refuse (h : ∀ t, s.Next t → g.take t = .fail ⟨.tooDeep, t.place⟩) :
    Reads (.more g) k refuse s := by
  apply reads_peek.bind
  intro t s₁ ht _
  obtain ⟨hheld, hfirst⟩ := held_of_peek ht
  exact reads_throw_of_held hheld (h t hfirst)

theorem finish_nesting (s : Parser σ) (n : Nat) (m : Reading.Move) :
    finish { s with nesting := n } m = s.finish m := by
  cases m <;> rfl

theorem nested_of_room {x : Except ReadError α} {s₁ : Parser σ} (hroom : s.nesting < maxNesting)
    (hx : p { s with nesting := s.nesting + 1 } = some (x, s₁)) (hs₁ : s₁.nesting = s.nesting + 1) :
    nested p s = some (x, { s₁ with nesting := s.nesting }) := by
  simp [nested, Nat.not_le.2 hroom, hx, hs₁]

/-- One level deeper, and back again. -/
theorem Reads.nested (hroom : s.nesting < maxNesting)
    (h : Reads m k p { s with nesting := s.nesting + 1 }) : Reads m k (nested p) s := by
  obtain ⟨x, s₁, hx, hconsumed, hnesting, hfinish⟩ := h
  refine ⟨x, _, nested_of_room hroom hx hnesting, hconsumed, rfl, ?_⟩
  rwa [finish_nesting] at hfinish ⊢

theorem reads_nested_of_full (hfull : maxNesting ≤ s.nesting)
    (h : ∀ t, s.Next t → g.take t = .fail ⟨.tooDeep, t.place⟩) :
    Reads (.more g) k (nested p) s := by
  obtain ⟨x, s', hx, hfollows⟩ := reads_refuse (k := k) h
  exact ⟨x, s', (if_pos hfull).trans hx, hfollows⟩

theorem consumed_of_refuse {x : Except ReadError α} (h : refuse s = some (x, s')) :
    s'.consumed = s.consumed := by
  rw [refuse, bind_run, peek_run] at h
  split at h
  next => cases h; rfl
  next => split at h <;> cases h <;> rfl

end Parser
end Lisplet
