import Lisplet.Reader

/-!
What a reader does to its tokens is to scan some of them, so it keeps whatever
scanning keeps. Reading makes progress. An expression that is read takes up at
least one character or pending token, and so does an attempt that fails once the
rest of its line is given up. So a loop that reads expressions ends.
-/
namespace Lisplet.Reader

variable {σ : Type} [Source σ]

section Keeps

variable {P : TokenStream σ → Prop}

/-- Looking at a token scans at most one, so it keeps what scanning one keeps. -/
theorem tokens_peek (hP : ∀ ts, P ts → P ts.next.2) {r : Reader σ} (h : P r.tokens) :
    P r.peek.2.tokens := by
  have hnext := hP _ h
  unfold peek
  split
  next => exact h
  next => split <;> next hn => rwa [hn] at hnext

theorem tokens_next (hP : ∀ ts, P ts → P ts.next.2) {r : Reader σ} (h : P r.tokens) :
    P r.next.2.tokens := r.tokens_next_eq ▸ tokens_peek hP h

/-- What every step of the stream keeps is kept while an expression is read. -/
theorem tokens_resume (hP : ∀ ts, P ts → P ts.next.2) {r : Reader σ} (h : P r.tokens) :
    P r.resume.2.tokens := by
  have hnext := tokens_next hP h
  fun_induction resume r with
  | case1 r e s hn => rwa [hn] at hnext
  | case2 r t s hn reading hr ih =>
    rw [hn] at hnext
    exact ih hnext (tokens_next hP hnext)
  | case3 r t s hn d hr => rwa [hn] at hnext
  | case4 r t s hn e hr => rwa [hn] at hnext

theorem tokens_atEnd (hP : ∀ ts, P ts → P ts.next.2) {r : Reader σ} (h : P r.tokens) :
    P r.atEnd.2.tokens := by
  have hpeek := tokens_peek hP h
  unfold atEnd
  split <;> next hp => rwa [hp] at hpeek

theorem tokens_read? (hP : ∀ ts, P ts → P ts.next.2) {r : Reader σ} (h : P r.tokens) :
    P r.read?.2.tokens := by
  have hend := tokens_atEnd hP h
  unfold read?
  split
  next he => rwa [he] at hend
  next he => rwa [he] at hend
  next s he =>
    rw [he] at hend
    have hread : P s.read.2.tokens := tokens_resume hP hend
    split <;> next hr => rwa [hr] at hread

end Keeps

theorem left_tokens_resume_le (r : Reader σ) : r.resume.2.tokens.left ≤ r.tokens.left :=
  tokens_resume (P := fun ts => ts.left ≤ r.tokens.left)
    (fun ts h => Nat.le_trans ts.left_next_le h) (Nat.le_refl _)

/-- An expression that is read leaves less to be read. -/
theorem left_resume_lt {r s : Reader σ} {d : Datum} (h : r.resume = (.ok d, s)) :
    s.left < r.left := by
  fun_induction resume r with
  | case1 => cases h
  | case2 r t s' hn reading hr ih =>
    have hle := left_next_le r
    rw [hn] at hle
    exact Nat.lt_of_lt_of_le (ih h) hle
  | case3 r t s' hn e hr =>
    cases h
    have := left_next_lt (r := r) (by rw [hn]) (Reading.lexeme_ne_eof_of_done hr)
    rwa [hn] at this
  | case4 => cases h

theorem left_tokens_read_le (r : Reader σ) : r.read.2.tokens.left ≤ r.tokens.left :=
  left_tokens_resume_le r

theorem left_read_lt {r s : Reader σ} {d : Datum} (h : r.read = (.ok d, s)) :
    s.left < r.left := left_resume_lt h

theorem left_tokens_peek_le (r : Reader σ) : r.peek.2.tokens.left ≤ r.tokens.left :=
  tokens_peek (P := fun ts => ts.left ≤ r.tokens.left)
    (fun ts h => Nat.le_trans ts.left_next_le h) (Nat.le_refl _)

/-- A token that was looked at is pending, so it is still to be read. -/
theorem left_peek_le {r s : Reader σ} {t : Token} (h : r.peek = (.ok t, s))
    (hne : t.lexeme ≠ .eof) : s.left ≤ r.left := by
  unfold peek at h
  split at h
  next => cases h; exact Nat.le_refl _
  next hp =>
    split at h
    next u tokens hn =>
      cases h
      have hlt := r.tokens.left_next_lt (by rw [hn]) hne
      rw [hn] at hlt
      simp only [left, hp, List.length_singleton, List.length_nil]
      exact hlt
    next => cases h

theorem left_tokens_lt_of_peek {r s : Reader σ} {t : Token} (h : r.peek = (.ok t, s)) :
    s.tokens.left < s.left := by
  unfold peek at h
  split at h
  next hp => cases h; simp [left, hp]
  next =>
    split at h
    next => cases h; simp [left]
    next => cases h

/-- An error of scanning has taken at least one character. -/
theorem left_peek_error {r s : Reader σ} {e : ReadError} (h : r.peek = (.error e, s)) :
    s.left < r.left := by
  unfold peek at h
  split at h
  next => cases h
  next hp =>
    split at h
    next => cases h
    next u tokens hn =>
      cases h
      rcases r.tokens.left_next with hlt | ⟨place, hq⟩
      · simpa [left, hp, hn] using hlt
      · rw [hq] at hn; cases hn

theorem left_skipLine (r : Reader σ) : r.skipLine.left ≤ r.tokens.left := by
  simpa [left, skipLine] using r.tokens.left_skipLine

theorem left_tokens_le (r : Reader σ) : r.tokens.left ≤ r.left := by simp [left]

theorem atEnd_false {r s : Reader σ} (h : r.atEnd = (.ok false, s)) :
    ∃ t, r.peek = (.ok t, s) ∧ t.lexeme ≠ .eof := by
  unfold atEnd at h
  split at h
  next t s' hp =>
    obtain ⟨ht, rfl⟩ : decide (t.lexeme = .eof) = false ∧ s' = s := by simpa using h
    exact ⟨t, hp, by simpa using ht⟩
  next => cases h

theorem left_read?_lt {r s : Reader σ} {d : Datum} (h : r.read? = (.ok (some d), s)) :
    s.left < r.left := by
  unfold read? at h
  split at h
  next => cases h
  next => cases h
  next s1 he =>
    obtain ⟨t, hp, hne⟩ := atEnd_false he
    split at h
    next => cases h
    next n s2 hr =>
      cases h
      exact Nat.lt_of_lt_of_le (left_read_lt hr) (left_peek_le hp hne)

/-- After a failure and the rest of its line, less is left. -/
theorem left_skipLine_read?_lt {r s : Reader σ} {e : ReadError}
    (h : r.read? = (.error e, s)) : s.skipLine.left < r.left := by
  unfold read? at h
  split at h
  next e' s1 he =>
    cases h
    unfold atEnd at he
    split at he
    next => cases he
    next e' s' hp =>
      cases he
      have h1 := left_peek_error hp
      have h2 := left_skipLine s
      have h3 := left_tokens_le s
      omega
  next => cases h
  next s1 he =>
    obtain ⟨t, hp, hne⟩ := atEnd_false he
    split at h
    next e' s2 hr =>
      cases h
      have h1 := left_skipLine s
      have h2 := left_tokens_read_le s1
      rw [hr] at h2
      simp only at h2
      have h3 := left_tokens_lt_of_peek hp
      have h4 := left_peek_le hp hne
      omega
    next => cases h

theorem left_readLine?_lt {r s : Reader σ} {d : Datum}
    (h : r.readLine? = (.ok (some d), s)) : s.left < r.left := by
  unfold readLine? at h
  split at h
  next => cases h
  next => cases h
  next n s1 hr =>
    split at h
    next => cases h; exact left_read?_lt hr
    next => split at h <;> cases h

/-- To give up the line of an error leaves less to be read, also if no token was taken. -/
theorem left_skipLine_readLine?_lt {r s : Reader σ} {e : Error}
    (h : r.readLine? = (.error e, s)) : s.skipLine.left < r.left := by
  unfold readLine? at h
  split at h
  next e' s1 hr => cases h; exact left_skipLine_read?_lt hr
  next => cases h
  next n s1 hr =>
    have h1 := left_read?_lt hr
    have h2 := left_tokens_peek_le s1
    have h3 := left_tokens_le s1
    split at h
    next => cases h
    next =>
      split at h
      all_goals
        next hp =>
          cases h
          rw [hp] at h2
          have h4 := left_skipLine s
          simp only at h2
          omega

end Lisplet.Reader
