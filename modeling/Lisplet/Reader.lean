import Lisplet.Reader.Reading
import Lisplet.Token.Stream

/-!
The reader takes expressions from a source. Tokens that were looked at or given
back wait in `pending` and are taken before new ones are scanned. The tokens
taken for an expression are kept until it is complete: an attempt that fails
gives back every one of them, the one that stopped it included; only text that
is no token at all is lost. Between two attempts nothing is taken and no form
is open.
-/
namespace Lisplet

structure Reader (σ : Type) where
  tokens : TokenStream σ
  /-- Tokens to be taken again, the next one first. -/
  pending : List Token := []
  /-- Tokens taken for the expression that is being read, the last one first. -/
  taken : List Token := []
  /-- How far that expression has been read. -/
  reading : Reading := .start

namespace Reader

variable {σ : Type} [Source σ]

def ofSource (source : σ) : Reader σ := { tokens := { source } }

def source (r : Reader σ) : σ := r.tokens.source

def left (r : Reader σ) : Nat := r.tokens.left + r.pending.length

def next (r : Reader σ) : Except ReadError Token × Reader σ :=
  match r.pending with
  | t :: pending => (.ok t, { r with pending, taken := t :: r.taken })
  | [] =>
    match r.tokens.next with
    | (.ok t, tokens) => (.ok t, { r with tokens, taken := t :: r.taken })
    | (.error e, tokens) => (.error (e.map .scan), { r with tokens })

/-- Give up an expression and give back the tokens taken for it. -/
def giveBack (r : Reader σ) : Reader σ :=
  { tokens := r.tokens, pending := r.taken.reverse ++ r.pending }

/-- The expression is complete and its tokens are used up. -/
def settle (r : Reader σ) : Reader σ := { tokens := r.tokens, pending := r.pending }

/-- The next token, which stays pending. -/
def peek (r : Reader σ) : Except ReadError Token × Reader σ :=
  match r.pending with
  | t :: _ => (.ok t, r)
  | [] =>
    match r.tokens.next with
    | (.ok t, tokens) => (.ok t, { r with tokens, pending := [t] })
    | (.error e, tokens) => (.error (e.map .scan), { r with tokens })

/-- To take a token is to look at it and then to take it off the pending ones. -/
theorem next_of_peek {r s : Reader σ} {t : Token} (h : r.peek = (.ok t, s)) :
    r.next = (.ok t, { s with pending := s.pending.tail, taken := t :: s.taken }) := by
  unfold peek at h
  split at h
  next hp =>
    cases h
    rw [next, hp]
    rfl
  next hp =>
    split at h
    next hn =>
      cases h
      simp only [next, hp, hn, List.tail_cons]
    next => cases h

/-- A token that cannot be looked at cannot be taken either. -/
theorem next_of_peek_error {r s : Reader σ} {e : ReadError} (h : r.peek = (.error e, s)) :
    r.next = (.error e, s) := by
  unfold peek at h
  split at h
  next => cases h
  next hp =>
    split at h
    next => cases h
    next hn =>
      cases h
      simp only [next, hp, hn]

theorem tokens_next_eq (r : Reader σ) : r.next.2.tokens = r.peek.2.tokens := by
  rcases hp : r.peek with ⟨_ | t, s⟩
  · rw [next_of_peek_error hp]
  · rw [next_of_peek hp]

theorem left_next_le (r : Reader σ) : r.next.2.left ≤ r.left := by
  unfold next
  split
  next h => simp [left, h]
  next hp =>
    have := r.tokens.left_next_le
    split
    next h => simpa [left, hp, h] using this
    next h => simpa [left, hp, h] using this

/-- To take a token leaves less to be read. -/
theorem left_next_lt {r : Reader σ} {t : Token} (ht : r.next.1 = .ok t)
    (hne : t.lexeme ≠ .eof) : r.next.2.left < r.left := by
  unfold next at ht ⊢
  split at ht
  next h => simp [left, h]
  next hp =>
    split at ht
    next u tokens h =>
      have hlt := r.tokens.left_next_lt (t := u) (by rw [h]) (by cases ht; exact hne)
      simpa [left, hp, h] using hlt
    next => cases ht

def resume (r : Reader σ) : Except ReadError Datum × Reader σ :=
  match _h : r.next with
  | (.error e, s) => (.error e, s.giveBack)
  | (.ok t, s) =>
    match _hg : r.reading.take t with
    | .more reading => resume { s with reading }
    | .done d => (.ok d, s.settle)
    | .fail e => (.error e, s.giveBack)
termination_by r.left
decreasing_by
  have := left_next_lt (r := r) (by rw [_h]) (Reading.lexeme_ne_eof_of_more _hg)
  rwa [_h] at this

theorem resume_of_error {r s : Reader σ} {e : ReadError} (h : r.next = (.error e, s)) :
    resume r = (.error e, s.giveBack) := by
  rw [resume]
  split <;> simp_all

/-- One turn of the loop that reads an expression. -/
theorem resume_of_token {r s : Reader σ} {t : Token} (h : r.next = (.ok t, s)) :
    resume r =
      match r.reading.take t with
      | .more reading => resume { s with reading }
      | .done d => (.ok d, s.settle)
      | .fail e => (.error e, s.giveBack) := by
  rw [resume]
  split
  next h' => simp [h] at h'
  next h' =>
    obtain ⟨rfl, rfl⟩ : t = _ ∧ s = _ := by simpa [h] using h'
    split <;> simp_all

def read (r : Reader σ) : Except ReadError Datum × Reader σ := r.resume

def atEnd (r : Reader σ) : Except ReadError Bool × Reader σ :=
  match r.peek with
  | (.ok t, s) => (.ok (t.lexeme = .eof), s)
  | (.error e, s) => (.error e, s)

def read? (r : Reader σ) : Except ReadError (Option Datum) × Reader σ :=
  match r.atEnd with
  | (.error e, s) => (.error e, s)
  | (.ok true, s) => (.ok none, s)
  | (.ok false, s) =>
    match s.read with
    | (.error e, s') => (.error e, s')
    | (.ok d, s') => (.ok (some d), s')

/-- Nothing is left on the current line. -/
def atLineEnd (r : Reader σ) : Bool := r.pending.isEmpty && r.tokens.atLineEnd

/-- Give up the rest of the current line and every token that is kept. -/
def skipLine (r : Reader σ) : Reader σ := { tokens := r.tokens.skipLine }

/-- The next expression of a console line. Text that follows on the same line is an error, at the
place of its first token or of what is wrong with it. -/
def readLine? (r : Reader σ) : Except Error (Option Datum) × Reader σ :=
  match r.read? with
  | (.error e, s) => (.error (e.map .read), s)
  | (.ok none, s) => (.ok none, s)
  | (.ok (some d), s) =>
    if s.atLineEnd then (.ok (some d), s)
    else
      match s.peek with
      | (.ok t, s') => (.error ⟨.trailingText, t.place⟩, s')
      | (.error e, s') => (.error ⟨.trailingText, e.place⟩, s')

end Reader
end Lisplet
