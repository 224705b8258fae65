import Lisplet.Proofs.Session.Kept
import Lisplet.Proofs.Session.Leftover
import Lisplet.Proofs.Token.Onward

/-!
A reader with more lines to come. An expression that is read is read just so if
more lines follow, and so is one that is given up at one of its tokens. Only the
end of input is not there any more: a reader that has come to it goes on with
the lines that follow.
-/
namespace Lisplet.Reader

def extend (r : Reader LineReader) (more : List Line) : Reader LineReader :=
  { r with tokens := r.tokens.extend more }

@[simp] theorem tokens_extend (r : Reader LineReader) (more : List Line) :
    (r.extend more).tokens = r.tokens.extend more := rfl
@[simp] theorem pending_extend (r : Reader LineReader) (more : List Line) :
    (r.extend more).pending = r.pending := rfl
@[simp] theorem reading_extend (r : Reader LineReader) (more : List Line) :
    (r.extend more).reading = r.reading := rfl
@[simp] theorem source_extend (r : Reader LineReader) (more : List Line) :
    (r.extend more).source = r.source.extend more := rfl

variable {r s : Reader LineReader} (more : List Line)

theorem Idle.extend (h : r.Idle) : (r.extend more).Idle := ⟨h.taken, h.reading⟩

/-- A token that ends before the lines do is the same if more lines follow. -/
theorem peek_extend {t : Token} (hends : EndsLine r.tokens.lineRest) (h : r.peek = (.ok t, s))
    (hne : t.lexeme ≠ .eof) : (r.extend more).peek = (.ok t, s.extend more) := by
  unfold peek at h ⊢
  rw [pending_extend]
  split at h
  next => cases h; rfl
  next =>
    split at h
    next u tokens hn =>
      cases h
      simp only [tokens_extend, TokenStream.next_extend more hends hn hne]
      rfl
    next => cases h

theorem next_extend {t : Token} (hends : EndsLine r.tokens.lineRest) (h : r.next = (.ok t, s))
    (hne : t.lexeme ≠ .eof) : (r.extend more).next = (.ok t, s.extend more) := by
  rcases hp : r.peek with ⟨_ | u, s'⟩
  · rw [next_of_peek_error hp] at h
    cases h
  · rw [next_of_peek hp] at h
    cases h
    rw [next_of_peek (peek_extend more hends hp hne)]
    rfl

theorem endsLine_peek (hends : EndsLine r.tokens.lineRest) : EndsLine r.peek.2.tokens.lineRest :=
  tokens_peek (P := fun ts => EndsLine ts.lineRest) (fun _ => TokenStream.endsLine_next) hends

theorem endsLine_next (hends : EndsLine r.tokens.lineRest) : EndsLine r.next.2.tokens.lineRest :=
  r.tokens_next_eq ▸ endsLine_peek hends

def NoToken (x : Except ReadError Token) : Prop := ∀ t, x = .ok t → t.lexeme = .eof

/-- More lines make no difference to an attempt to read an expression, unless it comes to the end
of input, or to what is no token, with tokens that are not a complete expression. The induction is
on the attempt. -/
theorem resume_extend (hends : EndsLine r.tokens.lineRest) :
    (r.extend more).resume = (r.resume.1, r.resume.2.extend more) ∨
      (∃ e, r.resume.1 = .error e) ∧ ∃ toks g x rest, NoToken x ∧
        Reading.feed (.more r.reading) toks = (.more g, []) ∧
        r.ahead = toks.map .ok ++ₛ .cons x rest := by
  fun_induction resume r with
  | case1 r e s h =>
    refine .inr ⟨⟨e, rfl⟩, [], r.reading, .error e, s.ahead, ?_, rfl, ahead_of_next h⟩
    rintro t ⟨⟩
  | case2 r t s h g hg ih =>
    have hne := Reading.lexeme_ne_eof_of_more hg
    have hends' := endsLine_next hends
    rw [h] at hends'
    obtain hsame | ⟨herror, toks, g', x, rest, hx, hfeed, hahead⟩ := ih hends'
    · left
      rw [resume_of_token (next_extend more hends h hne), reading_extend, hg]
      exact hsame
    · refine .inr ⟨herror, t :: toks, g', x, rest, hx, ?_, ?_⟩
      · rw [Reading.feed_more, hg]
        exact hfeed
      · rw [ahead_of_next h, List.map_cons, Stream'.cons_append_stream]
        exact congrArg (Stream'.cons (.ok t)) hahead
  | case3 r t s h d hd =>
    have hne := Reading.lexeme_ne_eof_of_done hd
    left
    rw [resume_of_token (next_extend more hends h hne), reading_extend, hd]
    rfl
  | case4 r t s h e he =>
    by_cases hne : t.lexeme = .eof
    · refine .inr ⟨⟨e, rfl⟩, [], r.reading, .ok t, s.ahead, ?_, rfl, ahead_of_next h⟩
      rintro _ ⟨⟩
      exact hne
    · left
      rw [resume_of_token (next_extend more hends h hne), reading_extend, he]
      rfl

/-- An expression that is read is the same with more lines. -/
theorem resume_extend_of_ok {d : Datum} (hends : EndsLine r.tokens.lineRest)
    (h : r.resume = (.ok d, s)) : (r.extend more).resume = (.ok d, s.extend more) := by
  obtain hsame | ⟨⟨e, he⟩, -⟩ := resume_extend more hends
  · rwa [h] at hsame
  · rw [h] at he
    cases he

/-- An expression that ends before the lines do is the same if more lines follow. -/
theorem read?_extend {d : Datum} (hends : EndsLine r.tokens.lineRest)
    (h : r.read? = (.ok (some d), s)) : (r.extend more).read? = (.ok (some d), s.extend more) := by
  unfold read? at h
  split at h
  next => cases h
  next => cases h
  next s' hend =>
    obtain ⟨t, hpeek, hne⟩ := atEnd_false hend
    have hpeek' := peek_extend more hends hpeek hne
    have hends' := endsLine_peek hends
    rw [hpeek] at hends'
    split at h
    next => cases h
    next d' s'' hread =>
      cases h
      have hread' : (s'.extend more).read = (.ok d, s.extend more) :=
        resume_extend_of_ok more hends' hread
      simp [read?, atEnd, hpeek', hne, hread']

/-- What is read next depends on the next token or error, and the stream after it, only. -/
theorem read?_congr {σ : Type} [Source σ] {r q : Reader σ} (hr : r.Idle) (hq : q.Idle)
    (hrp : r.pending = []) (hqp : q.pending = []) (h : r.tokens.next = q.tokens.next) :
    r.read? = q.read? := by
  have hpeek : r.peek = q.peek := by
    unfold peek
    simp only [hrp, hqp, h, hr.taken, hr.reading, hq.taken, hq.reading]
  rw [read?, read?, atEnd, atEnd, hpeek]

/-- Nothing is read only where the next token is the end of input. -/
theorem next_of_read?_none {σ : Type} [Source σ] {r s : Reader σ} (hr : r.pending = [])
    (h : r.read? = (.ok none, s)) :
    ∃ t, r.tokens.next = (.ok t, s.tokens) ∧ t.lexeme = .eof := by
  have hend : r.atEnd = (.ok true, s) := by
    unfold read? at h
    split at h
    next => cases h
    next => cases h; assumption
    next => split at h <;> cases h
  unfold atEnd peek at hend
  simp only [hr] at hend
  rcases hnext : r.tokens.next with ⟨x, us⟩
  rw [hnext] at hend
  cases x with
  | error e => cases hend
  | ok t =>
    simp only [Prod.mk.injEq, Except.ok.injEq, decide_eq_true_eq] at hend
    obtain ⟨heof, rfl⟩ := hend
    exact ⟨t, rfl, heof⟩

/-- Where input has ended, reading goes on with the lines that there are more. -/
theorem read?_extend_of_end (hready : r.Ready) (hidle : r.Idle) (h : r.read? = (.ok none, s)) :
    s.source.rest = [] ∧ s.source.feed = [] ∧
      (r.extend more).read? = (ofSource (s.source.extend more)).read? := by
  obtain ⟨t, hnext, heof⟩ := next_of_read?_none hready.pending h
  obtain ⟨hpull, -⟩ := TokenStream.pull?_of_eof (s := .gap) (congrArg Prod.fst hnext) heof
  rw [show TokenStream.scan .gap r.tokens = (.ok t, s.tokens) from hnext] at hpull
  have hheld : s.tokens.held = none := TokenStream.held_of_end hpull
  obtain ⟨hrest, hfeed⟩ := TokenStream.rest_of_end hpull
  refine ⟨hrest, hfeed, read?_congr (hidle.extend more) (idle_ofSource _) hready.pending rfl ?_⟩
  have hsource : (ofSource (s.source.extend more)).tokens = s.tokens.extend more := by
    simp [ofSource, TokenStream.extend, Reader.source, hheld]
  rw [hsource]
  exact TokenStream.next_extend_of_eof more hready.line hnext heof

end Lisplet.Reader
