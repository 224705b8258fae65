import Lisplet.Proofs.Reader.Onward
import Lisplet.Proofs.Reading.Completes
import Lisplet.Proofs.Session.ReadAhead
import Lisplet.Proofs.Token.OneLine

/-!
A reader that comes to a line with one expression on it. The expression is read,
or the attempt fails, without a look at the lines that follow: its tokens are
never the beginning of a longer one. And when it has been read, only a gap is
left of the line.
-/
namespace Lisplet

namespace Reader

variable {r s : Reader LineReader} {toks : List Token} {final : Place}
  {rest : Stream' (Except ReadError Token)} {n : Nat}

/-- What is read is spelled by the tokens that are no longer ahead. -/
theorem spells_read? {σ : Type} [Source σ] {r s : Reader σ} {d : Datum} (hidle : r.Idle)
    (h : r.read? = (.ok (some d), s)) :
    ∃ n us, Spells n us d ∧ r.ahead = us.map .ok ++ₛ s.ahead := by
  unfold read? at h
  split at h
  next => cases h
  next => cases h
  next q hend =>
    have hidle' := idle_atEnd hidle
    rw [hend] at hidle'
    obtain ⟨t, hpeek, -⟩ := atEnd_false hend
    have hends := ends_read hidle'
    split at h
    next => cases h
    next hread =>
      cases h
      rw [hread] at hends
      obtain ⟨-, n, -, us, hspells, hahead⟩ := hends
      exact ⟨n, us, hspells, (ahead_of_peek hpeek).1.symm.trans hahead⟩

/-- An attempt that comes to the end of input with the tokens of an expression would have to take
all of them, and is over before that. -/
theorem feed_ne_more (h : Derives .expr n (toks.map Token.lexeme)) {toks' : List Token}
    {g : Reading} {x : Except ReadError Token} {rest' : Stream' (Except ReadError Token)}
    (hx : NoToken x)
    (hahead : toks.map .ok ++ₛ .cons (.ok ⟨.eof, final⟩) rest = toks'.map .ok ++ₛ .cons x rest') :
    Reading.feed (.more .start) toks' ≠ (.more g, []) := by
  intro hfeed
  obtain ⟨ws, hws, hreached⟩ :=
    Reading.feed_follows (m := .more .start) Reading.reached_start hfeed
  obtain rfl : ws = toks' := by simpa using hws.symm
  obtain ⟨m, more, -, hm⟩ := Reading.Reached.completable hreached
  have hne : (⟨.eof, final⟩ : Token) ∉ ws := fun hmem =>
    hm.eof_not_mem (List.mem_append_left _ (List.mem_map_of_mem hmem))
  obtain ⟨vs, rfl⟩ := prefix_of_append_stream hne hahead
  rw [List.map_append, Stream'.append_append_stream] at hahead
  have hvs := Stream'.append_right_injective _ _ _ hahead
  cases vs with
  | nil =>
    rw [List.append_nil] at h
    exact Reading.feed_ne_more_of_derives h hfeed
  | cons v vs =>
    rw [List.map_cons, Stream'.cons_append_stream] at hvs
    obtain ⟨hv, -⟩ := Stream'.cons_injective2 hvs
    exact h.eof_not_mem (List.mem_map.2 ⟨v, by simp, hx v hv.symm⟩)

section OneExpr

variable (hidle : r.Idle) (hpending : r.pending = []) (hends : EndsLine r.tokens.lineRest)
  (hahead : r.ahead = toks.map .ok ++ₛ .cons (.ok ⟨.eof, final⟩) rest)
  (h : Derives .expr n (toks.map Token.lexeme))

include hidle hends hahead h in
/-- With the tokens of one expression ahead, the same is read if there are more lines. -/
theorem read?_extend_of_derives (more : List Line) :
    (r.extend more).read? = (r.read?.1, r.read?.2.extend more) := by
  rcases hpeek : r.peek with ⟨x, s⟩
  cases toks with
  | nil => cases h
  | cons t toks =>
    rw [List.map_cons, Stream'.cons_append_stream] at hahead
    cases x with
    | error e =>
      rw [ahead_of_peek_error hpeek] at hahead
      obtain ⟨he, -⟩ := Stream'.cons_injective2 hahead
      cases he
    | ok u =>
      obtain ⟨hs, hhead⟩ := ahead_of_peek hpeek
      rw [hahead, Stream'.head_cons, Except.ok.injEq] at hhead
      subst hhead
      have hne : t.lexeme ≠ .eof := fun he => h.eof_not_mem (by simp [he])
      have hidle' := idle_peek hidle
      rw [hpeek] at hidle'
      have hends' := endsLine_peek hends
      rw [hpeek] at hends'
      have hread : (s.extend more).read = (s.read.1, s.read.2.extend more) := by
        obtain hsame | ⟨-, toks', g, x, rest', hx, hfeed, hahead'⟩ := resume_extend more hends'
        · exact hsame
        · rw [hidle'.reading] at hfeed
          rw [hs, hahead, ← Stream'.cons_append_stream, ← List.map_cons] at hahead'
          exact absurd hfeed (feed_ne_more h hx hahead')
      simp only [read?, atEnd, hpeek, peek_extend more hends hpeek hne, hne, decide_false, hread]
      rcases s.read with ⟨_ | d, s'⟩ <;> rfl

include hidle hpending hends hahead h in
/-- Behind the expression there is no other token, so what is left of the line is a gap. -/
theorem gap_of_read? {d : Datum} (hread : r.read? = (.ok (some d), s)) : Gap s.tokens.lineRest := by
  obtain ⟨m, us, hspells, hus⟩ := spells_read? hidle hread
  have hne : (⟨.eof, final⟩ : Token) ∉ us := fun hmem => hspells.ne_eof hmem rfl
  rw [hahead] at hus
  obtain ⟨heq, -⟩ := hspells.derives.1.eq_of_begins h
    ((prefix_of_append_stream hne hus).map Token.lexeme)
  obtain ⟨vs, rfl⟩ := prefix_of_append_stream hne hus
  obtain rfl : vs = [] := by simpa using heq
  rw [List.append_nil] at hus
  have hafter : s.ahead = .cons (.ok ⟨.eof, final⟩) rest :=
    (Stream'.append_right_injective _ _ _ hus).symm
  have hnext : s.tokens.next.1 = .ok ⟨.eof, final⟩ := by
    rcases hs : s.next with ⟨x, q⟩
    have hx := ahead_of_next hs
    rw [hafter] at hx
    obtain ⟨rfl, -⟩ := Stream'.cons_injective2 hx
    simp only [Reader.next, pending_read? hpending hread] at hs
    split at hs
    next hn => cases hs; rw [hn]
    next => cases hs
  have hends' := tokens_read? (P := fun ts => EndsLine ts.lineRest)
    (fun _ => TokenStream.endsLine_next) hends
  rw [hread] at hends'
  refine Classical.not_not.1 fun hgap => ?_
  obtain ⟨gap, c, p, after, -, -, hstarts⟩ := TokenStream.next_of_not_gap hends' hgap
  rw [hnext] at hstarts
  exact hstarts.2 rfl

end OneExpr

/-- Looking at the next token takes at least one line, if nothing is left of the current one. -/
theorem takes_of_peek (hpending : r.pending = []) (hrest : r.tokens.lineRest = [])
    (hfeed : r.source.feed ≠ []) :
    ∃ line lines, r.source.Takes (line :: lines) r.peek.2.source := by
  have hrun : Scan.gap.run r.tokens.lineRest = .inl .gap := by rw [hrest]; rfl
  have htakes : ∃ line lines, r.source.Takes (line :: lines) r.tokens.next.2.source :=
    TokenStream.scan_of_run_go hrun hfeed
  unfold peek
  simp only [hpending]
  split <;> next hn => rwa [hn] at htakes

/-- With nothing left of the current line, reading takes a line from the feed. -/
theorem takes_of_read? (hpending : r.pending = []) (hrest : r.tokens.lineRest = [])
    (hfeed : r.source.feed ≠ []) :
    ∃ line lines, r.source.Takes (line :: lines) r.read?.2.source := by
  have hend : ∃ line lines, r.source.Takes (line :: lines) r.atEnd.2.source := by
    have hpeek := takes_of_peek hpending hrest hfeed
    unfold atEnd
    split <;> next hp => rwa [hp] at hpeek
  unfold read?
  split
  next he => rwa [he] at hend
  next he => rwa [he] at hend
  next s he =>
    rw [he] at hend
    have hread : ∃ line lines, r.source.Takes (line :: lines) s.read.2.source :=
      tokens_resume (P := fun ts => ∃ line lines, r.source.Takes (line :: lines) ts.source)
        (fun ts ⟨line, lines, htakes⟩ => by
          obtain ⟨lines', htakes'⟩ := TokenStream.takes_scan .gap ts
          exact ⟨line, lines ++ lines', htakes.trans htakes'⟩) hend
    split <;> next hr => rwa [hr] at hread

end Reader
end Lisplet
