import Lisplet.Proofs.Reader.Language
import Lisplet.Proofs.Session.Kept
import Lisplet.Proofs.Session.LineEnd
import Lisplet.Proofs.Token.Extent

/-!
How far the console has read when it evaluates an expression: to the end of the
line that the expression ends on, and no further. The tokens taken from the
stream are those of the expression, so the line taken last from the feed is the
one on which the last of them ends.
-/
namespace Lisplet

namespace Reader

variable {σ : Type} [Source σ] {ts : TokenStream σ} {r s : Reader σ}

/-- The tokens that were taken from the stream `ts` and are not used up are those taken for the
expression in progress and those that are pending. -/
def Has (ts : TokenStream σ) (r : Reader σ) : Prop :=
  ts.Yields (r.taken.reverse ++ r.pending) r.tokens

theorem Has.next {t : Token} (h : r.Has ts) (hnext : r.next = (.ok t, s)) : s.Has ts := by
  unfold Reader.next at hnext
  split at hnext
  next u pending hp =>
    cases hnext
    simpa [Has, hp] using h
  next hp =>
    split at hnext
    next u tokens hu =>
      cases hnext
      simp only [Has, hp, List.append_nil, List.reverse_cons] at h ⊢
      exact h.concat hu
    next => cases hnext

theorem Has.peek {t : Token} (h : r.Has ts) (hidle : r.Idle) (hpeek : r.peek = (.ok t, s)) :
    s.Has ts := by
  unfold Reader.peek at hpeek
  split at hpeek
  next => cases hpeek; exact h
  next hp =>
    split at hpeek
    next u tokens hu =>
      cases hpeek
      simp only [Has, hp, hidle.taken, List.reverse_nil, List.nil_append] at h ⊢
      exact h.concat hu
    next => cases hpeek

/-- The tokens of an expression that is read, and those that are pending behind it, were taken from
the stream. -/
theorem Has.resume {d : Datum} (h : r.Has ts) (hr : Reading.Reached r.reading r.taken.reverse)
    (hresume : r.resume = (.ok d, s)) :
    ∃ n toks, Spells n toks d ∧ ts.Yields (toks ++ s.pending) s.tokens := by
  fun_induction Reader.resume r with
  | case1 => cases hresume
  | case2 r t r' hnext g hg ih =>
    have hmove := Reading.take_follows hr t
    rw [hg] at hmove
    have htaken : r'.taken.reverse = r.taken.reverse ++ [t] := by simp [(next_ok hnext).1]
    have hhas : r'.Has ts := h.next hnext
    exact ih hhas (by rw [htaken]; exact hmove) hresume
  | case3 r t r' hnext e he =>
    cases hresume
    have hmove := Reading.take_follows hr t
    rw [he] at hmove
    obtain ⟨n, -, hspells⟩ := hmove
    have htaken : r'.taken.reverse = r.taken.reverse ++ [t] := by simp [(next_ok hnext).1]
    exact ⟨n, r'.taken.reverse, by rwa [htaken], h.next hnext⟩
  | case4 => cases hresume

/-- An idle reader takes from its stream the tokens of the expression that it reads. -/
theorem yields_read? {d : Datum} (hidle : r.Idle) (hr : r.pending = [])
    (h : r.read? = (.ok (some d), s)) : ∃ n toks, Spells n toks d ∧ r.tokens.Yields toks s.tokens := by
  have hpending := pending_read? hr h
  have hhas : r.Has r.tokens := by
    simp only [Has, hidle.taken, hr, List.reverse_nil, List.append_nil]
    exact .nil
  unfold read? at h
  split at h
  next => cases h
  next => cases h
  next s' hend =>
    obtain ⟨t, hpeek, -⟩ := atEnd_false hend
    have hidle' := idle_peek hidle
    rw [hpeek] at hidle'
    split at h
    next => cases h
    next d' s'' hread =>
      cases h
      have hreached : Reading.Reached s'.reading s'.taken.reverse := by
        rw [hidle'.reading, hidle'.taken]
        exact Reading.reached_start
      obtain ⟨n, toks, hspells, hyields⟩ := (hhas.peek hidle hpeek).resume hreached hread
      rw [hpending, List.append_nil] at hyields
      exact ⟨n, toks, hspells, hyields⟩

end Reader

theorem Spells.ne_nil {n : Nat} {ts : List Token} {d : Datum} (h : Spells n ts d) : ts ≠ [] := by
  cases h <;> simp

theorem Spells.ne_eof {n : Nat} {ts : List Token} {d : Datum} (h : Spells n ts d) {t : Token}
    (ht : t ∈ ts) : t.lexeme ≠ .eof := by
  intro heof
  have hmem : Lexeme.eof ∈ ts.map Token.lexeme := heof ▸ List.mem_map_of_mem ht
  exact h.derives.1.eof_not_mem hmem

namespace TokenStream

theorem chars_scan_suffix {σ : Type} [Source σ] (s : Scan) (ts : TokenStream σ) :
    (scan s ts).2.chars <:+ ts.chars := by
  fun_induction scan s ts with
  | case1 s ts h => exact List.suffix_refl _
  | case2 s ts c place ts' h next hstep ih =>
    rw [(chars_of_char h).1]
    exact ih.trans (List.suffix_cons _ _)
  | case3 s ts c place ts' h | case5 s ts c place ts' h =>
    rw [(chars_of_char h).1]
    exact List.suffix_cons _ _
  | case4 s ts c place ts' h =>
    rw [(chars_of_char h).1, chars, chars, held_pull? h]
    exact List.suffix_refl _

variable {ts us : TokenStream LineReader}

theorem Reaches.after (h : ts.Reaches us) (hts : After [] ts) : After [] us := by
  induction h with
  | refl => exact hts
  | @next us _ ih => exact after_scan (s := .gap) ih
  | skipLine => exact after_of_lineRest rfl

theorem Reaches.takes (h : ts.Reaches us) : ∃ taken, ts.source.Takes taken us.source := by
  induction h with
  | refl => exact ⟨[], .refl _⟩
  | @next us _ ih =>
    obtain ⟨taken, htaken⟩ := ih
    obtain ⟨taken', htaken'⟩ := takes_scan .gap us
    exact ⟨taken ++ taken', htaken.trans htaken'⟩
  | skipLine _ ih =>
    obtain ⟨taken, htaken⟩ := ih
    exact ⟨taken, htaken.read, htaken.feed⟩

/-- The lines that have been taken are the first ones of the feed, and the others are still there. -/
theorem Reaches.lines {lines : List String}
    (h : Reaches { source := LineReader.ofLines lines } us) :
    us.source.read.toList = (lines.map Line.ofString).take us.source.read.size ∧
      us.source.feed = (lines.map Line.ofString).drop us.source.read.size := by
  obtain ⟨taken, htaken⟩ := h.takes
  have hread : us.source.read.toList = taken := htaken.read
  have hfeed : lines.map Line.ofString = taken ++ us.source.feed := htaken.feed
  rw [hfeed, ← Array.length_toList, hread, List.take_left, List.drop_left]
  exact ⟨rfl, rfl⟩

theorem Reaches.size_le {lines : List String}
    (h : Reaches { source := LineReader.ofLines lines } us) :
    us.source.read.size ≤ lines.length := by
  have hlength := congrArg List.length h.lines.1
  rw [Array.length_toList, List.length_take, List.length_map] at hlength
  omega

/-- Once the current line is used up, what is left are the other lines. -/
theorem Reaches.chars_of_lineRest {lines : List String}
    (h : Reaches { source := LineReader.ofLines lines } us) (hrest : us.lineRest = []) :
    us.chars =
      placedLines us.source.read.size ((lines.drop us.source.read.size).map completed) := by
  rw [chars_eq_lineRest, hrest, h.lines.2, ← List.map_drop, List.map_map]
  simp only [Function.comp_def, Line.chars_ofString, List.nil_append]

theorem Reaches.chars_suffix (h : ts.Reaches us) : us.chars <:+ ts.chars := by
  induction h with
  | refl => exact List.suffix_refl _
  | @next us _ ih => exact (chars_scan_suffix .gap us).trans ih
  | @skipLine us _ ih =>
    refine List.IsSuffix.trans ⟨us.lineRest, ?_⟩ ih
    rw [chars_eq_lineRest, chars_eq_lineRest]
    rfl

end TokenStream

namespace Session

theorem idle_turn? {σ : Type} [Source σ] {s s' : Session} {r r' : Reader σ} {text : String}
    (h : r.Idle) (hturn : s.turn? r = some (text, s', r')) : r'.Idle := by
  have hline := (Reader.settles_readLine? h).idle
  unfold turn? at hturn
  split at hturn
  next => cases hturn
  next => cases hturn; exact ⟨rfl, rfl⟩
  next hq =>
    rw [hq] at hline
    split at hturn
    next => cases hturn; exact hline
    next => cases hturn; exact ⟨rfl, rfl⟩

theorem Turns.idle {σ : Type} [Source σ] {s t : Session} {r q : Reader σ} (h : Turns s r t q)
    (hr : r.Idle) : q.Idle := by
  induction h with
  | none => exact hr
  | turn _ hturn ih => exact idle_turn? ih hturn

/-- Wherever the console has come with its lines, when it goes on to evaluate an expression no token
is pending. The characters that were left have been taken up to `c`, where the last token of the
expression ends, and the lines taken from the feed are those up to the one with this character. -/
theorem readLine?_reads_no_further {s t : Session} {lines : List String}
    {r r' : Reader LineReader} {d : Datum}
    (hturns : Turns s (Reader.ofSource (LineReader.ofLines lines)) t r)
    (h : r.readLine? = (.ok (some d), r')) :
    r'.pending = [] ∧ ∃ n toks before cs c p after,
      Spells n toks d ∧ r.tokens.Yields toks r'.tokens ∧
      TokenStream.Extents (cs ++ [(c, p)]) toks ∧
      placedLines 0 (lines.map completed) = before ++ r.tokens.chars ∧
      r.tokens.chars = cs ++ (c, p) :: after ∧
      r'.source.read.size = p.line + 1 ∧
      r'.source.read.toList = (lines.map Line.ofString).take (p.line + 1) ∧
      r'.source.feed = (lines.map Line.ofString).drop (p.line + 1) := by
  obtain ⟨hread, -⟩ := Reader.readLine?_ok h
  have hpending : r.pending = [] := (hturns.ready (Reader.ready_ofSource rfl)).pending
  have hreaches := hturns.reaches
  have hreaches' := Reader.reaches_read? hreaches
  rw [hread] at hreaches'
  obtain ⟨n, toks, hspells, hyields⟩ :=
    Reader.yields_read? (hturns.idle (Reader.idle_ofSource _)) hpending hread
  have hafter := hreaches.after (TokenStream.after_of_lineRest rfl)
  obtain ⟨-, cs, blank, hchars, -, hextents, hlast⟩ :=
    TokenStream.extents_of_yields hafter hyields fun t ht => hspells.ne_eof ht
  obtain rfl | ⟨cs, ⟨c, p⟩, rfl⟩ := List.eq_nil_or_concat cs
  · exact absurd rfl (hextents.ne_nil hspells.ne_nil)
  rw [List.concat_eq_append] at hchars hextents hlast
  have hsize : r'.source.read.size = p.line + 1 := (hlast (c, p) List.getLast?_concat).symm
  obtain ⟨before, hbefore⟩ := hreaches.chars_suffix
  have hlines : r'.source.read.toList = (lines.map Line.ofString).take r'.source.read.size ∧
      r'.source.feed = (lines.map Line.ofString).drop r'.source.read.size := hreaches'.lines
  rw [hsize] at hlines
  refine ⟨Reader.pending_read? hpending hread, n, toks, before, cs, c, p, blank ++ r'.tokens.chars,
    hspells, hyields, hextents, ?_, by rw [hchars]; simp, hsize, hlines⟩
  rw [hbefore]
  exact (LineReader.chars_ofLines lines).symm

/-- A list goes over two lines, and the third line is still in the feed when it is evaluated. -/
theorem readLine?_reads_no_further_list :
    let r := Reader.ofSource (LineReader.ofLines ["(! ", " true) ; yes", "false"])
    ∃ d r' n toks cs c p, r.readLine? = (.ok (some d), r') ∧ r'.pending = [] ∧ Spells n toks d ∧
      TokenStream.Extents (cs ++ [(c, p)]) toks ∧ p.line = 1 ∧ r'.source.feed = [⟨"false".toList⟩] := by
  intro r
  obtain ⟨d, r', hread⟩ := Reader.exists_of_read? (r := r) (by decide +kernel)
  have hend : r.read?.2.atLineEnd = true := by decide +kernel
  have hsize : r.read?.2.source.read.size = 2 := by decide +kernel
  rw [hread] at hend hsize
  have hline : r.readLine? = (.ok (some d), r') := (readLine?_iff_atLineEnd hread).2 hend
  obtain ⟨hpending, n, toks, -, cs, c, p, -, hspells, -, hextents, -, -, hlines, -, hfeed⟩ :=
    readLine?_reads_no_further (s := fresh) (t := fresh) .none hline
  have hp : p.line = 1 := Nat.succ.inj (hlines.symm.trans hsize)
  refine ⟨d, r', n, toks, cs, c, p, hline, hpending, hspells, hextents, hp, ?_⟩
  rw [hfeed, hp]
  decide

end Session
end Lisplet
