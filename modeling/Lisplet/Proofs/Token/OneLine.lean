import Lisplet.Proofs.Grammar.Derives
import Lisplet.Proofs.Text.Lines
import Lisplet.Proofs.Token.Drained
import Lisplet.Proofs.Token.LineEnd
import Lisplet.Proofs.Token.Relocate

/-!
A line by itself and the same line among others. Its tokens are the same, up to
their places: what is left of the line before it is a gap, and what comes later
is not looked at before the line is used up. Only a line feed inside a line
makes a difference to columns, as it ends no line when lines are fed one by one.
-/
namespace Lisplet

namespace LineReader

/-- The line alone, with these lines above it that have been read. -/
def below (above : List String) (line : String) : LineReader :=
  { read := (above.map Line.ofString).toArray, feed := [Line.ofString line] }

/-- The same lines that have been read and are to come, and nothing left of the current one. -/
def anew (r : LineReader) : LineReader := { read := r.read, feed := r.feed }

theorem chars_below (above : List String) (line : String) :
    (Source.chars (below above line)).map Prod.fst = completed line := by
  rw [LineReader.chars_eq, below, List.nil_append, List.flatMap_singleton, Line.chars_ofString]

end LineReader

theorem Scan.run_comment {body : List (Char × Place)} (h : ∀ x ∈ body, x.1 ≠ '\n') (q : Place)
    (cs : List (Char × Place)) :
    Scan.comment.run (body ++ ('\n', q) :: cs) = Scan.gap.run cs := by
  induction body with
  | nil => rfl
  | cons x body ih =>
    rw [List.forall_mem_cons] at h
    have hstep : Scan.comment.step x.1 x.2 = .go .comment := by simp [step, h.1]
    rw [List.cons_append, run_go hstep, ih h.2]

/-- A scan comes through a gap as it was. -/
theorem Gap.run {cs : List (Char × Place)} (h : Gap cs) : Scan.gap.run cs = .inl .gap := by
  induction h with
  | nil => rfl
  | @blank c p cs hc _ ih =>
    have hstep : Scan.gap.step c p = .go .gap := by simp [Scan.step, hc]
    rw [Scan.run_go hstep, ih]
  | @comment p q body cs hbody _ ih =>
    have hstep : Scan.gap.step ';' p = .go .comment := rfl
    rw [Scan.run_go hstep, Scan.run_comment hbody, ih]

namespace TokenStream

/-- At the end of a line the next character is the first one of the line that is fed next. -/
theorem scan_anew_of_lineRest {ts : TokenStream LineReader} (hrest : ts.lineRest = [])
    (hfeed : ts.source.feed ≠ []) (s : Scan) : scan s ts = scan s { source := ts.source.anew } := by
  have hheld : ts.held = none := by
    simpa using (List.append_eq_nil_iff.1 hrest).1
  have hsource : ts.source.rest = [] := by
    have hplaced := congrArg (List.map Prod.fst) (List.append_eq_nil_iff.1 hrest).2
    simpa [LineReader.lineRest] using hplaced
  obtain ⟨line, feed, heq⟩ := List.exists_cons_of_ne_nil hfeed
  have hpull : ts.pull? = ({ source := ts.source.anew } : TokenStream LineReader).pull? := by
    have hnext : Source.next? ts.source = Source.next? ts.source.anew := by
      change ts.source.next? = ts.source.anew.next?
      simp [LineReader.next?, LineReader.anew, hsource, heq]
    have hplace : Source.place ts.source = Source.place ts.source.anew := by
      change ts.source.place = ts.source.anew.place
      simp [LineReader.place, LineReader.anew, hsource]
    simp [pull?, hheld, hnext, hplace]
  rcases hx : ts.pull? with _ | ⟨c, p, ts'⟩
  · exact absurd (pull?_eq_none hx).2 hfeed
  · rw [scan_of_char hx, scan_of_char (hpull ▸ hx)]

/-- A scan that is between two tokens at the end of the line goes on with the next line. The
induction is on the rest of the line. -/
theorem scan_anew_of_run {ts : TokenStream LineReader} {s : Scan}
    (hrun : s.run ts.lineRest = .inl .gap) (hfeed : ts.source.feed ≠ []) :
    scan s ts = scan .gap { source := ts.source.anew } := by
  generalize hcs : ts.lineRest = cs at hrun
  induction cs generalizing ts s with
  | nil =>
    cases hrun
    exact scan_anew_of_lineRest hcs hfeed .gap
  | cons x cs ih =>
    rcases hpull : ts.pull? with _ | ⟨c, p, ts'⟩
    · rw [(pull?_eq_none hpull).1] at hcs
      cases hcs
    obtain ⟨hrest, htakes⟩ | ⟨line, hrest, -⟩ := pull?_cases hpull
    · rw [hrest] at hcs
      obtain ⟨rfl, hcs'⟩ := List.cons.inj hcs
      obtain ⟨next, hstep, hnext⟩ := Scan.go_of_run hrun
      have hread : ts'.source.read = ts.source.read :=
        Array.toList_inj.1 (by rw [htakes.read, List.append_nil])
      have hfeed' : ts.source.feed = ts'.source.feed := htakes.feed
      have hanew : ts'.source.anew = ts.source.anew := by
        rw [LineReader.anew, LineReader.anew, hread, hfeed']
      rw [scan_of_char hpull, hstep, ← hanew]
      exact ih (hfeed' ▸ hfeed) hcs' hnext
    · rw [hrest] at hcs
      cases hcs

/-- Behind a gap at the end of a line, the next token is that of the lines that are fed next. -/
theorem next_anew {ts : TokenStream LineReader} (hgap : Gap ts.lineRest)
    (hfeed : ts.source.feed ≠ []) : ts.next = next { source := ts.source.anew } :=
  scan_anew_of_run hgap.run hfeed

theorem drain_of_gap {σ : Type} [Source σ] {ts : TokenStream σ} (h : Gap ts.chars) :
    ts.drain = [.ok ⟨.eof, ts.endPlace⟩] :=
  drain_of_eof (Prod.ext (next_eof_of_gap h) rfl) rfl

variable {σ τ : Type} [Source σ] [Source τ] {f : Place → Place} {ts : TokenStream σ}
  {us : TokenStream τ}

def SamePlaced (f : Place → Place) (x y : Char × Place) : Prop := x.1 = y.1 ∧ f x.2 = f y.2

structure CharsAlike (f : Place → Place) (ts : TokenStream σ) (us : TokenStream τ) : Prop where
  chars : List.Forall₂ (SamePlaced f) ts.chars us.chars
  final : f ts.endPlace = f us.endPlace

/-- Equal characters at places that are moved to one are scanned alike. -/
theorem consume_alike {cs ds : List (Char × Place)} (h : List.Forall₂ (SamePlaced f) cs ds)
    {p q : Place} (hpq : f p = f q) {s s' : Scan} (hs : s.relocate f = s'.relocate f) :
    ScansAlike f (s.consume p cs).1 (s'.consume q ds).1 ∧
      List.Forall₂ (SamePlaced f) (s.consume p cs).2 (s'.consume q ds).2 := by
  induction h generalizing s s' with
  | nil => exact ⟨Scan.finish_alike f hs hpq, .nil⟩
  | @cons x y cs ds hxy hcs ih =>
    obtain ⟨⟨c, place⟩, ⟨c', place'⟩⟩ := x, y
    obtain ⟨rfl, hplace⟩ : c = c' ∧ f place = f place' := hxy
    have hmove := Scan.step_alike f hs c hplace
    simp only [Scan.consume]
    generalize s.step c place = m at hmove ⊢
    generalize s'.step c place' = m' at hmove ⊢
    cases hmove with
    | go hnext => exact ih hnext
    | done htu => exact ⟨.ok htu, hcs⟩
    | hold htu => exact ⟨.ok htu, .cons ⟨rfl, hplace⟩ hcs⟩
    | fail hwhat hplaces => exact ⟨.error ⟨hwhat, hplaces⟩, hcs⟩

theorem keepsAlike_charsAlike (f : Place → Place) :
    KeepsAlike f (CharsAlike f : TokenStream σ → TokenStream τ → Prop) := by
  intro ts us h
  obtain ⟨hts, hfinal⟩ := scan_eq_consume .gap ts
  obtain ⟨hus, hfinal'⟩ := scan_eq_consume .gap us
  have halike := consume_alike h.chars h.final (s := .gap) rfl
  rw [hts, hus] at halike
  refine ⟨halike.1, halike.2, ?_⟩
  rw [next, next, hfinal, hfinal']
  exact h.final

/-- Streams that stay alike as they yield tokens and errors are drained alike. -/
theorem drainAlike_of_keepsAlike {T : TokenStream σ → TokenStream τ → Prop} (hT : KeepsAlike f T)
    (h : T ts us) : DrainAlike f ts us := by
  unfold DrainAlike
  fun_induction drain ts generalizing us with
  | case1 ts e ts' hnext ih =>
    obtain ⟨hanswer, hafter⟩ := hT h
    rcases hnext' : us.next with ⟨y, us'⟩
    rw [hnext, hnext'] at hanswer hafter
    cases hanswer with
    | error he =>
      rw [drain_of_error hnext']
      exact .cons (.error he) (ih hafter)
  | case2 ts t ts' hnext heof =>
    obtain ⟨hanswer, hafter⟩ := hT h
    rcases hnext' : us.next with ⟨y, us'⟩
    rw [hnext, hnext'] at hanswer
    cases hanswer with
    | ok htu =>
      rw [drain_of_eof hnext' ((congrArg Token.lexeme htu).symm.trans heof)]
      exact .cons (.ok htu) .nil
  | case3 ts t ts' hnext hne ih =>
    obtain ⟨hanswer, hafter⟩ := hT h
    rcases hnext' : us.next with ⟨y, us'⟩
    rw [hnext, hnext'] at hanswer hafter
    cases hanswer with
    | ok htu =>
      rw [drain_of_token hnext' fun heof => hne ((congrArg Token.lexeme htu).trans heof)]
      exact .cons (.ok htu) (ih hafter)

/-- A line is drained alike as a text and below other lines: up to all places, or up to the numbers
of lines if it has no line feed inside. -/
theorem drainAlike_below (hf : KeepsColumns f) (above : List String) {line : String}
    (h : (∀ p q, f p = f q) ∨ '\n' ∉ line.toList.dropLast) :
    DrainAlike f ({ source := LineReader.ofText line } : TokenStream LineReader)
      ({ source := LineReader.below above line } : TokenStream LineReader) := by
  by_cases hempty : line = ""
  · -- there is no line in the empty text, but a line feed when it is fed as a line
    subst hempty
    have hgap : Gap ({ source := LineReader.below above "" } : TokenStream LineReader).chars := by
      rw [chars_eq_lineRest]
      exact gap_singleton (by decide : Text.isBlank '\n' = true)
    have hgap' : Gap ({ source := LineReader.ofText "" } : TokenStream LineReader).chars := by
      rw [chars_eq_lineRest]
      exact .nil
    unfold DrainAlike
    rw [drain_of_gap hgap, drain_of_gap hgap']
    refine .cons (.ok (congrArg (Token.mk .eof) (hf _ _ ?_))) .nil
    rw [endPlace, endPlace, LineReader.endPlace_eq, LineReader.endPlace_eq]
  obtain hall | hinner := h
  · refine drainAlike_of_keepsAlike (keepsAlike_charsAlike f) ⟨?_, hall _ _⟩
    have hchars : (Source.chars (LineReader.ofText line)).map Prod.fst =
        (Source.chars (LineReader.below above line)).map Prod.fst := by
      rw [LineReader.chars_ofText_eq hempty, LineReader.chars_below]
    rw [← List.forall₂_eq_eq_eq, List.forall₂_map_left_iff, List.forall₂_map_right_iff] at hchars
    exact hchars.imp fun x y hxy => ⟨hxy, hall _ _⟩
  · refine drainAlike_of_keepsAlike (keepsLines_linesAlike hf).next ⟨rfl, rfl, fun hne => ?_, ?_⟩
    · exact absurd rfl hne
    · exact splitLines_eq_singleton hempty hinner

def OneExpr (ts : TokenStream σ) : Prop :=
  ∃ toks final, ts.drain = (toks ++ [(⟨.eof, final⟩ : Token)]).map .ok ∧
    (toks = [] ∨ ∃ n, Derives .expr n (toks.map Token.lexeme))

/-- Streams that are drained alike yield the same lexemes. -/
theorem DrainAlike.tokens (h : DrainAlike f ts us) {toks : List Token}
    (hts : ts.drain = toks.map .ok) :
    ∃ toks' : List Token, us.drain = toks'.map .ok ∧
      toks.map Token.lexeme = toks'.map Token.lexeme := by
  unfold DrainAlike at h
  rw [hts] at h
  generalize us.drain = ys at h
  clear hts
  induction toks generalizing ys with
  | nil =>
    cases h
    exact ⟨[], rfl, rfl⟩
  | cons t toks ih =>
    cases h with
    | cons hfirst hrest =>
      cases hfirst with
      | @ok _ u htu =>
        obtain ⟨toks', rfl, hlexemes⟩ := ih _ hrest
        have hlexeme : (t.relocate f).lexeme = (u.relocate f).lexeme := by rw [htu]
        simp only [Token.lexeme_relocate] at hlexeme
        exact ⟨u :: toks', rfl, by rw [List.map_cons, List.map_cons, hlexeme, hlexemes]⟩

theorem OneExpr.alike (h : ts.OneExpr) (halike : DrainAlike f ts us) : us.OneExpr := by
  obtain ⟨toks, final, hdrain, hone⟩ := h
  obtain ⟨toks', hdrain', hlexemes⟩ := halike.tokens hdrain
  rw [List.map_append] at hlexemes
  obtain ⟨us', vs, rfl, hus, hvs⟩ := List.map_eq_append_iff.1 hlexemes.symm
  obtain ⟨⟨l, final'⟩, rfl, rfl⟩ := List.map_eq_singleton_iff.1 hvs
  refine ⟨us', final', hdrain', ?_⟩
  obtain rfl | ⟨n, hn⟩ := hone
  · exact .inl (List.map_eq_nil_iff.1 hus)
  · exact .inr ⟨n, by rwa [hus]⟩

end TokenStream
end Lisplet
