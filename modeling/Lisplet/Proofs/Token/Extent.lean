import Lisplet.Proofs.Token.Gap
import Lisplet.Proofs.Token.InLine
import Mathlib.Data.List.Basic

/-!
How far the text of a token goes. The characters that a scan has taken are a gap
and then the text of its token, as far as it has come. A word alone is followed
by one more character, which is on the same line because no word contains a line
feed. So when a token is complete, the line taken last from the feed is the one
that the last character of the token is on.
-/
namespace Lisplet

inductive TokenText : List (Char × Place) → Token → Prop where
  | punctuation {c : Char} {p : Place} {l : Lexeme} :
      Lexeme.ofPunctuation? c = some l → TokenText [(c, p)] ⟨l, p⟩
  | word {c : Char} {p : Place} {l : Lexeme} {w : List (Char × Place)} :
      startsWord c = true → (∀ x ∈ w, inWord x.1 = true) → Classifies (c :: w.map Prod.fst) l →
      TokenText ((c, p) :: w) ⟨l, p⟩
  | string {p q : Place} {text : List Char} {body : List (Char × Place)} :
      Unescapes (body.map Prod.fst) text →
      TokenText (('"', p) :: (body ++ [('"', q)])) ⟨.str (String.ofList text), p⟩

inductive Extent : List (Char × Place) → Token → Prop where
  | mk {gap text : List (Char × Place)} {t : Token} :
      Gap gap → TokenText text t → Extent (gap ++ text) t

theorem TokenText.ne_nil {text : List (Char × Place)} {t : Token} (h : TokenText text t) :
    text ≠ [] := by
  cases h <;> simp

theorem Extent.ne_nil {cs : List (Char × Place)} {t : Token} (h : Extent cs t) : cs ≠ [] := by
  cases h with
  | mk hgap htext => simp [htext.ne_nil]

/-- A gap in front makes no difference. -/
theorem Extent.prepend {gap cs : List (Char × Place)} {t : Token} (hgap : Gap gap)
    (h : Extent cs t) : Extent (gap ++ cs) t := by
  cases h with
  | mk hgap' htext =>
    rw [← List.append_assoc]
    exact .mk (hgap.append hgap') htext

theorem classifies_ofWord (w : List Char) : Classifies w (Lexeme.ofWord w) := by
  obtain ⟨l, hl⟩ := exists_classifies w
  rwa [hl.ofWord]

theorem Unescapes.concat {cs text : List Char} (h : Unescapes cs text) {c : Char} (hq : c ≠ '"')
    (hb : c ≠ '\\') : Unescapes (cs ++ [c]) (text ++ [c]) := by
  induction h with
  | nil => exact .plain hq hb .nil
  | plain hq' hb' _ ih => exact .plain hq' hb' ih
  | escape he _ ih => exact .escape he ih

theorem Unescapes.concat_escape {cs text : List Char} (h : Unescapes cs text) {e c : Char}
    (he : (e, c) ∈ [('n', '\n'), ('\\', '\\'), ('"', '"')]) :
    Unescapes (cs ++ ['\\', e]) (text ++ [c]) := by
  induction h with
  | nil => exact .escape he .nil
  | plain hq hb _ ih => exact .plain hq hb ih
  | escape he' _ ih => exact .escape he' ih

namespace Scan

def Spans : Scan → List (Char × Place) → Prop
  | gap, cs => Gap cs
  | comment, cs =>
    ∃ before p body, cs = before ++ (';', p) :: body ∧ Gap before ∧ ∀ x ∈ body, x.1 ≠ '\n'
  | word start seen, cs =>
    ∃ before c w, cs = before ++ (c, start) :: w ∧ Gap before ∧ startsWord c = true ∧
      (∀ x ∈ w, inWord x.1 = true) ∧ seen.reverse = c :: w.map Prod.fst
  | string start seen, cs =>
    ∃ before body, cs = before ++ ('"', start) :: body ∧ Gap before ∧
      Unescapes (body.map Prod.fst) seen.reverse
  | escape start seen slash, cs =>
    ∃ before body, cs = before ++ ('"', start) :: (body ++ [('\\', slash)]) ∧ Gap before ∧
      Unescapes (body.map Prod.fst) seen.reverse

/-- What a character has done to a scan that had taken `cs`. Behind a word the character is not
part of the token. -/
def Move.Spans (cs : List (Char × Place)) (c : Char) (place : Place) : Move → Prop
  | .go next => next.Spans (cs ++ [(c, place)])
  | .done t => Extent (cs ++ [(c, place)]) t ∨
      Text.isBlank c = true ∧ Extent cs t ∧ ∀ x ∈ cs.getLast?, Text.isBlank x.1 = false
  | .hold t => Extent cs t ∧ ∀ x ∈ cs.getLast?, Text.isBlank x.1 = false
  | .fail _ => True

theorem spans_first {cs : List (Char × Place)} {c : Char} (h : Gap cs)
    (hblank : Text.isBlank c = false) (hcomment : c ≠ ';') (place : Place) :
    (first c place).Spans cs c place := by
  unfold first
  split
  next l hl => exact .inl (.mk h (.punctuation hl))
  next hnone =>
    split
    next hq =>
      subst hq
      exact ⟨cs, [], rfl, h, .nil⟩
    next hq =>
      have hstarts : startsWord c = true := by simp [startsWord, hblank, hcomment, hnone, hq]
      exact ⟨cs, c, [], rfl, h, hstarts, by simp, rfl⟩

/-- A scan that is in a word has taken the text of its token, and no blank last. -/
theorem Spans.extent {start : Place} {seen : List Char} {cs : List (Char × Place)}
    (h : (word start seen).Spans cs) :
    Extent cs (wordToken start seen) ∧ ∀ x ∈ cs.getLast?, Text.isBlank x.1 = false := by
  obtain ⟨before, c, w, rfl, hbefore, hstarts, hw, hseen⟩ := h
  have hclass : Classifies (c :: w.map Prod.fst) (Lexeme.ofWord seen.reverse) := by
    rw [hseen]
    exact classifies_ofWord _
  refine ⟨.mk hbefore (.word hstarts hw hclass), ?_⟩
  intro x hx
  have hmem : x ∈ (c, start) :: w := by
    rw [List.getLast?_append_of_ne_nil _ (List.cons_ne_nil _ _)] at hx
    exact List.mem_of_getLast? hx
  rcases List.mem_cons.1 hmem with rfl | hmem
  · simp only [startsWord, Bool.and_eq_true, Bool.not_eq_true'] at hstarts
    exact hstarts.1.1.1
  · have hin := hw x hmem
    simp only [inWord, Bool.and_eq_true, Bool.not_eq_true'] at hin
    exact hin.1

/-- The characters that a scan has taken, and the one that it takes now. -/
theorem spans_step {s : Scan} {cs : List (Char × Place)} (h : s.Spans cs) (c : Char)
    (place : Place) : (s.step c place).Spans cs c place := by
  cases s with
  | gap =>
    simp only [step]
    split
    next hc => exact Gap.append h (gap_singleton hc)
    next hc =>
      split
      next hcomment =>
        subst hcomment
        exact ⟨cs, place, [], rfl, h, by simp⟩
      next hcomment => exact spans_first h (by simpa using hc) hcomment place
  | comment =>
    obtain ⟨before, p, body, rfl, hbefore, hbody⟩ := h
    simp only [step]
    split
    next hc =>
      subst hc
      have hcomment : Gap ((';', p) :: (body ++ [('\n', place)])) := .comment hbody .nil
      simpa [Move.Spans, Spans] using hbefore.append hcomment
    next hc =>
      refine ⟨before, p, body ++ [(c, place)], by simp, hbefore, ?_⟩
      rw [List.forall_mem_append]
      exact ⟨hbody, by simpa using hc⟩
  | word start seen =>
    have hextent := Spans.extent h
    simp only [step]
    split
    next hc => exact .inr ⟨hc, hextent⟩
    next hc =>
      split
      next => exact hextent
      next hd =>
        obtain ⟨before, d, w, rfl, hbefore, hstarts, hw, hseen⟩ := h
        refine ⟨before, d, w ++ [(c, place)], by simp, hbefore, hstarts, ?_, by simp [hseen]⟩
        rw [List.forall_mem_append]
        exact ⟨hw, by simp [inWord, hc, hd]⟩
  | string start seen =>
    obtain ⟨before, body, rfl, hbefore, hbody⟩ := h
    simp only [step]
    split
    next hc =>
      subst hc
      refine .inl ?_
      rw [List.append_assoc, List.cons_append]
      exact .mk hbefore (.string hbody)
    next hc =>
      split
      next hslash =>
        subst hslash
        exact ⟨before, body, by simp, hbefore, hbody⟩
      next hslash =>
        refine ⟨before, body ++ [(c, place)], by simp, hbefore, ?_⟩
        simpa using hbody.concat hc hslash
  | escape start seen slash =>
    obtain ⟨before, body, rfl, hbefore, hbody⟩ := h
    simp only [step]
    split
    next d hd =>
      refine ⟨before, body ++ [('\\', slash), (c, place)], by simp, hbefore, ?_⟩
      simpa using hbody.concat_escape (unescape?_eq_some_iff.1 hd)
    next => trivial

end Scan

theorem LineReader.Takes.size {r r' : LineReader} {lines : List Line} (h : r.Takes lines r') :
    r'.read.size = r.read.size + lines.length := by
  rw [← Array.length_toList, h.read, List.length_append, Array.length_toList]

namespace TokenStream

/-- These characters have been taken from the stream last, the line of the last of them is the line
that was taken last from the feed, and so is the line of what is left of it. -/
structure After (cs : List (Char × Place)) (ts : TokenStream LineReader) : Prop where
  ends : EndsLine (cs ++ ts.lineRest)
  last : ∀ x ∈ cs.getLast?, x.2.line + 1 = ts.source.read.size
  rest : ∀ x ∈ ts.lineRest, x.2.line + 1 = ts.source.read.size

theorem mem_placedFrom {line col : Nat} {cs : List Char} {x : Char × Place}
    (h : x ∈ placedFrom line col cs) : x.2.line = line := by
  induction cs generalizing col with
  | nil => cases h
  | cons c cs ih =>
    rcases List.mem_cons.1 h with rfl | h
    · rfl
    · exact ih h

/-- One more character has been taken, perhaps with a new line. -/
theorem After.pull? {cs : List (Char × Place)} {ts ts' : TokenStream LineReader} {c : Char}
    {place : Place} (h : After cs ts) (hpull : ts.pull? = some (c, place, ts')) :
    After (cs ++ [(c, place)]) ts' := by
  obtain ⟨hrest, htakes⟩ | ⟨line, hrest, htakes, hline⟩ := pull?_cases hpull
  · have hread : ts'.source.read.size = ts.source.read.size := htakes.size
    obtain ⟨hends, hlast, hrest'⟩ := h
    rw [hrest] at hends hrest'
    rw [List.forall_mem_cons] at hrest'
    refine ⟨by simpa using hends, ?_, ?_⟩
    · rw [List.getLast?_concat]
      rintro _ ⟨⟩
      exact hrest'.1.trans hread.symm
    · rw [hread]
      exact hrest'.2
  · have hread : ts'.source.read.size = ts.source.read.size + 1 := htakes.size
    have hplaces : ∀ x ∈ (c, place) :: ts'.lineRest, x.2.line + 1 = ts'.source.read.size := by
      intro x hx
      rw [hline] at hx
      rw [mem_placedFrom hx, hread]
    rw [List.forall_mem_cons] at hplaces
    refine ⟨?_, ?_, hplaces.2⟩
    · have hends := h.ends
      rw [hrest, List.append_nil] at hends
      rw [List.append_assoc, List.singleton_append, hline]
      exact hends.append (endsLine_line _ line)
    · rw [List.getLast?_concat]
      rintro _ ⟨⟩
      exact hplaces.1

/-- Behind a character that is not blank, the same line goes on. -/
theorem After.read_pull? {cs : List (Char × Place)} {ts ts' : TokenStream LineReader} {c : Char}
    {place : Place} (h : After cs ts) (hne : cs ≠ [])
    (hblank : ∀ x ∈ cs.getLast?, Text.isBlank x.1 = false)
    (hpull : ts.pull? = some (c, place, ts')) :
    ts'.source.read.size = ts.source.read.size := by
  obtain ⟨-, htakes⟩ | ⟨line, hrest, -, -⟩ := pull?_cases hpull
  · exact htakes.size
  · have hends := h.ends
    rw [hrest, List.append_nil] at hends
    obtain ⟨ds, p, rfl⟩ := hends.eq_concat hne
    have hlf := hblank ('\n', p) List.getLast?_concat
    cases hlf

/-- A token is complete: `cs` is all that is ahead, up to the last character of the token, which is
on the line taken last; and one blank may be dropped behind it. -/
def Completes (ahead : List (Char × Place)) (t : Token) (ts : TokenStream LineReader) : Prop :=
  ∃ cs after, ahead = cs ++ after ∧ Extent cs t ∧
    (∀ x ∈ cs.getLast?, x.2.line + 1 = ts.source.read.size) ∧
    ∃ blank, Gap blank ∧ after = blank ++ ts.chars

/-- The induction is on the scan; the characters that it has taken are carried along, with what is
left of the line that they end on. At the end of input only a word is complete. -/
theorem completes_scan {s : Scan} {ts : TokenStream LineReader} {cs : List (Char × Place)}
    (hs : s.Spans cs) (hafter : After cs ts) {t : Token} (h : (scan s ts).1 = .ok t)
    (hne : t.lexeme ≠ .eof) : Completes (cs ++ ts.chars) t (scan s ts).2 := by
  fun_induction scan s ts generalizing cs with
  | case1 s ts hpull =>
    cases s with
    | gap | comment => cases h; exact absurd rfl hne
    | word start seen =>
      cases h
      exact ⟨cs, ts.chars, rfl, (Scan.Spans.extent hs).1, hafter.last, [], .nil, rfl⟩
    | string start seen => cases h
    | escape start seen slash => cases h
  | case2 s ts c place ts' hpull next hstep ih =>
    have hspans := Scan.spans_step hs c place
    rw [hstep] at hspans
    have hcomplete := ih hspans (hafter.pull? hpull) h
    rwa [List.append_assoc, List.singleton_append, ← (chars_of_char hpull).1] at hcomplete
  | case3 s ts c place ts' hpull token hstep =>
    cases h
    have hspans := Scan.spans_step hs c place
    rw [hstep] at hspans
    rw [(chars_of_char hpull).1]
    rcases hspans with hextent | ⟨hblank, hextent, hlast⟩
    · exact ⟨cs ++ [(c, place)], ts'.chars, by simp, hextent, (hafter.pull? hpull).last, [], .nil, rfl⟩
    · refine ⟨cs, (c, place) :: ts'.chars, rfl, hextent, ?_, [(c, place)], gap_singleton hblank, rfl⟩
      rw [hafter.read_pull? hextent.ne_nil hlast hpull]
      exact hafter.last
  | case4 s ts c place ts' hpull token hstep =>
    cases h
    have hspans := Scan.spans_step hs c place
    rw [hstep] at hspans
    obtain ⟨hextent, hlast⟩ := hspans
    rw [(chars_of_char hpull).1]
    refine ⟨cs, (c, place) :: ts'.chars, rfl, hextent, ?_, [], .nil, ?_⟩
    · have hread := hafter.read_pull? hextent.ne_nil hlast hpull
      exact fun x hx => (hafter.last x hx).trans hread.symm
    · simp [chars, held_pull? hpull]
  | case5 s ts c place ts' hpull error hstep => cases h

theorem After.forget {cs : List (Char × Place)} {ts : TokenStream LineReader} (h : After cs ts) :
    After [] ts := ⟨h.ends.of_append, by simp, h.rest⟩

theorem after_of_lineRest {ts : TokenStream LineReader} (h : ts.lineRest = []) : After [] ts := by
  refine ⟨?_, by simp, by simp [h]⟩
  rw [h]
  exact endsLine_nil

theorem after_scan {s : Scan} {ts : TokenStream LineReader} (h : After [] ts) :
    After [] (scan s ts).2 := by
  fun_induction scan s ts with
  | case1 s ts hpull => exact h
  | case2 s ts c place ts' hpull next hstep ih => exact ih (h.pull? hpull).forget
  | case3 s ts c place ts' hpull token hstep => exact (h.pull? hpull).forget
  | case4 s ts c place ts' hpull token hstep =>
    obtain ⟨hends, hlast, hrest⟩ := h.pull? hpull
    have hheld : lineRest { ts' with held := some (c, place) } = (c, place) :: ts'.lineRest := by
      simp [lineRest, held_pull? hpull]
    refine ⟨?_, by simp, ?_⟩
    · rw [hheld]
      exact hends
    · rw [hheld, List.forall_mem_cons]
      exact ⟨hlast (c, place) rfl, hrest⟩
  | case5 s ts c place ts' hpull error hstep => exact (h.pull? hpull).forget

theorem completes_next {ts ts' : TokenStream LineReader} {t : Token} (hts : After [] ts)
    (h : ts.next = (.ok t, ts')) (hne : t.lexeme ≠ .eof) : Completes ts.chars t ts' := by
  have hspans : Scan.gap.Spans [] := Gap.nil
  have hcomplete := completes_scan hspans hts (congrArg Prod.fst h) hne
  rwa [show scan .gap ts = (.ok t, ts') from h] at hcomplete

theorem after_next {ts ts' : TokenStream LineReader} {x : Except ScanError Token}
    (hts : After [] ts) (h : ts.next = (x, ts')) : After [] ts' := by
  have hafter := after_scan (s := .gap) hts
  rwa [show scan .gap ts = (x, ts') from h] at hafter

inductive Yields {σ : Type} [Source σ] (ts : TokenStream σ) :
    List Token → TokenStream σ → Prop where
  | nil : Yields ts [] ts
  | concat {toks : List Token} {t : Token} {us us' : TokenStream σ} :
      Yields ts toks us → us.next = (.ok t, us') → Yields ts (toks ++ [t]) us'

inductive Extents : List (Char × Place) → List Token → Prop where
  | nil : Extents [] []
  | concat {cs ds : List (Char × Place)} {toks : List Token} {t : Token} :
      Extents cs toks → Extent ds t → Extents (cs ++ ds) (toks ++ [t])

theorem Extents.ne_nil {cs : List (Char × Place)} {toks : List Token} (h : Extents cs toks)
    (hne : toks ≠ []) : cs ≠ [] := by
  cases h with
  | nil => exact absurd rfl hne
  | concat _ hextent => simp [hextent.ne_nil]

/-- When tokens have been taken, the line taken last is the one on which the last of them ends. -/
theorem extents_of_yields {ts us : TokenStream LineReader} {toks : List Token} (hts : After [] ts)
    (h : ts.Yields toks us) (hne : ∀ t ∈ toks, t.lexeme ≠ .eof) :
    After [] us ∧ ∃ cs blank, ts.chars = cs ++ (blank ++ us.chars) ∧ Gap blank ∧ Extents cs toks ∧
      ∀ x ∈ cs.getLast?, x.2.line + 1 = us.source.read.size := by
  induction h with
  | nil => exact ⟨hts, [], [], rfl, .nil, .nil, by simp⟩
  | @concat toks t us us' _ hnext ih =>
    rw [List.forall_mem_append, List.forall_mem_singleton] at hne
    obtain ⟨hus, cs, blank, hchars, hblank, hcs, -⟩ := ih hne.1
    obtain ⟨ds, _, hds, hextent, hlast, blank', hblank', rfl⟩ := completes_next hus hnext hne.2
    refine ⟨after_next hus hnext, cs ++ (blank ++ ds), blank', ?_, hblank',
      .concat hcs (hextent.prepend hblank), ?_⟩
    · rw [hchars, hds]
      simp
    · rw [← List.append_assoc, List.getLast?_append_of_ne_nil _ hextent.ne_nil]
      exact hlast

end TokenStream
end Lisplet
