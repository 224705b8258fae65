import Lisplet.Proofs.Token.Gap
import Lisplet.Proofs.Token.InLine

/-!
The test for the end of a line against the scan. The test finds nothing on a
line that is a gap, that is, on one of which scanning yields nothing. It also
finds nothing on some lines that are no gaps: white space that does not separate
tokens is part of a word, and a line feed inside a line ends a comment.
-/
namespace Lisplet

/-- Text that the test for the end of a line does not see. Text behind a comment can stand on its
line only if the line has a line feed before its end. -/
inductive Overlooked : List (Char × Place) → Prop where
  /-- White space that is not all blank, up to the end of the line or to a semicolon. -/
  | white {ws rest : List (Char × Place)} :
      (∀ x ∈ ws, Text.isWhiteSpace x.1 = true) → (∃ x ∈ ws, Text.isBlank x.1 = false) →
      (∀ x ∈ rest.head?, x.1 = ';') → Overlooked (ws ++ rest)
  /-- Text that is no gap, behind a comment. -/
  | behind {p q : Place} {ws body rest : List (Char × Place)} :
      (∀ x ∈ ws, Text.isBlank x.1 = true) → (∀ x ∈ body, x.1 ≠ '\n') → ¬ Gap rest →
      Overlooked (ws ++ (';', p) :: (body ++ ('\n', q) :: rest))

theorem gap_of_isBlank {ws : List (Char × Place)} (h : ∀ x ∈ ws, Text.isBlank x.1 = true) :
    Gap ws := by
  induction ws with
  | nil => exact .nil
  | cons x ws ih =>
    rw [List.forall_mem_cons] at h
    exact .blank h.1 (ih h.2)

theorem isWhiteSpace_semicolon : Text.isWhiteSpace ';' = false := by decide

theorem startsToken_of_isWhiteSpace {c : Char} (hwhite : Text.isWhiteSpace c = true)
    (hblank : Text.isBlank c = false) : startsToken c = true := by
  have hne : c ≠ ';' := by
    rintro rfl
    rw [isWhiteSpace_semicolon] at hwhite
    cases hwhite
  simp [startsToken, hblank, hne]

/-- Nothing follows if all is white up to the end of the line or to a semicolon. -/
theorem not_follows_iff {cs : List (Char × Place)} :
    ¬ Follows cs ↔ ∃ ws rest, cs = ws ++ rest ∧ (∀ x ∈ ws, Text.isWhiteSpace x.1 = true) ∧
      ∀ x ∈ rest.head?, x.1 = ';' := by
  induction cs with
  | nil =>
    refine iff_of_true ?_ ⟨[], [], rfl, by simp, by simp⟩
    rintro ⟨c, hc, -⟩
    cases hc
  | cons x cs ih =>
    by_cases hwhite : Text.isWhiteSpace x.1 = true
    · have hcons : Follows (x :: cs) ↔ Follows cs := by simp [Follows, hwhite]
      rw [hcons, ih]
      constructor
      · rintro ⟨ws, rest, rfl, hws, hrest⟩
        exact ⟨x :: ws, rest, rfl, List.forall_mem_cons.2 ⟨hwhite, hws⟩, hrest⟩
      · rintro ⟨ws, rest, heq, hws, hrest⟩
        cases ws with
        | nil =>
          obtain rfl : x :: cs = rest := heq
          rw [hrest x rfl, isWhiteSpace_semicolon] at hwhite
          cases hwhite
        | cons y ws =>
          obtain ⟨rfl, rfl⟩ := List.cons.inj heq
          exact ⟨ws, rest, rfl, (List.forall_mem_cons.1 hws).2, hrest⟩
    · have hcons : Follows (x :: cs) ↔ x.1 ≠ ';' := by simp [Follows, hwhite]
      rw [hcons, Classical.not_not]
      constructor
      · intro hx
        exact ⟨[], x :: cs, rfl, by simp, by simpa using hx⟩
      · rintro ⟨ws, rest, heq, hws, hrest⟩
        cases ws with
        | nil =>
          obtain rfl : x :: cs = rest := heq
          exact hrest x rfl
        | cons y ws =>
          obtain ⟨rfl, -⟩ := List.cons.inj heq
          exact absurd (hws x List.mem_cons_self) hwhite

theorem Gap.not_follows {cs : List (Char × Place)} (h : Gap cs) : ¬ Follows cs := by
  induction h with
  | nil => exact not_follows_iff.2 ⟨[], [], rfl, by simp, by simp⟩
  | @blank c p cs hc _ ih =>
    obtain ⟨ws, rest, rfl, hws, hrest⟩ := not_follows_iff.1 ih
    have hwhite : Text.isWhiteSpace c = true := Text.isWhiteSpace_of_isBlank hc
    exact not_follows_iff.2 ⟨(c, p) :: ws, rest, rfl, List.forall_mem_cons.2 ⟨hwhite, hws⟩, hrest⟩
  | comment => exact not_follows_iff.2 ⟨[], _, rfl, by simp, by simp⟩

theorem Overlooked.not_follows {cs : List (Char × Place)} (h : Overlooked cs) : ¬ Follows cs := by
  cases h with
  | white hws _ hrest => exact not_follows_iff.2 ⟨_, _, rfl, hws, hrest⟩
  | behind hws =>
    exact not_follows_iff.2
      ⟨_, _, rfl, fun x hx => Text.isWhiteSpace_of_isBlank (hws x hx), by simp⟩

/-- Nothing seems to follow on a line only if it is a gap, or if text on it is overlooked. -/
theorem gap_or_overlooked {cs : List (Char × Place)} (hends : EndsLine cs) (h : ¬ Follows cs) :
    Gap cs ∨ Overlooked cs := by
  obtain ⟨ws, rest, rfl, hws, hrest⟩ := not_follows_iff.1 h
  by_cases hblank : ∀ x ∈ ws, Text.isBlank x.1 = true
  · cases rest with
    | nil =>
      rw [List.append_nil]
      exact .inl (gap_of_isBlank hblank)
    | cons x cs =>
      obtain ⟨c, p⟩ := x
      obtain rfl : c = ';' := hrest _ rfl
      have hline : EndsLine ((';', p) :: cs) := hends.of_append
      obtain ⟨body, q, rest, rfl, hbody⟩ := hline.tail.exists_lineFeed hline.ne_nil_of_comment
      by_cases hgap : Gap rest
      · exact .inl ((gap_of_isBlank hblank).append (.comment hbody hgap))
      · exact .inr (.behind hblank hbody hgap)
  · simp only [Classical.not_forall, Bool.not_eq_true] at hblank
    obtain ⟨x, hx, hxblank⟩ := hblank
    exact .inr (.white hws ⟨x, hx, hxblank⟩ hrest)

/-- Text that is overlooked is more than blanks and comments. -/
theorem Overlooked.not_gap {cs : List (Char × Place)} (h : Overlooked cs) (hends : EndsLine cs) :
    ¬ Gap cs := by
  cases h with
  | @white ws rest hws hx hrest =>
    obtain ⟨blanks, others, rfl, hblanks, hothers⟩ := exists_span (fun x => Text.isBlank x.1) ws
    cases others with
    | nil =>
      obtain ⟨x, hx, hblank⟩ := hx
      rw [List.append_nil] at hx
      rw [hblanks x hx] at hblank
      cases hblank
    | cons x others =>
      have hstarts := startsToken_of_isWhiteSpace (hws x (by simp)) (hothers x rfl)
      rw [List.append_assoc] at hends ⊢
      exact not_gap_append (gap_of_isBlank hblanks) hends.of_append.noLooseEscape hstarts
  | @behind p q ws body rest hws hbody hrest =>
    have hgap : Gap (ws ++ (';', p) :: (body ++ [('\n', q)])) :=
      (gap_of_isBlank hws).append (.comment hbody .nil)
    have hsplit : ws ++ (';', p) :: (body ++ ('\n', q) :: rest) =
        ws ++ (';', p) :: (body ++ [('\n', q)]) ++ rest := by simp
    rw [hsplit] at hends ⊢
    obtain hrest' | ⟨gap, c, r, more, rfl, hgap', hc⟩ := gap_or_startsToken rest hends.of_append
    · exact absurd hrest' hrest
    · rw [← List.append_assoc] at hends ⊢
      exact not_gap_append (hgap.append hgap') hends.of_append.noLooseEscape hc

/-- Only a delimiter is held back when a token ends before it. -/
theorem Scan.isDelimiter_of_hold {s : Scan} {c : Char} {place : Place} {token : Token}
    (h : s.step c place = .hold token) : Scan.isDelimiter c = true := by
  cases s with
  | gap => exact absurd h (TokenStream.step_gap_ne_hold c place token)
  | comment => simp only [step] at h; split at h <;> cases h
  | word start seen =>
    simp only [step] at h
    split at h
    next => cases h
    next =>
      split at h
      next hc => exact hc
      next => cases h
  | string start seen =>
    simp only [step] at h
    split at h
    next => cases h
    next => split at h <;> cases h
  | escape start seen slash => simp only [step] at h; split at h <;> cases h

namespace TokenStream

section Reaches

variable {σ : Type} [Source σ]

/-- What a stream comes to as tokens are taken from it and lines are given up. -/
inductive Reaches (ts : TokenStream σ) : TokenStream σ → Prop where
  | refl : Reaches ts ts
  | next {us : TokenStream σ} : Reaches ts us → Reaches ts us.next.2
  | skipLine {us : TokenStream σ} : Reaches ts us → Reaches ts us.skipLine

def HoldsDelimiter (ts : TokenStream σ) : Prop := ∀ x ∈ ts.held, Scan.isDelimiter x.1 = true

omit [Source σ] in
theorem holdsDelimiter_of_none {ts : TokenStream σ} (h : ts.held = none) : ts.HoldsDelimiter := by
  simp [HoldsDelimiter, h]

theorem held_of_end {ts : TokenStream σ} (h : ts.pull? = none) : ts.held = none := by
  unfold pull? at h
  split at h
  next => cases h
  next hheld => exact hheld

theorem holdsDelimiter_scan (s : Scan) (ts : TokenStream σ) : (scan s ts).2.HoldsDelimiter := by
  fun_induction scan s ts with
  | case1 s ts h => exact holdsDelimiter_of_none (held_of_end h)
  | case2 s ts c place ts' h next hstep ih => exact ih
  | case3 s ts c place ts' h => exact holdsDelimiter_of_none (held_pull? h)
  | case4 s ts c place ts' h token hstep =>
    rintro _ ⟨⟩
    exact Scan.isDelimiter_of_hold hstep
  | case5 s ts c place ts' h => exact holdsDelimiter_of_none (held_pull? h)

theorem Reaches.holdsDelimiter {ts us : TokenStream σ} (h : ts.Reaches us)
    (hts : ts.HoldsDelimiter) : us.HoldsDelimiter := by
  induction h with
  | refl => exact hts
  | @next us => exact holdsDelimiter_scan .gap us
  | skipLine => exact holdsDelimiter_of_none rfl

end Reaches

theorem Reaches.endsLine {ts us : TokenStream LineReader} (h : ts.Reaches us)
    (hts : EndsLine ts.lineRest) : EndsLine us.lineRest := by
  induction h with
  | refl => exact hts
  | next _ ih => exact endsLine_next ih
  | skipLine => exact endsLine_nil

theorem not_isWhiteSpace_of_isDelimiter {c : Char} (h : Scan.isDelimiter c = true) :
    Text.isWhiteSpace c = false ∧ c ≠ ';' := by
  simp only [Scan.isDelimiter, Bool.or_eq_true, decide_eq_true_eq] at h
  rcases h with ((((rfl | rfl) | rfl) | rfl) | rfl) | rfl <;> decide

/-- The test for the end of a line finds nothing if nothing follows. -/
theorem atLineEnd_iff {ts : TokenStream LineReader} (h : ts.HoldsDelimiter) :
    ts.atLineEnd = true ↔ ¬ Follows ts.lineRest := by
  have hsource : Source.atLineEnd ts.source = ts.source.atLineEnd := rfl
  cases hheld : ts.held with
  | some x =>
    obtain ⟨hwhite, hne⟩ := not_isWhiteSpace_of_isDelimiter (h x hheld)
    simp [atLineEnd, lineRest, Follows, hheld, hwhite, hne]
  | none =>
    simp only [atLineEnd, lineRest, Follows, LineReader.lineRest, hheld, hsource,
      LineReader.atLineEnd, Option.isNone_none, Bool.true_and, Option.toList_none, List.nil_append,
      map_fst_placedFrom]
    cases ts.source.rest.find? fun c => !Text.isWhiteSpace c <;> simp

/-- Of a gap nothing is yielded but the end of input. -/
theorem next_eof_of_gap {σ : Type} [Source σ] {ts : TokenStream σ} (h : Gap ts.chars) :
    ts.next.1 = .ok ⟨.eof, ts.endPlace⟩ := by
  have hscan := (scan_eq_consume .gap ts).1
  rw [← List.append_nil ts.chars, h.consume_append] at hscan
  exact (congrArg Prod.fst hscan).symm

/-- Nothing is yielded of a line that is a gap. -/
theorem next_of_gap {ts : TokenStream LineReader} (h : Gap ts.lineRest) :
    ts.next.1 = ts.skipLine.next.1 := by
  have hscan := (scan_eq_consume .gap ts).1
  have hscan' := (scan_eq_consume .gap ts.skipLine).1
  have hchars : ts.chars = ts.lineRest ++ ts.skipLine.chars := by
    rw [chars_eq_lineRest, chars_eq_lineRest]
    rfl
  have hend : ts.skipLine.endPlace = ts.endPlace := by
    rw [endPlace, endPlace, LineReader.endPlace_eq, LineReader.endPlace_eq]
    rfl
  rw [hchars, h.consume_append, ← hend, hscan'] at hscan
  exact (congrArg Prod.fst hscan).symm

/-- A line that is no gap yields what begins at the first of its characters that is in no gap. -/
theorem next_of_not_gap {ts : TokenStream LineReader} (hends : EndsLine ts.lineRest)
    (h : ¬ Gap ts.lineRest) :
    ∃ gap c p rest, ts.lineRest = gap ++ (c, p) :: rest ∧ Gap gap ∧ StartsAt c p ts.next.1 := by
  obtain hgap | ⟨gap, c, p, rest, heq, hgap, hc⟩ := gap_or_startsToken _ hends
  · exact absurd hgap h
  refine ⟨gap, c, p, rest, heq, hgap, ?_⟩
  have hchars := endsLine_chars hends
  rw [chars_eq_lineRest, heq, List.append_assoc, List.cons_append] at hchars
  have hscan := (scan_eq_consume .gap ts).1
  rw [chars_eq_lineRest, heq, List.append_assoc, hgap.consume_append, List.cons_append] at hscan
  have hstarts := startsAt_consume ts.endPlace hchars.of_append.noLooseEscape hc
  rw [hscan] at hstarts
  exact hstarts

/-- However a stream of lines has come to its state: nothing seems to be left of the current line
exactly if the rest of it is a gap or text on it is overlooked, which cannot both be. -/
theorem Reaches.atLineEnd_iff {lines : List String} {ts : TokenStream LineReader}
    (h : Reaches { source := LineReader.ofLines lines } ts) :
    (ts.atLineEnd = true ↔ Gap ts.lineRest ∨ Overlooked ts.lineRest) ∧
      (Overlooked ts.lineRest → ¬ Gap ts.lineRest) := by
  have hends : EndsLine ts.lineRest := h.endsLine endsLine_nil
  rw [TokenStream.atLineEnd_iff (h.holdsDelimiter (holdsDelimiter_of_none rfl))]
  refine ⟨⟨gap_or_overlooked hends, ?_⟩, fun ho => ho.not_gap hends⟩
  rintro (hgap | ho)
  · exact hgap.not_follows
  · exact ho.not_follows

end TokenStream
end Lisplet
