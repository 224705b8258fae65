import Lisplet.Proofs.Token.Segments

/-!
Gaps: the blanks and comments between two tokens. A scan passes over a gap as if
it were not there, and stops at the first character that belongs to no gap. This
character begins a token, or a string that is not well formed.
-/
namespace Lisplet

/-- Blanks and comments, each comment with the line feed that ends it. -/
inductive Gap : List (Char × Place) → Prop where
  | nil : Gap []
  | blank {c : Char} {p : Place} {cs : List (Char × Place)} :
      Text.isBlank c = true → Gap cs → Gap ((c, p) :: cs)
  | comment {p q : Place} {body cs : List (Char × Place)} :
      (∀ x ∈ body, x.1 ≠ '\n') → Gap cs → Gap ((';', p) :: (body ++ ('\n', q) :: cs))

theorem gap_singleton {c : Char} {p : Place} (h : Text.isBlank c = true) : Gap [(c, p)] :=
  .blank h .nil

theorem Gap.append {cs ds : List (Char × Place)} (h : Gap cs) (h' : Gap ds) : Gap (cs ++ ds) := by
  induction h with
  | nil => exact h'
  | blank hc _ ih => exact .blank hc ih
  | comment hbody _ ih =>
    rw [List.cons_append, List.append_assoc, List.cons_append]
    exact .comment hbody ih

/-- A gap is scanned over. -/
theorem Gap.consume_append {cs : List (Char × Place)} (h : Gap cs) (final : Place)
    (ds : List (Char × Place)) :
    Scan.gap.consume final (cs ++ ds) = Scan.gap.consume final ds := by
  induction h with
  | nil => rfl
  | blank hc _ ih => simpa [Scan.consume, Scan.step, hc] using ih
  | @comment p q body cs hbody _ ih =>
    have hcomment : Scan.gap.consume final ((';', p) :: (body ++ ('\n', q) :: cs) ++ ds) =
        Scan.comment.consume final (body ++ ('\n', q) :: (cs ++ ds)) := by
      rw [List.cons_append, List.append_assoc, List.cons_append]
      rfl
    rw [hcomment, Scan.consume_comment hbody, ih]

def startsToken (c : Char) : Bool := !Text.isBlank c && c ≠ ';'

/-- A token at the place of its first character, or an error in a string that is opened there. -/
def StartsAt (c : Char) (p : Place) : Except ScanError Token → Prop
  | .ok t => t.place = p ∧ t.lexeme ≠ .eof
  | .error _ => c = '"'

/-- Behind a gap the first character tells where the token or the error is. -/
theorem startsAt_consume (final : Place) {c : Char} {p : Place} {cs : List (Char × Place)}
    (hloose : NoLooseEscape ((c, p) :: cs)) (hc : startsToken c = true) :
    StartsAt c p (Scan.gap.consume final ((c, p) :: cs)).1 := by
  simp only [startsToken, Bool.and_eq_true, Bool.not_eq_true', decide_eq_true_eq] at hc
  obtain ⟨hblank, hcomment⟩ := hc
  obtain ⟨xs, hxs⟩ := exists_segments final _ hloose
  cases hxs with
  | blank hb => simp [hb] at hblank
  | comment | lastComment => exact absurd rfl hcomment
  | punctuation hp hrest =>
    rw [BeginsWith.eq_consume ⟨_, .punctuation hp hrest⟩]
    exact ⟨rfl, ofPunctuation?_ne_eof hp⟩
  | word hs hw hends hl hrest =>
    rw [BeginsWith.eq_consume ⟨_, .word hs hw hends hl hrest⟩]
    exact ⟨rfl, hl.ne_eof⟩
  | string htext hrest =>
    rw [BeginsWith.eq_consume ⟨_, .string htext hrest⟩]
    exact ⟨rfl, by simp⟩
  | unknownEscape htext he hrest =>
    rw [BeginsWith.eq_consume ⟨_, .unknownEscape htext he hrest⟩]
    rfl
  | unterminated htext =>
    rw [BeginsWith.eq_consume ⟨_, .unterminated htext⟩]
    rfl

/-- A comment does not end the line that it is on. -/
theorem EndsLine.ne_nil_of_comment {p : Place} {cs : List (Char × Place)}
    (h : EndsLine ((';', p) :: cs)) : cs ≠ [] := by
  rintro rfl
  exact absurd (h (';', p) rfl) (by decide : ';' ≠ '\n')

/-- A line that ends has a first line feed. -/
theorem EndsLine.exists_lineFeed {cs : List (Char × Place)} (h : EndsLine cs) (hne : cs ≠ []) :
    ∃ body q rest, cs = body ++ ('\n', q) :: rest ∧ ∀ x ∈ body, x.1 ≠ '\n' := by
  obtain ⟨body, rest, rfl, hbody, hrest⟩ := exists_span (fun x => decide (x.1 ≠ '\n')) cs
  replace hbody : ∀ x ∈ body, x.1 ≠ '\n' := by simpa using hbody
  cases rest with
  | nil =>
    obtain ⟨ds, q, hds⟩ := h.eq_concat hne
    rw [List.append_nil] at hds
    exact absurd rfl (hbody ('\n', q) (by simp [hds]))
  | cons y rest =>
    obtain ⟨d, q⟩ := y
    obtain rfl : d = '\n' := by simpa using hrest
    exact ⟨body, q, rest, rfl, hbody⟩

/-- Characters that end a line are a gap, or a gap comes before the first of them that starts a
token. -/
theorem gap_or_startsToken (cs : List (Char × Place)) (hends : EndsLine cs) :
    Gap cs ∨ ∃ gap c p rest, cs = gap ++ (c, p) :: rest ∧ Gap gap ∧ startsToken c = true := by
  cases cs with
  | nil => exact .inl .nil
  | cons x cs =>
    obtain ⟨c, p⟩ := x
    by_cases hblank : Text.isBlank c = true
    · obtain hgap | ⟨gap, d, q, rest, rfl, hgap, hd⟩ := gap_or_startsToken cs hends.tail
      · exact .inl (.blank hblank hgap)
      · exact .inr ⟨(c, p) :: gap, d, q, rest, rfl, .blank hblank hgap, hd⟩
    by_cases hcomment : c = ';'
    · subst hcomment
      obtain ⟨body, q, ds, rfl, hbody⟩ := hends.tail.exists_lineFeed hends.ne_nil_of_comment
      obtain hgap | ⟨gap, e, r, rest, rfl, hgap, he⟩ :=
        gap_or_startsToken ds hends.tail.of_append.tail
      · exact .inl (.comment hbody hgap)
      · exact .inr ⟨(';', p) :: (body ++ ('\n', q) :: gap), e, r, rest, by simp,
          .comment hbody hgap, he⟩
    · exact .inr ⟨[], c, p, cs, rfl, .nil, by simp [startsToken, hblank, hcomment]⟩
termination_by cs.length

/-- No gap has the first character of a token in it. -/
theorem not_gap_append {gap : List (Char × Place)} (hgap : Gap gap) {c : Char} {p : Place}
    {rest : List (Char × Place)} (hloose : NoLooseEscape ((c, p) :: rest))
    (hc : startsToken c = true) : ¬ Gap (gap ++ (c, p) :: rest) := by
  intro h
  have hstarts := startsAt_consume default hloose hc
  rw [← hgap.consume_append, ← List.append_nil (gap ++ _), h.consume_append] at hstarts
  exact hstarts.2 rfl

end Lisplet
