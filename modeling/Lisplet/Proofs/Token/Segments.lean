import Lisplet.Proofs.Text.Numeral
import Lisplet.Proofs.Text.Placed

/-!
Text as a sequence of segments, stated without the machine that scans it. Every
character belongs to one segment: a blank, a comment, or the text of one token
or error. The division is exactly what scanning yields, token by token and error
by error, each at its place.
-/
namespace Lisplet

def IsNumeral (w : List Char) : Prop :=
  ∃ sign ∈ [[], ['+'], ['-']], ∃ digits : List Char,
    digits ≠ [] ∧ (∀ c ∈ digits, c.isDigit = true) ∧ w = sign ++ digits

/-- The class of a bare word: a word that is none of the others as a whole is an identifier. -/
inductive Classifies (w : List Char) : Lexeme → Prop where
  | atom {a : Atom} : w = a.word.toList → Classifies w (.atom a)
  | bool {b : Bool} : w = (toString b).toList → Classifies w (.bool b)
  | int : IsNumeral w → Classifies w (.int (String.ofList w))
  | ident : (∀ a : Atom, w ≠ a.word.toList) → (∀ b : Bool, w ≠ (toString b).toList) →
      ¬ IsNumeral w → Classifies w (.ident (String.ofList w))

/-- The characters up to the end of input at `final` are divided into segments, which yield these
tokens and errors. A token stands where its first character does. -/
inductive Segments (final : Place) : List (Char × Place) → List (Except ScanError Token) → Prop where
  | done : Segments final [] [.ok ⟨.eof, final⟩]
  | blank {c : Char} {p : Place} {cs : List (Char × Place)} {xs : List (Except ScanError Token)} :
      Text.isBlank c = true → Segments final cs xs → Segments final ((c, p) :: cs) xs
  /-- A comment goes on through the end of its line. -/
  | comment {p q : Place} {body cs : List (Char × Place)} {xs : List (Except ScanError Token)} :
      (∀ x ∈ body, x.1 ≠ '\n') → Segments final cs xs →
      Segments final ((';', p) :: (body ++ ('\n', q) :: cs)) xs
  | lastComment {p : Place} {body : List (Char × Place)} :
      (∀ x ∈ body, x.1 ≠ '\n') → Segments final ((';', p) :: body) [.ok ⟨.eof, final⟩]
  | punctuation {c : Char} {p : Place} {l : Lexeme} {cs : List (Char × Place)}
      {xs : List (Except ScanError Token)} :
      Lexeme.ofPunctuation? c = some l → Segments final cs xs →
      Segments final ((c, p) :: cs) (.ok ⟨l, p⟩ :: xs)
  /-- A word is as long as it can be. -/
  | word {c : Char} {p : Place} {l : Lexeme} {w cs : List (Char × Place)}
      {xs : List (Except ScanError Token)} :
      startsWord c = true → (∀ x ∈ w, inWord x.1 = true) → endsWord (cs.map Prod.fst) = true →
      Classifies (c :: w.map Prod.fst) l → Segments final cs xs →
      Segments final ((c, p) :: (w ++ cs)) (.ok ⟨l, p⟩ :: xs)
  | string {p q : Place} {text : List Char} {body cs : List (Char × Place)}
      {xs : List (Except ScanError Token)} :
      Unescapes (body.map Prod.fst) text → Segments final cs xs →
      Segments final (('"', p) :: (body ++ ('"', q) :: cs)) (.ok ⟨.str (String.ofList text), p⟩ :: xs)
  /-- A string with an unknown escape goes up to the escaped character, which is reported. -/
  | unknownEscape {c : Char} {p q r : Place} {text : List Char} {body cs : List (Char × Place)}
      {xs : List (Except ScanError Token)} :
      Unescapes (body.map Prod.fst) text → c ∉ ['n', '\\', '"'] → Segments final cs xs →
      Segments final (('"', p) :: (body ++ ('\\', q) :: (c, r) :: cs))
        (.error ⟨.unknownEscape c, r⟩ :: xs)
  /-- A string that is not closed goes up to the end of input; its opening quote is reported. -/
  | unterminated {p : Place} {text : List Char} {body : List (Char × Place)} :
      Unescapes (body.map Prod.fst) text →
      Segments final (('"', p) :: body) [.error ⟨.unterminatedString, p⟩, .ok ⟨.eof, final⟩]

theorem Text.Numeral.isSome_magnitude?_iff {cs : List Char} :
    (magnitude? cs).isSome = true ↔ cs ≠ [] ∧ ∀ c ∈ cs, c.isDigit = true := by
  unfold magnitude?
  split <;> simp_all

theorem Text.Numeral.isNumeral_iff {w : List Char} : isNumeral w = true ↔ IsNumeral w := by
  constructor
  · intro h
    unfold isNumeral value? at h
    split at h
    next cs =>
      rw [Option.isSome_map, isSome_magnitude?_iff] at h
      exact ⟨['+'], by simp, cs, h.1, h.2, rfl⟩
    next cs =>
      rw [Option.isSome_map, isSome_magnitude?_iff] at h
      exact ⟨['-'], by simp, cs, h.1, h.2, rfl⟩
    next =>
      rw [Option.isSome_map, isSome_magnitude?_iff] at h
      exact ⟨[], by simp, w, h.1, h.2, rfl⟩
  · rintro ⟨sign, hsign, digits, hne, hdigits, rfl⟩
    obtain ⟨n, hn⟩ := Option.isSome_iff_exists.1 (isSome_magnitude?_iff.2 ⟨hne, hdigits⟩)
    simp only [List.mem_cons, List.not_mem_nil, or_false] at hsign
    rcases hsign with rfl | rfl | rfl
    · simp [isNumeral, value?_of_magnitude? hn]
    · simp [isNumeral, value?, hn]
    · simp [isNumeral, value?, hn]

theorem Classifies.ofWord {w : List Char} {l : Lexeme} (h : Classifies w l) :
    Lexeme.ofWord w = l := by
  cases h with
  | @atom a h =>
    subst h
    cases a <;> decide
  | @bool b h =>
    subst h
    cases b <;> decide
  | int h => exact ofWord_of_isNumeral (Text.Numeral.isNumeral_iff.2 h)
  | ident hatom hbool hnumeral =>
    have hne : ∀ word : String, w ≠ word.toList → String.ofList w ≠ word := by
      rintro word hw rfl
      exact hw String.toList_ofList.symm
    have hnone : Atom.ofWord? (String.ofList w) = none := by
      rw [Atom.ofWord?, List.find?_eq_none]
      intro a _
      simpa using (hne a.word (hatom a)).symm
    have hnot : ¬ Text.Numeral.isNumeral w = true := fun h =>
      hnumeral (Text.Numeral.isNumeral_iff.1 h)
    have htrue : String.ofList w ≠ "true" := hne _ (hbool true)
    have hfalse : String.ofList w ≠ "false" := hne _ (hbool false)
    simp [Lexeme.ofWord, hnone, htrue, hfalse, hnot]

theorem exists_classifies (w : List Char) : ∃ l, Classifies w l := by
  by_cases hatom : ∃ a : Atom, w = a.word.toList
  · obtain ⟨a, ha⟩ := hatom
    exact ⟨_, .atom ha⟩
  by_cases hbool : ∃ b : Bool, w = (toString b).toList
  · obtain ⟨b, hb⟩ := hbool
    exact ⟨_, .bool hb⟩
  by_cases hnumeral : IsNumeral w
  · exact ⟨_, .int hnumeral⟩
  · exact ⟨_, .ident (fun a ha => hatom ⟨a, ha⟩) (fun b hb => hbool ⟨b, hb⟩) hnumeral⟩

namespace Scan

variable {final : Place}

/-- A comment is passed over like the gap that it is in. -/
theorem consume_comment {body cs : List (Char × Place)} {q : Place}
    (hbody : ∀ x ∈ body, x.1 ≠ '\n') :
    comment.consume final (body ++ ('\n', q) :: cs) = gap.consume final cs := by
  induction body with
  | nil => rfl
  | cons x body ih =>
    rw [List.forall_mem_cons] at hbody
    simp [consume, step, hbody.1, ih hbody.2]

theorem consume_lastComment {body : List (Char × Place)} (hbody : ∀ x ∈ body, x.1 ≠ '\n') :
    comment.consume final body = (.ok ⟨.eof, final⟩, []) := by
  induction body with
  | nil => rfl
  | cons x body ih =>
    rw [List.forall_mem_cons] at hbody
    simp [consume, step, hbody.1, ih hbody.2]

end Scan

theorem ofPunctuation?_ne_eof {c : Char} {l : Lexeme} (h : Lexeme.ofPunctuation? c = some l) :
    l ≠ .eof := by
  rintro rfl
  unfold Lexeme.ofPunctuation? at h
  split at h <;> cases h

theorem Classifies.ne_eof {w : List Char} {l : Lexeme} (h : Classifies w l) : l ≠ .eof := by
  cases h <;> simp

/-- Scanning segments: the end of input, or the first token or error and the segments behind it. The
induction is on the segments; a blank or a comment has no token, so what follows it is scanned. -/
theorem Segments.consume_gap {final : Place} {cs : List (Char × Place)}
    {xs : List (Except ScanError Token)} (h : Segments final cs xs) :
    (Scan.gap.consume final cs = (.ok ⟨.eof, final⟩, []) ∧ xs = [.ok ⟨.eof, final⟩]) ∨
      ∃ x ys rest ds, xs = x :: ys ∧ Scan.gap.consume final cs = (x, rest) ∧
        (∀ t, x = .ok t → t.lexeme ≠ .eof) ∧ Segments final ds ys ∧
        Scan.gap.consume final rest = Scan.gap.consume final ds := by
  induction h with
  | done => exact .inl ⟨rfl, rfl⟩
  | @blank c p cs xs hc _ ih =>
    have hstep : Scan.gap.consume final ((c, p) :: cs) = Scan.gap.consume final cs := by
      simp [Scan.consume, Scan.step, hc]
    rwa [hstep]
  | @comment p q body cs xs hbody _ ih =>
    have hstep : Scan.gap.consume final ((';', p) :: (body ++ ('\n', q) :: cs)) =
        Scan.gap.consume final cs := Scan.consume_comment hbody
    rwa [hstep]
  | lastComment hbody => exact .inl ⟨Scan.consume_lastComment hbody, rfl⟩
  | @punctuation c p l cs xs hc hxs _ =>
    refine .inr ⟨_, _, cs, cs, rfl, ?_, ?_, hxs, rfl⟩
    · simp [Scan.consume, step_gap_punctuation hc]
    · rintro _ ⟨⟩
      exact ofPunctuation?_ne_eof hc
  | @word c p l w cs xs hc hw hends hclass hxs _ =>
    have hall : (w.map Prod.fst).all inWord = true := by simpa using hw
    obtain ⟨rest, hword, hgap⟩ := consume_word final p [c] hall hends
    have htoken : Scan.wordToken p ((w.map Prod.fst).reverse ++ [c]) = ⟨l, p⟩ := by
      rw [← hclass.ofWord]
      simp [Scan.wordToken]
    refine .inr ⟨_, _, rest, cs, rfl, ?_, ?_, hxs, hgap.symm⟩
    · rw [← htoken, ← hword]
      simp [Scan.consume, step_gap_word hc]
    · rintro _ ⟨⟩
      exact hclass.ne_eof
  | @string p q text body cs xs hbody hxs _ =>
    refine .inr ⟨_, _, cs, cs, rfl, ?_, ?_, hxs, rfl⟩
    · exact Scan.consume_string final p q hbody cs
    · rintro _ ⟨⟩
      simp
  | @unknownEscape c p q r text body cs xs hbody hc hxs _ =>
    refine .inr ⟨_, _, cs, cs, rfl, ?_, by simp, hxs, rfl⟩
    rw [Scan.consume_quote final p hbody]
    simp [Scan.consume, Scan.step, unescape?_eq_none_iff.2 hc]
  | @unterminated p text body hbody =>
    refine .inr ⟨_, _, [], [], rfl, ?_, by simp, .done, rfl⟩
    have hquote := Scan.consume_quote final p hbody []
    rw [List.append_nil] at hquote
    rw [hquote]
    rfl

/-- These characters begin with this token or error, apart from blanks and comments. -/
def BeginsWith (final : Place) (cs : List (Char × Place)) (x : Except ScanError Token) : Prop :=
  ∃ xs, Segments final cs (x :: xs)

theorem BeginsWith.eq_consume {final : Place} {cs : List (Char × Place)}
    {x : Except ScanError Token} (h : BeginsWith final cs x) :
    (Scan.gap.consume final cs).1 = x := by
  obtain ⟨xs, hxs⟩ := h
  obtain ⟨hgap, heq⟩ | ⟨_, _, _, _, heq, hgap, -⟩ := hxs.consume_gap
  · rw [hgap]
    exact (List.cons.inj heq).1.symm
  · rw [hgap]
    exact (List.cons.inj heq).1.symm

/-- Segments yield what a stream yields that scans like them. -/
theorem TokenStream.drain_of_segments {σ : Type} [Source σ] {final : Place}
    {cs : List (Char × Place)} {xs : List (Except ScanError Token)} (h : Segments final cs xs)
    (ts : TokenStream σ) (hend : ts.endPlace = final)
    (hcs : Scan.gap.consume final ts.chars = Scan.gap.consume final cs) : ts.drain = xs := by
  induction xs generalizing cs ts with
  | nil => obtain ⟨-, hxs⟩ | ⟨_, _, _, _, hxs, -⟩ := h.consume_gap <;> cases hxs
  | cons x xs ih =>
    subst hend
    obtain ⟨hgap, hxs⟩ | ⟨_, _, rest, ds, ⟨⟩, hgap, hne, hds, hrest⟩ := h.consume_gap
    · obtain ⟨ts', hnext, -⟩ := next_of_consume (hcs.trans hgap)
      rw [hxs, drain_of_eof hnext rfl]
    · obtain ⟨ts', hnext, rfl, hend⟩ := next_of_consume (hcs.trans hgap)
      have hdrain := ih hds ts' hend hrest
      cases x with
      | ok t => rw [drain_of_token hnext (hne t rfl), hdrain]
      | error e => rw [drain_of_error hnext, hdrain]

/-- The longest beginning with a property, and what stops it. -/
theorem exists_span {α : Type} (p : α → Bool) (cs : List α) :
    ∃ xs ys, cs = xs ++ ys ∧ (∀ x ∈ xs, p x = true) ∧ ∀ y ∈ ys.head?, p y = false := by
  refine ⟨cs.takeWhile p, cs.dropWhile p, List.takeWhile_append_dropWhile.symm, ?_, ?_⟩
  · exact List.all_eq_true.1 List.all_takeWhile
  · intro y hy
    have := List.head?_dropWhile_not p cs
    rw [hy] at this
    simpa using this

/-- Input does not end between a backslash and the character that it escapes. -/
def NoLooseEscape (cs : List (Char × Place)) : Prop := ∀ x ∈ cs.getLast?, x.1 ≠ '\\'

theorem NoLooseEscape.of_append {cs ds : List (Char × Place)} (h : NoLooseEscape (cs ++ ds)) :
    NoLooseEscape ds := forall_getLast?_of_append h

theorem NoLooseEscape.tail {x : Char × Place} {cs : List (Char × Place)}
    (h : NoLooseEscape (x :: cs)) : NoLooseEscape cs :=
  NoLooseEscape.of_append (show NoLooseEscape ([x] ++ cs) from h)

/-- What is written of a string ends at a quote, at an unknown escape or at the end of input. -/
theorem exists_unescapes : ∀ {cs : List (Char × Place)}, NoLooseEscape cs →
    ∃ body rest text, cs = body ++ rest ∧ Unescapes (body.map Prod.fst) text ∧
      (rest = [] ∨ (∃ q ds, rest = ('"', q) :: ds) ∨
        ∃ q c r ds, rest = ('\\', q) :: (c, r) :: ds ∧ c ∉ ['n', '\\', '"'])
  | [], _ => ⟨[], [], [], rfl, .nil, .inl rfl⟩
  | (c, p) :: cs, h => by
    by_cases hq : c = '"'
    · subst hq
      exact ⟨[], _, [], rfl, .nil, .inr (.inl ⟨p, cs, rfl⟩)⟩
    by_cases hb : c = '\\'
    · subst hb
      cases cs with
      | nil => exact absurd rfl (h ('\\', p) rfl)
      | cons x ds =>
        obtain ⟨e, q⟩ := x
        cases he : Scan.unescape? e with
        | none =>
          exact ⟨[], _, [], rfl, .nil, .inr (.inr ⟨p, e, q, ds, rfl, unescape?_eq_none_iff.1 he⟩)⟩
        | some d =>
          obtain ⟨body, rest, text, rfl, hbody, hrest⟩ := exists_unescapes h.tail.tail
          exact ⟨('\\', p) :: (e, q) :: body, rest, d :: text, rfl,
            .escape (unescape?_eq_some_iff.1 he) hbody, hrest⟩
    · obtain ⟨body, rest, text, rfl, hbody, hrest⟩ := exists_unescapes h.tail
      exact ⟨(c, p) :: body, rest, c :: text, rfl, .plain hq hb hbody, hrest⟩

theorem exists_segments (final : Place) (cs : List (Char × Place)) (h : NoLooseEscape cs) :
    ∃ xs, Segments final cs xs := by
  cases cs with
  | nil => exact ⟨_, .done⟩
  | cons x cs =>
    obtain ⟨c, p⟩ := x
    by_cases hblank : Text.isBlank c = true
    · obtain ⟨xs, hxs⟩ := exists_segments final cs h.tail
      exact ⟨xs, .blank hblank hxs⟩
    by_cases hcomment : c = ';'
    · subst hcomment
      obtain ⟨body, rest, rfl, hbody, hrest⟩ := exists_span (fun x => decide (x.1 ≠ '\n')) cs
      replace hbody : ∀ x ∈ body, x.1 ≠ '\n' := by simpa using hbody
      cases rest with
      | nil => exact ⟨_, by simpa using .lastComment hbody⟩
      | cons y ds =>
        obtain ⟨d, q⟩ := y
        obtain rfl : d = '\n' := by simpa using hrest
        obtain ⟨xs, hxs⟩ := exists_segments final ds h.tail.of_append.tail
        exact ⟨xs, .comment hbody hxs⟩
    cases hp : Lexeme.ofPunctuation? c with
    | some l =>
      obtain ⟨xs, hxs⟩ := exists_segments final cs h.tail
      exact ⟨_, .punctuation hp hxs⟩
    | none =>
      by_cases hq : c = '"'
      · subst hq
        obtain ⟨body, rest, text, rfl, hbody, rfl | ⟨q, ds, rfl⟩ | ⟨q, e, r, ds, rfl, he⟩⟩ :=
          exists_unescapes h.tail
        · exact ⟨_, by simpa using .unterminated hbody⟩
        · obtain ⟨xs, hxs⟩ := exists_segments final ds h.tail.of_append.tail
          exact ⟨_, .string hbody hxs⟩
        · obtain ⟨xs, hxs⟩ := exists_segments final ds h.tail.of_append.tail.tail
          exact ⟨_, .unknownEscape hbody he hxs⟩
      · obtain ⟨w, rest, rfl, hw, hrest⟩ := exists_span (fun x => inWord x.1) cs
        have hstarts : startsWord c = true := by simp [startsWord, hblank, hcomment, hp, hq]
        have hends : endsWord (rest.map Prod.fst) = true := by
          cases rest with
          | nil => rfl
          | cons y ds =>
            have hy := hrest y rfl
            by_cases hb : Text.isBlank y.1 = true
            · simp [endsWord, hb]
            · simpa [inWord, endsWord, hb] using hy
        obtain ⟨l, hl⟩ := exists_classifies (c :: w.map Prod.fst)
        obtain ⟨xs, hxs⟩ := exists_segments final rest h.tail.of_append
        exact ⟨_, .word hstarts hw hends hl hxs⟩
termination_by cs.length

theorem exists_beginsWith (final : Place) {cs : List (Char × Place)} (h : NoLooseEscape cs) :
    ∃ x, BeginsWith final cs x := by
  obtain ⟨xs, hxs⟩ := exists_segments final cs h
  obtain ⟨-, rfl⟩ | ⟨x, ys, _, _, rfl, -⟩ := hxs.consume_gap
  · exact ⟨_, _, hxs⟩
  · exact ⟨x, ys, hxs⟩

/-- What a stream yields is what its characters are divided into, and no other division is one. -/
theorem TokenStream.drain_eq_iff {σ : Type} [Source σ] (ts : TokenStream σ)
    (h : NoLooseEscape ts.chars) {xs : List (Except ScanError Token)} :
    ts.drain = xs ↔ Segments ts.endPlace ts.chars xs := by
  refine ⟨?_, fun hxs => drain_of_segments hxs ts rfl rfl⟩
  rintro rfl
  obtain ⟨xs, hxs⟩ := exists_segments ts.endPlace ts.chars h
  rwa [drain_of_segments hxs ts rfl rfl]

theorem EndsLine.noLooseEscape {cs : List (Char × Place)} (h : EndsLine cs) : NoLooseEscape cs := by
  intro x hx hslash
  rw [h x hx] at hslash
  cases hslash

/-- Lines are divided into blanks, comments and the texts of the tokens and errors that scanning
yields, in this order, without a character left over. Each of them is reported at its line and
column, and the end of input at the start of the line after the last. -/
theorem TokenStream.drain_eq_iff_segments (lines : List String)
    (xs : List (Except ScanError Token)) :
    ({ source := LineReader.ofLines lines } : TokenStream LineReader).drain = xs ↔
      Segments ⟨lines.length, 0⟩ (placedLines 0 (lines.map completed)) xs := by
  have hchars : ({ source := LineReader.ofLines lines } : TokenStream LineReader).chars =
      placedLines 0 (lines.map completed) := LineReader.chars_ofLines lines
  have hend : ({ source := LineReader.ofLines lines } : TokenStream LineReader).endPlace =
      ⟨lines.length, 0⟩ := LineReader.endPlace_ofLines lines
  have hends := LineReader.endsLine_chars (LineReader.endsLine_of_rest (r := .ofLines lines) rfl)
  rw [← hchars, ← hend]
  refine drain_eq_iff _ ?_
  exact hends.noLooseEscape

end Lisplet
