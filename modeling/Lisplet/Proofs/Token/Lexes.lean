import Lisplet.Datum.Print
import Lisplet.Proofs.Token.Scanned

/-!
Text and the lexemes it is scanned to, whatever the places of its characters.
The text of a lexeme can be put in front of any text that does not prolong it:
a word needs a blank or a delimiter after it, or the end of input, and all else
needs nothing.
-/
namespace Lisplet

/-- The characters are scanned to these tokens and then to the end of input at `final`. -/
inductive Scans (final : Place) : List (Char × Place) → List Token → Prop where
  | eof {cs rest : List (Char × Place)} :
      Scan.gap.consume final cs = (.ok ⟨.eof, final⟩, rest) → Scans final cs []
  | token {cs rest : List (Char × Place)} {t : Token} {ts : List Token} :
      Scan.gap.consume final cs = (.ok t, rest) → Scans final rest ts → Scans final cs (t :: ts)

theorem Scans.congr {final : Place} {cs ds : List (Char × Place)} {ts : List Token}
    (he : Scan.gap.consume final cs = Scan.gap.consume final ds) (h : Scans final ds ts) :
    Scans final cs ts := by
  cases h with
  | eof h => exact .eof (he.trans h)
  | token h hs => exact .token (he.trans h) hs

def Lexes (cs : List Char) (ls : List Lexeme) : Prop :=
  ∀ (final : Place) (ps : List (Char × Place)), ps.map Prod.fst = cs →
    ∃ ts, Scans final ps ts ∧ ts.map Token.lexeme = ls

theorem lexes_nil : Lexes [] [] := by
  intro final ps hps
  obtain rfl : ps = [] := by simpa using hps
  exact ⟨[], .eof rfl, rfl⟩

theorem lexes_blank {c : Char} {cs : List Char} {ls : List Lexeme} (hc : Text.isBlank c = true)
    (h : Lexes cs ls) : Lexes (c :: cs) ls := by
  intro final ps hps
  obtain ⟨⟨c', place⟩, qs, rfl, rfl, hqs⟩ := List.map_eq_cons_iff.1 hps
  obtain ⟨ts, hts, hls⟩ := h final qs hqs
  refine ⟨ts, hts.congr ?_, hls⟩
  simp only at hc
  simp [Scan.consume, Scan.step, hc]

/-- A character that is a token by itself begins no gap. -/
theorem step_gap_punctuation {c : Char} {lexeme : Lexeme}
    (hc : Lexeme.ofPunctuation? c = some lexeme) (place : Place) :
    Scan.gap.step c place = .done ⟨lexeme, place⟩ := by
  unfold Lexeme.ofPunctuation? at hc
  split at hc
  all_goals cases hc
  all_goals rfl

theorem lexes_punctuation {c : Char} {lexeme : Lexeme} {cs : List Char} {ls : List Lexeme}
    (hc : Lexeme.ofPunctuation? c = some lexeme) (h : Lexes cs ls) :
    Lexes (c :: cs) (lexeme :: ls) := by
  intro final ps hps
  obtain ⟨⟨c', place⟩, qs, rfl, rfl, hqs⟩ := List.map_eq_cons_iff.1 hps
  obtain ⟨ts, hts, hls⟩ := h final qs hqs
  refine ⟨⟨lexeme, place⟩ :: ts, .token ?_ hts, by simp [hls]⟩
  simp [Scan.consume, step_gap_punctuation hc]

def inWord (c : Char) : Bool := !Text.isBlank c && !Scan.isDelimiter c

def startsWord (c : Char) : Bool :=
  !Text.isBlank c && c ≠ ';' && (Lexeme.ofPunctuation? c).isNone && c ≠ '"'

/-- A text that is one word when it stands alone. -/
def isWord : List Char → Bool
  | [] => false
  | c :: cs => startsWord c && cs.all inWord

def endsWord : List Char → Bool
  | [] => true
  | c :: _ => Text.isBlank c || Scan.isDelimiter c

/-- A word is scanned up to the first character that does not go on with it. -/
theorem consume_word (final start : Place) (seen : List Char) {ps qs : List (Char × Place)}
    (hps : (ps.map Prod.fst).all inWord = true) (hqs : endsWord (qs.map Prod.fst) = true) :
    ∃ rest, (Scan.word start seen).consume final (ps ++ qs) =
        (.ok (Scan.wordToken start ((ps.map Prod.fst).reverse ++ seen)), rest) ∧
      Scan.gap.consume final qs = Scan.gap.consume final rest := by
  induction ps generalizing seen with
  | nil =>
    cases qs with
    | nil => exact ⟨[], rfl, rfl⟩
    | cons q qs =>
      obtain ⟨c, place⟩ := q
      by_cases hb : Text.isBlank c = true
      · -- a blank is dropped with the word, and a gap would drop it as well
        exact ⟨qs, by simp [Scan.consume, Scan.step, hb], by simp [Scan.consume, Scan.step, hb]⟩
      · have hd : Scan.isDelimiter c = true := by simpa [endsWord, hb] using hqs
        exact ⟨(c, place) :: qs, by simp [Scan.consume, Scan.step, hb, hd], rfl⟩
  | cons p ps ih =>
    obtain ⟨c, place⟩ := p
    simp only [List.map_cons, List.all_cons, inWord, Bool.and_eq_true, Bool.not_eq_true'] at hps
    obtain ⟨⟨hb, hd⟩, hps⟩ := hps
    obtain ⟨rest, hconsume, hgap⟩ := ih (c :: seen) (by simpa [inWord] using hps)
    refine ⟨rest, ?_, hgap⟩
    simp [Scan.consume, Scan.step, hb, hd, hconsume]

theorem step_gap_word {c : Char} (hc : startsWord c = true) (place : Place) :
    Scan.gap.step c place = .go (.word place [c]) := by
  simp only [startsWord, Bool.and_eq_true, Bool.not_eq_true', decide_eq_true_eq,
    Option.isNone_iff_eq_none, ne_eq] at hc
  obtain ⟨⟨⟨hb, hs⟩, hp⟩, hq⟩ := hc
  simp [Scan.step, Scan.first, hb, hs, hp, hq]

theorem lexes_word {w cs : List Char} {ls : List Lexeme} (hw : isWord w = true)
    (hcs : endsWord cs = true) (h : Lexes cs ls) : Lexes (w ++ cs) (Lexeme.ofWord w :: ls) := by
  intro final ps hps
  obtain ⟨ws, qs, rfl, rfl, rfl⟩ := List.map_eq_append_iff.1 hps
  cases ws with
  | nil => cases hw
  | cons p ws =>
    obtain ⟨c, place⟩ := p
    simp only [List.map_cons, isWord, Bool.and_eq_true] at hw
    obtain ⟨hc, hws⟩ := hw
    obtain ⟨rest, hconsume, hgap⟩ := consume_word final place [c] hws hcs
    obtain ⟨ts, hts, hls⟩ := h final qs rfl
    have hfirst : Scan.gap.consume final ((c, place) :: ws ++ qs) =
        (.ok (Scan.wordToken place ((ws.map Prod.fst).reverse ++ [c])), rest) := by
      simp only [List.cons_append, Scan.consume, step_gap_word hc]
      exact hconsume
    exact ⟨_, .token hfirst (hts.congr hgap.symm), by simp [Scan.wordToken, hls]⟩

/-- The characters between the quotes of a string, as far as they are written, and the text that
they stand for. -/
inductive Unescapes : List Char → List Char → Prop where
  | nil : Unescapes [] []
  | plain {c : Char} {cs text : List Char} :
      c ≠ '"' → c ≠ '\\' → Unescapes cs text → Unescapes (c :: cs) (c :: text)
  | escape {e c : Char} {cs text : List Char} :
      (e, c) ∈ [('n', '\n'), ('\\', '\\'), ('"', '"')] → Unescapes cs text →
      Unescapes ('\\' :: e :: cs) (c :: text)

theorem unescape?_eq_some_iff {e c : Char} :
    Scan.unescape? e = some c ↔ (e, c) ∈ [('n', '\n'), ('\\', '\\'), ('"', '"')] := by
  unfold Scan.unescape?
  split <;> simp_all [eq_comm]

theorem unescape?_eq_none_iff {e : Char} :
    Scan.unescape? e = none ↔ e ∉ ['n', '\\', '"'] := by
  unfold Scan.unescape?
  split <;> simp_all

namespace Scan

/-- The scan of a string passes over what is written and has seen what it stands for. -/
theorem consume_unescapes {final start : Place} {written text : List Char} (h : Unescapes written text)
    {body cs : List (Char × Place)} (hbody : body.map Prod.fst = written) (seen : List Char) :
    (string start seen).consume final (body ++ cs) =
      (string start (text.reverse ++ seen)).consume final cs := by
  induction h generalizing body seen with
  | nil =>
    obtain rfl := List.map_eq_nil_iff.1 hbody
    rfl
  | @plain c _ _ hq hb _ ih =>
    obtain ⟨⟨c', p⟩, rest, rfl, rfl, hrest⟩ := List.map_eq_cons_iff.1 hbody
    simp only at hq hb ih
    simp [consume, step, hq, hb, ih hrest]
  | @escape e c _ _ he _ ih =>
    obtain ⟨⟨b, p⟩, rest, rfl, hb, hrest⟩ := List.map_eq_cons_iff.1 hbody
    obtain ⟨⟨e', q⟩, rest, rfl, rfl, hrest'⟩ := List.map_eq_cons_iff.1 hrest
    simp only at hb he
    simp [consume, step, hb, unescape?_eq_some_iff.2 he, ih hrest']

/-- A scan that meets a quote is inside a string. -/
theorem consume_quote (final p : Place) {text : List Char} {body : List (Char × Place)}
    (h : Unescapes (body.map Prod.fst) text) (cs : List (Char × Place)) :
    gap.consume final (('"', p) :: (body ++ cs)) =
      (string p (text.reverse ++ [])).consume final cs :=
  consume_unescapes h rfl []

theorem consume_string (final p q : Place) {text : List Char} {body : List (Char × Place)}
    (h : Unescapes (body.map Prod.fst) text) (cs : List (Char × Place)) :
    gap.consume final (('"', p) :: (body ++ ('"', q) :: cs)) =
      (.ok ⟨.str (String.ofList text), p⟩, cs) := by
  rw [consume_quote final p h]
  simp [consume, step, stringToken]

end Scan

/-- An escape sequence is read as the character it was written for; any other character stands
for itself and does not end the string. -/
theorem escape_cases (c : Char) :
    (∃ e, Datum.escape c = ['\\', e] ∧ (e, c) ∈ [('n', '\n'), ('\\', '\\'), ('"', '"')]) ∨
      (Datum.escape c = [c] ∧ c ≠ '"' ∧ c ≠ '\\') := by
  unfold Datum.escape
  split
  next => exact .inl ⟨'"', rfl, by decide⟩
  next => exact .inl ⟨'\\', rfl, by decide⟩
  next => exact .inl ⟨'n', rfl, by decide⟩
  next hq hb _ => exact .inr ⟨rfl, hq, hb⟩

/-- What a text is written as stands for the text. -/
theorem unescapes_escape (text : List Char) : Unescapes (text.flatMap Datum.escape) text := by
  induction text with
  | nil => exact .nil
  | cons c text ih =>
    rw [List.flatMap_cons]
    rcases escape_cases c with ⟨e, he, hc⟩ | ⟨he, hq, hb⟩
    · rw [he]
      exact .escape hc ih
    · rw [he]
      exact .plain hq hb ih

/-- A quoted text is scanned back to the text, whatever it holds. -/
theorem lexes_quoted {cs : List Char} {ls : List Lexeme} (text : String) (h : Lexes cs ls) :
    Lexes (Datum.quoted text ++ cs) (.str text :: ls) := by
  intro final ps hps
  obtain ⟨ws, qs, rfl, hws, rfl⟩ := List.map_eq_append_iff.1 hps
  obtain ⟨⟨c, place⟩, ws', rfl, rfl, hws'⟩ := List.map_eq_cons_iff.1 hws
  obtain ⟨body, ends, rfl, hbody, hends⟩ := List.map_eq_append_iff.1 hws'
  obtain ⟨⟨c, q⟩, rfl, rfl⟩ := List.map_eq_singleton_iff.1 hends
  obtain ⟨ts, hts, hls⟩ := h final qs rfl
  have hunescapes : Unescapes (body.map Prod.fst) text.toList := by
    rw [hbody]
    exact unescapes_escape text.toList
  have hfirst := Scan.consume_string final place q hunescapes qs
  rw [String.ofList_toList] at hfirst
  refine ⟨⟨.str text, place⟩ :: ts, .token ?_ hts, by simp [hls]⟩
  simpa using hfirst

end Lisplet
