import Lisplet.Proofs.Text.Lines
import Lisplet.Proofs.Token.Lexes

/-!
Names are the texts that are scanned as identifiers. A scan that is inside a
word has seen a word so far, so an identifier that it yields is a name; and the
text of a name, standing alone, yields that identifier.
-/
namespace Lisplet

def isName (name : String) : Bool :=
  isWord name.toList && decide (Lexeme.ofWord name.toList = .ident name)

theorem lexes_name {name : String} {cs : List Char} {ls : List Lexeme} (h : isName name = true)
    (hcs : endsWord cs = true) (hls : Lexes cs ls) :
    Lexes (name.toList ++ cs) (.ident name :: ls) := by
  simp only [isName, Bool.and_eq_true, decide_eq_true_eq] at h
  rw [← h.2]
  exact lexes_word h.1 hcs hls

theorem isWord_concat {cs : List Char} {c : Char} (h : isWord cs = true)
    (hc : inWord c = true) : isWord (cs ++ [c]) = true := by
  cases cs with
  | nil => cases h
  | cons d cs =>
    rw [isWord, Bool.and_eq_true] at h
    simp [isWord, h.1, h.2, hc]

theorem isName_of_ofWord {cs : List Char} {name : String} (hw : isWord cs = true)
    (h : Lexeme.ofWord cs = .ident name) : isName name = true := by
  have hname : String.ofList cs = name := by
    simp only [Lexeme.ofWord] at h
    repeat' split at h
    all_goals
      cases h
    rfl
  rw [← hname] at h ⊢
  simp [isName, hw, h]

namespace Scan

def Sound : Scan → Prop
  | word _ seen => isWord seen.reverse = true
  | _ => True

def NamesOnly (lexeme : Lexeme) : Prop := ∀ name, lexeme = .ident name → isName name = true

/-- The scan goes on soundly, or completes no identifier that is not a name. -/
def Move.Sound : Move → Prop
  | go next => next.Sound
  | done token | hold token => NamesOnly token.lexeme
  | fail _ => True

theorem namesOnly_word {start : Place} {seen : List Char} (h : (word start seen).Sound) :
    NamesOnly (wordToken start seen).lexeme := fun _ => isName_of_ofWord h

theorem namesOnly_punctuation {c : Char} {lexeme : Lexeme}
    (h : Lexeme.ofPunctuation? c = some lexeme) : NamesOnly lexeme := by
  intro name hname
  subst hname
  unfold Lexeme.ofPunctuation? at h
  split at h <;> cases h

theorem sound_first {c : Char} (place : Place) (hb : Text.isBlank c = false) (hc : c ≠ ';') :
    (first c place).Sound := by
  unfold first
  split
  next lexeme hp => exact namesOnly_punctuation hp
  next hp =>
    split
    next => trivial
    next hq => simp [Move.Sound, Scan.Sound, isWord, startsWord, hb, hc, hp, hq]

/-- What has been seen of a word stays such that it can be a name as a whole. -/
theorem sound_step {s : Scan} (h : s.Sound) (c : Char) (place : Place) :
    (s.step c place).Sound := by
  cases s with
  | gap =>
    simp only [step]
    split
    next => trivial
    next hb =>
      split
      next => trivial
      next hc => exact sound_first place (by simpa using hb) hc
  | comment =>
    simp only [step]
    split <;> trivial
  | word start seen =>
    simp only [step]
    split
    next => exact namesOnly_word h
    next hb =>
      split
      next => exact namesOnly_word h
      next hd =>
        have hword := isWord_concat h (c := c) (by simp [inWord, hb, hd])
        simpa [Move.Sound, Scan.Sound] using hword
  | string start seen =>
    simp only [step]
    split
    next => exact fun _ hname => by cases hname
    next => split <;> trivial
  | escape start seen slash =>
    simp only [step]
    split <;> trivial

/-- Every identifier that is scanned is a name. -/
theorem isName_of_consume {s : Scan} {final place : Place} {ps rest : List (Char × Place)}
    {name : String} (hs : s.Sound) (h : s.consume final ps = (.ok ⟨.ident name, place⟩, rest)) :
    isName name = true := by
  induction ps generalizing s with
  | nil =>
    obtain ⟨hfinish, -⟩ := Prod.mk.inj h
    cases s with
    | word start seen =>
      have hlexeme : (wordToken start seen).lexeme = .ident name :=
        congrArg Token.lexeme (Except.ok.inj hfinish)
      exact namesOnly_word hs name hlexeme
    | gap | comment | string | escape => cases hfinish
  | cons p ps ih =>
    have hmove := sound_step hs p.1 p.2
    simp only [consume] at h
    split at h
    next next hstep =>
      rw [hstep] at hmove
      exact ih hmove h
    next token hstep =>
      rw [hstep] at hmove
      cases h
      exact hmove name rfl
    next token hstep =>
      rw [hstep] at hmove
      cases h
      exact hmove name rfl
    next => cases h

end Scan

end Lisplet
