import Lisplet.Text.Place

/-!
Sources of characters. A source hands out one character at a time and can say
where it is, without saying whether more text is on its way. Every source is
finite: `left` bounds what it can still hand out, and it falls with every
character.
-/
namespace Lisplet

class Source (σ : Type) where
  /-- The next character and the source after it; nothing at the end of input. -/
  next? : σ → Option (Char × σ)
  /-- Where the next character stands. -/
  place : σ → Place
  /-- The text of a line that has been read, without its line ends. -/
  line? : σ → Nat → Option String
  /-- Only white space or a comment is left on the current line. -/
  atLineEnd : σ → Bool
  /-- Give up what is left of the current line. -/
  skipLine : σ → σ
  left : σ → Nat
  left_next? : ∀ {s s' : σ} {c : Char}, next? s = some (c, s') → left s' < left s
  left_skipLine : ∀ s : σ, left (skipLine s) ≤ left s

end Lisplet
