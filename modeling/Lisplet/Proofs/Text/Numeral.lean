import Lisplet.Proofs.Token.Lexes

/-!
Written numerals. The numeral of a value denotes it, the numeral of a word
denotes a value that fits, and every numeral is a word of its own class.
-/
namespace Lisplet
namespace Text.Numeral

theorem all_isDigit_digits (n : Nat) : (digits n).all Char.isDigit = true := by
  rw [List.all_eq_true]
  exact fun c hc => Nat.isDigit_of_mem_toDigits (by decide) (by decide) hc

theorem magnitude?_digits (n : Nat) : magnitude? (digits n) = some n := by
  rw [magnitude?, if_pos ⟨Nat.toDigits_ne_nil, all_isDigit_digits n⟩, digits,
    Nat.ofDigitChars_ten_toDigits]

/-- Digits alone have no sign in front of them. -/
theorem value?_of_magnitude? {cs : List Char} {n : Nat} (h : magnitude? cs = some n) :
    value? cs = some (Int.ofNat n) := by
  unfold value?
  split
  next => simp [magnitude?] at h
  next => simp [magnitude?] at h
  next => simp [h]

theorem value?_write (n : Int) : value? (write n) = some n := by
  cases n with
  | ofNat n => exact value?_of_magnitude? (magnitude?_digits n)
  | negSucc n => simp [write, value?, magnitude?_digits, Int.negSucc_eq]

theorem isNumeral_write (n : Int) : isNumeral (write n) = true := by
  simp [isNumeral, value?_write]

theorem word64?_write (n : Int64) : word64? (write n.toInt) = some n := by
  have hfits : fitsWord n.toInt = true := by
    have hle := n.le_toInt
    have hlt := n.toInt_lt
    simp only [fitsWord, Bool.and_eq_true, decide_eq_true_eq]
    omega
  simp [word64?, value?_write, hfits]

end Text.Numeral

open Text.Numeral

theorem startsWord_of_isDigit {c : Char} (h : c.isDigit = true) :
    startsWord c = true ∧ inWord c = true := by
  have hne : ∀ x : Char, x.isDigit = false → c ≠ x := by
    rintro x hx rfl
    rw [h] at hx
    cases hx
  have hp : Lexeme.ofPunctuation? c = none := by
    unfold Lexeme.ofPunctuation?
    split
    all_goals first | rfl | exact absurd h (by decide)
  simp [startsWord, inWord, Text.isBlank, Scan.isDelimiter, hp, hne]

/-- A written numeral is one word. -/
theorem isWord_write (n : Int) : isWord (write n) = true := by
  have hall : ∀ m, (digits m).all inWord = true := by
    intro m
    rw [List.all_eq_true]
    intro c hc
    exact (startsWord_of_isDigit (List.all_eq_true.1 (all_isDigit_digits m) c hc)).2
  cases n with
  | ofNat m =>
    have hd := all_isDigit_digits m
    have ha := hall m
    rw [write]
    cases hm : digits m with
    | nil => exact absurd hm Nat.toDigits_ne_nil
    | cons c cs =>
      rw [hm] at hd ha
      simp only [List.all_cons, Bool.and_eq_true] at hd ha
      simp [isWord, startsWord_of_isDigit hd.1, ha.2]
  | negSucc m =>
    rw [write, isWord, hall]
    decide

/-- A numeral is none of the words that have a class of their own. -/
theorem ofWord_of_isNumeral {cs : List Char} (h : isNumeral cs = true) :
    Lexeme.ofWord cs = .int (String.ofList cs) := by
  have hne : ∀ word : String, isNumeral word.toList = false → word ≠ String.ofList cs := by
    rintro word hw rfl
    rw [String.toList_ofList, h] at hw
    cases hw
  have hatom : Atom.ofWord? (String.ofList cs) = none := by
    rw [Atom.ofWord?, List.find?_eq_none]
    intro a _
    have := hne a.word (by cases a <;> decide)
    simpa using this
  simp [Lexeme.ofWord, hatom, h, (hne "true" (by decide)).symm, (hne "false" (by decide)).symm]

end Lisplet
