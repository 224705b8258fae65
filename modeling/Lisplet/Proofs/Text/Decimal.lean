import Lisplet.Proofs.Grammar.Derives
import Lisplet.Proofs.Token.Segments
import Mathlib.Data.List.Induction
import Mathlib.Data.Nat.Digits.Defs

/-!
What a numeral denotes: the sum of its digits, each times its power of ten, with
the sign that stands in front of them. Leading zeros add nothing, and there is no
limit to the number of digits; the limit is only on the value of a word.
-/
namespace Lisplet

namespace Text.Numeral

def digit (c : Char) : Nat := c.toNat - '0'.toNat

def decimal (cs : List Char) : Nat := Nat.ofDigits 10 (cs.reverse.map digit)

def AreDigits (cs : List Char) : Prop := cs ≠ [] ∧ ∀ c ∈ cs, c.isDigit = true

/-- The text is a numeral and this is its value. -/
inductive Denotes : List Char → Int → Prop where
  | unsigned {cs : List Char} : AreDigits cs → Denotes cs (decimal cs)
  | plus {cs : List Char} : AreDigits cs → Denotes ('+' :: cs) (decimal cs)
  | minus {cs : List Char} : AreDigits cs → Denotes ('-' :: cs) (-decimal cs)

def InRange (v : Int) : Prop := -2 ^ 63 ≤ v ∧ v < 2 ^ 63

instance (v : Int) : Decidable (InRange v) := inferInstanceAs (Decidable (_ ∧ _))

theorem ofDigitChars_eq_decimal (cs : List Char) : Nat.ofDigitChars 10 cs 0 = decimal cs := by
  induction cs using List.reverseRecOn with
  | nil => rfl
  | append_singleton cs c ih =>
    rw [Nat.ofDigitChars_append, ih, Nat.ofDigitChars_cons, Nat.ofDigitChars_nil, decimal, decimal,
      List.reverse_concat, List.map_cons, Nat.ofDigits_cons, digit]
    exact Nat.add_comm ..

theorem magnitude?_eq_some_iff {cs : List Char} {n : Nat} :
    magnitude? cs = some n ↔ AreDigits cs ∧ decimal cs = n := by
  rw [magnitude?, ofDigitChars_eq_decimal]
  simp [AreDigits]

/-- The value of a text is what it denotes in base ten, and other texts have none. -/
theorem value?_eq_some_iff {cs : List Char} {v : Int} : value? cs = some v ↔ Denotes cs v := by
  constructor
  · intro h
    unfold value? at h
    split at h
    all_goals
      obtain ⟨n, hn, rfl⟩ := Option.map_eq_some_iff.1 h
      obtain ⟨hdigits, rfl⟩ := magnitude?_eq_some_iff.1 hn
    · exact .plus hdigits
    · exact .minus hdigits
    · exact .unsigned hdigits
  · intro h
    cases h with
    | unsigned h => exact value?_of_magnitude? (magnitude?_eq_some_iff.2 ⟨h, rfl⟩)
    | plus h => simp [value?, magnitude?_eq_some_iff.2 ⟨h, rfl⟩]
    | minus h => simp [value?, magnitude?_eq_some_iff.2 ⟨h, rfl⟩]

/-- A numeral has one value. -/
theorem Denotes.unique {cs : List Char} {v w : Int} (h : Denotes cs v) (h' : Denotes cs w) :
    v = w := by
  rw [← value?_eq_some_iff] at h h'
  exact Option.some.inj (h.symm.trans h')

theorem isNumeral_iff_denotes {cs : List Char} : isNumeral cs = true ↔ ∃ v, Denotes cs v := by
  rw [isNumeral, Option.isSome_iff_exists]
  exact exists_congr fun _ => value?_eq_some_iff

theorem word64?_iff_denotes {cs : List Char} {n : Int64} :
    word64? cs = some n ↔ Denotes cs n.toInt :=
  word64?_eq_some_iff.trans value?_eq_some_iff

/-- A numeral with a value in range is a word of this value. -/
theorem Denotes.exists_word {cs : List Char} {v : Int} (h : Denotes cs v) (hv : InRange v) :
    ∃ n : Int64, n.toInt = v ∧ word64? cs = some n := by
  have hn : (Int64.ofInt v).toInt = v := Int64.toInt_ofInt_of_le hv.1 hv.2
  exact ⟨.ofInt v, hn, word64?_iff_denotes.2 (by rwa [hn])⟩

theorem Denotes.no_word {cs : List Char} {v : Int} (h : Denotes cs v) (hv : ¬ InRange v) :
    word64? cs = none := by
  cases hn : word64? cs with
  | none => rfl
  | some n =>
    have hv' := h.unique (word64?_iff_denotes.1 hn)
    rw [hv'] at hv
    exact absurd ⟨n.le_toInt, n.toInt_lt⟩ hv

/-- A numeral is one word, with nothing in it that would end a word. -/
theorem Denotes.isWord {cs : List Char} {v : Int} (h : Denotes cs v) : isWord cs = true := by
  have hall : ∀ {ds : List Char}, AreDigits ds → ds.all inWord = true := fun hd =>
    List.all_eq_true.2 fun c hc => (startsWord_of_isDigit (hd.2 c hc)).2
  cases h with
  | plus h | minus h =>
    rw [Lisplet.isWord, hall h]
    decide
  | unsigned h =>
    cases cs with
    | nil => exact absurd rfl h.1
    | cons c cs =>
      have htail := hall h
      rw [List.all_cons, Bool.and_eq_true] at htail
      rw [Lisplet.isWord, (startsWord_of_isDigit (h.2 c List.mem_cons_self)).1, htail.2]
      rfl

end Text.Numeral

/-- A word is an integer token if it is a numeral, and then the token has it as it is written. -/
theorem Lexeme.ofWord_eq_int_iff {cs : List Char} {word : String} :
    ofWord cs = .int word ↔ word = String.ofList cs ∧ ∃ v, Text.Numeral.Denotes cs v := by
  rw [← Text.Numeral.isNumeral_iff_denotes]
  constructor
  · intro h
    simp only [ofWord] at h
    repeat' split at h
    all_goals
      cases h
    next hnumeral => exact ⟨rfl, hnumeral⟩
  · rintro ⟨rfl, h⟩
    exact ofWord_of_isNumeral h

end Lisplet
