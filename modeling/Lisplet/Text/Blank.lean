/-!
Two notions of white space. Between tokens only four characters are skipped.
Whether the rest of a line is empty is asked with the Unicode property
White_Space, which has 25 characters; the four are among them.
-/
namespace Lisplet.Text

def isBlank (c : Char) : Bool :=
  c = ' ' || c = '\t' || c = '\n' || c = '\r'

/-- The first and last code point of each range of the property White_Space. -/
def whiteSpace : List (Nat × Nat) :=
  [(0x09, 0x0D), (0x20, 0x20), (0x85, 0x85), (0xA0, 0xA0), (0x1680, 0x1680),
   (0x2000, 0x200A), (0x2028, 0x2029), (0x202F, 0x202F), (0x205F, 0x205F),
   (0x3000, 0x3000)]

def isWhiteSpace (c : Char) : Bool :=
  whiteSpace.any fun (lo, hi) => lo ≤ c.toNat && c.toNat ≤ hi

theorem isWhiteSpace_of_isBlank {c : Char} (h : isBlank c = true) : isWhiteSpace c = true := by
  simp only [isBlank, Bool.or_eq_true, decide_eq_true_eq] at h
  rcases h with ((rfl | rfl) | rfl) | rfl <;> decide

example : (whiteSpace.map fun (lo, hi) => hi + 1 - lo).sum = 25 := by decide

end Lisplet.Text
