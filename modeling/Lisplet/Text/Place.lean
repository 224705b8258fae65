import Lisplet.Text.Numeral

/-!
Places in a text. Lines and columns are counted from zero and a column counts
characters. People count from one, so the written form does as well.
-/
namespace Lisplet

structure Place where
  line : Nat
  col : Nat
  deriving DecidableEq, Repr

namespace Place

/-- The place of a value that was not read from any text. -/
instance : Inhabited Place := ⟨⟨0, 0⟩⟩

/-- Reading order: by line, and by column within a line. -/
instance : Ord Place where
  compare a b := (compare a.line b.line).then (compare a.col b.col)

/-- `line:column`, both counted from one. -/
def chars (l : Place) : List Char :=
  Text.Numeral.digits (l.line + 1) ++ ':' :: Text.Numeral.digits (l.col + 1)

instance : ToString Place := ⟨fun l => String.ofList l.chars⟩

end Place

/-- Something together with the place at which it is reported. -/
structure Located (α : Type) where
  what : α
  place : Place
  deriving DecidableEq, Repr

namespace Located

def map (f : α → β) (x : Located α) : Located β := ⟨f x.what, x.place⟩

@[simp] theorem what_map (f : α → β) (x : Located α) : (x.map f).what = f x.what := rfl
@[simp] theorem place_map (f : α → β) (x : Located α) : (x.map f).place = x.place := rfl

end Located
end Lisplet
