/-!
Structural types, as written after a dollar sign. Types are read, printed and
compared; nothing normalizes a union or resolves a placeholder, so the order
and the grouping of a union are part of its identity.
-/
namespace Lisplet

inductive Atom where
  | nil | type | bool | int | str | sym | func | any
  deriving DecidableEq, Repr, Inhabited

namespace Atom

def word : Atom → String
  | nil => "nil"
  | type => "type"
  | bool => "bool"
  | int => "int"
  | str => "str"
  | sym => "sym"
  | func => "func"
  | any => "any"

def all : List Atom := [nil, type, bool, int, str, sym, func, any]

def ofWord? (w : String) : Option Atom := all.find? fun a => a.word = w

theorem ofWord?_word (a : Atom) : ofWord? a.word = some a := by
  cases a <;> decide

end Atom

inductive Ty where
  | atom (a : Atom)
  | quoted (inner : Ty)
  | listOf (inner : Ty)
  /-- A named placeholder. -/
  | infer (name : String)
  | union (left right : Ty)
  deriving DecidableEq, Repr, Inhabited

namespace Ty

/-- Every union is written with its own parentheses, so the text shows the grouping. -/
def chars : Ty → List Char
  | atom a => a.word.toList
  | quoted t => '\x27' :: t.chars
  | listOf t => '[' :: (t.chars ++ [']'])
  | infer name => '?' :: name.toList
  | union l r => '(' :: (l.chars ++ (" | ".toList ++ (r.chars ++ [')'])))

instance : ToString Ty := ⟨fun t => String.ofList t.chars⟩

end Ty
end Lisplet
