import Lisplet.Datum.Print
import Lisplet.Datum.Same

/-!
The shape of a datum, which is the datum without its places and with no more of
a built-in form than its name and arity. Two data are equal if they have one
shape, so equality is an equivalence, and equal data are written alike and have
one type.
-/
namespace Lisplet

namespace Datum

mutual

/-- What equality looks at: no place, and of a built-in form its name and arity only. -/
def shape : Datum → Datum
  | nil _ => nil default
  | type _ ty => type default ty
  | bool _ b => bool default b
  | int _ n => int default n
  | str _ text => str default text
  | ident _ name => ident default name
  | quote _ inner => quote default (shape inner)
  | list _ items => list default (shapeAll items)
  | builtin _ b => builtin default ⟨b.name, .host 0 b.arity⟩
  | func _ name params body => func default name params (shape body)

def shapeAll : List Datum → List Datum
  | [] => []
  | d :: ds => shape d :: shapeAll ds

end

mutual

theorem same_iff_shape_eq : ∀ a b : Datum, same a b = true ↔ shape a = shape b
  | .quote _ a, b => by cases b <;> simp [same, shape, same_iff_shape_eq a]
  | .list _ as, b => by cases b <;> simp [same, shape, sameAll_iff_shapeAll_eq as]
  | .func _ _ _ a, b => by cases b <;> simp [same, shape, same_iff_shape_eq a, and_assoc]
  | .builtin _ b, c => by cases c <;> simp [same, shape, Builtin.same]
  | .nil _, b | .type _ _, b | .bool _ _, b | .int _ _, b | .str _ _, b | .ident _ _, b => by
    cases b <;> simp [same, shape]

theorem sameAll_iff_shapeAll_eq : ∀ as bs : List Datum,
    sameAll as bs = true ↔ shapeAll as = shapeAll bs
  | [], bs => by cases bs <;> simp [sameAll, shapeAll]
  | a :: as, bs => by
    cases bs <;> simp [sameAll, shapeAll, same_iff_shape_eq a, sameAll_iff_shapeAll_eq as]

end

theorem beq_iff_shape_eq {a b : Datum} : (a == b) = true ↔ shape a = shape b :=
  same_iff_shape_eq a b

theorem typeOf_shape : ∀ d : Datum, d.shape.typeOf = d.typeOf
  | .quote _ inner => by rw [shape, typeOf, typeOf, typeOf_shape inner]
  | .nil _ | .type _ _ | .bool _ _ | .int _ _ | .str _ _ | .ident _ _ | .list _ _ | .builtin _ _
  | .func _ _ _ _ => rfl

mutual

theorem chars_shape : ∀ d : Datum, d.shape.chars = d.chars
  | .quote _ inner => by rw [shape, chars, chars, chars_shape inner]
  | .list _ items => by rw [shape, chars, chars, charsAll_shapeAll items]
  | .bool _ true | .bool _ false => rfl
  | .nil _ | .type _ _ | .int _ _ | .str _ _ | .ident _ _ | .builtin _ _ | .func _ _ _ _ => rfl

theorem charsAll_shapeAll : ∀ ds : List Datum, charsAll (shapeAll ds) = charsAll ds
  | [] => rfl
  | [d] => by rw [shapeAll, shapeAll, charsAll, charsAll, chars_shape d]
  | d :: e :: rest => by
    have ih := charsAll_shapeAll (e :: rest)
    rw [shapeAll] at ih ⊢
    rw [shapeAll, charsAll, charsAll, chars_shape d, ih]

end

theorem toString_eq_of_shape_eq {a b : Datum} (h : a.shape = b.shape) :
    toString a = toString b := by
  apply congrArg String.ofList
  rw [← chars_shape a, h, chars_shape b]

/-- Equality is that of the shapes. -/
theorem equivalence_beq : Equivalence fun a b : Datum => (a == b) = true := by
  constructor
  · intro a
    exact beq_iff_shape_eq.2 rfl
  · intro a b hab
    exact beq_iff_shape_eq.2 (beq_iff_shape_eq.1 hab).symm
  · intro a b c hab hbc
    exact beq_iff_shape_eq.2 ((beq_iff_shape_eq.1 hab).trans (beq_iff_shape_eq.1 hbc))

end Datum

end Lisplet
