import Lisplet.Builtin
import Lisplet.Text.Place
import Lisplet.Ty

/-!
A datum is an expression and a value as well: evaluating one yields another.
Each keeps the place it was read or computed at. Only the last two kinds, the
callable ones, have no written form that can be read.
-/
namespace Lisplet

inductive Datum where
  | nil (place : Place)
  /-- A type literal. -/
  | type (place : Place) (ty : Ty)
  | bool (place : Place) (b : Bool)
  | int (place : Place) (n : Int64)
  | str (place : Place) (text : String)
  | ident (place : Place) (name : String)
  /-- A quote suspends the evaluation of what it holds. -/
  | quote (place : Place) (inner : Datum)
  | list (place : Place) (items : List Datum)
  | builtin (place : Place) (form : Builtin)
  /-- A function owns its parameters and its body, and no scope. An anonymous function
  has the empty name. -/
  | func (place : Place) (name : String) (params : List String) (body : Datum)
  deriving Repr

namespace Datum

instance : Inhabited Datum := ⟨.nil default⟩

def place : Datum → Place
  | nil p | type p _ | bool p _ | int p _ | str p _ | ident p _ | quote p _ | list p _
  | builtin p _ | func p _ _ _ => p

def ident? : Datum → Option String
  | ident _ name => some name
  | _ => none

def list? : Datum → Option (List Datum)
  | list _ items => some items
  | _ => none

def isCallable : Datum → Bool
  | builtin .. | func .. => true
  | _ => false

/-- The structural type of a datum. The elements of a list are not looked at. -/
def typeOf : Datum → Ty
  | nil _ => .atom .nil
  | type .. => .atom .type
  | bool .. => .atom .bool
  | int .. => .atom .int
  | str .. => .atom .str
  | ident .. => .atom .sym
  | quote _ inner => .quoted inner.typeOf
  | list .. => .listOf (.atom .any)
  | builtin .. | func .. => .atom .func

/-- Where a wrong number of arguments is reported: at the head of the call. -/
def headPlace : Datum → Place
  | list _ (head :: _) => head.place
  | d => d.place

end Datum
end Lisplet
