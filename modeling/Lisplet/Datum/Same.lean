import Lisplet.Datum

/-!
Equality of data by structure. Places are not compared, so that a value equals
the same value read or computed elsewhere; built-in forms are compared by name
and arity alone.
-/
namespace Lisplet.Datum

mutual

def same : Datum → Datum → Bool
  | nil _, nil _ => true
  | type _ s, type _ t => s = t
  | bool _ a, bool _ b => a = b
  | int _ a, int _ b => a = b
  | str _ a, str _ b => a = b
  | ident _ a, ident _ b => a = b
  | quote _ a, quote _ b => same a b
  | list _ as, list _ bs => sameAll as bs
  | builtin _ a, builtin _ b => a.same b
  | func _ f ps a, func _ g qs b => f = g && ps = qs && same a b
  | _, _ => false

def sameAll : List Datum → List Datum → Bool
  | [], [] => true
  | a :: as, b :: bs => same a b && sameAll as bs
  | _, _ => false

end

instance : BEq Datum := ⟨same⟩

end Lisplet.Datum
