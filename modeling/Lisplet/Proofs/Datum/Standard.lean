import Lisplet.Proofs.Grammar

/-!
Data with no built-in form but the standard ones. Functions may be any. What is
read from text has no function in it, so it is of this sort.
-/
namespace Lisplet

theorem Builtin.not_host_of_standard {b : Builtin} (hb : b ∈ standard) (key arity : Nat) :
    b.op ≠ .host key arity := by
  have hall : ∀ b ∈ standard, ∀ key arity, b.op ≠ .host key arity := by simp [standard]
  exact hall b hb key arity

namespace Datum

mutual

/-- Every built-in form in the datum is a standard one. -/
def standard : Datum → Bool
  | quote _ inner => standard inner
  | list _ items => standardAll items
  | builtin _ b => decide (b ∈ Builtin.standard)
  | func _ _ _ body => standard body
  | _ => true

def standardAll : List Datum → Bool
  | [] => true
  | d :: ds => standard d && standardAll ds

end

theorem standardAll_iff (ds : List Datum) :
    standardAll ds = true ↔ ∀ d ∈ ds, d.standard = true := by
  induction ds with
  | nil => simp [standardAll]
  | cons d ds ih => simp [standardAll, ih]

mutual

def functionFree : Datum → Bool
  | quote _ inner => functionFree inner
  | list _ items => functionFreeAll items
  | builtin .. | func .. => false
  | _ => true

def functionFreeAll : List Datum → Bool
  | [] => true
  | d :: ds => functionFree d && functionFreeAll ds

end

theorem functionFreeAll_iff (ds : List Datum) :
    functionFreeAll ds = true ↔ ∀ d ∈ ds, d.functionFree = true := by
  induction ds with
  | nil => simp [functionFreeAll]
  | cons d ds ih => simp [functionFreeAll, ih]

mutual

theorem standard_of_functionFree : ∀ d : Datum, d.functionFree = true → d.standard = true
  | .nil _, _ | .type .., _ | .bool .., _ | .int .., _ | .str .., _ | .ident .., _ => rfl
  | .quote _ inner, h => standard_of_functionFree inner h
  | .list _ items, h => standardAll_of_functionFree items h

theorem standardAll_of_functionFree : ∀ ds : List Datum, functionFreeAll ds = true →
    standardAll ds = true
  | [], _ => rfl
  | d :: ds, h => by
    rw [functionFreeAll, Bool.and_eq_true] at h
    rw [standardAll, standard_of_functionFree d h.1, standardAll_of_functionFree ds h.2]
    rfl

end

end Datum

mutual

theorem Spells.functionFree : ∀ {n : Nat} {ts : List Token} {d : Datum}, Spells n ts d →
    d.functionFree = true
  | _, _, _, .nil _ | _, _, _, .bool _ | _, _, _, .int _ _ | _, _, _, .str _
  | _, _, _, .ident _ | _, _, _, .type _ _ => rfl
  | _, _, _, .quote _ h => h.functionFree
  | _, _, _, .list _ h _ => h.functionFreeAll

theorem SpellsAll.functionFreeAll : ∀ {n : Nat} {ts : List Token} {ds : List Datum},
    SpellsAll n ts ds → Datum.functionFreeAll ds = true
  | _, _, _, .nil => rfl
  | _, _, _, .cons h hs => by
    rw [Datum.functionFreeAll, h.functionFree, hs.functionFreeAll]
    rfl

end

theorem Spells.standard {n : Nat} {ts : List Token} {d : Datum} (h : Spells n ts d) :
    d.standard = true := Datum.standard_of_functionFree d h.functionFree

end Lisplet
