import Lisplet.Proofs.Datum.Shape
import Lisplet.Proofs.Eval.Correspondence

/-!
Data with their places moved. Nothing that can be asked of a datum tells where
it stands, except its place: not its type, not its written form, and not what it
equals. Data that become one by moving their places are alike; for standard data
this is equality by structure, if all places are moved to one.
-/
namespace Lisplet

namespace Datum

variable (f g : Place → Place)

mutual

def relocate : Datum → Datum
  | nil p => nil (f p)
  | type p ty => type (f p) ty
  | bool p b => bool (f p) b
  | int p n => int (f p) n
  | str p text => str (f p) text
  | ident p name => ident (f p) name
  | quote p inner => quote (f p) (relocate inner)
  | list p items => list (f p) (relocateAll items)
  | builtin p form => builtin (f p) form
  | func p name params body => func (f p) name params (relocate body)

def relocateAll : List Datum → List Datum
  | [] => []
  | d :: ds => relocate d :: relocateAll ds

end

theorem relocateAll_eq_map (ds : List Datum) : relocateAll f ds = ds.map (relocate f) := by
  induction ds with
  | nil => rfl
  | cons d ds ih => rw [relocateAll, ih, List.map_cons]

@[simp] theorem place_relocate (d : Datum) : (d.relocate f).place = f d.place := by
  cases d <;> rfl

mutual

theorem shape_relocate : ∀ d : Datum, (d.relocate f).shape = d.shape
  | .quote _ inner => by rw [relocate, shape, shape, shape_relocate inner]
  | .list _ items => by rw [relocate, shape, shape, shapeAll_relocateAll items]
  | .func _ _ _ body => by rw [relocate, shape, shape, shape_relocate body]
  | .nil _ | .type _ _ | .bool _ _ | .int _ _ | .str _ _ | .ident _ _ | .builtin _ _ => rfl

theorem shapeAll_relocateAll : ∀ ds : List Datum, shapeAll (relocateAll f ds) = shapeAll ds
  | [] => rfl
  | d :: ds => by rw [relocateAll, shapeAll, shapeAll, shape_relocate d, shapeAll_relocateAll ds]

end

@[simp] theorem typeOf_relocate (d : Datum) : (d.relocate f).typeOf = d.typeOf := by
  rw [← typeOf_shape, shape_relocate, typeOf_shape]

@[simp] theorem toString_relocate (d : Datum) : toString (d.relocate f) = toString d :=
  toString_eq_of_shape_eq (shape_relocate f d)

@[simp] theorem same_relocate (a b : Datum) : same (a.relocate f) (b.relocate g) = same a b := by
  rw [Bool.eq_iff_iff, same_iff_shape_eq, same_iff_shape_eq, shape_relocate, shape_relocate]

/-- A name is given to a function whatever its place is. -/
theorem relocate_named (name : String) (d : Datum) :
    (Form.named name d).relocate f = Form.named name (d.relocate f) := by
  unfold Form.named
  split
  next => rfl
  next h =>
    split
    next heq => cases d <;> cases heq; exact absurd rfl (h _ _ _)
    next => rfl

/-- Standard data that are one and the same once their places are moved. -/
structure Alike (d e : Datum) : Prop where
  relocate : d.relocate f = e.relocate f
  left : d.standard = true
  right : e.standard = true

variable {f} {a b c d e : Datum}

theorem Alike.refl (h : d.standard = true) : Alike f d d := ⟨rfl, h, h⟩

theorem Alike.place (h : Alike f d e) : f d.place = f e.place := by
  simpa using congrArg Datum.place h.relocate

theorem Alike.typeOf (h : Alike f d e) : d.typeOf = e.typeOf := by
  rw [← typeOf_relocate f, h.relocate, typeOf_relocate]

theorem Alike.toString (h : Alike f d e) : ToString.toString d = ToString.toString e := by
  rw [← toString_relocate f, h.relocate, toString_relocate]

theorem Alike.same (h : Alike f a b) (h' : Alike f c d) : (a == c) = (b == d) := by
  change Datum.same a c = Datum.same b d
  rw [← same_relocate f f a c, h.relocate, h'.relocate, same_relocate]

theorem Alike.beq (h : Alike f d e) : (d == e) = true := by
  apply beq_iff_shape_eq.2
  rw [← shape_relocate f d, h.relocate, shape_relocate]

theorem Alike.named (name : String) (h : Alike f d e) :
    Alike f (Form.named name d) (Form.named name e) :=
  ⟨by rw [relocate_named, relocate_named, h.relocate], standard_named name h.left,
    standard_named name h.right⟩

theorem Alike.all {ds es : List Datum} (h : relocateAll f ds = relocateAll f es)
    (hds : standardAll ds = true) (hes : standardAll es = true) : List.Forall₂ (Alike f) ds es := by
  induction ds generalizing es with
  | nil =>
    cases es with
    | nil => exact .nil
    | cons e es => cases h
  | cons d ds ih =>
    cases es with
    | nil => cases h
    | cons e es =>
      simp only [relocateAll, List.cons.injEq] at h
      simp only [standardAll, Bool.and_eq_true] at hds hes
      exact .cons ⟨h.1, hds.1, hes.1⟩ (ih h.2 hds.2 hes.2)

/-- Data that are alike are of one kind, and their parts are alike. -/
theorem Alike.parts (h : Alike f d e) : Matches (Alike f) d e := by
  obtain ⟨h, hd, he⟩ := h
  cases d with
  | nil p =>
    cases e <;> simp only [Datum.relocate, reduceCtorEq] at h
    exact .nil p _
  | type p ty =>
    cases e <;> simp only [Datum.relocate, reduceCtorEq, Datum.type.injEq] at h
    obtain ⟨-, rfl⟩ := h
    exact .type p _ ty
  | bool p b =>
    cases e <;> simp only [Datum.relocate, reduceCtorEq, Datum.bool.injEq] at h
    obtain ⟨-, rfl⟩ := h
    exact .bool p _ b
  | int p n =>
    cases e <;> simp only [Datum.relocate, reduceCtorEq, Datum.int.injEq] at h
    obtain ⟨-, rfl⟩ := h
    exact .int p _ n
  | str p text =>
    cases e <;> simp only [Datum.relocate, reduceCtorEq, Datum.str.injEq] at h
    obtain ⟨-, rfl⟩ := h
    exact .str p _ text
  | ident p name =>
    cases e <;> simp only [Datum.relocate, reduceCtorEq, Datum.ident.injEq] at h
    obtain ⟨-, rfl⟩ := h
    exact .ident p _ name
  | quote p inner =>
    cases e <;> simp only [Datum.relocate, reduceCtorEq, Datum.quote.injEq] at h
    exact .quote p _ ⟨h.2, hd, he⟩
  | list p items =>
    cases e <;> simp only [Datum.relocate, reduceCtorEq, Datum.list.injEq] at h
    exact .list p _ (Alike.all h.2 hd he)
  | builtin p form =>
    cases e <;> simp only [Datum.relocate, reduceCtorEq, Datum.builtin.injEq] at h
    obtain ⟨-, rfl⟩ := h
    exact .builtin p _ (of_decide_eq_true hd)
  | func p name params body =>
    cases e <;> simp only [Datum.relocate, reduceCtorEq, Datum.func.injEq] at h
    obtain ⟨-, rfl, rfl, hbody⟩ := h
    exact .func p _ name params ⟨hbody, hd, he⟩

/-- The one place to which all places are moved where none of them matters. -/
def nowhere : Place → Place := fun _ => default

/-- A standard form is known by its name. -/
theorem eq_of_same_builtin {b c : Builtin} (hb : b ∈ Builtin.standard) (hc : c ∈ Builtin.standard)
    (h : b.same c = true) : b = c := by
  have hname : b.name = c.name := by
    simp only [Builtin.same, Bool.and_eq_true, decide_eq_true_eq] at h
    exact h.1
  have hall : ∀ b ∈ Builtin.standard, ∀ c ∈ Builtin.standard, b.name = c.name → b = c := by decide
  exact hall b hb c hc hname

mutual

/-- Equal standard data differ in places only. -/
theorem relocate_of_same : ∀ {d e : Datum}, d.standard = true → e.standard = true →
    Datum.same d e = true → d.relocate nowhere = e.relocate nowhere
  | .quote _ a, e, hd, he, h => by
    cases e with
    | quote _ b =>
      have hab : a.relocate nowhere = b.relocate nowhere := relocate_of_same hd he h
      simp only [Datum.relocate, hab, nowhere]
    | _ => cases h
  | .list _ as, e, hd, he, h => by
    cases e with
    | list _ bs =>
      have hab : relocateAll nowhere as = relocateAll nowhere bs := relocateAll_of_same hd he h
      simp only [Datum.relocate, hab, nowhere]
    | _ => cases h
  | .func _ _ _ a, e, hd, he, h => by
    cases e with
    | func _ _ _ b =>
      simp only [Datum.same, Bool.and_eq_true, decide_eq_true_eq] at h
      have hab : a.relocate nowhere = b.relocate nowhere := relocate_of_same hd he h.2
      simp only [Datum.relocate, h.1, hab, nowhere]
    | _ => cases h
  | .builtin _ b, e, hd, he, h => by
    cases e with
    | builtin _ c =>
      have hbc : b = c := eq_of_same_builtin (of_decide_eq_true hd) (of_decide_eq_true he) h
      simp only [Datum.relocate, hbc, nowhere]
    | _ => cases h
  | .nil _, e, _, _, h => by
    cases e with
    | nil => rfl
    | _ => cases h
  | .type _ _, e, _, _, h | .bool _ _, e, _, _, h | .int _ _, e, _, _, h | .str _ _, e, _, _, h
  | .ident _ _, e, _, _, h => by
    cases e <;> simp only [Datum.same, Bool.false_eq_true, decide_eq_true_eq] at h
    simp only [Datum.relocate, h, nowhere]

theorem relocateAll_of_same : ∀ {ds es : List Datum}, standardAll ds = true →
    standardAll es = true → sameAll ds es = true → relocateAll nowhere ds = relocateAll nowhere es
  | [], es, _, _, h => by
    cases es with
    | nil => rfl
    | cons e es => cases h
  | d :: ds, es, hds, hes, h => by
    cases es with
    | nil => cases h
    | cons e es =>
      simp only [standardAll, sameAll, Bool.and_eq_true] at hds hes h
      rw [relocateAll, relocateAll, relocate_of_same hds.1 hes.1 h.1,
        relocateAll_of_same hds.2 hes.2 h.2]

end

/-- Standard data are equal exactly if they are alike wherever they stand. -/
theorem alike_iff (hd : d.standard = true) (he : e.standard = true) :
    Alike nowhere d e ↔ (d == e) = true :=
  ⟨Alike.beq, fun h => ⟨relocate_of_same hd he h, hd, he⟩⟩

end Datum

/-- Both are errors, or both are not. -/
inductive SameEnd {ε ε' α β : Type} (E : ε → ε' → Prop) (P : α → β → Prop) :
    Except ε α → Except ε' β → Prop where
  | error {e : ε} {e' : ε'} : E e e' → SameEnd E P (.error e) (.error e')
  | ok {a : α} {b : β} : P a b → SameEnd E P (.ok a) (.ok b)

/-- With nothing but standard data to differ in, answers that are alike are the same. -/
theorem SameEnd.eq {ε : Type} {x y : Except ε Datum} (h : SameEnd Eq SameStandard x y) : x = y := by
  cases h with
  | error he => exact congrArg Except.error he
  | ok hde => exact congrArg Except.ok hde.1

structure Located.Alike {α : Type} (f : Place → Place) (R : α → α → Prop) (x y : Located α) :
    Prop where
  what : R x.what y.what
  place : f x.place = f y.place

/-- The same fault. A value that it shows may stand elsewhere. -/
inductive EvalFault.Alike (f : Place → Place) : EvalFault → EvalFault → Prop where
  | refl (fault : EvalFault) : Alike f fault fault
  | notCallable {d e : Datum} : Datum.Alike f d e → Alike f (.notCallable d) (.notCallable e)

inductive Fault.Alike (f : Place → Place) : Fault → Fault → Prop where
  | read (fault : ReadFault) : Alike f (.read fault) (.read fault)
  | eval {a b : EvalFault} : EvalFault.Alike f a b → Alike f (.eval a) (.eval b)
  | trailingText : Alike f .trailingText .trailingText

/-- The same fault. A value that it shows may be any that is equal. -/
inductive Fault.Same : Fault → Fault → Prop where
  | refl (fault : Fault) : Same fault fault
  | notCallable {v w : Datum} : (v == w) = true → Same (.eval (.notCallable v)) (.eval (.notCallable w))

/-- Faults that are alike are the same as far as equality of values goes. -/
theorem Fault.Alike.same {f : Place → Place} {a b : Fault} (h : Fault.Alike f a b) :
    Fault.Same a b := by
  cases h with
  | read fault => exact .refl _
  | eval h =>
    cases h with
    | refl fault => exact .refl _
    | notCallable hde => exact .notCallable hde.beq
  | trailingText => exact .refl _

theorem Located.Alike.read {f : Place → Place} {e e' : ReadError} (h : Located.Alike f Eq e e') :
    Located.Alike f (Fault.Alike f) (e.map .read) (e'.map .read) := by
  refine ⟨?_, h.place⟩
  rw [what_map, what_map, h.what]
  exact .read _

theorem Located.Alike.eval {f : Place → Place} {e e' : EvalError}
    (h : Located.Alike f (EvalFault.Alike f) e e') :
    Located.Alike f (Fault.Alike f) (e.map .eval) (e'.map .eval) := ⟨.eval h.what, h.place⟩

end Lisplet
