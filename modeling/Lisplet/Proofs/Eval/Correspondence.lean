import Lisplet.Eval
import Lisplet.Proofs.Datum.Places
import Mathlib.Data.List.Forall2

/-!
Data that stand for each other in two evaluations. They are alike in all that a
form asks of them, so are their parts, and so are the values that a form makes of
them. Data may just stand for themselves, if they have a property that parts and
values take over.
-/
namespace Lisplet

/-- Data of the same kind with parts that stand for each other. Of the built-in forms only the
standard ones occur. -/
inductive Datum.Matches (R : Datum → Datum → Prop) : Datum → Datum → Prop where
  | nil (p q : Place) : Matches R (.nil p) (.nil q)
  | type (p q : Place) (ty : Ty) : Matches R (.type p ty) (.type q ty)
  | bool (p q : Place) (b : Bool) : Matches R (.bool p b) (.bool q b)
  | int (p q : Place) (n : Int64) : Matches R (.int p n) (.int q n)
  | str (p q : Place) (text : String) : Matches R (.str p text) (.str q text)
  | ident (p q : Place) (name : String) : Matches R (.ident p name) (.ident q name)
  | quote (p q : Place) {d e : Datum} : R d e → Matches R (.quote p d) (.quote q e)
  | list (p q : Place) {ds es : List Datum} :
      List.Forall₂ R ds es → Matches R (.list p ds) (.list q es)
  | builtin (p q : Place) {b : Builtin} :
      b ∈ Builtin.standard → Matches R (.builtin p b) (.builtin q b)
  | func (p q : Place) (name : String) (params : List String) {d e : Datum} :
      R d e → Matches R (.func p name params d) (.func q name params e)

/-- Which data stand for each other. They cannot be told apart by a form that takes them, and what
it makes of them stands for each other again. -/
structure Correspondence where
  data : Datum → Datum → Prop
  parts {d e : Datum} : data d e → Datum.Matches data d e
  typeOf_eq {d e : Datum} : data d e → d.typeOf = e.typeOf
  toString_eq {d e : Datum} : data d e → toString d = toString e
  same_eq {a b c d : Datum} : data a b → data c d → (a == c) = (b == d)
  nil {f g : Datum} : data f g → data (.nil f.place) (.nil g.place)
  bool {f g : Datum} (b : Bool) : data f g → data (.bool f.place b) (.bool g.place b)
  int {f g : Datum} (n : Int64) : data f g → data (.int f.place n) (.int g.place n)
  type {f g d e : Datum} : data f g → data d e →
    data (.type f.place d.typeOf) (.type g.place e.typeOf)
  func {f g d e : Datum} (params : List String) : data f g → data d e →
    data (.func f.place "" params d) (.func g.place "" params e)
  named {d e : Datum} (name : String) : data d e → data (Form.named name d) (Form.named name e)

/-- A property that the parts of a datum take over from it, and what evaluation makes of data from
these. A value that it makes up stands where the form does. -/
structure Datum.Hereditary (Q : Datum → Prop) : Prop where
  quote {p : Place} {d : Datum} : Q (.quote p d) → Q d
  list {p : Place} {ds : List Datum} : Q (.list p ds) → ∀ d ∈ ds, Q d
  body {p : Place} {name : String} {params : List String} {d : Datum} :
    Q (.func p name params d) → Q d
  builtin {p : Place} {b : Builtin} : Q (.builtin p b) → b ∈ Builtin.standard
  value {f v : Datum} : Q f → v.standard = true → v.places = [f.place] → Q v
  func {f d : Datum} (params : List String) : Q f → Q d → Q (.func f.place "" params d)
  named {d : Datum} (name : String) : Q d → Q (Form.named name d)

variable {Q : Datum → Prop}

/-- The parts of a datum with the property have it too. -/
theorem Datum.Hereditary.parts (h : Hereditary Q) {d : Datum} (hd : Q d) :
    Matches (fun d e => d = e ∧ Q d) d d := by
  cases d with
  | nil p => exact .nil p p
  | type p ty => exact .type p p ty
  | bool p b => exact .bool p p b
  | int p n => exact .int p p n
  | str p text => exact .str p p text
  | ident p name => exact .ident p p name
  | quote p inner => exact .quote p p ⟨rfl, h.quote hd⟩
  | list p items => exact .list p p (List.forall₂_same.2 fun e he => ⟨rfl, h.list hd e he⟩)
  | builtin p b => exact .builtin p p (h.builtin hd)
  | func p name params body => exact .func p p name params ⟨rfl, h.body hd⟩

/-- Data stand for themselves if they have the property. -/
def Correspondence.same (h : Datum.Hereditary Q) : Correspondence where
  data d e := d = e ∧ Q d
  parts := by
    rintro d _ ⟨rfl, hd⟩
    exact h.parts hd
  typeOf_eq hd := by rw [hd.1]
  toString_eq hd := by rw [hd.1]
  same_eq hd hd' := by rw [hd.1, hd'.1]
  nil hf := ⟨by rw [hf.1], h.value hf.2 rfl rfl⟩
  bool b hf := ⟨by rw [hf.1], h.value hf.2 rfl rfl⟩
  int n hf := ⟨by rw [hf.1], h.value hf.2 rfl rfl⟩
  type hf hd := ⟨by rw [hf.1, hd.1], h.value hf.2 rfl rfl⟩
  func params hf hd := ⟨by rw [hf.1, hd.1], h.func params hf.2 hd.2⟩
  named name hd := ⟨by rw [hd.1], h.named name hd.2⟩

theorem standard_named (name : String) {d : Datum} (h : d.standard = true) :
    (Form.named name d).standard = true := by
  unfold Form.named
  split <;> exact h

/-- Evaluation makes standard data of standard data. -/
theorem Datum.hereditary_standard : Hereditary (·.standard = true) where
  quote h := h
  list {_ ds} h := (standardAll_iff ds).1 h
  body h := h
  builtin h := of_decide_eq_true h
  value _ h _ := h
  func _ _ h := h
  named name h := standard_named name h

def SameStandard (d e : Datum) : Prop := d = e ∧ d.standard = true

theorem SameStandard.all {ds : List Datum} (h : Datum.standardAll ds = true) :
    List.Forall₂ SameStandard ds ds := by
  rw [Datum.standardAll_iff] at h
  exact List.forall₂_same.2 fun d hd => ⟨rfl, h d hd⟩

theorem SameStandard.fault {f g : Datum} (fault : EvalFault) (h : SameStandard f g) :
    (⟨fault, f.place⟩ : EvalError) = ⟨fault, g.place⟩ := by
  rw [h.1]

theorem SameStandard.notCallable {f g d e : Datum} (h : SameStandard f g)
    (hde : SameStandard d e) :
    (⟨.notCallable d, f.place⟩ : EvalError) = ⟨.notCallable e, g.place⟩ := by
  rw [h.1, hde.1]

/-- A name is bound to a standard value for both, or for neither. -/
theorem SameStandard.option {x : Option Datum} (h : ∀ d, x = some d → d.standard = true) :
    Option.Rel SameStandard x x := by
  cases x with
  | none => exact .none
  | some d => exact .some ⟨rfl, h d rfl⟩

end Lisplet
