import Lisplet.Proofs.Eval.Comparison

/-!
Every form of the language respects every comparison, and so does evaluation.
What is to be shown of all evaluations is shown of the few operations on states
that a comparison is told by; the evaluator is taken apart only here.
-/
namespace Lisplet

namespace Comparison

variable {ε δ : Type} [Bindings ε] [Bindings δ] (C : Comparison ε δ)

def Evaluators (eval : Evaluator ε) (eval' : Evaluator δ) : Prop :=
  ∀ ⦃own : Bool⦄ ⦃d e : Datum⦄, C.data d e → C.Runs own C.data (eval d) (eval' e)

/-- Evaluators that do alike do so in a scope that has been there before. -/
theorem Evaluators.runs {C : Comparison ε δ} {eval : Evaluator ε} {eval' : Evaluator δ}
    (h : C.Evaluators eval eval') {d e : Datum} (hde : C.data d e) :
    C.Runs false C.data (eval d) (eval' e) := h hde

variable {C} {own : Bool} {α β : Type} {P : α → β → Prop} {f g a b c d : Datum}

theorem mismatch (expected : Atom) (hab : C.data a b) (hfg : C.data f g) :
    C.Runs own P (Form.mismatch expected a f.place) (Form.mismatch expected b g.place) := by
  rw [Form.mismatch, Form.mismatch, C.typeOf_eq hab]
  exact C.fail _ hfg

section Forms

variable {eval : Evaluator ε} {eval' : Evaluator δ} (h : C.Evaluators eval eval')
include h

theorem intArg (hab : C.data a b) : C.Runs own Eq (Form.int eval a) (Form.int eval' b) := by
  refine C.bind (h hab) ?_
  intro v w hvw
  have hm := C.parts hvw
  cases hm with
  | int p q n => exact C.pure rfl
  | nil | type | bool | str | ident | quote | list | builtin | func => exact mismatch .int hvw hab

theorem boolArg (hab : C.data a b) : C.Runs own Eq (Form.bool eval a) (Form.bool eval' b) := by
  refine C.bind (h hab) ?_
  intro v w hvw
  have hm := C.parts hvw
  cases hm with
  | bool p q b => exact C.pure rfl
  | nil | type | int | str | ident | quote | list | builtin | func => exact mismatch .bool hvw hab

omit h in
theorem nameArg (hab : C.data a b) :
    C.Runs own Eq (Form.name a : Run ε String) (Form.name b : Run δ String) := by
  have hm := C.parts hab
  cases hm with
  | ident p q x => exact C.pure rfl
  | nil | type | bool | int | str | quote | list | builtin | func => exact mismatch .sym hab hab

/-- Forms with one argument do alike. Values that stand for each other are printed alike. -/
theorem unary (op : UnaryOp) (hfg : C.data f g) (hab : C.data a b) :
    C.Runs own C.data (Form.unary eval f op a) (Form.unary eval' g op b) := by
  cases op with
  | not =>
    refine C.bind (boolArg h hab) ?_
    rintro x _ rfl
    exact C.pure (C.bool _ hfg)
  | print =>
    refine C.bind (h hab) ?_
    intro v w hvw
    have hm := C.parts hvw
    have hnil : C.data (.nil f.place) (.nil g.place) := C.nil hfg
    have ht := C.toString_eq hvw
    cases hm with
    | str p q text => exact C.bind (C.print text) fun _ _ _ => C.pure hnil
    | nil | type | bool | int | ident | quote | list | builtin | func =>
      simp only [ht]
      exact C.bind (C.print _) fun _ _ _ => C.pure hnil
  | typeof =>
    refine C.bind (h hab) ?_
    intro v w hvw
    exact C.pure (C.type hfg hvw)

omit h in
theorem arith (op : ArithOp) (x y : Int64) (hab : C.data a b) :
    C.Runs own Eq (Form.arith op x y a.place : Run ε Int64)
      (Form.arith op x y b.place : Run δ Int64) := by
  cases op with
  | add | sub | mul => exact C.pure rfl
  | div | mod =>
    simp only [Form.arith]
    split
    · exact C.fail _ hab
    · exact C.pure rfl

/-- The name is taken as it is written, and bound if no scope binds it. -/
theorem set (hfg : C.data f g) (hab : C.data a b) (hcd : C.data c d) :
    C.Runs own C.data (Form.set eval f a c) (Form.set eval' g b d) := by
  refine C.bind (nameArg hab) ?_
  rintro x _ rfl
  refine C.bind (h hcd) ?_
  intro v w hvw
  refine C.bind (C.insertNew x (C.named x hvw)) ?_
  rintro isNew _ rfl
  cases isNew with
  | true => exact C.pure (C.named x hvw)
  | false => exact C.fail _ hfg

/-- Only no binding and a name with one value have a meaning. -/
theorem letForm (hfg : C.data f g) (hab : C.data a b) (hcd : C.data c d) :
    C.Runs own C.data (Form.bind eval f a c) (Form.bind eval' g b d) := by
  have hbad : C.Runs own C.data (Eval.fail (.badForm "let") f.place)
      (Eval.fail (.badForm "let") g.place) := C.fail _ hfg
  have hm := C.parts hab
  cases hm with
  | list p q hitems =>
    cases hitems with
    | nil => exact C.inScope (h hcd)
    | cons htarget hrest =>
      cases hrest with
      | nil => exact hbad
      | cons harg hrest =>
        cases hrest with
        | nil =>
          refine C.bind (nameArg htarget) ?_
          rintro x _ rfl
          refine C.bind (h harg) ?_
          intro v w hvw
          exact C.inScope (C.bind (C.insert x hvw) fun _ _ _ => h hcd)
        | cons _ _ => exact hbad
  | nil | type | bool | int | str | ident | quote | builtin | func => exact hbad

omit h in
theorem names {ds es : List Datum} (hds : List.Forall₂ C.data ds es) :
    C.Runs own Eq (ds.mapM Form.name : Run ε (List String))
      (es.mapM Form.name : Run δ (List String)) := by
  induction hds with
  | nil => exact C.pure rfl
  | cons hd _ ih =>
    simp only [List.mapM_cons]
    refine C.bind (nameArg hd) ?_
    rintro x _ rfl
    refine C.bind ih ?_
    rintro xs _ rfl
    exact C.pure rfl

omit h in
theorem lambda (hfg : C.data f g) (hab : C.data a b) (hcd : C.data c d) :
    C.Runs own C.data (Form.lambda f a c : Run ε Datum) (Form.lambda g b d : Run δ Datum) := by
  have hm := C.parts hab
  cases hm with
  | list p q hitems =>
    refine C.bind (names hitems) ?_
    rintro params _ rfl
    exact C.pure (C.func params hfg hcd)
  | nil | type | bool | int | str | ident | quote | builtin | func => exact C.fail _ hfg

/-- Forms with two arguments do alike. Only here are values compared with each other. -/
theorem binary (op : BinaryOp) (hfg : C.data f g) (hab : C.data a b) (hcd : C.data c d) :
    C.Runs own C.data (Form.binary eval f op a c) (Form.binary eval' g op b d) := by
  cases op with
  | arith op =>
    refine C.bind (intArg h hab) ?_
    rintro x _ rfl
    refine C.bind (intArg h hcd) ?_
    rintro y _ rfl
    refine C.bind (arith op x y hcd) ?_
    rintro n _ rfl
    exact C.pure (C.int n hfg)
  | compare op =>
    refine C.bind (intArg h hab) ?_
    rintro x _ rfl
    refine C.bind (intArg h hcd) ?_
    rintro y _ rfl
    exact C.pure (C.bool _ hfg)
  | eq =>
    refine C.bind (h hab) ?_
    intro v v' hv
    refine C.bind (h hcd) ?_
    intro w w' hw
    rw [C.same_eq hv hw]
    exact C.pure (C.bool _ hfg)
  | ne =>
    refine C.bind (h hab) ?_
    intro v v' hv
    refine C.bind (h hcd) ?_
    intro w w' hw
    rw [bne, bne, C.same_eq hv hw]
    exact C.pure (C.bool _ hfg)
  | set => exact set h hfg hab hcd
  | bind => exact letForm h hfg hab hcd
  | lambda => exact lambda hfg hab hcd

/-- The arguments are bound in a scope that has been opened for them. -/
theorem bindAll (params : List String) {ds es : List Datum} (hds : List.Forall₂ C.data ds es) :
    C.Runs true (fun _ _ => True) (Eval.bindAll eval params ds) (Eval.bindAll eval' params es) := by
  induction hds generalizing params with
  | nil => cases params <;> exact C.pure trivial
  | cons hd _ ih =>
    cases params with
    | nil => exact C.pure trivial
    | cons x params =>
      refine C.bind (h hd) ?_
      intro v w hvw
      exact C.bind (C.insert x hvw) fun _ _ _ => ih params

omit h in
/-- The head of a call, or the call itself if it has none, is where its place is. -/
theorem headPlace (hfg : C.data f g) :
    ∃ a b, C.data a b ∧ f.headPlace = a.place ∧ g.headPlace = b.place := by
  have hm := C.parts hfg
  cases hm with
  | list p q hitems =>
    cases hitems with
    | nil => exact ⟨_, _, hfg, rfl, rfl⟩
    | cons hhead _ => exact ⟨_, _, hhead, rfl, rfl⟩
  | nil | type | bool | int | str | ident | quote | builtin | func => exact ⟨_, _, hfg, rfl, rfl⟩

omit h in
theorem wrongArity {ds es : List Datum} (expected : Nat) (hfg : C.data f g)
    (hds : List.Forall₂ C.data ds es) :
    C.Runs own P (Eval.wrongArity f ds expected) (Eval.wrongArity g es expected) := by
  obtain ⟨a, b, hab, hf, hg⟩ := headPlace hfg
  rw [Eval.wrongArity, Eval.wrongArity, hf, hg, hds.length_eq]
  exact C.fail _ hab

/-- The standard forms are called alike. There are no forms of the host among them, so it does not
matter which ones there are. -/
theorem callBuiltin (hosts : Hosts ε) (hosts' : Hosts δ) {b : Builtin} {ds es : List Datum}
    (hb : b ∈ Builtin.standard) (hfg : C.data f g) (hds : List.Forall₂ C.data ds es) :
    C.Runs own C.data (Eval.callBuiltin hosts eval f b ds)
      (Eval.callBuiltin hosts' eval' g b es) := by
  have hwrong : C.Runs own C.data (Eval.wrongArity f ds b.op.arity)
    (Eval.wrongArity g es b.op.arity) := wrongArity _ hfg hds
  unfold Eval.callBuiltin
  cases hop : b.op with
  | host key arity => exact absurd hop (Builtin.not_host_of_standard hb key arity)
  | unary op =>
    rw [hop] at hwrong
    rcases hds with _ | ⟨hd, hds⟩
    · exact hwrong
    rcases hds with _ | ⟨_, _⟩
    · exact unary h op hfg hd
    · exact hwrong
  | binary op =>
    rw [hop] at hwrong
    rcases hds with _ | ⟨hd, hds⟩
    · exact hwrong
    rcases hds with _ | ⟨he, hds⟩
    · exact hwrong
    rcases hds with _ | ⟨_, _⟩
    · exact binary h op hfg hd he
    · exact hwrong

/-- Functions with bodies that stand for each other are called alike. -/
theorem callFunc (params : List String) {ds es : List Datum} (hfg : C.data f g)
    (hab : C.data a b) (hds : List.Forall₂ C.data ds es) :
    C.Runs own C.data (Eval.callFunc eval f params a ds) (Eval.callFunc eval' g params b es) := by
  unfold Eval.callFunc
  rw [hds.length_eq]
  split
  · exact C.inScope (C.bind (bindAll h params hds) fun _ _ _ => h hab)
  · exact wrongArity _ hfg hds

end Forms

/-- What is called does alike, and what is not callable fails alike. -/
theorem call (hosts : Hosts ε) (hosts' : Hosts δ) {eval : Evaluator ε} {eval' : Evaluator δ}
    (h : C.Evaluators eval eval') {ds es : List Datum} (hcd : C.data c d) (hfg : C.data f g)
    (hab : C.data a b) (hds : List.Forall₂ C.data ds es) :
    C.Runs own C.data
      (match Eval.call? hosts eval c f ds with
        | some result => result
        | none => Eval.fail (.notCallable c) a.place)
      (match Eval.call? hosts' eval' d g es with
        | some result => result
        | none => Eval.fail (.notCallable d) b.place) := by
  have hm := C.parts hcd
  cases hm with
  | builtin p q hb => exact callBuiltin h hosts hosts' hb hfg hds
  | func p q name params hbody => exact callFunc h params hfg hbody hds
  | nil | type | bool | int | str | ident | quote | list => exact C.notCallable hab hcd

/-- Evaluation respects the comparison. The induction is on the room for calls, which the parts
of a call have less of. -/
theorem evaluators (hosts : Hosts ε) (hosts' : Hosts δ) (room : Nat) :
    C.Evaluators (Eval.evaluate hosts room) (Eval.evaluate hosts' room) := by
  induction room using Nat.strongRecOn with
  | _ room ih =>
    intro own d e hde
    have hm := C.parts hde
    cases hm with
    | ident p q x =>
      simp only [Eval.evaluate]
      refine C.bind (C.lookup x) ?_
      intro v w hvw
      cases hvw with
      | some hvw => exact C.pure hvw
      | none => exact C.fail (.unbound x) hde
    | quote p q hinner =>
      simp only [Eval.evaluate]
      exact C.pure hinner
    | list p q hitems =>
      cases hitems with
      | nil =>
        simp only [Eval.evaluate]
        exact C.pure hde
      | cons hhead hargs =>
        cases room with
        | zero => exact C.fail .tooDeep hde
        | succ room =>
          have ihroom := ih room (Nat.lt_succ_self room)
          exact C.inCall hde (C.bind (ihroom hhead) fun _ _ hcallee =>
            call hosts hosts' ihroom hcallee hde hhead hargs)
    | nil | type | bool | int | str | builtin | func =>
      simp only [Eval.evaluate]
      exact C.pure hde

end Comparison
end Lisplet
