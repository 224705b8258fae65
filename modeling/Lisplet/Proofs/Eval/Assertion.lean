import Lisplet.Proofs.Eval.Unroll

/-!
What holds along a run. An assertion says what is true of the state before and
after every step, of every value that is made or bound, and of a failure. If the
single operations of evaluation keep it, then so does every form, provided that
the evaluation of its parts does. Which expressions these are is left open, so
that they may be of less depth than the form is.
-/
namespace Lisplet

/-- What is true of the states of a run, of its values and of how it fails. The limit on calls is
no concern of an assertion. -/
structure Assertion (ε : Type) [Bindings ε] where
  state : State ε → Prop
  value : Datum → Prop
  failure : EvalError → State ε → Prop
  lookup {s : State ε} {name : String} {v : Datum} :
    state s → Bindings.lookup? s.scopes name = some v → value v
  insert {s : State ε} {v : Datum} (name : String) : state s → value v →
    state { s with scopes := Bindings.insert s.scopes name v }
  enter {s : State ε} : state s → state { s with scopes := Bindings.enter s.scopes }
  leave {s t : State ε} : state s → state t →
    state { t with scopes := Bindings.leave s.scopes t.scopes }
  leave_failure {s t : State ε} {e : EvalError} : state s → failure e t →
    failure e { t with scopes := Bindings.leave s.scopes t.scopes }
  print {s : State ε} (line : String) : state s → state { s with out := s.out.tryLine line }
  fail {s : State ε} {fault : EvalFault} (place : Place) : state s → fault ≠ .tooDeep →
    failure ⟨fault, place⟩ s
  nil (place : Place) : value (.nil place)
  bool (place : Place) (b : Bool) : value (.bool place b)
  int (place : Place) (n : Int64) : value (.int place n)
  typeOf {v : Datum} (place : Place) : value v → value (.type place v.typeOf)
  named {v : Datum} (name : String) : value v → value (Form.named name v)

namespace Assertion

variable {ε : Type} [Bindings ε] (A : Assertion ε) {α β : Type}

structure Ends (P : α → Prop) (p : Except EvalError α × State ε) : Prop where
  ok : ∀ a, p.1 = .ok a → P a ∧ A.state p.2
  error : ∀ e, p.1 = .error e → A.failure e p.2

structure Holds (P : α → Prop) (x : Run ε α) : Prop where
  ends : ∀ s, A.state s → A.Ends P (x s)

variable {A} {P Q : α → Prop}

theorem Ends.mono {p : Except EvalError α × State ε} (h : A.Ends P p) (hPQ : ∀ a, P a → Q a) :
    A.Ends Q p :=
  ⟨fun a ha => ⟨hPQ a (h.ok a ha).1, (h.ok a ha).2⟩, h.error⟩

theorem Holds.mono {x : Run ε α} (h : A.Holds P x) (hPQ : ∀ a, P a → Q a) : A.Holds Q x :=
  ⟨fun s hs => (h.ends s hs).mono hPQ⟩

theorem holds_pure {a : α} (h : P a) : A.Holds P (pure a) :=
  ⟨fun _ hs => ⟨by rintro _ ⟨⟩; exact ⟨h, hs⟩, by rintro _ ⟨⟩⟩⟩

theorem holds_fail {fault : EvalFault} (place : Place) (h : fault ≠ .tooDeep) :
    A.Holds P (Eval.fail fault place) :=
  ⟨fun _ hs => ⟨by rintro _ ⟨⟩, by rintro _ ⟨⟩; exact A.fail place hs h⟩⟩

/-- What holds of a run, and of every run that goes on from its values, holds of both. -/
theorem holds_bind {R : β → Prop} {x : Run ε α} {f : α → Run ε β} (hx : A.Holds P x)
    (hf : ∀ a, P a → A.Holds R (f a)) : A.Holds R (x >>= f) := by
  constructor
  intro s hs
  have h := hx.ends s hs
  rw [Eval.bind_run]
  rcases hp : x s with ⟨r, t⟩
  rw [hp] at h
  cases r with
  | ok a =>
    obtain ⟨ha, ht⟩ := h.ok a rfl
    exact (hf a ha).ends t ht
  | error e => exact ⟨by rintro _ ⟨⟩, by rintro _ ⟨⟩; exact h.error e rfl⟩

theorem holds_lookup (name : String) :
    A.Holds (fun o => ∀ v ∈ o, A.value v) (Eval.lookup? name) :=
  ⟨fun _ hs => ⟨by rintro _ ⟨⟩; exact ⟨fun _ hv => A.lookup hs hv, hs⟩, by rintro _ ⟨⟩⟩⟩

theorem holds_insert (name : String) {v : Datum} (hv : A.value v) :
    A.Holds (fun _ => True) (Eval.insert name v) :=
  ⟨fun _ hs => ⟨by rintro _ ⟨⟩; exact ⟨trivial, A.insert name hs hv⟩, by rintro _ ⟨⟩⟩⟩

theorem holds_insertNew (name : String) {v : Datum} (hv : A.value v) :
    A.Holds (fun _ => True) (Eval.insertNew name v) := by
  refine holds_bind (holds_lookup name) ?_
  intro o _
  cases o with
  | some w => exact holds_pure trivial
  | none => exact holds_bind (holds_insert name hv) fun _ _ => holds_pure trivial

theorem holds_inScope {x : Run ε α} (h : A.Holds P x) : A.Holds P (Eval.inScope x) := by
  constructor
  intro s hs
  have hx := h.ends { s with scopes := Bindings.enter s.scopes } (A.enter hs)
  refine ⟨fun a ha => ?_, fun e he => A.leave_failure hs (hx.error e he)⟩
  obtain ⟨hP, ht⟩ := hx.ok a ha
  exact ⟨hP, A.leave hs ht⟩

theorem holds_print (line : String) : A.Holds (fun _ => True) (Eval.print line) :=
  ⟨fun _ hs => ⟨by rintro _ ⟨⟩; exact ⟨trivial, A.print line hs⟩, by rintro _ ⟨⟩⟩⟩

theorem holds_mismatch (expected : Atom) (got : Datum) (place : Place) :
    A.Holds P (Form.mismatch expected got place) := holds_fail place (by rintro ⟨⟩)

theorem holds_wrongArity (form : Datum) (args : List Datum) (expected : Nat) :
    A.Holds P (Eval.wrongArity form args expected) := holds_fail _ (by rintro ⟨⟩)

theorem holds_name (arg : Datum) : A.Holds (fun _ => True) (Form.name arg : Run ε String) := by
  unfold Form.name
  split
  · exact holds_pure trivial
  · exact holds_mismatch ..

theorem holds_names (args : List Datum) :
    A.Holds (fun _ => True) (args.mapM Form.name : Run ε (List String)) := by
  induction args with
  | nil => exact holds_pure trivial
  | cons arg args ih =>
    rw [List.mapM_cons]
    exact holds_bind (holds_name arg) fun _ _ => holds_bind ih fun _ _ => holds_pure trivial

section Forms

variable {expr result : Datum → Prop} {eval : Evaluator ε}
  (heval : ∀ e, expr e → A.Holds A.value (eval e))
include heval

theorem holds_intArg {arg : Datum} (h : expr arg) :
    A.Holds (fun _ => True) (Form.int eval arg) := by
  refine holds_bind (heval arg h) ?_
  intro v _
  cases v with
  | int p n => exact holds_pure trivial
  | _ => exact holds_mismatch ..

theorem holds_boolArg {arg : Datum} (h : expr arg) :
    A.Holds (fun _ => True) (Form.bool eval arg) := by
  refine holds_bind (heval arg h) ?_
  intro v _
  cases v with
  | bool p b => exact holds_pure trivial
  | _ => exact holds_mismatch ..

theorem holds_unary (form : Datum) (op : UnaryOp) {arg : Datum} (h : expr arg) :
    A.Holds A.value (Form.unary eval form op arg) := by
  cases op with
  | not => exact holds_bind (holds_boolArg heval h) fun _ _ => holds_pure (A.bool ..)
  | print =>
    refine holds_bind (heval arg h) ?_
    intro v _
    cases v with
    | _ => exact holds_bind (holds_print _) fun _ _ => holds_pure (A.nil _)
  | typeof => exact holds_bind (heval arg h) fun _ hv => holds_pure (A.typeOf _ hv)

omit heval in
theorem holds_arith (op : ArithOp) (x y : Int64) (divisor : Place) :
    A.Holds (fun _ => True) (Form.arith op x y divisor : Run ε Int64) := by
  cases op with
  | add | sub | mul => exact holds_pure trivial
  | div | mod =>
    simp only [Form.arith]
    split
    · exact holds_fail _ (by rintro ⟨⟩)
    · exact holds_pure trivial

theorem holds_set (form target : Datum) {arg : Datum} (h : expr arg) :
    A.Holds A.value (Form.set eval form target arg) := by
  refine holds_bind (holds_name target) ?_
  intro x _
  refine holds_bind (heval arg h) ?_
  intro v hv
  refine holds_bind (holds_insertNew x (A.named x hv)) ?_
  intro isNew _
  cases isNew with
  | true => exact holds_pure (A.named x hv)
  | false => exact holds_fail _ (by rintro ⟨⟩)

variable (hitems : ∀ place items, expr (.list place items) → ∀ e ∈ items, expr e)
include hitems

theorem holds_let (form : Datum) {binding body : Datum} (hbinding : expr binding)
    (hbody : expr body) : A.Holds A.value (Form.bind eval form binding body) := by
  unfold Form.bind
  split
  next => exact holds_inScope (heval body hbody)
  next target arg hlist =>
    cases binding with
    | list p items =>
      obtain rfl : items = [target, arg] := Option.some.inj hlist
      refine holds_bind (holds_name target) ?_
      intro x _
      refine holds_bind (heval arg (hitems p _ hbinding arg (by simp))) ?_
      intro v hv
      exact holds_inScope (holds_bind (holds_insert x hv) fun _ _ => heval body hbody)
    | _ => cases hlist
  next => exact holds_fail _ (by rintro ⟨⟩)

variable (hresult : ∀ v, A.value v → result v)
  (hfunc : ∀ place params e, expr e → result (.func place "" params e))
include hresult hfunc

omit heval hitems hresult in
theorem holds_lambda (form params : Datum) {body : Datum} (h : expr body) :
    A.Holds result (Form.lambda form params body : Run ε Datum) := by
  unfold Form.lambda
  split
  next ps _ => exact holds_bind (holds_names ps) fun _ _ => holds_pure (hfunc _ _ _ h)
  next => exact holds_fail _ (by rintro ⟨⟩)

/-- A form with two arguments does well if both arguments do. -/
theorem holds_binary (form : Datum) (op : BinaryOp) {a b : Datum} (ha : expr a) (hb : expr b) :
    A.Holds result (Form.binary eval form op a b) := by
  cases op with
  | arith op =>
    refine holds_bind (holds_intArg heval ha) fun x _ => ?_
    refine holds_bind (holds_intArg heval hb) fun y _ => ?_
    exact holds_bind (holds_arith op x y b.place) fun _ _ => holds_pure (hresult _ (A.int ..))
  | compare op =>
    refine holds_bind (holds_intArg heval ha) fun x _ => ?_
    refine holds_bind (holds_intArg heval hb) fun y _ => ?_
    exact holds_pure (hresult _ (A.bool ..))
  | eq | ne =>
    refine holds_bind (heval a ha) fun x _ => ?_
    refine holds_bind (heval b hb) fun y _ => ?_
    exact holds_pure (hresult _ (A.bool ..))
  | set => exact (holds_set heval form a hb).mono hresult
  | bind => exact (holds_let heval hitems form ha hb).mono hresult
  | lambda => exact holds_lambda hfunc form a hb

omit hitems hresult hfunc in
/-- Arguments that do well are bound to values that may be bound. -/
theorem holds_bindAll (params : List String) {args : List Datum} (h : ∀ e ∈ args, expr e) :
    A.Holds (fun _ => True) (Eval.bindAll eval params args) := by
  induction params generalizing args with
  | nil => cases args <;> exact holds_pure trivial
  | cons x params ih =>
    cases args with
    | nil => exact holds_pure trivial
    | cons a args =>
      obtain ⟨ha, hargs⟩ := List.forall_mem_cons.1 h
      refine holds_bind (heval a ha) ?_
      intro v hv
      exact holds_bind (holds_insert x hv) fun _ _ => ih hargs

/-- A call of a standard form does well if its arguments do. -/
theorem holds_callBuiltin (hosts : Hosts ε) (form : Datum) {b : Builtin}
    (hb : b ∈ Builtin.standard) {args : List Datum} (h : ∀ e ∈ args, expr e) :
    A.Holds result (Eval.callBuiltin hosts eval form b args) := by
  unfold Eval.callBuiltin
  split
  next op a _ =>
    exact (holds_unary heval form op (h a (by simp))).mono hresult
  next op a c _ =>
    exact holds_binary heval hitems hresult hfunc form op (h a (by simp)) (h c (by simp))
  next _ _ key arity hop => exact absurd hop (Builtin.not_host_of_standard hb key arity)
  next => exact holds_wrongArity ..

omit hitems hresult hfunc in
/-- A call of a function does well if its arguments and its body do. -/
theorem holds_callFuncWith {body : Evaluator ε} (form : Datum) (params : List String)
    {inner : Datum} {args : List Datum} (hinner : A.Holds result (body inner))
    (h : ∀ e ∈ args, expr e) :
    A.Holds result (Eval.callFuncWith eval body form params inner args) := by
  unfold Eval.callFuncWith
  split
  · exact holds_inScope (holds_bind (holds_bindAll heval params h) fun _ _ => hinner)
  · exact holds_wrongArity ..

/-- Only a function whose body is expected to do well and a standard form may be called. -/
theorem holds_callParts {body : Evaluator ε} (hosts : Hosts ε) (place : Place) {head : Datum}
    {args : List Datum} (hhead : expr head) (h : ∀ e ∈ args, expr e)
    (hbuiltin : ∀ p b, A.value (.builtin p b) → b ∈ Builtin.standard)
    (hbody : ∀ p name params e, A.value (.func p name params e) → A.Holds result (body e)) :
    A.Holds result (Eval.callParts hosts eval body place head args) := by
  refine holds_bind (heval head hhead) ?_
  intro callee hcallee
  cases callee with
  | builtin p b =>
    exact holds_callBuiltin heval hitems hresult hfunc hosts _ (hbuiltin p b hcallee) h
  | func p name params e =>
    exact holds_callFuncWith heval _ params (hbody p name params e hcallee) h
  | _ => exact holds_fail _ (by rintro ⟨⟩)

end Forms

end Assertion
end Lisplet
