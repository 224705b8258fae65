import Lisplet.Proofs.Eval.Evaluators
import Lisplet.Proofs.Scopes.Stack

/-!
The recursion of evaluation, unrolled. One activation of the evaluator takes an
expression apart and evaluates others: the parts of a call and the body of a
function. An evaluator that may do anything at all from some depth on stands for
a recursion of which nothing is known there. Every activation inside another one
goes through a call, and calls are counted; so if the recursion is unrolled as
deep as there is room for calls, what lies beyond makes no difference. The
recursion ends by itself.
-/
namespace Lisplet

namespace Eval

variable {ε : Type} [Bindings ε]

def evaluateWith (call : Place → Datum → List Datum → Run ε Datum) : Evaluator ε
  | .ident place x => do
    match ← lookup? x with
    | some value => return value
    | none => fail (.unbound x) place
  | .quote _ inner => return inner
  | .list place (head :: args) => call place head args
  | value => return value

def callFuncWith (part body : Evaluator ε) (form : Datum) (params : List String) (expr : Datum)
    (args : List Datum) : Run ε Datum :=
  if args.length = params.length then
    inScope do
      bindAll part params args
      body expr
  else wrongArity form args params.length

/-- Call a value, with one way to evaluate the parts of the call and another for the body of a
function; nothing if the value is not callable. -/
def callWith? (hosts : Hosts ε) (part body : Evaluator ε) (callee form : Datum)
    (args : List Datum) : Option (Run ε Datum) :=
  match callee with
  | .builtin _ b => some (callBuiltin hosts part form b args)
  | .func _ _ params expr => some (callFuncWith part body form params expr args)
  | _ => none

/-- What is done while a call is in progress. -/
def callParts (hosts : Hosts ε) (part body : Evaluator ε) (place : Place) (head : Datum)
    (args : List Datum) : Run ε Datum := do
  let callee ← part head
  match callWith? hosts part body callee (.list place (head :: args)) args with
  | some result => result
  | none => fail (.notCallable callee) head.place

/-- The evaluator unrolled to some depth, with another one beyond it. -/
def unroll (hosts : Hosts ε) (beyond : Evaluator ε) : Nat → Evaluator ε
  | 0 => beyond
  | n + 1 =>
    let inner := unroll hosts beyond n
    evaluateWith fun place head args => inCall place (callParts hosts inner inner place head args)

theorem callWith?_self (hosts : Hosts ε) (eval : Evaluator ε) (callee form : Datum)
    (args : List Datum) :
    callWith? hosts eval eval callee form args = call? hosts eval callee form args := by
  cases callee <;> rfl

theorem evaluate_zero (hosts : Hosts ε) :
    evaluate hosts 0 = evaluateWith fun place _ _ => fail .tooDeep place := by
  funext d
  cases d with
  | list p items => cases items <;> rfl
  | _ => rfl

/-- With room for a call, evaluation is one activation around evaluations with less room. -/
theorem evaluate_succ (hosts : Hosts ε) (room : Nat) :
    evaluate hosts (room + 1) = evaluateWith fun place head args =>
      inCall place (callParts hosts (evaluate hosts room) (evaluate hosts room) place head args) := by
  funext d
  cases d with
  | list p items =>
    cases items with
    | nil => rfl
    | cons head args =>
      simp only [evaluateWith, callParts, callWith?_self]
      rfl
  | _ => rfl

end Eval

namespace Comparison

variable {ε δ : Type} [Bindings ε] [Bindings δ] {C : Comparison ε δ} {own : Bool}

/-- Evaluators that do alike with calls do alike. -/
theorem evaluateWith {call : Place → Datum → List Datum → Run ε Datum}
    {call' : Place → Datum → List Datum → Run δ Datum} {d e : Datum} (hde : C.data d e)
    (hcall : ∀ p q head args head' args', d = .list p (head :: args) → e = .list q (head' :: args') →
      C.data head head' → List.Forall₂ C.data args args' →
      C.Runs own C.data (call p head args) (call' q head' args')) :
    C.Runs own C.data (Eval.evaluateWith call d) (Eval.evaluateWith call' e) := by
  have hm := C.parts hde
  cases hm with
  | ident p q x =>
    refine C.bind (C.lookup x) ?_
    intro v w hvw
    cases hvw with
    | some hvw => exact C.pure hvw
    | none => exact C.fail (.unbound x) hde
  | quote p q hinner => exact C.pure hinner
  | list p q hitems =>
    cases hitems with
    | nil => exact C.pure hde
    | cons hhead hargs => exact hcall _ _ _ _ _ _ rfl rfl hhead hargs
  | nil | type | bool | int | str | builtin | func => exact C.pure hde

section Calls

variable {part body : Evaluator ε} {part' body' : Evaluator δ}
  (hpart : C.Evaluators part part') (hbody : C.Evaluators body body')
include hpart hbody

theorem callFuncWith {f g a b : Datum} (params : List String) {ds es : List Datum}
    (hfg : C.data f g) (hab : C.data a b) (hds : List.Forall₂ C.data ds es) :
    C.Runs own C.data (Eval.callFuncWith part body f params a ds)
      (Eval.callFuncWith part' body' g params b es) := by
  unfold Eval.callFuncWith
  rw [hds.length_eq]
  split
  · exact C.inScope (C.bind (bindAll hpart params hds) fun _ _ _ => hbody hab)
  · exact wrongArity _ hfg hds

/-- What is done inside a call is done alike by evaluators that do alike. -/
theorem callParts (hosts : Hosts ε) (hosts' : Hosts δ) {p q : Place} {head head' : Datum}
    {args args' : List Datum} (hform : C.data (.list p (head :: args)) (.list q (head' :: args')))
    (hhead : C.data head head') (hargs : List.Forall₂ C.data args args') :
    C.Runs own C.data (Eval.callParts hosts part body p head args)
      (Eval.callParts hosts' part' body' q head' args') := by
  refine C.bind (hpart hhead) ?_
  intro c d hcd
  have hm := C.parts hcd
  cases hm with
  | builtin p q hb => exact callBuiltin hpart hosts hosts' hb hform hargs
  | func p q name params hexpr => exact callFuncWith hpart hbody params hform hexpr hargs
  | nil | type | bool | int | str | ident | quote | list => exact C.notCallable hhead hcd

end Calls

end Comparison

namespace Eval

structure Counts (calls : Nat) (s t : State) : Prop where
  eq : s = t
  standard : t.scopes.standard = true
  least : calls ≤ t.calls
  most : t.calls ≤ maxCalls

/-- Runs with so many calls or more in progress are compared with one another. They end with as
many as they began with. -/
def counting (calls : Nat) : Comparison Scopes Scopes where
  toCorrespondence := .same Datum.hereditary_standard
  errors := Eq
  states := Counts calls
  reaches _ _ t s' t' := Counts calls s' t' ∧ t'.calls = t.calls
  errors_fault := @SameStandard.fault
  errors_notCallable := @SameStandard.notCallable
  refl hst := ⟨hst, rfl⟩
  trans h h' := ⟨h'.1, h'.2.trans h.2⟩
  states_of_reaches h := h.1
  bound _ hst := by
    obtain ⟨rfl, hs, -, -⟩ := hst
    exact SameStandard.option fun _ => Scopes.standard_lookup? hs
  binds name hst hde _ := by
    obtain ⟨rfl, hs, hle, hmax⟩ := hst
    obtain ⟨rfl, hd⟩ := hde
    exact ⟨⟨rfl, Scopes.standard_insert name hs hd, hle, hmax⟩, rfl⟩
  enterScope hst := by
    obtain ⟨rfl, hs, hle, hmax⟩ := hst
    exact ⟨rfl, Scopes.standard_enter hs, hle, hmax⟩
  leaveScope hst h := by
    obtain ⟨rfl, -⟩ := hst
    obtain ⟨⟨rfl, hs, hle, hmax⟩, hcalls⟩ := h
    exact ⟨⟨rfl, Scopes.standard_leave hs, hle, hmax⟩, hcalls⟩
  room hst hs := hst.eq ▸ hs
  full _ hst hs ht := absurd ht (hst.eq ▸ hs)
  enterCall hst hs := by
    obtain ⟨rfl, hstandard, hle, -⟩ := hst
    exact ⟨rfl, hstandard, Nat.le_succ_of_le hle, hs⟩
  leaveCall hst h := by
    obtain ⟨⟨rfl, hs, -, -⟩, hcalls⟩ := h
    have hafter := congrArg (· - 1) hcalls
    exact ⟨⟨rfl, hs, hafter ▸ hst.least, hafter ▸ hst.most⟩, hafter⟩
  prints _ hst := by
    obtain ⟨rfl, hs, hle, hmax⟩ := hst
    exact ⟨⟨rfl, hs, hle, hmax⟩, rfl⟩

variable {calls : Nat} {own : Bool} {α β : Type} {P : α → β → Prop} {s t : State}

/-- What compares where one call more is in progress compares all the more. -/
theorem counting_mono {p : Except EvalError α × State} {q : Except EvalError β × State}
    (h : (counting (calls + 1)).Ends own P s t p q) : (counting calls).Ends own P s t p q := by
  obtain ⟨hresult, ⟨heq, hs, hle, hmax⟩, hcalls⟩ := h.exact fun _ _ _ h => h
  exact .alike hresult ⟨⟨heq, hs, Nat.le_of_succ_le hle, hmax⟩, hcalls⟩

/-- The same run, from wherever enough calls are in progress. -/
theorem counting_eq {x y : Eval Datum} (h : (counting calls).Runs own SameStandard x y)
    (hs : s.scopes.standard = true) (hle : calls ≤ s.calls) (hmax : s.calls ≤ maxCalls) :
    x s = y s := by
  obtain ⟨hresult, hcounts, -⟩ := (h.ends ⟨rfl, hs, hle, hmax⟩).exact fun _ _ _ h => h
  exact Prod.ext hresult.eq hcounts.eq

/-- Where there is room for calls on both sides, the unrolled evaluator does what the evaluator
does. The induction is on how deep it is unrolled; inside a call there is room for one less. -/
theorem counting_unroll (hosts hosts' : Hosts) (beyond : Evaluator) {calls n room : Nat}
    (hn : maxCalls < calls + n) (hroom : maxCalls ≤ calls + room) :
    (counting calls).Evaluators (unroll hosts beyond n) (evaluate hosts' room) := by
  induction n generalizing calls room with
  | zero =>
    intro _ d e _
    refine ⟨fun hst => ?_, fun hlate => hlate.elim⟩
    have hle := hst.least
    have hmax := hst.most
    omega
  | succ n ih =>
    intro own d e hde
    cases room with
    | zero =>
      rw [evaluate_zero]
      refine Comparison.evaluateWith hde ?_
      rintro p q head args head' args' rfl rfl hhead hargs
      refine ⟨fun {s t} hst => ?_, fun hlate => hlate.elim⟩
      have hle := hst.least
      obtain rfl := hst.eq
      rw [inCall_run, if_neg (by omega)]
      exact .alike (.error ((counting calls).errors_fault .tooDeep hde)) ⟨hst, rfl⟩
    | succ room =>
      rw [evaluate_succ]
      refine Comparison.evaluateWith hde ?_
      rintro p q head args head' args' rfl rfl hhead hargs
      have hinner : (counting (calls + 1)).Evaluators (unroll hosts beyond n)
        (evaluate hosts' room) := ih (by omega) (by omega)
      have hparts : (counting (calls + 1)).Runs own SameStandard _ _ :=
        Comparison.callParts hinner hinner hosts hosts' hde hhead hargs
      refine ⟨fun hst => .inCall hst hde (fun hs => counting_mono (hparts.ends ?_))
        fun hlate => hlate.elim, fun hlate => hlate.elim⟩
      obtain ⟨rfl, hstandard, hle, -⟩ := hst
      exact ⟨rfl, hstandard, Nat.succ_le_succ hle, hs⟩

/-- Unrolled as deep as there is room for calls, evaluation does what it does, and never gets to
what lies beyond. -/
theorem unroll_eq_evaluate (hosts hosts' : Hosts) (beyond : Evaluator) {n : Nat} {d : Datum}
    {s : State} (hd : d.standard = true) (hs : s.scopes.standard = true)
    (hcalls : s.calls ≤ maxCalls) (hn : maxCalls < s.calls + n) :
    unroll hosts beyond n d s = evaluate hosts' maxCalls d s := by
  have hunroll := counting_unroll hosts hosts' beyond hn (Nat.le_add_left maxCalls _)
  exact counting_eq (hunroll.runs ⟨rfl, hd⟩) hs (Nat.le_refl _) hcalls

end Eval
end Lisplet
