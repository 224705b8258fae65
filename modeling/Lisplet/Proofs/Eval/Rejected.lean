import Lisplet.Proofs.Eval.Call
import Lisplet.Proofs.Eval.Checked

/-!
Calls that are rejected. What is called, how many arguments there are and how
they look may be wrong in itself, whatever the arguments would evaluate to. Then
the call fails before any of them is evaluated, and what it leaves is what the
evaluation of its head has left.
-/
namespace Lisplet

namespace Eval

/-- The error that a call at `place` with a head at `headPlace` is rejected with, for the value of
its head and the arguments as they are written. A number of arguments that is wrong comes before
all that is wrong with one of them. -/
inductive Rejected (place headPlace : Place) (args : List Datum) : Datum → EvalError → Prop where
  | notCallable {callee : Datum} : callee.isCallable = false →
      Rejected place headPlace args callee ⟨.notCallable callee, headPlace⟩
  | builtin {p : Place} {b : Builtin} : args.length ≠ b.arity →
      Rejected place headPlace args (.builtin p b) ⟨.wrongArity args.length b.arity, headPlace⟩
  | func {p : Place} {name : String} {params : List String} {body : Datum} :
      args.length ≠ params.length →
      Rejected place headPlace args (.func p name params body)
        ⟨.wrongArity args.length params.length, headPlace⟩
  | letShape {p : Place} {name : String} {binding body : Datum} : args = [binding, body] →
      (∀ items, binding.list? = some items → items.length ≠ 0 ∧ items.length ≠ 2) →
      Rejected place headPlace args (.builtin p ⟨name, .binary .bind⟩) ⟨.badForm "let", place⟩
  | letName {p : Place} {name : String} {binding body target value : Datum} :
      args = [binding, body] → binding.list? = some [target, value] → target.ident? = none →
      Rejected place headPlace args (.builtin p ⟨name, .binary .bind⟩)
        ⟨.typeMismatch (.atom .sym) target.typeOf, target.place⟩
  | setName {p : Place} {name : String} {target value : Datum} : args = [target, value] →
      target.ident? = none →
      Rejected place headPlace args (.builtin p ⟨name, .binary .set⟩)
        ⟨.typeMismatch (.atom .sym) target.typeOf, target.place⟩
  | lambdaShape {p : Place} {name : String} {params body : Datum} : args = [params, body] →
      params.list? = none →
      Rejected place headPlace args (.builtin p ⟨name, .binary .lambda⟩) ⟨.badForm "lambda", place⟩
  /-- Of the parameters that are no names the first one is reported. -/
  | lambdaName {p : Place} {name : String} {params body : Datum} (before : List Datum)
      (param : Datum) (after : List Datum) :
      args = [params, body] → params.list? = some (before ++ param :: after) →
      (∀ d ∈ before, d.ident?.isSome) → param.ident? = none →
      Rejected place headPlace args (.builtin p ⟨name, .binary .lambda⟩)
        ⟨.typeMismatch (.atom .sym) param.typeOf, param.place⟩

section

variable {ε : Type} [Bindings ε]

omit [Bindings ε] in
theorem name_run_none {d : Datum} (h : d.ident? = none) (s : State ε) :
    (Form.name d : Run ε String) s =
      (.error ⟨.typeMismatch (.atom .sym) d.typeOf, d.place⟩, s) := by
  rw [Form.name, h]
  rfl

omit [Bindings ε] in
/-- The first parameter that is not a name is reported. -/
theorem names_run_none {before : List Datum} {d : Datum} (after : List Datum)
    (hbefore : ∀ d ∈ before, d.ident?.isSome) (hd : d.ident? = none) (s : State ε) :
    ((before ++ d :: after).mapM Form.name : Run ε (List String)) s =
      (.error ⟨.typeMismatch (.atom .sym) d.typeOf, d.place⟩, s) := by
  induction before with
  | nil => rw [List.nil_append, List.mapM_cons, bind_run, name_run_none hd]
  | cons b before ih =>
    obtain ⟨hb, hbefore⟩ := List.forall_mem_cons.1 hbefore
    obtain ⟨x, hx⟩ := Option.isSome_iff_exists.1 hb
    simp only [List.cons_append, List.mapM_cons, Form.name, hx, bind_run, pure_run, ih hbefore]

theorem callBuiltin_wrongArity (hosts : Hosts ε) (eval : Evaluator ε) (form : Datum) {b : Builtin}
    {args : List Datum} (h : args.length ≠ b.arity) :
    callBuiltin hosts eval form b args = wrongArity form args b.arity :=
  Option.some.inj ((callBuiltin?_eq hosts eval form b args).symm.trans (if_neg h))

/-- A binding that is neither empty nor a pair is reported at the form. -/
theorem bind_run_badForm (eval : Evaluator ε) (form : Datum) {binding : Datum} (body : Datum)
    (h : ∀ items, binding.list? = some items → items.length ≠ 0 ∧ items.length ≠ 2)
    (s : State ε) :
    Form.bind eval form binding body s = (.error ⟨.badForm "let", form.place⟩, s) := by
  have hform : Form.bind eval form binding body = fail (.badForm "let") form.place := by
    unfold Form.bind
    split
    next hitems => exact absurd rfl (h _ hitems).1
    next hitems => exact absurd rfl (h _ hitems).2
    next => rfl
  rw [hform, fail_run]

/-- A call that is rejected fails at once, whichever way its arguments are evaluated. -/
theorem Rejected.run {place : Place} {head callee : Datum} {args : List Datum} {e : EvalError}
    (h : Rejected place head.place args callee e) (hosts : Hosts ε) (eval : Evaluator ε)
    (s : State ε) :
    callValue hosts eval callee (.list place (head :: args)) args s = (.error e, s) := by
  cases h with
  | notCallable h =>
    cases callee with
    | builtin | func => cases h
    | _ => rfl
  | builtin h =>
    rw [callValue, call?, callBuiltin_wrongArity _ _ _ h]
    rfl
  | func h =>
    rw [callValue, call?, callFunc, if_neg h]
    rfl
  | @letShape p name binding body hargs h =>
    subst hargs
    exact bind_run_badForm eval _ body h s
  | @letName p name binding body target value hargs hbinding h =>
    subst hargs
    change Form.bind eval _ binding body s = _
    simp only [Form.bind, hbinding, bind_run, name_run_none h]
  | @setName p name target value hargs h =>
    subst hargs
    change Form.set eval _ target value s = _
    simp only [Form.set, bind_run, name_run_none h]
  | @lambdaShape p name params body hargs h =>
    subst hargs
    change Form.lambda _ params body s = _
    simp only [Form.lambda, h, fail_run, Datum.place]
  | @lambdaName p name params body before param after hargs hparams hbefore h =>
    subst hargs
    change Form.lambda _ params body s = _
    simp only [Form.lambda, hparams, bind_run, names_run_none after hbefore h]

end

/-- A rejected call leaves what its head has left, and evaluates no argument: it does the same with
any evaluator in place of the one that it has. -/
theorem evaluate_rejected (hosts : Hosts) {place : Place} {head callee : Datum}
    {args : List Datum} {e : EvalError} {s t : State} (hhead : head.standard = true)
    (hs : s.scopes.standard = true) (hcalls : s.calls < maxCalls)
    (hcallee : evaluate hosts maxCalls head { s with calls := s.calls + 1 } = (.ok callee, t))
    (h : Rejected place head.place args callee e) :
    evaluate hosts maxCalls (.list place (head :: args)) s =
        (.error e, { t with calls := s.calls }) ∧
      ∀ (eval : Evaluator) (u : State),
        callValue hosts eval callee (.list place (head :: args)) args u = (.error e, u) := by
  have hinside := Ample.ofCall hs hcalls
  have hcallee' : evaluate hosts (maxCalls - 1) head { s with calls := s.calls + 1 } =
      (.ok callee, t) :=
    (evaluate_eq_of_ample hosts hhead hinside (Nat.le_add_left _ _)).trans hcallee
  have ht : t.calls = s.calls + 1 := by
    have hkept := (flattens_evaluate hosts [] maxCalls hhead hinside.standard).calls
    rwa [hcallee] at hkept
  refine ⟨?_, fun eval u => h.run hosts eval u⟩
  rw [show maxCalls = maxCalls - 1 + 1 from rfl, evaluate_of_head hcalls hcallee', h.run]
  simp only [callEnd, ht, Nat.add_sub_cancel]

/-- The head prints a line, binds a name and gives the form that makes functions. The second of the
three parameters is no name, and the body, which would print, is not looked at. -/
theorem evaluate_rejected_lambda :
    let call (place : Place) (name : String) (args : List Datum) : Datum :=
      .list place (.ident place name :: args)
    let s : State := { scopes := Scopes.withBuiltins Builtin.standard }
    let head : Datum := call ⟨0, 1⟩ "let" [
      .list ⟨0, 6⟩ [.ident ⟨0, 7⟩ "u", call ⟨0, 9⟩ "set" [.ident ⟨0, 14⟩ "x",
        call ⟨0, 16⟩ "print" [.str ⟨0, 23⟩ "head"]]],
      .ident ⟨0, 32⟩ "lambda"]
    let params : Datum := .list ⟨0, 40⟩ [.ident ⟨0, 41⟩ "a", .int ⟨0, 43⟩ 1, .ident ⟨0, 45⟩ "b"]
    let body : Datum := call ⟨0, 48⟩ "print" [.str ⟨0, 55⟩ "body"]
    evaluate [] maxCalls (.list ⟨0, 0⟩ [head, params, body]) s =
      (.error ⟨.typeMismatch (.atom .sym) (.atom .int), ⟨0, 43⟩⟩,
        { scopes := s.scopes.insert "x" (.nil ⟨0, 16⟩), out := ⟨"head\n", false⟩ }) := by
  intro call s head params body
  have hcallee : evaluate [] maxCalls head { s with calls := 1 } =
    (.ok (.builtin default ⟨"lambda", .binary .lambda⟩),
      { scopes := s.scopes.insert "x" (.nil ⟨0, 16⟩), calls := 1, out := ⟨"head\n", false⟩ }) := rfl
  have hrejected : Rejected ⟨0, 0⟩ head.place [params, body]
      (.builtin default ⟨"lambda", .binary .lambda⟩)
      ⟨.typeMismatch (.atom .sym) (.atom .int), ⟨0, 43⟩⟩ :=
    .lambdaName [.ident ⟨0, 41⟩ "a"] (.int ⟨0, 43⟩ 1) [.ident ⟨0, 45⟩ "b"] rfl rfl (by decide) rfl
  exact (evaluate_rejected [] (by decide) (by decide +kernel) (by decide) hcallee hrejected).1

end Eval
end Lisplet
