import Lisplet.Proofs.Eval.Bounded

/-!
Calls with all checks. The number of arguments is compared once, before a form
looks any of them up by its index; the operation of a form says both how many it
takes and which ones it looks up. A value may also be called directly, with any
form and any arguments. Then, too, whenever a call is taken off the count there
is one on it.
-/
namespace Lisplet

namespace Eval

section Indices

variable {ε : Type} [Bindings ε]

/-- Call a built-in form, its arguments looked up by their index; nothing if one is out of bounds. -/
def callBuiltin? (hosts : Hosts ε) (eval : Evaluator ε) (form : Datum) (b : Builtin)
    (args : List Datum) : Option (Run ε Datum) :=
  if args.length = b.arity then
    match b.op with
    | .unary op => args[0]?.map fun a => Form.unary eval form op a
    | .binary op => args[0]?.bind fun a => args[1]?.map fun c => Form.binary eval form op a c
    | .host key _ => some ((hosts[key]?.getD fun _ call _ => return call) eval form args)
  else some (wrongArity form args b.arity)

/-- Whatever the arguments are, those that are looked up are there. -/
theorem callBuiltin?_eq (hosts : Hosts ε) (eval : Evaluator ε) (form : Datum) (b : Builtin)
    (args : List Datum) :
    callBuiltin? hosts eval form b args = some (callBuiltin hosts eval form b args) := by
  obtain ⟨name, op⟩ := b
  unfold callBuiltin? callBuiltin
  cases op with
  | host key arity => exact (apply_ite some (args.length = arity) _ _).symm
  | unary op =>
    rcases args with _ | ⟨a, _ | ⟨c, rest⟩⟩
    · rfl
    · rfl
    · simp [Builtin.arity, Op.arity]
  | binary op =>
    rcases args with _ | ⟨a, _ | ⟨c, _ | ⟨e, rest⟩⟩⟩
    · rfl
    · rfl
    · rfl
    · simp [Builtin.arity, Op.arity]

/-- A standard form uses the call for its place and that of its head only. -/
theorem callBuiltin_congr (hosts : Hosts ε) (eval : Evaluator ε) {f g : Datum} {b : Builtin}
    (hb : b ∈ Builtin.standard) (args : List Datum) (hplace : f.place = g.place)
    (hhead : f.headPlace = g.headPlace) :
    callBuiltin hosts eval f b args = callBuiltin hosts eval g b args := by
  unfold callBuiltin
  split
  next op a _ => cases op <;> simp [Form.unary, hplace]
  next op a c _ => cases op <;> simp [Form.binary, Form.set, Form.bind, Form.lambda, hplace]
  next key arity hop => exact absurd hop (Builtin.not_host_of_standard hb key arity)
  next => simp [wrongArity, hhead]

/-- A call depends on its form by two places only. -/
theorem callWith?_congr (hosts : Hosts ε) (part body : Evaluator ε) {callee f g : Datum}
    (hcallee : callee.standard = true) (args : List Datum) (hplace : f.place = g.place)
    (hhead : f.headPlace = g.headPlace) :
    callWith? hosts part body callee f args = callWith? hosts part body callee g args := by
  cases callee with
  | builtin p b =>
    exact congrArg some (callBuiltin_congr hosts part (of_decide_eq_true hcallee) args hplace hhead)
  | func p name params e => simp [callWith?, callFuncWith, wrongArity, hhead]
  | _ => rfl

end Indices

/-- In an evaluation, whenever a call is taken off the count there is one on it. -/
theorem counts_watched {d : Datum} {s : State} (hd : d.standard = true)
    (hs : s.scopes.standard = true) (hcalls : s.calls ≤ maxCalls) :
    ∀ n ∈ (watched d s).2.scopes.counts, 0 < n := by
  have hends := Discipline.standard.ends_watched (d := d) hd (Scopes.standard_iff_values.1 hs) hcalls
  exact (Discipline.within_of_ends hends).counts

/-- Call a value directly under watch, from an empty record; nothing if it is not callable. -/
def watchedCall? (callee form : Datum) (args : List Datum) (s : State) :
    Option (Except EvalError Datum × State (Watched Scopes)) :=
  (callWith? [] (watch [] (maxCalls + 1) false) (watch [] (maxCalls + 1) true) callee form args).map
    fun x => x s.watched

end Eval

namespace Comparison

variable {ε δ : Type} [Bindings ε] [Bindings δ] {C : Comparison ε δ}

/-- What is called directly does alike, and is callable or not. -/
theorem callWith? {part body : Evaluator ε} {part' body' : Evaluator δ}
    (hpart : C.Evaluators part part') (hbody : C.Evaluators body body') (hosts : Hosts ε)
    (hosts' : Hosts δ) {c d f g : Datum} {ds es : List Datum} (hcd : C.data c d) (hfg : C.data f g)
    (hds : List.Forall₂ C.data ds es) : Option.Rel (C.Runs false C.data)
      (Eval.callWith? hosts part body c f ds) (Eval.callWith? hosts' part' body' d g es) := by
  have hm := C.parts hcd
  cases hm with
  | builtin p q hb => exact .some (callBuiltin hpart hosts hosts' hb hfg hds)
  | func p q name params hexpr => exact .some (callFuncWith hpart hbody params hfg hexpr hds)
  | nil | type | bool | int | str | ident | quote | list => exact .none

end Comparison

namespace Eval

/-- What is callable runs under watch, then without, and then with the calls counted. -/
theorem map_run_of_rel {s : State} {x : Option (Run (Watched Scopes) Datum)}
    {y z : Option (Eval Datum)}
    (hxy : Option.Rel (forgetting.comparison.Runs false SameStandard) x y)
    (hyz : Option.Rel ((counting s.calls).Runs false SameStandard) y z)
    (hs : s.scopes.standard = true) (hcalls : s.calls ≤ maxCalls) :
    z.map (fun z => z s) = (x.map fun x => x s.watched).map fun p => (p.1, p.2.forget) := by
  cases hxy with
  | none =>
    cases hyz
    rfl
  | some hxy =>
    cases hyz with
    | some hyz =>
      have hwatch := View.run_eq (s := s.watched) hxy hs
      exact congrArg some ((counting_eq hyz hs (Nat.le_refl _) hcalls).symm.trans hwatch)

/-- A direct call with a standard form does what it does under watch. Like evaluation, it is first
unrolled as deep as there is room for calls. -/
theorem call?_watched_of_standard (hosts : Hosts) {callee form : Datum} {args : List Datum}
    {s : State} (hcallee : callee.standard = true) (hform : form.standard = true)
    (hargs : ∀ a ∈ args, a.standard = true) (hs : s.scopes.standard = true)
    (hcalls : s.calls ≤ maxCalls) :
    (call? hosts (evaluate hosts maxCalls) callee form args).map (fun x => x s) =
      (watchedCall? callee form args s).map fun p => (p.1, p.2.forget) := by
  have hsame : List.Forall₂ SameStandard args args :=
    List.forall₂_same.2 fun a ha => ⟨rfl, hargs a ha⟩
  have hunroll : (counting s.calls).Evaluators
      (unroll hosts (fun d => fail .tooDeep d.place) (maxCalls + 1)) (evaluate hosts maxCalls) :=
    counting_unroll _ _ _ (Nat.lt_add_left _ (Nat.lt_succ_self _)) (Nat.le_add_left _ _)
  have hcounts := Comparison.callWith? hunroll hunroll hosts hosts ⟨rfl, hcallee⟩ ⟨rfl, hform⟩ hsame
  have hforgets := Comparison.callWith? (forgetting_watch [] hosts (maxCalls + 1) false)
    (forgetting_watch [] hosts (maxCalls + 1) true) [] hosts ⟨rfl, hcallee⟩ ⟨rfl, hform⟩ hsame
  rw [callWith?_self hosts (evaluate hosts maxCalls)] at hcounts
  exact map_run_of_rel hforgets hcounts hs hcalls

variable {callee form : Datum} {args : List Datum} {s : State}

/-- A direct call does what it does under watch, with whatever form: a standard one in the same place
does as well. -/
theorem call?_watched (hosts : Hosts) (hcallee : callee.standard = true)
    (hargs : ∀ a ∈ args, a.standard = true) (hs : s.scopes.standard = true)
    (hcalls : s.calls ≤ maxCalls) :
    (call? hosts (evaluate hosts maxCalls) callee form args).map (fun x => x s) =
      (watchedCall? callee form args s).map fun p => (p.1, p.2.forget) := by
  let g : Datum := .list form.place [.nil form.headPlace]
  have hg : g.standard = true := rfl
  have h := call?_watched_of_standard hosts hcallee hg hargs hs hcalls
  unfold watchedCall? at h ⊢
  rw [← callWith?_self] at h ⊢
  rwa [callWith?_congr _ _ _ hcallee args (f := form) (g := g) rfl rfl,
    callWith?_congr _ _ _ hcallee args (f := form) (g := g) rfl rfl]

/-- What is called directly does well under watch. -/
theorem holds_callWith? {x : Run (Watched Scopes) Datum} (hcallee : callee.standard = true)
    (hargs : ∀ a ∈ args, a.standard = true) (hcalls : s.calls ≤ maxCalls)
    (hx : callWith? [] (watch [] (maxCalls + 1) false) (watch [] (maxCalls + 1) true) callee form args =
      some x) :
    (Discipline.standard.during s.calls []).Holds (·.standard = true) x := by
  have hwatch : ∀ (isBody : Bool) (e : Datum), e.standard = true →
      (Discipline.standard.during s.calls []).Holds (·.standard = true)
        (watch [] (maxCalls + 1) isBody e) := by
    intro isBody e he
    refine Discipline.standard.holds_watch [] (by simp) ?_ ?_ he
    · simpa using hcalls
    · simp only [List.length_nil]
      omega
  cases callee with
  | builtin p b =>
    cases hx
    refine Assertion.holds_callBuiltin (hwatch false) ?_ (fun _ hv => hv) (fun _ _ _ he => he) []
      form (of_decide_eq_true hcallee) hargs
    intro p items hitems
    rwa [Datum.standard, Datum.standardAll_iff] at hitems
  | func p name params e =>
    cases hx
    exact Assertion.holds_callFuncWith (hwatch false) form params (hwatch true e hcallee) hargs
  | _ => cases hx

/-- Inside a direct call, whenever a call is taken off the count there is one on it. -/
theorem counts_watchedCall? (hcallee : callee.standard = true)
    (hargs : ∀ a ∈ args, a.standard = true) (hs : s.scopes.standard = true)
    (hcalls : s.calls ≤ maxCalls) {p : Except EvalError Datum × State (Watched Scopes)}
    (hp : watchedCall? callee form args s = some p) : ∀ n ∈ p.2.scopes.counts, 0 < n := by
  obtain ⟨x, hx, rfl⟩ := Option.map_eq_some_iff.1 hp
  have hends := (holds_callWith? hcallee hargs hcalls hx).ends s.watched
    (Discipline.standard.during_watched (Scopes.standard_iff_values.1 hs))
  exact (Discipline.within_of_ends hends).counts

end Eval
end Lisplet
