import Lisplet.Proofs.Eval.Depth
import Lisplet.Proofs.Eval.Unroll

/-!
A function that is called where it is written means a nest of `let` forms. The
call binds its arguments one after the other in a single scope, each evaluated
inside it; the nest opens a scope for every name, and evaluates the first value
outside of all of them. What is visible at each point is the same on both sides,
and so is everything that evaluation can tell. Only the calls in progress are
more in the nest, one for every `let` around, so it may be the first to come to
the limit; and what the arguments bind goes with the scope of the call, while
the nest leaves what its first value has bound.
-/
namespace Lisplet

namespace Eval

variable {α β : Type}

/-- Evaluation with so much room may begin in this state: only the count of calls can run out. -/
structure Ample (room : Nat) (s : State) : Prop where
  standard : s.scopes.standard = true
  calls : s.calls ≤ maxCalls
  room : maxCalls ≤ s.calls + room

namespace Ample

variable {room : Nat} {s t : State}

theorem of_calls_eq (h : Ample room s) (ht : t.scopes.standard = true)
    (hcalls : t.calls = s.calls) : Ample room t :=
  ⟨ht, hcalls ▸ h.calls, hcalls ▸ h.room⟩

theorem enter (h : Ample room s) : Ample room { s with scopes := s.scopes.enter } :=
  h.of_calls_eq (Scopes.standard_enter h.standard) rfl

theorem insert (h : Ample room s) (x : String) {v : Datum} (hv : v.standard = true) :
    Ample room { s with scopes := s.scopes.insert x v } :=
  h.of_calls_eq (Scopes.standard_insert x h.standard hv) rfl

/-- Inside a call there is one call more, and room for one less. -/
theorem call (h : Ample (room + 1) s) (hcalls : s.calls < maxCalls) :
    Ample room { s with calls := s.calls + 1 } :=
  ⟨h.standard, hcalls, by have := h.room; simp only; omega⟩

/-- Inside a call that is evaluated with the whole room. -/
theorem ofCall (hs : s.scopes.standard = true) (hcalls : s.calls < maxCalls) :
    Ample (maxCalls - 1) { s with calls := s.calls + 1 } :=
  ⟨hs, hcalls, by simp only; omega⟩

theorem evaluate (h : Ample room s) (hosts : Hosts) (n : Nat) {d : Datum}
    (hd : d.standard = true) : Ample room (Eval.evaluate hosts n d s).2 := by
  have hflat := flattens_evaluate hosts [] n hd h.standard
  exact h.of_calls_eq hflat.standard hflat.calls

end Ample

/-- With room enough, it makes no difference how much there is. -/
theorem evaluate_eq_of_ample (hosts : Hosts) {n m : Nat} {d : Datum} {s : State}
    (hd : d.standard = true) (hn : Ample n s) (hm : maxCalls ≤ s.calls + m) :
    evaluate hosts n d s = evaluate hosts m d s := by
  have hdeep : maxCalls < s.calls + (maxCalls + 1) := by omega
  have hruns (room : Nat) (hroom : maxCalls ≤ s.calls + room) :
      unroll hosts (fun _ => pure d) (maxCalls + 1) d s = evaluate hosts room d s := by
    have h := (counting_unroll hosts hosts (fun _ => pure d) hdeep hroom).runs ⟨rfl, hd⟩
    exact counting_eq h hn.standard (Nat.le_refl _) hn.calls
  exact (hruns n hn.room).symm.trans (hruns m hm)

/-- States that look the same to a program, but that more calls may be in progress in the first. -/
structure LooksDeeper (s t : State) : Prop where
  lookup? : ∀ name, s.scopes.lookup? name = t.scopes.lookup? name
  out : s.out = t.out
  calls : t.calls ≤ s.calls

/-- States that look the same still do when both have bound a name to one value. -/
theorem LooksDeeper.insert {s t : State} (h : LooksDeeper s t) (x : String) (v : Datum) :
    LooksDeeper { s with scopes := s.scopes.insert x v }
      { t with scopes := t.scopes.insert x v } := by
  refine ⟨fun name => ?_, h.out, h.calls⟩
  by_cases hx : name = x
  · rw [hx]
    exact (Scopes.lookup?_insert_same ..).trans (Scopes.lookup?_insert_same ..).symm
  · rw [Scopes.lookup?_insert_other _ hx, Scopes.lookup?_insert_other _ hx]
    exact h.lookup? name

/-- The first evaluation meets the limit, or both end in the same way and in states that look the
same. Between the two stands the evaluation from the second state with the calls of the first. -/
theorem evaluate_looksDeeper (hosts : Hosts) {n m : Nat} {d : Datum} {s t : State}
    (hd : d.standard = true) (hs : Ample n s) (ht : Ample m t) (hst : LooksDeeper s t) :
    Overruns (evaluate hosts n d s).1 ∨
      ((evaluate hosts n d s).1 = (evaluate hosts m d t).1 ∧
        LooksDeeper (evaluate hosts n d s).2 (evaluate hosts m d t).2) := by
  have hcalls := hst.calls
  have hroom := ht.room
  rw [evaluate_eq_of_ample hosts hd hs (show maxCalls ≤ s.calls + m by omega)]
  let u : State := { t with calls := s.calls }
  have hsu : s.flat = u.flat := lookAlike_iff.1 ⟨rfl, hst.out, hst.lookup?⟩
  have hflat := evaluate_flat hosts [] m hd hs.standard
  rw [hsu, evaluate_flat hosts [] m hd (s := u) ht.standard, Prod.mk.injEq] at hflat
  obtain ⟨hresult, hstate⟩ := hflat
  have halike : LookAlike (evaluate hosts m d s).2 (evaluate hosts m d u).2 :=
    lookAlike_iff.2 hstate.symm
  have hut : Deeper u t := ⟨rfl, rfl, hcalls, ht.standard⟩
  rw [← hresult]
  refine (hut.evaluate hosts m hd).imp_right ?_
  rintro ⟨hsame, hdeeper⟩
  refine ⟨hsame, fun name => ?_, halike.out.trans hdeeper.out, ?_⟩
  · rw [halike.lookup? name, hdeeper.scopes]
  · rw [halike.calls]
    exact hdeeper.calls

inductive LambdaCall (xs : List String) (args : List Datum) (body : Datum) : Datum → Prop where
  | mk (p q r t : Place) (params : List Datum) : params.map Datum.ident? = xs.map some →
      LambdaCall xs args body
        (.list p (.list q [.ident r "lambda", .list t params, body] :: args))

/-- A `let` form for every name and its value, one inside the other, and the body inside all. -/
inductive NestedLets (body : Datum) : List String → List Datum → Datum → Prop where
  | body : NestedLets body [] [] body
  | bind (p q r t : Place) {x : String} {xs : List String} {a d : Datum} {as : List Datum} :
      NestedLets body xs as d →
      NestedLets body (x :: xs) (a :: as)
        (.list p [.ident q "let", .list r [.ident t x, a], d])

def Names (s : State) (name : String) (op : BinaryOp) : Prop :=
  ∃ place, s.scopes.lookup? name = some (.builtin place ⟨name, .binary op⟩)

def letParts (eval : Evaluator) (x : String) (a d : Datum) : Eval Datum := do
  let v ← eval a
  inScope do
    insert x v
    eval d

theorem bind_eq_letParts (eval : Evaluator) (form : Datum) (r t : Place) (x : String)
    (a d : Datum) : Form.bind eval form (.list r [.ident t x, a]) d = letParts eval x a d := by
  funext s
  simp only [Form.bind, Datum.list?, Form.name, Datum.ident?, letParts, bind_run, pure_run]

/-- A `let` form is a call, and inside it its two parts. -/
theorem evaluate_let (hosts : Hosts) (room : Nat) (p q r t : Place) (x : String) (a d : Datum)
    {s : State} (hlet : Names s "let" .bind) :
    evaluate hosts (room + 1) (.list p [.ident q "let", .list r [.ident t x, a], d]) s =
      inCall p (letParts (evaluate hosts room) x a d) s := by
  obtain ⟨place, hlet⟩ := hlet
  have hlookup : Bindings.lookup? s.scopes "let" =
    some (.builtin place ⟨"let", .binary .bind⟩) := hlet
  simp only [evaluate, inCall_run, bind_run, lookup?_run, hlookup, pure_run, call?, callBuiltin,
    Form.binary, bind_eq_letParts]

/-- Parameters that are names are taken as these names. -/
theorem names_run {params : List Datum} {xs : List String}
    (h : params.map Datum.ident? = xs.map some) (s : State) :
    (params.mapM Form.name : Eval (List String)) s = (.ok xs, s) := by
  induction params generalizing xs with
  | nil =>
    obtain rfl : xs = [] := by simpa using h.symm
    rfl
  | cons d params ih =>
    cases xs with
    | nil => cases h
    | cons x xs =>
      obtain ⟨hd, hparams⟩ := List.cons.inj h
      simp only [List.mapM_cons, Form.name, hd, bind_run, pure_run, ih hparams]

/-- A function is made where it is written, if there is room for the call that makes it. -/
theorem evaluate_lambda (hosts : Hosts) (room : Nat) (q r t : Place) {params : List Datum}
    {xs : List String} (body : Datum) {s : State} (hlambda : Names s "lambda" .lambda)
    (hparams : params.map Datum.ident? = xs.map some) :
    evaluate hosts room (.list q [.ident r "lambda", .list t params, body]) s =
        (.error ⟨.tooDeep, q⟩, s) ∨
      evaluate hosts room (.list q [.ident r "lambda", .list t params, body]) s =
        (.ok (.func q "" xs body), s) := by
  obtain ⟨place, hlambda⟩ := hlambda
  have hlookup : Bindings.lookup? s.scopes "lambda" =
    some (.builtin place ⟨"lambda", .binary .lambda⟩) := hlambda
  cases room with
  | zero => exact .inl rfl
  | succ room =>
    by_cases hcalls : s.calls < maxCalls
    · right
      simp only [evaluate, inCall_run, if_pos hcalls, bind_run, lookup?_run, hlookup, pure_run,
        call?, callBuiltin, Form.binary, Form.lambda, Datum.list?, names_run hparams, Datum.place]
      rfl
    · left
      rw [evaluate, inCall_run, if_neg hcalls]

def callee (eval : Evaluator) (xs : List String) (args : List Datum) (body : Datum) :
    Eval Datum := do
  bindAll eval xs args
  eval body

theorem callee_cons (eval : Evaluator) (x : String) (xs : List String) (a : Datum)
    (args : List Datum) (body : Datum) :
    callee eval (x :: xs) (a :: args) body = (do
      let v ← eval a
      insert x v
      callee eval xs args body) := by
  simp only [callee, bindAll, bind_assoc]

/-- There may be no room to make the function. Otherwise it is called at once. -/
theorem evaluate_lambdaCall (hosts : Hosts) (room : Nat) {xs : List String} {args : List Datum}
    {body d : Datum} {s : State} (hd : LambdaCall xs args body d)
    (hlambda : Names s "lambda" .lambda) (hlength : args.length = xs.length) :
    (∃ place, evaluate hosts (room + 1) d s = (.error ⟨.tooDeep, place⟩, s)) ∨
      evaluate hosts (room + 1) d s =
        inCall d.place (inScope (callee (evaluate hosts room) xs args body)) s := by
  obtain ⟨p, q, r, t, params, hparams⟩ := hd
  by_cases hcalls : s.calls < maxCalls
  · rw [evaluate, inCall_run, inCall_run, if_pos hcalls, if_pos hcalls, bind_run]
    obtain hhead | hhead := evaluate_lambda hosts room q r t body
      (s := { s with calls := s.calls + 1 }) hlambda hparams
    · exact .inl ⟨q, by rw [hhead]; rfl⟩
    · right
      rw [hhead]
      simp only [call?, callFunc, if_pos hlength]
      rfl
  · refine .inl ⟨p, ?_⟩
    rw [evaluate, inCall_run, if_neg hcalls]

/-- The first evaluation meets the limit, or both give the same answer and have printed the same. -/
def AnswerAlike (p q : Except EvalError α × State) : Prop :=
  Overruns p.1 ∨ (p.1 = q.1 ∧ p.2.out = q.2.out)

theorem Names.evaluate {s : State} {name : String} {op : BinaryOp} (h : Names s name op)
    (hosts : Hosts) (n : Nat) {d : Datum} (hd : d.standard = true) (hs : s.scopes.standard = true) :
    Names (Eval.evaluate hosts n d s).2 name op := by
  obtain ⟨place, h⟩ := h
  exact ⟨place, (flattens_evaluate hosts [] n hd hs).keeps.lookup? h⟩

theorem Names.enter_insert {s : State} {name x : String} {op : BinaryOp} (h : Names s name op)
    (hx : name ≠ x) (v : Datum) : Names { s with scopes := s.scopes.enter.insert x v } name op := by
  obtain ⟨place, h⟩ := h
  exact ⟨place, (Scopes.lookup?_insert_other _ hx v).trans h⟩

/-- One name is bound on both sides, in a scope of its own on the one and among the names before it
on the other. What follows sees the same. -/
theorem letParts_alike {hosts : Hosts} {n m : Nat} {x : String} {a d : Datum} {rest : Eval Datum}
    {s t : State} (ha : a.standard = true) (hs : Ample n s) (ht : Ample m t)
    (hst : LooksDeeper s t) (hlet : Names s "let" .bind) (hx : "let" ≠ x)
    (hrest : ∀ s t, Ample n s → Ample m t → LooksDeeper s t → Names s "let" .bind →
      AnswerAlike (evaluate hosts n d s) (rest t)) :
    AnswerAlike (letParts (evaluate hosts n) x a d s)
      ((do let v ← evaluate hosts m a; insert x v; rest) t) := by
  have hs' := hs.evaluate hosts n ha
  have ht' := ht.evaluate hosts m ha
  have hlet' := hlet.evaluate hosts n ha hs.standard
  have hvalue : ∀ v, (evaluate hosts n a s).1 = .ok v → v.standard = true :=
    fun _ => standard_of_evaluate hosts n ha hs.standard
  have hboth := evaluate_looksDeeper hosts ha hs ht hst
  rw [letParts, bind_run, bind_run]
  rcases hp : evaluate hosts n a s with ⟨r, s'⟩
  rcases hq : evaluate hosts m a t with ⟨r', t'⟩
  rw [hp] at hs' hlet' hvalue hboth
  rw [hq] at ht' hboth
  obtain ⟨place, rfl⟩ | ⟨rfl, hafter⟩ := hboth
  · exact .inl ⟨place, rfl⟩
  · cases r with
    | error e => exact .inr ⟨rfl, hafter.out⟩
    | ok v =>
      have hv := hvalue v rfl
      have hinside : LooksDeeper { s' with scopes := s'.scopes.enter } t' :=
        ⟨hafter.lookup?, hafter.out, hafter.calls⟩
      exact hrest _ _ (hs'.enter.insert x hv) (ht'.insert x hv) (hinside.insert x v)
        (hlet'.enter_insert hx v)

/-- The induction is on the nest. Each `let` is one more call in progress than the call has. -/
theorem NestedLets.alike {hosts : Hosts} {xs : List String} {args : List Datum} {body d : Datum}
    (h : NestedLets body xs args d) (hxs : "let" ∉ xs) (hargs : Datum.standardAll args = true)
    (hbody : body.standard = true) {n m : Nat} {s t : State} (hs : Ample n s) (ht : Ample m t)
    (hst : LooksDeeper s t) (hlet : Names s "let" .bind) :
    AnswerAlike (evaluate hosts n d s) (callee (evaluate hosts m) xs args body t) := by
  induction h generalizing n s t with
  | body =>
    exact (evaluate_looksDeeper hosts hbody hs ht hst).imp_right fun hend => ⟨hend.1, hend.2.out⟩
  | @bind p q r u x xs a d as _ ih =>
    rw [List.mem_cons, not_or] at hxs
    rw [Datum.standardAll, Bool.and_eq_true] at hargs
    rw [callee_cons]
    cases n with
    | zero => exact .inl ⟨p, rfl⟩
    | succ n =>
      rw [evaluate_let hosts n p q r u x a d hlet, inCall_run]
      by_cases hcalls : s.calls < maxCalls
      · rw [if_pos hcalls]
        exact letParts_alike hargs.1 (hs.call hcalls) ht
          ⟨hst.lookup?, hst.out, Nat.le_succ_of_le hst.calls⟩ hlet hxs.1
          fun s' t' hs' ht' => ih hxs.2 hargs.2 hs' ht'
      · rw [if_neg hcalls]
        exact .inl ⟨p, rfl⟩

/-- A scope that is left has taken with it all that was bound in it. -/
theorem inScope_leaves {x : Eval α} {y : Run NameMap β} {P : α → β → Prop} {s : State}
    (h : flattening.Runs true P x y) (hs : s.scopes.standard = true) :
    (inScope x s).2 = { s with out := (inScope x s).2.out } := by
  obtain ⟨-, hflattens⟩ := (h.ends (flattening.enterScope ⟨rfl, hs⟩)).exact fun _ _ _ h => h
  have hleave : Bindings.leave s.scopes (x { s with scopes := Bindings.enter s.scopes }).2.scopes =
    s.scopes := hflattens.keeps.leave
  have hcalls : (x { s with scopes := Bindings.enter s.scopes }).2.calls = s.calls :=
    hflattens.calls
  rw [inScope_run]
  simp only [hleave, hcalls]

theorem flattening_runs (hosts : Hosts) (n : Nat) (own : Bool) {d : Datum}
    (hd : d.standard = true) :
    flattening.Runs own SameStandard (evaluate hosts n d) (evaluate [] n d) :=
  flattening.evaluators hosts [] n ⟨rfl, hd⟩

/-- After a call of a function, the state is as before but for what was printed. -/
theorem callee_leaves (hosts : Hosts) (n : Nat) (xs : List String) {args : List Datum}
    {body : Datum} {s : State} (hargs : Datum.standardAll args = true)
    (hbody : body.standard = true) (hs : s.scopes.standard = true) :
    let p := inScope (callee (evaluate hosts n) xs args body) s
    p.2 = { s with out := p.2.out } := by
  have hparts : flattening.Runs true SameStandard
      (do Eval.bindAll (evaluate hosts n) xs args; evaluate hosts n body)
      (do Eval.bindAll (evaluate [] n) xs args; evaluate [] n body) :=
    flattening.bind
      (Comparison.bindAll (flattening.evaluators hosts [] n) xs (SameStandard.all hargs))
      fun _ _ _ => flattening_runs hosts n true hbody
  exact inScope_leaves hparts hs

/-- After a `let` form, the state is as the value has left it but for what was printed. -/
theorem letParts_leaves (hosts : Hosts) (n : Nat) (x : String) {a d : Datum} {s : State}
    (ha : a.standard = true) (hd : d.standard = true) (hs : s.scopes.standard = true) :
    let p := letParts (evaluate hosts n) x a d s
    p.2 = { (evaluate hosts n a s).2 with out := p.2.out } := by
  have hflat := flattens_evaluate hosts [] n ha hs
  have hvalue : ∀ v, (evaluate hosts n a s).1 = .ok v → v.standard = true :=
    fun _ => standard_of_evaluate hosts n ha hs
  rw [letParts, bind_run]
  rcases hp : evaluate hosts n a s with ⟨r, s'⟩
  rw [hp] at hvalue hflat
  cases r with
  | error e => rfl
  | ok v =>
    have hparts : flattening.Runs true SameStandard (do insert x v; evaluate hosts n d)
      (do insert x v; evaluate [] n d) :=
      flattening.bind (flattening.insert x ⟨rfl, hvalue v rfl⟩)
        fun _ _ _ => flattening_runs hosts n true hd
    exact inScope_leaves hparts hflat.standard

theorem NestedLets.length_eq {xs : List String} {args : List Datum} {body d : Datum}
    (h : NestedLets body xs args d) : args.length = xs.length := by
  induction h with
  | body => rfl
  | bind _ _ _ _ _ ih => exact congrArg (· + 1) ih

/-- A nest of standard parts is standard. -/
theorem NestedLets.standard {xs : List String} {args : List Datum} {body d : Datum}
    (h : NestedLets body xs args d) (hargs : Datum.standardAll args = true)
    (hbody : body.standard = true) : d.standard = true := by
  induction h with
  | body => exact hbody
  | bind p q r t _ ih =>
    rw [Datum.standardAll, Bool.and_eq_true] at hargs
    simp [Datum.standard, Datum.standardAll, hargs.1, ih hargs.2]

section Whole

variable (hosts : Hosts) {x : String} {xs : List String} {a body d e : Datum} {args : List Datum}
  {s : State}

/-- The outermost `let` of a nest is a call, in which the first value is evaluated. -/
theorem NestedLets.exists_parts (he : NestedLets body (x :: xs) (a :: args) e)
    (hlet : Names s "let" .bind) :
    ∃ d, NestedLets body xs args d ∧
      evaluate hosts maxCalls e s =
        inCall e.place (letParts (evaluate hosts (maxCalls - 1)) x a d) s := by
  cases he with
  | @bind p q r t _ _ _ d _ hd =>
    exact ⟨d, hd, evaluate_let hosts (maxCalls - 1) p q r t x a d hlet⟩

/-- The call leaves the state as it was but for what was printed. -/
theorem LambdaCall.leaves (hd : LambdaCall xs args body d) (hlength : args.length = xs.length)
    (hargs : Datum.standardAll args = true) (hbody : body.standard = true)
    (hs : s.scopes.standard = true) (hlambda : Names s "lambda" .lambda) :
    (evaluate hosts maxCalls d s).2 =
      { s with out := (evaluate hosts maxCalls d s).2.out } := by
  have hp : (∃ place, evaluate hosts maxCalls d s = (.error ⟨.tooDeep, place⟩, s)) ∨
      evaluate hosts maxCalls d s =
        inCall d.place (inScope (callee (evaluate hosts (maxCalls - 1)) xs args body)) s :=
    evaluate_lambdaCall hosts (maxCalls - 1) hd hlambda hlength
  obtain ⟨place, hp⟩ | hp := hp
  · rw [hp]
  · rw [hp, inCall_run]
    split
    · have hleaves := callee_leaves hosts (maxCalls - 1) xs (s := { s with calls := s.calls + 1 })
        hargs hbody hs
      simp only at hleaves ⊢
      rw [hleaves]
      rfl
    · rfl

/-- The nest leaves the state as its first value does, evaluated as part of one call. -/
theorem NestedLets.leaves (he : NestedLets body (x :: xs) (a :: args) e)
    (hargs : Datum.standardAll (a :: args) = true) (hbody : body.standard = true)
    (hs : s.scopes.standard = true) (hlet : Names s "let" .bind) :
    (evaluate hosts maxCalls e s).2 =
      { (inCall e.place (evaluate hosts maxCalls a) s).2 with
        out := (evaluate hosts maxCalls e s).2.out } := by
  obtain ⟨d, hd, hparts⟩ := he.exists_parts hosts hlet
  rw [Datum.standardAll, Bool.and_eq_true] at hargs
  rw [hparts, inCall_run, inCall_run]
  by_cases hcalls : s.calls < maxCalls
  · have hroom := evaluate_eq_of_ample hosts hargs.1 (Ample.ofCall hs hcalls)
      (Nat.le_add_left maxCalls _)
    have hleaves := letParts_leaves hosts (maxCalls - 1) x (s := { s with calls := s.calls + 1 })
      hargs.1 (hd.standard hargs.2 hbody) hs
    rw [if_pos hcalls, if_pos hcalls, ← hroom]
    simp only at hleaves ⊢
    rw [hleaves]
  · rw [if_neg hcalls, if_neg hcalls]

/-- A nest whose first value meets the limit meets the limit. -/
theorem NestedLets.overruns (he : NestedLets body (x :: xs) (a :: args) e)
    (ha : a.standard = true) (hs : s.scopes.standard = true) (hlet : Names s "let" .bind)
    (hover : Overruns (inCall e.place (evaluate hosts maxCalls a) s).1) :
    Overruns (evaluate hosts maxCalls e s).1 := by
  obtain ⟨d, -, hparts⟩ := he.exists_parts hosts hlet
  rw [hparts]
  rw [inCall_run] at hover ⊢
  by_cases hcalls : s.calls < maxCalls
  · have hroom := evaluate_eq_of_ample hosts ha (Ample.ofCall hs hcalls)
      (Nat.le_add_left maxCalls _)
    rw [if_pos hcalls, ← hroom] at hover
    rw [if_pos hcalls, letParts, bind_run]
    obtain ⟨place, hover⟩ := hover
    refine ⟨place, ?_⟩
    rcases hp : evaluate hosts (maxCalls - 1) a { s with calls := s.calls + 1 } with ⟨r, s'⟩
    rw [hp] at hover
    cases hover
    rfl
  · rw [if_neg hcalls]
    exact ⟨e.place, rfl⟩

/-- To be evaluated as part of a call makes a difference to a value only by the limit. -/
theorem evaluate_inCall (place : Place) (ha : a.standard = true) (hs : s.scopes.standard = true) :
    Overruns (inCall place (evaluate hosts maxCalls a) s).1 ∨
      (inCall place (evaluate hosts maxCalls a) s).2 = (evaluate hosts maxCalls a s).2 := by
  rw [inCall_run]
  by_cases hcalls : s.calls < maxCalls
  · rw [if_pos hcalls]
    have hdeeper : Deeper { s with calls := s.calls + 1 } s := ⟨rfl, rfl, Nat.le_succ _, hs⟩
    have hboth := hdeeper.evaluate hosts maxCalls ha
    have hin : (evaluate hosts maxCalls a { s with calls := s.calls + 1 }).2.calls = s.calls + 1 :=
      (flattens_evaluate hosts [] maxCalls (s := { s with calls := s.calls + 1 }) ha hs).calls
    have hout := (flattens_evaluate hosts [] maxCalls ha hs).calls
    generalize evaluate hosts maxCalls a { s with calls := s.calls + 1 } = p at hboth hin ⊢
    refine hboth.imp_right ?_
    rintro ⟨-, hafter⟩
    simp only [hin, Nat.add_sub_cancel, hafter.scopes, hafter.out, ← hout]
  · rw [if_neg hcalls]
    exact .inl ⟨place, rfl⟩

/-- Inside the outermost `let` and inside the call there are as many calls in progress. From there
on the nest follows the call. -/
theorem LambdaCall.alike (hd : LambdaCall (x :: xs) (a :: args) body d)
    (he : NestedLets body (x :: xs) (a :: args) e) (hnames : "let" ∉ x :: xs)
    (hargs : Datum.standardAll (a :: args) = true) (hbody : body.standard = true)
    (hs : s.scopes.standard = true) (hlet : Names s "let" .bind)
    (hlambda : Names s "lambda" .lambda) :
    Overruns (evaluate hosts maxCalls d s).1 ∨
      AnswerAlike (evaluate hosts maxCalls e s) (evaluate hosts maxCalls d s) := by
  have hcall : (∃ place, evaluate hosts maxCalls d s = (.error ⟨.tooDeep, place⟩, s)) ∨
      evaluate hosts maxCalls d s = inCall d.place
        (inScope (callee (evaluate hosts (maxCalls - 1)) (x :: xs) (a :: args) body)) s :=
    evaluate_lambdaCall hosts (maxCalls - 1) hd hlambda he.length_eq
  obtain ⟨place, hcall⟩ | hcall := hcall
  · exact .inl ⟨place, by rw [hcall]⟩
  obtain ⟨e', he', hparts⟩ := he.exists_parts hosts hlet
  right
  rw [hcall, hparts, inCall_run, inCall_run]
  by_cases hcalls : s.calls < maxCalls
  · rw [if_pos hcalls, if_pos hcalls, inScope_run, callee_cons]
    rw [List.mem_cons, not_or] at hnames
    rw [Datum.standardAll, Bool.and_eq_true] at hargs
    have hample := Ample.ofCall hs hcalls
    exact letParts_alike hargs.1 hample hample.enter ⟨fun _ => rfl, rfl, Nat.le_refl _⟩ hlet
      hnames.1 fun s' t' hs' ht' => he'.alike hnames.2 hargs.2 hbody hs' ht'
  · rw [if_neg hcalls, if_neg hcalls]
    exact .inl ⟨e.place, rfl⟩

end Whole

/-- A call of a function that is written as its head and the nest of `let` forms with the same
names, values and body have the same value or the same error, and print the same, unless one of them
ends with `tooDeep`. The call leaves the bindings as they were. The nest leaves them as its first value
leaves them, evaluated inside one call; unless the nest ends with `tooDeep`, that is how the value
alone leaves them. -/
theorem lambdaCall_eq_nestedLets (hosts : Hosts) {x : String} {xs : List String}
    {a body d e : Datum} {args : List Datum} {s : State}
    (hd : LambdaCall (x :: xs) (a :: args) body d) (he : NestedLets body (x :: xs) (a :: args) e)
    (hnames : "let" ∉ x :: xs) (hargs : Datum.standardAll (a :: args) = true)
    (hbody : body.standard = true) (hs : s.scopes.standard = true) (hlet : Names s "let" .bind)
    (hlambda : Names s "lambda" .lambda) :
    let p := evaluate hosts maxCalls d s
    let q := evaluate hosts maxCalls e s
    (Overruns p.1 ∨ Overruns q.1 ∨ (p.1 = q.1 ∧ p.2.out = q.2.out)) ∧
      p.2 = { s with out := p.2.out } ∧
      q.2 = { (inCall e.place (evaluate hosts maxCalls a) s).2 with out := q.2.out } ∧
      (¬ Overruns q.1 → q.2 = { (evaluate hosts maxCalls a s).2 with out := q.2.out }) := by
  intro p q
  have ha : a.standard = true := (Datum.standardAll_iff _).1 hargs a List.mem_cons_self
  have hleaves : q.2 = { (inCall e.place (evaluate hosts maxCalls a) s).2 with out := q.2.out } :=
    he.leaves hosts hargs hbody hs hlet
  refine ⟨?_, ?_, hleaves, fun hq => ?_⟩
  · obtain hover | hover | ⟨hanswer, hout⟩ :=
      hd.alike hosts he hnames hargs hbody hs hlet hlambda
    · exact .inl hover
    · exact .inr (.inl hover)
    · exact .inr (.inr ⟨hanswer.symm, hout.symm⟩)
  · exact hd.leaves hosts he.length_eq hargs hbody hs hlambda
  · obtain hover | hsame := evaluate_inCall hosts e.place ha hs
    · exact absurd (he.overruns hosts ha hs hlet hover) hq
    · rwa [hsame] at hleaves

/-- The first argument binds a name that the second argument and the body use. The call takes the
name with it; the nest leaves it. -/
theorem lambdaCall_eq_nestedLets_set :
    let form (place : Place) (name : String) (items : List Datum) : Datum :=
      .list place (.ident place name :: items)
    let sym (name : String) : Datum := .ident default name
    let first : Datum := form ⟨0, 10⟩ "set" [sym "z", .int default 2]
    let second : Datum := form ⟨0, 20⟩ "+" [sym "x", sym "z"]
    let body : Datum := form ⟨0, 30⟩ "print" [form ⟨0, 40⟩ "*" [sym "y", sym "z"]]
    let d : Datum := .list ⟨0, 0⟩
      [form ⟨0, 1⟩ "lambda" [.list default [sym "x", sym "y"], body], first, second]
    let e : Datum := form ⟨1, 0⟩ "let" [.list default [sym "x", first],
      form ⟨1, 1⟩ "let" [.list default [sym "y", second], body]]
    let s : State := { scopes := Scopes.withBuiltins Builtin.standard }
    (evaluate [] maxCalls d s).1 = (evaluate [] maxCalls e s).1 ∧
      (evaluate [] maxCalls d s).2.out = (evaluate [] maxCalls e s).2.out ∧
      (evaluate [] maxCalls d s).2.out.text = "8\n" ∧
      (evaluate [] maxCalls d s).2.scopes = s.scopes ∧
      (evaluate [] maxCalls e s).2.scopes = (evaluate [] maxCalls first s).2.scopes := by
  intro form sym first second body d e s
  have hd : LambdaCall ["x", "y"] [first, second] body d := .mk _ _ _ _ _ rfl
  have he : NestedLets body ["x", "y"] [first, second] e :=
    .bind _ _ _ _ (.bind _ _ _ _ .body)
  have hlet : Names s "let" .bind := ⟨default, rfl⟩
  have hlambda : Names s "lambda" .lambda := ⟨default, rfl⟩
  obtain ⟨hanswer, hcall, -, hnest⟩ := lambdaCall_eq_nestedLets [] hd he (by decide)
    (by decide +kernel) (by decide +kernel) (by decide +kernel) hlet hlambda
  have hd' : ¬ Overruns (evaluate [] maxCalls d s).1 := not_overruns_of_isOk (by decide +kernel)
  have he' : ¬ Overruns (evaluate [] maxCalls e s).1 := not_overruns_of_isOk (by decide +kernel)
  obtain ⟨hresult, hout⟩ := (hanswer.resolve_left hd').resolve_left he'
  refine ⟨hresult, hout, by decide +kernel, ?_, ?_⟩
  · rw [hcall]
  · rw [hnest he']

end Eval
end Lisplet
