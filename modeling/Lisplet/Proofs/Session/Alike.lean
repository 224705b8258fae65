import Lisplet.Proofs.Eval.Relocate
import Lisplet.Proofs.Reader.Lockstep
import Lisplet.Proofs.Session.Kept

/-!
Two sessions with bindings that are alike. What they are given to evaluate may
stand in different places: they give answers that are alike, print the same, and
their bindings are alike again.
-/
namespace Lisplet

namespace Reader

variable {σ τ : Type} {f : Place → Place}

structure InStep (f : Place → Place) (T : TokenStream σ → TokenStream τ → Prop) (r : Reader σ)
    (q : Reader τ) : Prop where
  lockstep : Lockstep f T r q
  left : r.Idle
  right : q.Idle

variable {T : TokenStream σ → TokenStream τ → Prop} {r r' : Reader σ} {q : Reader τ}

theorem inStep_ofSource {source : σ} {source' : τ} (h : T { source } { source := source' }) :
    InStep f T (ofSource source) (ofSource source') :=
  ⟨lockstep_ofSource h, idle_ofSource source, idle_ofSource source'⟩

/-- Data that are read in step are standard, so they are alike. -/
theorem InStep.standard {ε ε' : Type} {E : ε → ε' → Prop} {x : Except ε (Option Datum)}
    {y : Except ε' (Option Datum)} {q' : Reader τ} (h : AnswerAlike f T E
      (Option.Rel fun d e => d.relocate f = e.relocate f) (x, r') (y, q'))
    (hr : Settles (x, r')) (hq : Settles (y, q')) :
    SameEnd E (Option.Rel (Datum.Alike f)) x y ∧ InStep f T r' q' := by
  obtain ⟨hanswer, hreaders⟩ := h
  refine ⟨?_, hreaders, hr.idle, hq.idle⟩
  cases hanswer with
  | error he => exact .error he
  | ok hde =>
    cases hde with
    | none => exact .ok .none
    | some hde => exact .ok (.some ⟨hde, hr.standard _ rfl, hq.standard _ rfl⟩)

variable [Source σ] [Source τ]

/-- Readers in step read data that are alike, or report errors that are. -/
theorem InStep.exists_read? (hT : KeepsAlike f T) (h : InStep f T r q)
    {x : Except ReadError (Option Datum)} (hread : r.read? = (x, r')) :
    ∃ y q', q.read? = (y, q') ∧
      SameEnd (Located.Alike f Eq) (Option.Rel (Datum.Alike f)) x y ∧ InStep f T r' q' := by
  have hanswer := h.lockstep.read? hT
  have hr := settles_read? h.left
  have hq := settles_read? h.right
  rcases hq' : q.read? with ⟨y, q'⟩
  rw [hread, hq'] at hanswer
  rw [hread] at hr
  rw [hq'] at hq
  exact ⟨y, q', rfl, InStep.standard hanswer hr hq⟩

theorem InStep.exists_readLine? (hT : KeepsLines f T) (h : InStep f T r q)
    {x : Except Error (Option Datum)} (hread : r.readLine? = (x, r')) :
    ∃ y q', q.readLine? = (y, q') ∧
      SameEnd (Located.Alike f (Fault.Alike f)) (Option.Rel (Datum.Alike f)) x y ∧
      InStep f T r' q' := by
  have hanswer := h.lockstep.readLine? hT
  have hr := settles_readLine? h.left
  have hq := settles_readLine? h.right
  rcases hq' : q.readLine? with ⟨y, q'⟩
  rw [hread, hq'] at hanswer
  rw [hread] at hr
  rw [hq'] at hq
  exact ⟨y, q', rfl, InStep.standard hanswer hr hq⟩

end Reader

namespace Session

variable {f : Place → Place}

structure Alike (f : Place → Place) (s t : Session) : Prop where
  left : s.Settled
  right : t.Settled
  bound : ∀ name, Option.Rel (Datum.Alike f) (s.state.scopes.lookup? name)
    (t.state.scopes.lookup? name)

/-- What two sessions have come to from `s` and `t`. -/
structure GoesAlike (f : Place → Place) (s t s' t' : Session) : Prop where
  sessions : Alike f s' t'
  printed : Sink.SamePrinted s.state.out t.state.out s'.state.out t'.state.out

variable {s t s' t' : Session} {d e : Datum}

theorem Settled.alike (h : s.Settled) : Alike f s s := by
  refine ⟨h, h, fun name => ?_⟩
  cases hl : s.state.scopes.lookup? name with
  | none => exact .none
  | some value => exact .some (.refl (Scopes.standard_lookup? h.standard hl))

theorem Alike.goes (h : Alike f s t) : GoesAlike f s t s t := ⟨h, .refl _ _⟩

theorem GoesAlike.trans {u v : Session} (h : GoesAlike f s t s' t') (h' : GoesAlike f s' t' u v) :
    GoesAlike f s t u v := ⟨h'.sessions, h.printed.trans h'.printed⟩

/-- Sessions that are alike evaluate alike and stay alike. -/
theorem Alike.eval (h : Alike f s t) (hde : Datum.Alike f d e) :
    SameEnd (Located.Alike f (EvalFault.Alike f)) (Datum.Alike f) (s.eval d).1 (t.eval e).1 ∧
      GoesAlike f s t (s.eval d).2 (t.eval e).2 := by
  have hstates : Eval.StatesAlike f s.state.flat t.state.flat :=
    ⟨h.bound, h.left.calls.trans h.right.calls.symm⟩
  obtain ⟨hresult, hafter, hprinted⟩ := Eval.evaluate_alike s.hosts t.hosts maxCalls hde
    h.left.standard h.right.standard hstates
  have hs := (continues_eval h.left hde.left).settled
  have ht := (continues_eval h.right hde.right).settled
  exact ⟨hresult, ⟨hs, ht, hafter.bound⟩, hprinted⟩

theorem Alike.exists_eval (h : Alike f s t) (hde : Datum.Alike f d e) {x : Except EvalError Datum}
    (heval : s.eval d = (x, s')) : ∃ y t', t.eval e = (y, t') ∧
      SameEnd (Located.Alike f (EvalFault.Alike f)) (Datum.Alike f) x y ∧
      GoesAlike f s t s' t' := by
  have hsame := h.eval hde
  rcases ht : t.eval e with ⟨y, t'⟩
  rw [heval, ht] at hsame
  exact ⟨y, t', rfl, hsame⟩

variable {σ τ : Type} [Source σ] [Source τ] {T : TokenStream σ → TokenStream τ → Prop}
  {r : Reader σ} {q : Reader τ} {last last' : Datum}

/-- One turn of the loop that evaluates a text, told by what is read. -/
theorem evalAll_eq (last : Datum) (s : Session) (r : Reader σ) :
    s.evalAll last r =
      match r.read? with
      | (.error e, r') => (.error (e.map .read), s, r')
      | (.ok none, r') => (.ok last, s, r')
      | (.ok (some d), r') =>
        match s.eval d with
        | (.error e, s') => (.error (e.map .eval), s', r')
        | (.ok value, s') => s'.evalAll value r' := by
  rw [evalAll]
  split
  next h => simp only [h]
  next h => simp only [h]
  next d r' h =>
    rcases hs : s.eval d with ⟨x, s'⟩
    cases x <;> simp only [h, hs]

/-- The induction is on the run of the first session; the second one reads and evaluates with it. -/
theorem Alike.evalAll (hT : KeepsAlike f T) (h : Alike f s t) (hlast : Datum.Alike f last last')
    (hrq : Reader.InStep f T r q) :
    SameEnd (Located.Alike f (Fault.Alike f)) (Datum.Alike f) (s.evalAll last r).1
        (t.evalAll last' q).1 ∧
      GoesAlike f s t (s.evalAll last r).2.1 (t.evalAll last' q).2.1 := by
  fun_induction Session.evalAll last s r generalizing last' t q with
  | case1 last s r e r' hr =>
    obtain ⟨_, q', hq, he | _, -⟩ := hrq.exists_read? hT hr
    rw [evalAll_eq last' t q, hq]
    exact ⟨.error he.read, h.goes⟩
  | case2 last s r r' hr =>
    obtain ⟨_, q', hq, _ | ⟨⟨⟩⟩, -⟩ := hrq.exists_read? hT hr
    rw [evalAll_eq last' t q, hq]
    exact ⟨.ok hlast, h.goes⟩
  | case3 last s r d r' hr e s' heval =>
    obtain ⟨_, q', hq, _ | ⟨⟨hde⟩⟩, -⟩ := hrq.exists_read? hT hr
    obtain ⟨_, t', ht, he | _, hgoes⟩ := h.exists_eval hde heval
    rw [evalAll_eq last' t q, hq]
    simp only [ht]
    exact ⟨.error he.eval, hgoes⟩
  | case4 last s r d r' hr value s' heval ih =>
    obtain ⟨_, q', hq, _ | ⟨⟨hde⟩⟩, hrq'⟩ := hrq.exists_read? hT hr
    obtain ⟨_, t', ht, _ | hvalue, hgoes⟩ := h.exists_eval hde heval
    rw [evalAll_eq last' t q, hq]
    simp only [ht]
    obtain ⟨hanswer, hgoes'⟩ := ih hgoes.sessions hvalue hrq'
    exact ⟨hanswer, hgoes.trans hgoes'⟩

end Session
end Lisplet
