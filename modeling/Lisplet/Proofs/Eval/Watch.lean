import Lisplet.Proofs.Eval.Unroll
import Lisplet.Proofs.Eval.View

/-!
Evaluation under watch. The evaluator runs as it is, on bindings that carry a
record of what goes on: which activations are in progress and which have been,
what values came about, and how many calls were counted when a call ended. The
record is only ever written. Forgetting it gives the evaluator back.
-/
namespace Lisplet

def Datum.isCall : Datum → Bool
  | .list _ (_ :: _) => true
  | _ => false

theorem Datum.exists_of_isCall {d : Datum} (h : d.isCall = true) :
    ∃ p head args, d = .list p (head :: args) := by
  unfold isCall at h
  split at h
  next p head args => exact ⟨p, head, args, rfl⟩
  next => cases h

/-- One activation of the evaluator: what it evaluates, and whether that is the body of a function
that has been called. -/
structure Activation where
  datum : Datum
  isBody : Bool := false
  deriving Repr

/-- Bindings with a record of evaluation. In every list the latest entry comes first. -/
structure Watched (ε : Type) where
  bindings : ε
  /-- The activations in progress, the innermost first. -/
  active : List Activation := []
  /-- The activations that were in progress whenever one of them had just begun. -/
  chains : List (List Activation) := []
  /-- Every value that an activation ended with or that a name was bound to. -/
  values : List Datum := []
  /-- For each call that has ended, how many calls were counted before it was taken off. -/
  counts : List Nat := []

namespace Watched

variable {ε : Type}

def begin (a : Activation) (w : Watched ε) : Watched ε :=
  { w with active := a :: w.active, chains := (a :: w.active) :: w.chains }

/-- The innermost activation ends, with a value or without. -/
def finish (value : Option Datum) (w : Watched ε) : Watched ε :=
  { w with active := w.active.tail, values := value.toList ++ w.values }

instance [Bindings ε] : Bindings (Watched ε) where
  lookup? w := Bindings.lookup? w.bindings
  insert w name value :=
    { w with bindings := Bindings.insert w.bindings name value, values := value :: w.values }
  enter w := { w with bindings := Bindings.enter w.bindings }
  leave outer w := { w with bindings := Bindings.leave outer.bindings w.bindings }

end Watched

namespace State

variable {ε : Type}

def watched (s : State ε) : State (Watched ε) :=
  { scopes := { bindings := s.scopes }, calls := s.calls, out := s.out }

def forget (s : State (Watched ε)) : State ε :=
  { scopes := s.scopes.bindings, calls := s.calls, out := s.out }

end State

namespace Eval

section Watch

variable {ε : Type} [Bindings ε]

def activation (a : Activation) (x : Run (Watched ε) Datum) : Run (Watched ε) Datum := fun s =>
  let (result, t) := x { s with scopes := s.scopes.begin a }
  (result, { t with scopes := t.scopes.finish result.toOption })

def counted (x : Run (Watched ε) Datum) : Run (Watched ε) Datum := fun s =>
  let (result, t) := x s
  (result, { t with scopes := { t.scopes with counts := t.calls :: t.scopes.counts } })

/-- The evaluator under watch, with room for so many activations. -/
def watch (hosts : Hosts (Watched ε)) : Nat → Bool → Evaluator (Watched ε)
  | 0, _ => fun d => fail .tooDeep d.place
  | n + 1, isBody => fun d =>
    activation ⟨d, isBody⟩ <| evaluateWith (fun place head args => inCall place <| counted <|
      callParts hosts (watch hosts n false) (watch hosts n true) place head args) d

omit [Bindings ε]

theorem activation_run (a : Activation) (x : Run (Watched ε) Datum) (s : State (Watched ε)) :
    activation a x s =
      let p := x { s with scopes := s.scopes.begin a }
      (p.1, { p.2 with scopes := p.2.scopes.finish p.1.toOption }) := rfl

theorem counted_run (x : Run (Watched ε) Datum) (s : State (Watched ε)) :
    counted x s =
      let p := x s
      (p.1, { p.2 with scopes := { p.2.scopes with counts := p.2.calls :: p.2.scopes.counts } }) :=
  rfl

end Watch

def forgetting : View (Watched Scopes) where
  see := State.forget
  lookup _ _ := rfl
  insert _ _ _ := rfl
  enter _ := rfl
  leave _ _ := rfl
  calls _ := rfl
  count _ _ := rfl
  print _ _ := rfl

section Rules

variable {own : Bool} {β : Type} {P : Datum → β → Prop} {x : Run (Watched Scopes) Datum}
  {y : Eval β}

/-- To note a count changes nothing but the record. -/
theorem forgetting_counted (h : forgetting.comparison.Runs own P x y) :
    forgetting.comparison.Runs own P (counted x) y := by
  refine ⟨fun hst => ?_, fun hlate => hlate.elim⟩
  obtain ⟨hresult, hseen⟩ := (h.ends hst).exact fun _ _ _ h => h
  exact .alike hresult hseen

/-- To begin and to end an activation changes nothing but the record. -/
theorem forgetting_activation (a : Activation) (h : forgetting.comparison.Runs own P x y) :
    forgetting.comparison.Runs own P (activation a x) y := by
  refine ⟨fun {s t} hst => ?_, fun hlate => hlate.elim⟩
  have hbegin : forgetting.Seen { s with scopes := s.scopes.begin a } t := hst
  obtain ⟨hresult, hseen⟩ := (h.ends hbegin).exact fun _ _ _ h => h
  exact .alike hresult hseen

end Rules

/-- Under watch, the evaluator does what it does unrolled to the same depth. -/
theorem forgetting_watch (hosts : Hosts (Watched Scopes)) (hosts' : Hosts) (n : Nat)
    (isBody : Bool) : forgetting.comparison.Evaluators (watch hosts n isBody)
      (unroll hosts' (fun d => fail .tooDeep d.place) n) := by
  induction n generalizing isBody with
  | zero =>
    intro own d e hde
    exact forgetting.comparison.fail .tooDeep hde
  | succ n ih =>
    intro own d e hde
    refine forgetting_activation _ (Comparison.evaluateWith hde ?_)
    rintro p q head args head' args' rfl rfl hhead hargs
    have hparts : forgetting.comparison.Runs own SameStandard _ _ :=
      Comparison.callParts (ih false) (ih true) hosts hosts' hde hhead hargs
    exact forgetting.comparison.inCall hde (forgetting_counted hparts)

/-- Evaluation does what it does under watch. -/
theorem evaluate_watch (hosts : Hosts (Watched Scopes)) (hosts' : Hosts) {n : Nat} {isBody : Bool}
    {d : Datum} {s : State (Watched Scopes)} (hd : d.standard = true)
    (hs : s.scopes.bindings.standard = true) (hcalls : s.calls ≤ maxCalls)
    (hn : maxCalls < s.calls + n) :
    evaluate hosts' maxCalls d s.forget =
      ((watch hosts n isBody d s).1, (watch hosts n isBody d s).2.forget) := by
  have hwatch := (forgetting_watch hosts hosts' n isBody).runs ⟨rfl, hd⟩
  rw [← unroll_eq_evaluate hosts' hosts' _ hd (s := s.forget) hs hcalls hn]
  exact View.run_eq hwatch hs

end Eval
end Lisplet
