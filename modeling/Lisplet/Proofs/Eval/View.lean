import Lisplet.Proofs.Eval.Evaluators
import Lisplet.Proofs.Scopes.Stack

/-!
Evaluation on part of a state. A view of a state leaves something of it out, or
puts something else in its place, in a way that every operation on states
respects. Then evaluation from what is seen of a state goes like the evaluation
from the state itself, and comes to what is seen of the state in the end.
-/
namespace Lisplet

/-- A view of states as states with stacked scopes. -/
structure View (ε : Type) [Bindings ε] where
  see : State ε → State
  lookup (s : State ε) (name : String) :
    Bindings.lookup? (see s).scopes name = Bindings.lookup? s.scopes name
  insert (s : State ε) (name : String) (d : Datum) :
    see { s with scopes := Bindings.insert s.scopes name d } =
      { see s with scopes := Bindings.insert (see s).scopes name d }
  enter (s : State ε) : see { s with scopes := Bindings.enter s.scopes } =
    { see s with scopes := Bindings.enter (see s).scopes }
  leave (s t : State ε) : see { t with scopes := Bindings.leave s.scopes t.scopes } =
    { see t with scopes := Bindings.leave (see s).scopes (see t).scopes }
  calls (s : State ε) : (see s).calls = s.calls
  count (s : State ε) (calls : Nat) : see { s with calls := calls } = { see s with calls := calls }
  print (s : State ε) (line : String) : see { s with out := s.out.tryLine line } =
    { see s with out := (see s).out.tryLine line }

namespace View

variable {ε : Type} [Bindings ε] (V : View ε)

/-- A state, and what is seen of it. Only standard values are bound there. -/
def Seen (s : State ε) (t : State) : Prop := t = V.see s ∧ t.scopes.standard = true

def comparison : Comparison ε Scopes where
  toCorrespondence := .same Datum.hereditary_standard
  errors := Eq
  states := V.Seen
  reaches _ _ _ := V.Seen
  errors_fault := @SameStandard.fault
  errors_notCallable := @SameStandard.notCallable
  refl hst := hst
  trans _ h := h
  states_of_reaches h := h
  bound {s _} name hst := by
    obtain ⟨rfl, hs⟩ := hst
    rw [← V.lookup s name]
    exact SameStandard.option fun _ => Scopes.standard_lookup? hs
  binds {_ s _ _ _} name hst hde _ := by
    obtain ⟨rfl, hs⟩ := hst
    obtain ⟨rfl, hd⟩ := hde
    exact ⟨(V.insert s name _).symm, Scopes.standard_insert name hs hd⟩
  enterScope {s _} hst := by
    obtain ⟨rfl, hs⟩ := hst
    exact ⟨(V.enter s).symm, Scopes.standard_enter hs⟩
  leaveScope {_ s s' _ _} hst h := by
    obtain ⟨rfl, -⟩ := hst
    obtain ⟨rfl, hs⟩ := h
    exact ⟨(V.leave s s').symm, Scopes.standard_leave hs⟩
  room {s _} hst hs := by
    obtain ⟨rfl, -⟩ := hst
    rwa [V.calls s]
  full {s _} _ hst hs ht := by
    obtain ⟨rfl, -⟩ := hst
    rw [V.calls s] at ht
    exact hs ht
  enterCall {s _} hst _ := by
    obtain ⟨rfl, hs⟩ := hst
    rw [V.calls s]
    exact ⟨(V.count s _).symm, hs⟩
  leaveCall {_ _ s' _ _} _ h := by
    obtain ⟨rfl, hs⟩ := h
    rw [V.calls s']
    exact ⟨(V.count s' _).symm, hs⟩
  prints {_ s _} line hst := by
    obtain ⟨rfl, hs⟩ := hst
    exact ⟨(V.print s line).symm, hs⟩

variable {V}

/-- From what is seen of a state, a run does what is seen of the run. -/
theorem run_eq {own : Bool} {x : Run ε Datum} {y : Eval Datum} {s : State ε}
    (h : V.comparison.Runs own SameStandard x y) (hs : (V.see s).scopes.standard = true) :
    y (V.see s) = ((x s).1, V.see (x s).2) := by
  obtain ⟨hresult, hseen⟩ := (h.ends ⟨rfl, hs⟩).exact fun _ _ _ h => h
  exact Prod.ext hresult.eq.symm hseen.1

end View
end Lisplet
