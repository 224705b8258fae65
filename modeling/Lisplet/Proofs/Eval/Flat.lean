import Lisplet.Proofs.Eval.Evaluators
import Lisplet.Proofs.Scopes.Stack

/-!
Stacked scopes seen as one map from names to values. Every scope that a run
opens is closed again, and the stack is then what it was; so evaluation can just
as well pass one map along and go back to the old one where a scope ends. Both
ways of evaluating are compared here, and at the same time what a run keeps of
the stack: the one is needed to see that the other holds.
-/
namespace Lisplet

def NameMap : Type := String → Option Datum

/-- A scope ends by going back to the map from before it. -/
instance : Bindings NameMap where
  lookup? m := m
  insert m name value := fun x => if x = name then some value else m x
  enter m := m
  leave outer _ := outer

namespace State

/-- All that can be seen of a state: for every name its innermost binding. -/
def flat (s : State) : State NameMap :=
  { scopes := s.scopes.lookup?, calls := s.calls, out := s.out }

/-- To bind a name in the innermost scope is to bind it in the map. -/
theorem flat_insert (s : State) (name : String) (value : Datum) :
    { s with scopes := s.scopes.insert name value }.flat =
      { s.flat with scopes := Bindings.insert s.flat.scopes name value } := by
  have hmap : (s.scopes.insert name value).lookup? =
      fun x => if x = name then some value else s.scopes.lookup? x := by
    funext x
    by_cases hx : x = name
    · rw [hx, Scopes.lookup?_insert_same, if_pos rfl]
    · rw [Scopes.lookup?_insert_other _ hx, if_neg hx]
  simp only [flat, hmap]
  rfl

end State

namespace Eval

/-- What has become of a stack and of the map beside it since the state `s`. -/
structure Flattens (own : Bool) (s s' : State) (t : State NameMap) : Prop where
  flat : t = s'.flat
  standard : s'.scopes.standard = true
  calls : s'.calls = s.calls
  keeps : s.scopes.Keeps own s'.scopes

/-- The stack is as it was before the scope was opened, and so is the map. -/
theorem Flattens.leaveScope {own : Bool} {s s' : State} {t : State NameMap}
    (hs : s.scopes.standard = true)
    (h : Flattens true { s with scopes := Bindings.enter s.scopes } s' t) :
    Flattens own s { s' with scopes := Bindings.leave s.scopes s'.scopes }
      { t with scopes := s.flat.scopes } := by
  have hleave : Bindings.leave s.scopes s'.scopes = s.scopes := h.keeps.leave
  refine ⟨?_, ?_, h.calls, ?_⟩ <;> simp only [hleave, h.flat]
  · rfl
  · exact hs
  · exact .refl own s.scopes

def flattening : Comparison Scopes NameMap where
  toCorrespondence := .same Datum.hereditary_standard
  errors := Eq
  states s t := t = s.flat ∧ s.scopes.standard = true
  reaches own s _ s' t' := Flattens own s s' t'
  errors_fault := @SameStandard.fault
  errors_notCallable := @SameStandard.notCallable
  refl hst := ⟨hst.1, hst.2, rfl, .refl _ _⟩
  trans h h' := ⟨h'.flat, h'.standard, h'.calls.trans h.calls, h.keeps.trans h'.keeps⟩
  states_of_reaches h := ⟨h.flat, h.standard⟩
  bound name hst := by
    obtain ⟨rfl, hs⟩ := hst
    exact SameStandard.option fun _ => Scopes.standard_lookup? hs
  binds {own s t d e} name hst hde hnew := by
    obtain ⟨rfl, hs⟩ := hst
    obtain ⟨rfl, hd⟩ := hde
    refine ⟨(State.flat_insert s name d).symm, Scopes.standard_insert name hs hd, rfl, ?_⟩
    cases hnew with
    | inl hown =>
      subst hown
      exact Scopes.keeps_insert ..
    | inr hnew => exact Scopes.keeps_insertNew own d hnew
  enterScope hst := by
    obtain ⟨rfl, hs⟩ := hst
    exact ⟨rfl, Scopes.standard_enter hs⟩
  leaveScope hst h := by
    obtain ⟨rfl, hs⟩ := hst
    exact h.leaveScope hs
  room hst hs := by
    obtain ⟨rfl, -⟩ := hst
    exact hs
  full _ hst hs ht := by
    obtain ⟨rfl, -⟩ := hst
    exact hs ht
  enterCall hst _ := by
    obtain ⟨rfl, hs⟩ := hst
    exact ⟨rfl, hs⟩
  leaveCall _ h := ⟨by rw [h.flat]; rfl, h.standard, congrArg (· - 1) h.calls, h.keeps⟩
  prints _ hst := by
    obtain ⟨rfl, hs⟩ := hst
    exact ⟨rfl, hs, rfl, .refl _ _⟩

/-- From standard values, evaluation of a standard datum is the evaluation of it on the map of what
is bound. -/
theorem flattening_evaluate (hosts : Hosts) (hosts' : Hosts NameMap) (room : Nat) {d : Datum}
    {s : State} (hd : d.standard = true) (hs : s.scopes.standard = true) :
    SameEnd Eq SameStandard (evaluate hosts room d s).1 (evaluate hosts' room d s.flat).1 ∧
      Flattens false s (evaluate hosts room d s).2 (evaluate hosts' room d s.flat).2 :=
  ((flattening.evaluators hosts hosts' room ⟨rfl, hd⟩).ends ⟨rfl, hs⟩).exact fun _ _ _ h => h

/-- Evaluation keeps what it found of the scopes. -/
theorem flattens_evaluate (hosts : Hosts) (hosts' : Hosts NameMap) (room : Nat) {d : Datum}
    {s : State} (hd : d.standard = true) (hs : s.scopes.standard = true) :
    Flattens false s (evaluate hosts room d s).2 (evaluate hosts' room d s.flat).2 :=
  (flattening_evaluate hosts hosts' room hd hs).2

/-- From standard values, a standard datum has a standard value. -/
theorem standard_of_evaluate (hosts : Hosts) (room : Nat) {d v : Datum} {s : State}
    (hd : d.standard = true) (hs : s.scopes.standard = true)
    (h : (evaluate hosts room d s).1 = .ok v) : v.standard = true := by
  have hresult := (flattening_evaluate hosts [] room hd hs).1
  rw [h] at hresult
  generalize (evaluate [] room d s.flat).1 = r at hresult
  cases hresult with
  | ok hv => exact hv.2

end Eval
end Lisplet
