import Lisplet.Proofs.Datum.Places
import Lisplet.Proofs.Eval.Visible

/-!
Where errors are reported. Evaluation makes up no place: a value stands where
the call stands that made it, and an error is reported at a part of what is
evaluated, be it the expression itself or the body of a function that it calls.
So what holds of all places in an expression and in all values that are bound
holds of the place of an error, and of all places in the result and in what is
bound afterwards.
-/
namespace Lisplet.Eval

variable {P : Place → Prop}

def BoundWithin (P : Place → Prop) (m : NameMap) : Prop :=
  ∀ name v, m name = some v → v.standard = true ∧ v.Within P

theorem BoundWithin.insert {m : NameMap} (h : BoundWithin P m) (name : String) {v : Datum}
    (hv : v.standard = true ∧ v.Within P) : BoundWithin P (Bindings.insert m name v) := by
  intro x w hw
  simp only [Bindings.insert] at hw
  split at hw
  next => cases hw; exact hv
  next => exact h x w hw

theorem within_named (name : String) {d : Datum} (h : d.Within P) :
    (Form.named name d).Within P := by
  unfold Form.named
  split <;> exact h

/-- A value that evaluation makes up stands where its form does, so no place is new. -/
theorem hereditary_within : Datum.Hereditary fun d => d.standard = true ∧ d.Within P where
  quote h := ⟨h.1, fun q hq => h.2 q (List.mem_cons_of_mem _ hq)⟩
  list {_ ds} h d hd := by
    refine ⟨(Datum.standardAll_iff ds).1 h.1 d hd, fun q hq => h.2 q (List.mem_cons_of_mem _ ?_)⟩
    rw [Datum.placesAll_eq_flatMap]
    exact List.mem_flatMap.2 ⟨d, hd, hq⟩
  body h := ⟨h.1, fun q hq => h.2 q (List.mem_cons_of_mem _ hq)⟩
  builtin h := of_decide_eq_true h.1
  value hf hv hplaces := ⟨hv, by simpa [Datum.Within, hplaces] using hf.2.place⟩
  func _ hf hd := ⟨hd.1, List.forall_mem_cons.2 ⟨hf.2.place, hd.2⟩⟩
  named name h := ⟨standard_named name h.1, within_named name h.2⟩

def Stays (P : Place → Prop) (s t : State NameMap) : Prop := s = t ∧ BoundWithin P s.scopes

/-- Evaluation compares to itself where there are such places only. No operation makes up one. -/
def staying (P : Place → Prop) : Comparison NameMap NameMap where
  toCorrespondence := .same (hereditary_within (P := P))
  errors e e' := e = e' ∧ P e.place
  states := Stays P
  reaches _ _ _ := Stays P
  errors_fault _ hf := ⟨by rw [hf.1], hf.2.2.place⟩
  errors_notCallable hf hd := ⟨by rw [hf.1, hd.1], hf.2.2.place⟩
  refl hst := hst
  trans _ h := h
  states_of_reaches h := h
  bound {s _} name hst := by
    obtain ⟨rfl, hs⟩ := hst
    change Option.Rel _ (s.scopes name) (s.scopes name)
    cases hl : s.scopes name with
    | none => exact .none
    | some v => exact .some ⟨rfl, hs name v hl⟩
  binds name hst hde _ := by
    obtain ⟨rfl, hs⟩ := hst
    obtain ⟨rfl, hd⟩ := hde
    exact ⟨rfl, hs.insert name hd⟩
  enterScope hst := by
    obtain ⟨rfl, hs⟩ := hst
    exact ⟨rfl, hs⟩
  leaveScope hst h := by
    obtain ⟨rfl, hs⟩ := hst
    obtain ⟨rfl, -⟩ := h
    exact ⟨rfl, hs⟩
  room hst hs := by rwa [← hst.1]
  full _ hst hs ht := by
    rw [hst.1] at hs
    exact hs ht
  enterCall hst _ := by
    obtain ⟨rfl, hs⟩ := hst
    exact ⟨rfl, hs⟩
  leaveCall _ h := by
    obtain ⟨rfl, hs⟩ := h
    exact ⟨rfl, hs⟩
  prints _ hst := by
    obtain ⟨rfl, hs⟩ := hst
    exact ⟨rfl, hs⟩

/-- Places that hold of an expression and of what is bound hold of all that comes of evaluating
it. -/
theorem evaluate_within (hosts : Hosts) (room : Nat) {d : Datum} {s : State}
    (hd : d.standard = true) (hdP : d.Within P) (hs : s.scopes.standard = true)
    (hbound : ∀ name v, s.scopes.lookup? name = some v → v.Within P) :
    (∀ v, (evaluate hosts room d s).1 = .ok v → v.Within P) ∧
      (∀ e, (evaluate hosts room d s).1 = .error e → P e.place) ∧
      ∀ name v, (evaluate hosts room d s).2.scopes.lookup? name = some v → v.Within P := by
  have hbound' : BoundWithin P s.flat.scopes := fun name v hv =>
    ⟨Scopes.standard_lookup? hs hv, hbound name v hv⟩
  have hruns : (staying P).Evaluators (evaluate [] room) (evaluate [] room) :=
    Comparison.evaluators [] [] room
  obtain ⟨hresult, -, hend⟩ :=
    ((hruns.runs ⟨rfl, hd, hdP⟩).ends ⟨rfl, hbound'⟩).exact fun _ _ _ h => h
  rw [evaluate_flat hosts [] room hd hs] at hresult hend
  refine ⟨?_, ?_, fun name v hv => (hend name v hv).2⟩
  · intro v hv
    rw [hv] at hresult
    cases hresult with
    | ok h => exact h.2.2
  · intro e he
    rw [he] at hresult
    cases hresult with
    | error h => exact h.2

end Lisplet.Eval
