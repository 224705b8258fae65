import Lisplet.Proofs.Datum.Relocate
import Lisplet.Proofs.Eval.Visible

/-!
Evaluation pays no attention to places. Expressions that differ in places only
are evaluated alike, from bindings that differ in places only: the values or
errors are alike, the same lines are printed, and the bindings are alike again.
It is enough to see this where names are bound by one map.
-/
namespace Lisplet

def Sink.SamePrinted (s t s' t' : Sink) : Prop :=
  ∃ lines : List String, s' = lines.foldl tryLine s ∧ t' = lines.foldl tryLine t

theorem Sink.SamePrinted.refl (s t : Sink) : SamePrinted s t s t := ⟨[], rfl, rfl⟩

theorem Sink.SamePrinted.trans {s t s' t' s'' t'' : Sink} (h : SamePrinted s t s' t')
    (h' : SamePrinted s' t' s'' t'') : SamePrinted s t s'' t'' := by
  obtain ⟨lines, rfl, rfl⟩ := h
  obtain ⟨lines', rfl, rfl⟩ := h'
  exact ⟨lines ++ lines', List.foldl_append.symm, List.foldl_append.symm⟩

namespace Eval

variable {f : Place → Place}

structure StatesAlike (f : Place → Place) (s t : State NameMap) : Prop where
  bound : ∀ name, Option.Rel (Datum.Alike f) (s.scopes name) (t.scopes name)
  calls : s.calls = t.calls

/-- A name that is bound anew is bound to values that are alike. -/
theorem StatesAlike.insert {s t : State NameMap} (h : StatesAlike f s t) (name : String)
    {d e : Datum} (hde : Datum.Alike f d e) :
    StatesAlike f { s with scopes := Bindings.insert s.scopes name d }
      { t with scopes := Bindings.insert t.scopes name e } := by
  refine ⟨fun x => ?_, h.calls⟩
  by_cases hx : x = name
  · simp only [Bindings.insert, if_pos hx]
    exact .some hde
  · simp only [Bindings.insert, if_neg hx]
    exact h.bound x

/-- States that are alike again, after as much was printed from both sides. -/
structure StayAlike (f : Place → Place) (s t s' t' : State NameMap) : Prop where
  states : StatesAlike f s' t'
  printed : Sink.SamePrinted s.out t.out s'.out t'.out

def relocating (f : Place → Place) : Comparison NameMap NameMap where
  data := Datum.Alike f
  parts h := h.parts
  typeOf_eq h := h.typeOf
  toString_eq h := h.toString
  same_eq h h' := h.same h'
  nil h := ⟨congrArg Datum.nil h.place, rfl, rfl⟩
  bool b h := ⟨congrArg (Datum.bool · b) h.place, rfl, rfl⟩
  int n h := ⟨congrArg (Datum.int · n) h.place, rfl, rfl⟩
  type h h' := ⟨congrArg₂ Datum.type h.place h'.typeOf, rfl, rfl⟩
  func params h h' :=
    ⟨congrArg₂ (Datum.func · "" params ·) h.place h'.relocate, h'.left, h'.right⟩
  named name h := h.named name
  errors := Located.Alike f (EvalFault.Alike f)
  states := StatesAlike f
  reaches _ := StayAlike f
  errors_fault fault h := ⟨.refl fault, h.place⟩
  errors_notCallable h h' := ⟨.notCallable h', h.place⟩
  refl hst := ⟨hst, .refl _ _⟩
  trans h h' := ⟨h'.states, h.printed.trans h'.printed⟩
  states_of_reaches h := h.states
  bound name hst := hst.bound name
  binds name hst hde _ := ⟨hst.insert name hde, .refl _ _⟩
  enterScope hst := ⟨hst.bound, hst.calls⟩
  leaveScope hst h := ⟨⟨hst.bound, h.states.calls⟩, h.printed⟩
  room hst hs := hst.calls ▸ hs
  full _ hst hs ht := absurd (hst.calls ▸ ht) hs
  enterCall hst _ := ⟨hst.bound, congrArg (· + 1) hst.calls⟩
  leaveCall _ h := ⟨⟨h.states.bound, congrArg (· - 1) h.states.calls⟩, h.printed⟩
  prints line hst := ⟨⟨hst.bound, hst.calls⟩, [line], rfl, rfl⟩

/-- Data that are alike are evaluated alike, from scopes whose visible bindings are alike. -/
theorem evaluate_alike (hosts hosts' : Hosts) (room : Nat) {d e : Datum} {s t : State}
    (hde : Datum.Alike f d e) (hs : s.scopes.standard = true) (ht : t.scopes.standard = true)
    (hst : StatesAlike f s.flat t.flat) :
    let p := evaluate hosts room d s
    let q := evaluate hosts' room e t
    SameEnd (Located.Alike f (EvalFault.Alike f)) (Datum.Alike f) p.1 q.1 ∧
      StayAlike f s.flat t.flat p.2.flat q.2.flat := by
  have h : (relocating f).Evaluators (evaluate [] room) (evaluate [] room) :=
    Comparison.evaluators [] [] room
  have hends := ((h.runs hde).ends hst).exact fun _ _ _ h => h
  rwa [evaluate_flat hosts [] room hde.left hs, evaluate_flat hosts' [] room hde.right ht] at hends

end Eval
end Lisplet
