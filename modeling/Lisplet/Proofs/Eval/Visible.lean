import Lisplet.Proofs.Eval.Flat

/-!
Evaluation depends only on what is visible. Two stacks of scopes in which every
name has the same innermost binding are the same map, so evaluation cannot tell
them apart, however deep they are and whatever they shadow.
-/
namespace Lisplet.Eval

/-- On stacked scopes, evaluation is what it is on the map of all that is bound. -/
theorem evaluate_flat (hosts : Hosts) (hosts' : Hosts NameMap) (room : Nat) {d : Datum} {s : State}
    (hd : d.standard = true) (hs : s.scopes.standard = true) :
    evaluate hosts' room d s.flat =
      ((evaluate hosts room d s).1, (evaluate hosts room d s).2.flat) := by
  obtain ⟨hresult, hflattens⟩ := flattening_evaluate hosts hosts' room hd hs
  exact Prod.ext hresult.eq.symm hflattens.flat

structure LookAlike (s t : State) : Prop where
  calls : s.calls = t.calls
  out : s.out = t.out
  lookup? : ∀ name, s.scopes.lookup? name = t.scopes.lookup? name

/-- States look the same exactly if they have one map. -/
theorem lookAlike_iff {s t : State} : LookAlike s t ↔ s.flat = t.flat := by
  constructor
  · rintro ⟨hcalls, hout, hlookup⟩
    have hscopes : s.scopes.lookup? = t.scopes.lookup? := funext hlookup
    simp only [State.flat, hcalls, hout, hscopes]
  · intro h
    have hscopes : s.scopes.lookup? = t.scopes.lookup? :=
      congrArg (fun u : State NameMap => u.scopes) h
    exact ⟨congrArg (·.calls) h, congrArg (·.out) h, fun name => congrFun hscopes name⟩

/-- From states that look the same, evaluation gives the same value or error, and leaves states
that look the same. So it could as well be passed one map, which it is for any forms of the
host, since none of them is called. -/
theorem evaluate_lookAlike (hosts : Hosts) (room : Nat) (d : Datum) (hd : d.standard = true) :
    (∀ s t : State, s.scopes.standard = true → t.scopes.standard = true → LookAlike s t →
      (evaluate hosts room d s).1 = (evaluate hosts room d t).1 ∧
        LookAlike (evaluate hosts room d s).2 (evaluate hosts room d t).2) ∧
    (∀ (hosts' : Hosts NameMap) (s : State), s.scopes.standard = true →
      evaluate hosts' room d s.flat =
        ((evaluate hosts room d s).1, (evaluate hosts room d s).2.flat)) := by
  refine ⟨?_, fun hosts' s hs => evaluate_flat hosts hosts' room hd hs⟩
  intro s t hs ht hst
  have hflat := evaluate_flat hosts [] room hd hs
  rw [lookAlike_iff.1 hst, evaluate_flat hosts [] room hd ht, Prod.mk.injEq] at hflat
  exact ⟨hflat.1.symm, lookAlike_iff.2 hflat.2.symm⟩

/-- An outer `x` that is shadowed and no outer `x` look the same. -/
theorem evaluate_lookAlike_shadowed :
    let set : Datum := .builtin default ⟨"set", .binary .set⟩
    let d : Datum := .list default [.ident default "set", .ident default "y", .ident default "x"]
    let s : State :=
      { scopes := ⟨⟨[("x", .nil default), ("set", set)]⟩, [⟨[("x", .int default 1)]⟩]⟩ }
    let t : State := { scopes := ⟨⟨[("set", set), ("x", .int default 1)]⟩, []⟩ }
    (evaluate [] maxCalls d s).1 = (evaluate [] maxCalls d t).1 ∧
      LookAlike (evaluate [] maxCalls d s).2 (evaluate [] maxCalls d t).2 := by
  intro set d s t
  have hst : LookAlike s t := by
    refine ⟨rfl, rfl, ?_⟩
    intro name
    by_cases hx : name = "x"
    · subst hx
      rfl
    · simp [s, t, Scopes.lookup?, Scopes.all, Scope.lookup?, Scope.get?, Ne.symm hx]
  exact (evaluate_lookAlike [] maxCalls d (by decide)).1 s t (by decide) (by decide) hst

end Lisplet.Eval
