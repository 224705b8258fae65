import Lisplet.Proofs.Eval.Visible

/-!
What the limit on calls can change. An evaluation that begins with more calls in
progress goes like the one that begins with fewer, step by step, until it may
make no further call; then it ends with `tooDeep`, and nothing stops that error
on its way out. So the limit is never seen by a program: either it makes no
difference, or the answer is `tooDeep` and the other evaluation prints what was
printed by then and goes on.
-/
namespace Lisplet

namespace Sink

def Prints (s t : Sink) : Prop := ∃ lines : List String, t = lines.foldl tryLine s

theorem Prints.refl (s : Sink) : s.Prints s := ⟨[], rfl⟩

theorem Prints.trans {s t u : Sink} (h : s.Prints t) (h' : t.Prints u) : s.Prints u := by
  obtain ⟨lines, rfl⟩ := h
  obtain ⟨more, rfl⟩ := h'
  exact ⟨lines ++ more, List.foldl_append.symm⟩

theorem prints_tryLine (s : Sink) (line : String) : s.Prints (s.tryLine line) := ⟨[line], rfl⟩

end Sink

namespace Eval

structure Deeper (s t : State) : Prop where
  scopes : s.scopes = t.scopes
  out : s.out = t.out
  calls : t.calls ≤ s.calls
  standard : t.scopes.standard = true

/-- A run has met the limit when this was printed, and another one has printed as much and gone
on. -/
structure Passes (e : EvalError) (out : Sink) (t : State) : Prop where
  tooDeep : e.what = .tooDeep
  prints : out.Prints t.out
  standard : t.scopes.standard = true

/-- Evaluation with more calls in progress compares to evaluation with fewer. The first may come to
the limit, and then the second goes on alone. -/
def limiting : Comparison Scopes Scopes where
  toCorrespondence := .same Datum.hereditary_standard
  errors := Eq
  states := Deeper
  reaches _ _ _ := Deeper
  aftermath :=
    { late := Passes
      lookup := fun _ h =>
        ⟨_, SameStandard.option fun _ => Scopes.standard_lookup? h.standard⟩
      insert := by
        rintro e out t _ d name h ⟨rfl, hd⟩
        exact ⟨h.tooDeep, h.prints, Scopes.standard_insert name h.standard hd⟩
      enterScope := fun h => ⟨h.tooDeep, h.prints, Scopes.standard_enter h.standard⟩
      leaveScope := fun _ h => ⟨h.tooDeep, h.prints, Scopes.standard_leave h.standard⟩
      count := fun _ h => ⟨h.tooDeep, h.prints, h.standard⟩
      print := fun line h => ⟨h.tooDeep, h.prints.trans (Sink.prints_tryLine _ line), h.standard⟩ }
  errors_fault := @SameStandard.fault
  errors_notCallable := @SameStandard.notCallable
  refl hst := hst
  trans _ h := h
  states_of_reaches h := h
  bound _ hst := by
    rw [hst.scopes]
    exact SameStandard.option fun _ => Scopes.standard_lookup? hst.standard
  binds {_ _ _ d _} name hst hde _ := by
    obtain ⟨rfl, hd⟩ := hde
    exact ⟨congrArg (·.insert name d) hst.scopes, hst.out, hst.calls,
      Scopes.standard_insert name hst.standard hd⟩
  enterScope hst :=
    ⟨congrArg Scopes.enter hst.scopes, hst.out, hst.calls, Scopes.standard_enter hst.standard⟩
  leaveScope _ h :=
    ⟨congrArg Scopes.leave h.scopes, h.out, h.calls, Scopes.standard_leave h.standard⟩
  room hst hs := Nat.lt_of_le_of_lt hst.calls hs
  full _ hst _ _ := ⟨rfl, hst.out ▸ .refl _, hst.standard⟩
  enterCall hst _ := ⟨hst.scopes, hst.out, Nat.succ_le_succ hst.calls, hst.standard⟩
  leaveCall _ h := ⟨h.scopes, h.out, Nat.sub_le_sub_right h.calls 1, h.standard⟩
  prints line hst := ⟨hst.scopes, congrArg (·.tryLine line) hst.out, hst.calls, hst.standard⟩

def Overruns {α : Type} (r : Except EvalError α) : Prop := ∃ place, r = .error ⟨.tooDeep, place⟩

theorem not_overruns_of_isOk {α : Type} {r : Except EvalError α} (h : r.isOk = true) :
    ¬ Overruns r := by
  rintro ⟨place, rfl⟩
  cases h

theorem limiting_evaluate (hosts : Hosts) (room : Nat) {d : Datum} (hd : d.standard = true) :
    limiting.Runs false SameStandard (evaluate hosts room d) (evaluate hosts room d) :=
  Comparison.evaluators (C := limiting) hosts hosts room ⟨rfl, hd⟩

/-- From a state with more calls in progress, evaluation meets the limit, or it ends in the same way
and leaves such a state again. -/
theorem Deeper.evaluate {s t : State} (hst : Deeper s t) (hosts : Hosts) (room : Nat) {d : Datum}
    (hd : d.standard = true) :
    Overruns (Eval.evaluate hosts room d s).1 ∨
      ((Eval.evaluate hosts room d s).1 = (Eval.evaluate hosts room d t).1 ∧
        Deeper (Eval.evaluate hosts room d s).2 (Eval.evaluate hosts room d t).2) := by
  have hends := (limiting_evaluate hosts room hd).ends hst
  generalize Eval.evaluate hosts room d s = p at hends ⊢
  cases hends with
  | alike hresult hdeeper => exact .inr ⟨hresult.eq, hdeeper⟩
  | @late e _ _ hlate =>
    obtain ⟨fault, place⟩ := e
    obtain ⟨rfl, -, -⟩ := hlate.late
    exact .inl ⟨place, rfl⟩

/-- The limit on calls only ever puts `tooDeep` in the place of an answer. An evaluation with more
calls in progress ends with `tooDeep`, and has then printed the first lines of what the one with
fewer prints; or it has the same result, and leaves the same scopes and the same output. -/
theorem evaluate_deeper (hosts : Hosts) (room : Nat) {d : Datum} {s : State} {calls : Nat}
    (hd : d.standard = true) (hs : s.scopes.standard = true) (hcalls : s.calls ≤ calls) :
    let p := evaluate hosts room d { s with calls := calls }
    let q := evaluate hosts room d s
    (∃ place, p.1 = .error ⟨.tooDeep, place⟩ ∧
      ∃ lines more : List String, p.2.out = lines.foldl Sink.tryLine s.out ∧
        q.2.out = (lines ++ more).foldl Sink.tryLine s.out) ∨
    (p.1 = q.1 ∧ p.2.scopes = q.2.scopes ∧ p.2.out = q.2.out) := by
  intro p q
  have hruns := limiting_evaluate hosts room hd
  have hends : limiting.Ends false SameStandard { s with calls := calls } s p q :=
    hruns.ends ⟨rfl, rfl, hcalls, hs⟩
  have hprints : s.out.Prints p.2.out :=
    (hruns.goesOn (e := ⟨.tooDeep, default⟩) (t := { s with calls := calls })
      ⟨rfl, .refl _, hs⟩).late.prints
  generalize p = p at hends hprints ⊢
  cases hends with
  | alike hresult hdeeper => exact .inr ⟨hresult.eq, hdeeper.scopes, hdeeper.out⟩
  | @late e _ _ hlate =>
    obtain ⟨fault, place⟩ := e
    obtain ⟨rfl, ⟨more, hmore⟩, -⟩ := hlate.late
    obtain ⟨lines, hlines⟩ := hprints
    refine .inl ⟨place, rfl, lines, more, hlines, ?_⟩
    rw [hmore, hlines, List.foldl_append]

/-- With room for two more calls, a call inside a call can print once and not once more. -/
theorem evaluate_deeper_two_left :
    let print (p : Place) (n : Int64) : Datum := .list p [.ident default "print", .int default n]
    let d : Datum := .list default [.ident default "=", print ⟨0, 4⟩ 1,
      .list ⟨0, 14⟩ [.ident default "=", print ⟨0, 18⟩ 2, print ⟨0, 28⟩ 3]]
    let s : State := { scopes := Scopes.withBuiltins Builtin.standard }
    let p := evaluate [] maxCalls d { s with calls := 254 }
    let q := evaluate [] maxCalls d s
    ∃ place, p.1 = .error ⟨.tooDeep, place⟩ ∧
      ∃ lines more : List String, p.2.out = lines.foldl Sink.tryLine s.out ∧
        q.2.out = (lines ++ more).foldl Sink.tryLine s.out := by
  intro print d s p q
  have hd : d.standard = true := by decide +kernel
  have hs : s.scopes.standard = true := by decide +kernel
  have hcalls : s.calls ≤ 254 := by decide
  have h := evaluate_deeper [] maxCalls hd hs hcalls
  have hout : p.2.out ≠ q.2.out := by decide +kernel
  exact h.resolve_right fun hsame => hout hsame.2.2

end Eval
end Lisplet
