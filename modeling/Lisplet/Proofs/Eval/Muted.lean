import Lisplet.Proofs.Eval.View

/-!
Evaluation that cannot print. A broken sink takes nothing, and nobody is told. An
evaluation with such a sink goes, step by step, like the evaluation with any
other one, and differs from it only in the sink that is there at the end.
-/
namespace Lisplet

theorem Sink.tryLine_of_broken {o : Sink} (h : o.broken = true) (line : String) :
    o.tryLine line = o := by
  rw [tryLine, writeLine?, write?, if_pos h]
  rfl

namespace State

variable {ε : Type}

def withOut (s : State ε) (o : Sink) : State ε := { s with out := o }

@[simp] theorem withOut_scopes (s : State ε) (o : Sink) : (s.withOut o).scopes = s.scopes := rfl
@[simp] theorem withOut_calls (s : State ε) (o : Sink) : (s.withOut o).calls = s.calls := rfl

end State

namespace Eval

variable {o : Sink}

def muting (ho : o.broken = true) : View Scopes where
  see s := s.withOut o
  lookup _ _ := rfl
  insert _ _ _ := rfl
  enter _ := rfl
  leave _ _ := rfl
  calls _ := rfl
  count _ _ := rfl
  print s line := congrArg s.withOut (Sink.tryLine_of_broken ho line).symm

/-- With a broken sink, evaluation does what it does with any, but for what is printed. -/
theorem evaluate_withOut (ho : o.broken = true) (hosts : Hosts) (room : Nat) {d : Datum} {s : State}
    (hd : d.standard = true) (hs : s.scopes.standard = true) :
    evaluate hosts room d (s.withOut o) =
      ((evaluate hosts room d s).1, (evaluate hosts room d s).2.withOut o) := by
  have h : (muting ho).comparison.Evaluators (evaluate hosts room) (evaluate hosts room) :=
    Comparison.evaluators hosts hosts room
  exact View.run_eq (h.runs ⟨rfl, hd⟩) hs

end Eval
end Lisplet
