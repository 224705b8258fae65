import Lisplet.Proofs.Eval.LambdaCall

/-!
Calls in two steps. A call evaluates its head, and what it does after that is up
to the value of the head: it may fail at once, or look at its arguments, or
evaluate some of them.
-/
namespace Lisplet.Eval

section

variable {ε : Type} [Bindings ε]

/-- Call the value of a head, with a way to evaluate arguments. -/
def callValue (hosts : Hosts ε) (eval : Evaluator ε) (callee form : Datum) (args : List Datum) :
    Run ε Datum :=
  match call? hosts eval callee form args with
  | some result => result
  | none => fail (.notCallable callee) form.headPlace

theorem evaluate_call (hosts : Hosts ε) (room : Nat) (place : Place) (head : Datum)
    (args : List Datum) :
    evaluate hosts (room + 1) (.list place (head :: args)) = inCall place (do
      let callee ← evaluate hosts room head
      callValue hosts (evaluate hosts room) callee (.list place (head :: args)) args) := rfl

/-- What has become of a state when the call that it is inside of is over. -/
def callEnd (s : State ε) : State ε := { s with calls := s.calls - 1 }

/-- A call that there is room for does what the value of its head does with the arguments. -/
theorem evaluate_of_head {hosts : Hosts ε} {room : Nat} {place : Place} {head callee : Datum}
    {args : List Datum} {s t : State ε} (hcalls : s.calls < maxCalls)
    (hhead : evaluate hosts room head { s with calls := s.calls + 1 } = (.ok callee, t)) :
    evaluate hosts (room + 1) (.list place (head :: args)) s =
      let p := callValue hosts (evaluate hosts room) callee (.list place (head :: args)) args t
      (p.1, callEnd p.2) := by
  rw [evaluate_call, inCall_run, if_pos hcalls, bind_run, hhead]
  rfl

end

/-- A name that names a form has the form for its value. -/
theorem evaluate_name {s : State} {name : String} {op : BinaryOp} (h : Names s name op)
    (hosts : Hosts) (room : Nat) (place : Place) :
    ∃ p, evaluate hosts room (.ident place name) s =
      (.ok (.builtin p ⟨name, .binary op⟩), s) := by
  obtain ⟨p, h⟩ := h
  have hlookup : Bindings.lookup? s.scopes name = some (.builtin p ⟨name, .binary op⟩) := h
  refine ⟨p, ?_⟩
  simp only [evaluate, bind_run, lookup?_run, hlookup, pure_run]

/-- A form that is called by its name, with as many arguments as it takes. -/
theorem evaluate_binary {s : State} {name : String} {op : BinaryOp} (h : Names s name op)
    (hosts : Hosts) (room : Nat) (p q : Place) (a b : Datum) (hcalls : s.calls < maxCalls) :
    evaluate hosts (room + 1) (.list p [.ident q name, a, b]) s =
      let r := Form.binary (evaluate hosts room) (.list p [.ident q name, a, b]) op a b
        { s with calls := s.calls + 1 }
      (r.1, callEnd r.2) := by
  have hinside : Names { s with calls := s.calls + 1 } name op := h
  obtain ⟨place, hhead⟩ := evaluate_name hinside hosts room q
  rw [evaluate_of_head hcalls hhead]
  rfl

end Lisplet.Eval
