import Lisplet.Proofs.Eval.Call
import Lisplet.Proofs.Word.Floor

/-!
Quotient and remainder. Both forms evaluate the left operand and then the right
one, and each has to be an integer before anything else is looked at. Then a
divisor of zero is an error where the divisor is written, and from any other
divisor the two forms get the two parts of one division.
-/
namespace Lisplet

theorem Datum.typeOf_eq_int_iff {v : Datum} :
    v.typeOf = .atom .int ↔ ∃ p n, v = .int p n := by
  constructor
  · intro h
    cases v with
    | int p n => exact ⟨p, n, rfl⟩
    | _ => cases h
  · rintro ⟨p, n, rfl⟩
    rfl

namespace Form

variable {ε : Type} {eval : Evaluator ε} {arg : Datum} {s t : State ε}

theorem int_run_ok {p : Place} {n : Int64} (h : eval arg s = (.ok (.int p n), t)) :
    int eval arg s = (.ok n, t) := by
  rw [int, Eval.bind_run, h]
  rfl

theorem int_run_error {e : EvalError} (h : eval arg s = (.error e, t)) :
    int eval arg s = (.error e, t) := by
  rw [int, Eval.bind_run, h]

theorem int_run_mismatch {v : Datum} (h : eval arg s = (.ok v, t)) (hv : v.typeOf ≠ .atom .int) :
    int eval arg s = (.error ⟨.typeMismatch (.atom .int) v.typeOf, arg.place⟩, t) := by
  rw [int, Eval.bind_run, h]
  cases v with
  | int p n => exact absurd (Datum.typeOf_eq_int_iff.2 ⟨p, n, rfl⟩) hv
  | _ => rfl

end Form

namespace Eval

/-- What becomes of two operands that have to be integers, from left to right. -/
inductive Operands (eval : Evaluator) (a b : Datum) (s : State) :
    Except EvalError (Int64 × Int64) → State → Prop where
  | leftFails {e : EvalError} {t : State} : eval a s = (.error e, t) →
      Operands eval a b s (.error e) t
  | leftMismatch {v : Datum} {t : State} : eval a s = (.ok v, t) → v.typeOf ≠ .atom .int →
      Operands eval a b s (.error ⟨.typeMismatch (.atom .int) v.typeOf, a.place⟩) t
  | rightFails {p : Place} {x : Int64} {e : EvalError} {t u : State} :
      eval a s = (.ok (.int p x), t) → eval b t = (.error e, u) →
      Operands eval a b s (.error e) u
  | rightMismatch {p : Place} {x : Int64} {v : Datum} {t u : State} :
      eval a s = (.ok (.int p x), t) → eval b t = (.ok v, u) → v.typeOf ≠ .atom .int →
      Operands eval a b s (.error ⟨.typeMismatch (.atom .int) v.typeOf, b.place⟩) u
  | integers {p q : Place} {x y : Int64} {t u : State} :
      eval a s = (.ok (.int p x), t) → eval b t = (.ok (.int q y), u) →
      Operands eval a b s (.ok (x, y)) u

/-- Nothing else becomes of them. -/
theorem exists_operands (eval : Evaluator) (a b : Datum) (s : State) :
    ∃ r t, Operands eval a b s r t := by
  rcases ha : eval a s with ⟨e | v, t⟩
  · exact ⟨_, _, .leftFails ha⟩
  by_cases hv : v.typeOf = .atom .int
  · obtain ⟨p, x, rfl⟩ := Datum.typeOf_eq_int_iff.1 hv
    rcases hb : eval b t with ⟨e | w, u⟩
    · exact ⟨_, _, .rightFails ha hb⟩
    by_cases hw : w.typeOf = .atom .int
    · obtain ⟨q, y, rfl⟩ := Datum.typeOf_eq_int_iff.1 hw
      exact ⟨_, _, .integers ha hb⟩
    · exact ⟨_, _, .rightMismatch ha hb hw⟩
  · exact ⟨_, _, .leftMismatch ha hv⟩

/-- Arithmetic on operands that are integers, and no arithmetic otherwise. -/
theorem arith_run {eval : Evaluator} {a b : Datum} {s t : State}
    {r : Except EvalError (Int64 × Int64)} (form : Datum) (op : ArithOp) :
    Operands eval a b s r t → Form.binary eval form (.arith op) a b s =
      match r with
      | .error e => (.error e, t)
      | .ok (x, y) =>
        (do return Datum.int form.place (← Form.arith op x y b.place) : Eval Datum) t := by
  intro h
  rw [Form.binary, bind_run]
  cases h with
  | leftFails ha => rw [Form.int_run_error ha]
  | leftMismatch ha hv => rw [Form.int_run_mismatch ha hv]
  | rightFails ha hb => simp only [Form.int_run_ok ha, bind_run, Form.int_run_error hb]
  | rightMismatch ha hb hv => simp only [Form.int_run_ok ha, bind_run, Form.int_run_mismatch hb hv]
  | integers ha hb => simp only [Form.int_run_ok ha, bind_run, Form.int_run_ok hb]

/-- Both forms fail as their operands do, or for a divisor of zero, in the state that the operands
have left; otherwise their values are quotient and remainder of one division. -/
theorem evaluate_division (hosts : Hosts) (room : Nat) {s : State} (hcalls : s.calls < maxCalls)
    (hdiv : Names s "/" (.arith .div)) (hmod : Names s "%" (.arith .mod)) (p q : Place)
    {a b : Datum} {r : Except EvalError (Int64 × Int64)} {t : State}
    (h : Operands (evaluate hosts room) a b { s with calls := s.calls + 1 } r t) :
    let call (name : String) := evaluate hosts (room + 1) (.list p [.ident q name, a, b]) s
    (∀ e, r = .error e → ∀ name ∈ ["/", "%"], call name = (.error e, callEnd t)) ∧
      (∀ x, r = .ok (x, 0) → ∀ name ∈ ["/", "%"],
        call name = (.error ⟨.divisionByZero, b.place⟩, callEnd t)) ∧
      (∀ x y, r = .ok (x, y) → y ≠ 0 → ∃ quotient remainder,
        call "/" = (.ok (.int p quotient), callEnd t) ∧
        call "%" = (.ok (.int p remainder), callEnd t) ∧
        Word.FloorDivision x y quotient remainder) := by
  intro call
  have hquotient := evaluate_binary hdiv hosts room p q a b hcalls
  have hremainder := evaluate_binary hmod hosts room p q a b hcalls
  rw [arith_run _ _ h] at hquotient hremainder
  simp only [List.forall_mem_cons, List.not_mem_nil, false_implies, implies_true, and_true]
  refine ⟨?_, ?_, ?_⟩
  · rintro e rfl
    exact ⟨hquotient, hremainder⟩
  · rintro x rfl
    exact ⟨hquotient, hremainder⟩
  · rintro x y rfl hy
    simp only [Form.arith, if_neg hy] at hquotient hremainder
    exact ⟨_, _, hquotient, hremainder, Word.floorDivision x hy⟩

/-- The only quotient that is no word. The dividend prints a line first. -/
theorem evaluate_division_least :
    let s : State := { scopes := Scopes.withBuiltins Builtin.standard }
    let line : Datum := .list default [.ident default "print", .str default "least"]
    let a : Datum := .list default
      [.ident default "let", .list default [.ident default "x", line],
        .int default Int64.minValue]
    let call (name : String) : Except EvalError Datum × State :=
      evaluate [] 3 (.list default [.ident default name, a, .int default (-1)]) s
    call "/" = (.ok (.int default Int64.minValue), { s with out := ⟨"least\n", false⟩ }) ∧
      call "%" = (.ok (.int default 0), { s with out := ⟨"least\n", false⟩ }) := by
  intro s line a call
  have hleft : evaluate [] 2 a { s with calls := 1 } =
    (.ok (.int default Int64.minValue), { s with calls := 1, out := ⟨"least\n", false⟩ }) := rfl
  have hright (t : State) : evaluate [] 2 (.int default (-1)) t = (.ok (.int default (-1)), t) := rfl
  obtain ⟨-, -, h⟩ := evaluate_division [] 2 (by decide) ⟨default, rfl⟩ ⟨default, rfl⟩
    default default (.integers hleft (hright _))
  obtain ⟨d, r, hquotient, hremainder, hwords⟩ := h Int64.minValue (-1) rfl (by decide)
  obtain rfl : d = Int64.minValue := hwords.wraps ⟨rfl, rfl⟩
  have hbound : |r.toInt| < 1 := hwords.bound
  obtain rfl : r = 0 := Int64.toInt_inj.1 (Int.abs_lt_one_iff.1 hbound)
  exact ⟨hquotient, hremainder⟩

end Eval
end Lisplet
