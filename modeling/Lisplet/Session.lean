import Lisplet.Eval
import Lisplet.Reader.Progress
import Lisplet.Report
import Lisplet.Text.Lines

/-!
Sessions. A session keeps its bindings from one expression to the next,
whatever errors occur. Expressions can be run one by one or as a whole text, of
which the value of the last expression is the result and the first error the
end.
-/
namespace Lisplet

structure Session where
  hosts : Hosts := []
  state : State := { scopes := {} }

namespace Session

def fresh : Session := { state := { scopes := Scopes.withBuiltins Builtin.standard } }

variable {σ : Type} [Source σ]

def run (s : Session) (x : Eval α) : Except EvalError α × Session :=
  let (result, state) := x s.state
  (result, { s with state })

def eval (s : Session) (d : Datum) : Except EvalError Datum × Session :=
  s.run (Eval.evaluate s.hosts maxCalls d)

/-- Call a value directly with a call form and its arguments; nothing if it is not callable. -/
def call? (s : Session) (callee form : Datum) (args : List Datum) :
    Option (Except EvalError Datum × Session) :=
  (Eval.call? s.hosts (Eval.evaluate s.hosts maxCalls) callee form args).map s.run

/-- Install a form of the host at top level, in place of what its name was bound to. -/
def register (s : Session) (name : String) (arity : Nat) (form : HostForm) : Session :=
  let builtin : Builtin := ⟨name, .host s.hosts.length arity⟩
  { hosts := s.hosts ++ [form]
    state := { s.state with scopes := s.state.scopes.register name (.builtin default builtin) } }

def evalNext (s : Session) (r : Reader σ) : Except Error Datum × Session × Reader σ :=
  match r.read with
  | (.error e, r') => (.error (e.map .read), s, r')
  | (.ok d, r') =>
    match s.eval d with
    | (.error e, s') => (.error (e.map .eval), s', r')
    | (.ok value, s') => (.ok value, s', r')

/-- Evaluate all that is left to read. The answer is the last value, or `last` if there is none. -/
def evalAll (last : Datum) (s : Session) (r : Reader σ) :
    Except Error Datum × Session × Reader σ :=
  match _h : r.read? with
  | (.error e, r') => (.error (e.map .read), s, r')
  | (.ok none, r') => (.ok last, s, r')
  | (.ok (some d), r') =>
    match s.eval d with
    | (.error e, s') => (.error (e.map .eval), s', r')
    | (.ok value, s') => evalAll value s' r'
termination_by r.left
decreasing_by exact Reader.left_read?_lt _h

/-- Evaluate a text. A text without expressions has the value `nil`. -/
def evalText (s : Session) (text : String) : Except Error Datum × Session :=
  let (result, s', _) := evalAll (.nil default) s (Reader.ofSource (LineReader.ofText text))
  (result, s')

/-- A pass of the loop that evaluates a text leaves less to be read. -/
theorem left_evalNext_lt {s s' : Session} {r r' r'' : Reader σ} {value : Datum}
    (hend : r.atEnd = (.ok false, r')) (h : s.evalNext r' = (.ok value, s', r'')) :
    r''.left < r.left := by
  obtain ⟨t, hpeek, hne⟩ := Reader.atEnd_false hend
  refine Nat.lt_of_lt_of_le ?_ (Reader.left_peek_le hpeek hne)
  unfold evalNext at h
  split at h
  next => cases h
  next hread => split at h <;> cases h; exact Reader.left_read_lt hread

/-- Run all that is left to read as a script: nothing, or the report of the first error. -/
def runAll (s : Session) (r : Reader σ) : Option String × Session :=
  match _hend : r.atEnd with
  | (.ok true, _) => (none, s)
  | (.error e, r') => (some (Report.render (e.map .read) r'.source), s)
  | (.ok false, r') =>
    match _h : s.evalNext r' with
    | (.error e, s', r'') => (some (Report.render e r''.source), s')
    | (.ok _, s', r'') => runAll s' r''
termination_by r.left
decreasing_by exact left_evalNext_lt _hend _h

def runScript (s : Session) (text : String) : Option String × Session :=
  s.runAll (Reader.ofSource (LineReader.ofText text))

end Session
end Lisplet
