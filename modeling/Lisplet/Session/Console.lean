import Lisplet.Session

/-!
The console. Each turn reads one expression, which has to be the last thing on
its line, evaluates it and shows its value. An error is shown as a report and
costs the rest of the line it was found on; bindings stay. The console ends with
its input, or when what it shows cannot be written.
-/
namespace Lisplet.Session

variable {σ : Type} [Source σ]

/-- One turn: the text to show and what is left after it, or nothing at the end of input. -/
def turn? (s : Session) (r : Reader σ) : Option (String × Session × Reader σ) :=
  match r.readLine? with
  | (.ok none, _) => none
  | (.error e, r') => some (Report.render e r'.source, s, r'.skipLine)
  | (.ok (some d), r') =>
    match s.eval d with
    | (.ok value, s') => some (toString value, s', r')
    | (.error e, s') => some (Report.render (e.map .eval) r'.source, s', r'.skipLine)

/-- A turn of the console leaves less to be read, whatever it shows. -/
theorem left_turn?_lt {s s' : Session} {r r' : Reader σ} {text : String}
    (h : s.turn? r = some (text, s', r')) : r'.left < r.left := by
  unfold turn? at h
  split at h
  next => cases h
  next e r1 hp => cases h; exact Reader.left_skipLine_readLine?_lt hp
  next d r1 hp =>
    have h1 := Reader.left_readLine?_lt hp
    split at h
    next => cases h; exact h1
    next =>
      cases h
      have h2 := Reader.left_skipLine r1
      have h3 := Reader.left_tokens_le r1
      omega

/-- How a run of the console ends. -/
structure ConsoleRun where
  session : Session
  screen : Sink
  /-- Whether everything could be written, up to the end of input. -/
  complete : Bool

/-- Take turns up to the end of input, or to the first line that the screen refuses. -/
def console (s : Session) (screen : Sink) (r : Reader σ) : ConsoleRun :=
  match _h : s.turn? r with
  | none => ⟨s, screen, true⟩
  | some (text, s', r') =>
    match screen.writeLine? text with
    | none => ⟨s', screen, false⟩
    | some screen' => console s' screen' r'
termination_by r.left
decreasing_by exact left_turn?_lt _h

end Lisplet.Session
