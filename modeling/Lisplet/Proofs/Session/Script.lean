import Lisplet.Proofs.Session.Alike
import Lisplet.Proofs.Session.ReadAhead

/-!
A script and a text that is evaluated as a whole. The two loops ask the reader
in different ways whether there is an expression left, and handle an error in
different ways. They evaluate the same expressions, and a script that fails is
reported against the lines that had been read by then.
-/
namespace Lisplet

theorem LineReader.Takes.lines {r r' : LineReader} {taken : List Line} (h : r.Takes taken r') :
    r'.read.toList ++ r'.feed = r.read.toList ++ r.feed := by
  rw [h.read, h.feed, List.append_assoc]

namespace Session

variable {σ : Type} [Source σ] {s s' : Session} {r r' : Reader σ}

def scriptOf : Except Error Datum × Session × Reader σ → Option String × Session
  | (.ok _, s, _) => (none, s)
  | (.error e, s, r) => (some (Report.render e r.source), s)

/-- The induction is on the run of the script. Whether there is an expression left is known from the
token that is pending from then on. -/
theorem runAll_eq (last : Datum) (s : Session) (r : Reader σ) :
    s.runAll r = scriptOf (s.evalAll last r) := by
  fun_induction runAll s r generalizing last with
  | case1 s r r' hend =>
    rw [evalAll_eq, Reader.read?, hend]
    rfl
  | case2 s r e r' hend =>
    rw [evalAll_eq, Reader.read?, hend]
    rfl
  | case3 s r r' hend e s' r'' heval =>
    rw [evalAll_eq, Reader.read?, hend]
    unfold evalNext at heval
    split at heval
    next hread => cases heval; simp only [hread]; rfl
    next d q hread =>
      split at heval
      next hfails => cases heval; simp only [hread, hfails]; rfl
      next => cases heval
  | case4 s r r' hend value s' r'' heval ih =>
    rw [evalAll_eq, Reader.read?, hend, ih value]
    unfold evalNext at heval
    split at heval
    next => cases heval
    next d q hread =>
      split at heval
      next => cases heval
      next hvalue => cases heval; simp only [hread, hvalue]

/-- To evaluate a text takes tokens from the stream, and does nothing else to it. -/
theorem reaches_evalAll {ts : TokenStream σ} (last : Datum) (h : ts.Reaches r.tokens) :
    ts.Reaches (s.evalAll last r).2.2.tokens := by
  fun_induction evalAll last s r with
  | case1 last s r e r' hread | case2 last s r r' hread =>
    have hreaches := Reader.reaches_read? h
    rwa [hread] at hreaches
  | case3 last s r d r' hread e s' heval =>
    have hreaches := Reader.reaches_read? h
    rwa [hread] at hreaches
  | case4 last s r d r' hread value s' heval ih =>
    have hreaches := Reader.reaches_read? h
    rw [hread] at hreaches
    exact ih hreaches

/-- The lines that a text has been read from, and those that have not been read, are its lines. -/
theorem lines_evalAll (last : Datum) (s : Session) (text : String) :
    let r := (s.evalAll last (.ofSource (LineReader.ofText text))).2.2
    r.source.read.toList ++ r.source.feed = splitLines text := by
  intro r
  obtain ⟨taken, htakes⟩ := (reaches_evalAll (s := s) (r := .ofSource (LineReader.ofText text)) last
    .refl).takes
  exact htakes.lines

end Session
end Lisplet
