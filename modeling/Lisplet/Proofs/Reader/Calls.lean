import Lisplet.Proofs.Reader.Descent

/-!
A reader that is called any number of times. Whatever it is asked for and in any
order, it loses no token, doubles none and puts none in another order. Recursive
descent gives the same answers to the same calls, and after each of them nothing
is consumed and nothing is being read.
-/
namespace Lisplet

namespace Reader

variable {σ : Type} [Source σ]

/-- What a reader can be asked for without giving up any text. -/
inductive Call where
  | read | peek | atEnd | atLineEnd
  deriving DecidableEq, Repr

inductive Answer where
  | read (x : Except ReadError Datum)
  | peek (x : Except ReadError Token)
  | atEnd (x : Except ReadError Bool)
  | atLineEnd (b : Bool)

def answer (r : Reader σ) : Call → Answer
  | .read => .read r.read.1
  | .peek => .peek r.peek.1
  | .atEnd => .atEnd r.atEnd.1
  | .atLineEnd => .atLineEnd r.atLineEnd

def after (r : Reader σ) : Call → Reader σ
  | .read => r.read.2
  | .peek => r.peek.2
  | .atEnd => r.atEnd.2
  | .atLineEnd => r

def afterAll (r : Reader σ) (calls : List Call) : Reader σ := calls.foldl after r

def answers (r : Reader σ) : List Call → List Answer
  | [] => []
  | call :: calls => r.answer call :: (r.after call).answers calls

/-- What a call does to what is ahead, and what it answers from it. -/
def Conserves (r : Reader σ) : Call → Prop
  | .read =>
    match r.read with
    | (.ok d, s) => ∃ n ≤ maxNesting, ∃ ts, Spells n ts d ∧ r.ahead = ts.map .ok ++ₛ s.ahead
    | (.error e, s) =>
      if e.what.isScan then LosesOnly e r.ahead s.ahead
      else s.ahead = r.ahead ∧ s.read.1 = .error e
  | .peek =>
    match r.peek with
    | (.ok t, s) => s.ahead = r.ahead ∧ r.ahead.head = .ok t
    | (.error e, s) => LosesOnly e r.ahead s.ahead
  | .atEnd =>
    match r.atEnd with
    | (.ok b, s) => s.ahead = r.ahead ∧ ∃ t, r.ahead.head = .ok t ∧ b = decide (t.lexeme = .eof)
    | (.error e, s) => LosesOnly e r.ahead s.ahead
  | .atLineEnd => (r.after .atLineEnd).ahead = r.ahead

theorem idle_after {r : Reader σ} (h : r.Idle) (call : Call) : (r.after call).Idle := by
  cases call with
  | read => exact idle_read h
  | peek => exact idle_peek h
  | atEnd => exact idle_atEnd h
  | atLineEnd => exact h

theorem idle_afterAll {r : Reader σ} (h : r.Idle) (calls : List Call) :
    (r.afterAll calls).Idle := by
  induction calls generalizing r with
  | nil => exact h
  | cons call calls ih => exact ih (idle_after h call)

/-- After an error a second attempt starts idle with the same ahead, so it ends as the first did. -/
theorem conserves_read {r : Reader σ} (h : r.Idle) : r.Conserves .read := by
  have hends := ends_read h
  simp only [Conserves]
  split
  next d s hr =>
    rw [hr] at hends
    exact hends.2
  next e s hr =>
    rw [hr] at hends
    obtain ⟨hs, hends⟩ := hends
    split
    next hscan => rwa [if_pos hscan] at hends
    next hscan =>
      rw [if_neg hscan] at hends
      refine ⟨hends, ?_⟩
      rw [read_congr hs h hends, hr]

/-- The test for the end of input takes nothing but an error. -/
theorem conserves_atEnd (r : Reader σ) : r.Conserves .atEnd := by
  simp only [Conserves]
  split
  next b s h =>
    unfold atEnd at h
    split at h
    next t s' hp =>
      cases h
      obtain ⟨hs, ht⟩ := ahead_of_peek hp
      exact ⟨hs, t, ht, rfl⟩
    next => cases h
  next e s h =>
    unfold atEnd at h
    split at h
    next => cases h
    next e' s' hp =>
      cases h
      exact losesOnly_peek hp

theorem conserves_peek (r : Reader σ) : r.Conserves .peek := by
  simp only [Conserves]
  split
  next t s h => exact ahead_of_peek h
  next e s h => exact losesOnly_peek h

end Reader

namespace Parser

variable {σ : Type} [Source σ]

/-- A call by recursive descent, with its answer and the parser after it. -/
def call? (s : Parser σ) : Reader.Call → Option (Reader.Answer × Parser σ)
  | .read => (parseExpr maxNesting s).map fun p => (.read p.1, p.2)
  | .peek => (peek s).map fun p => (.peek p.1, p.2)
  | .atEnd => (atEnd s).map fun p => (.atEnd p.1, p.2)
  | .atLineEnd => some (.atLineEnd s.atLineEnd, s)

def callAll? (s : Parser σ) : List Reader.Call → Option (List Reader.Answer × Parser σ)
  | [] => some ([], s)
  | call :: calls => do
    let (answer, s₁) ← s.call? call
    let (answers, s₂) ← s₁.callAll? calls
    return (answer :: answers, s₂)

theorem kind_eq_eof_iff (t : Token) : t.kind = .eof ↔ t.lexeme = .eof := by
  obtain ⟨lexeme, place⟩ := t
  cases lexeme with
  | atom a => cases a <;> simp [Token.kind, Lexeme.kind]
  | _ => simp [Token.kind, Lexeme.kind]

/-- The test for the end of input passes its checks and answers what the reader does. -/
theorem atEnd_ofReader (r : Reader σ) (n : Nat) :
    atEnd (ofReader r n) = some (r.atEnd.1, ofReader r.atEnd.2 n) := by
  rw [atEnd, bind_run, peek_ofReader, Reader.atEnd]
  rcases r.peek with ⟨x, s⟩
  cases x with
  | error e => rfl
  | ok t =>
    have hend : decide (t.kind = .eof) = decide (t.lexeme = .eof) :=
      decide_eq_decide.2 (kind_eq_eof_iff t)
    exact congrArg (fun b => some (Except.ok b, ofReader s n)) hend

theorem atLineEnd_ofReader (r : Reader σ) (n : Nat) : (ofReader r n).atLineEnd = r.atLineEnd := by
  simp [atLineEnd, ofReader, Reader.atLineEnd]

theorem call?_ofReader {r : Reader σ} (h : r.Idle) (call : Reader.Call) :
    (ofReader r 0).call? call = some (r.answer call, ofReader (r.after call) 0) := by
  cases call with
  | read => rw [call?, parseExpr_ofReader h (Nat.le_refl _)]; rfl
  | peek => rw [call?, peek_ofReader]; rfl
  | atEnd => rw [call?, atEnd_ofReader]; rfl
  | atLineEnd => rw [call?, atLineEnd_ofReader]; rfl

theorem callAll?_ofReader {r : Reader σ} (h : r.Idle) (calls : List Reader.Call) :
    (ofReader r 0).callAll? calls = some (r.answers calls, ofReader (r.afterAll calls) 0) := by
  induction calls generalizing r with
  | nil => rfl
  | cons call calls ih =>
    rw [callAll?, call?_ofReader h]
    simp only [Option.bind_eq_bind, Option.bind_some, ih (Reader.idle_after h call)]
    rfl

end Parser

namespace Reader

variable {σ : Type} [Source σ]

/-- However a reader has been used, it is idle, and the next call conserves what is ahead. Recursive
descent answers all of these calls alike and comes as far, with nothing consumed and nothing being
read. -/
theorem conserves_afterAll (source : σ) (calls : List Call) (call : Call) :
    let r := (ofSource source).afterAll calls
    (r.after call).taken = [] ∧ (r.after call).reading.nesting = 0 ∧ r.Conserves call ∧
      ∃ s, (Parser.ofSource source).callAll? (calls ++ [call]) =
          some ((ofSource source).answers (calls ++ [call]), s) ∧
        s.consumed = [] ∧ s.nesting = 0 ∧ s.reader .start = r.after call := by
  intro r
  have hr : r.Idle := idle_afterAll (idle_ofSource source) calls
  have hafter := idle_after hr call
  refine ⟨hafter.taken, hafter.nesting, ?_, ?_⟩
  · cases call with
    | read => exact conserves_read hr
    | peek => exact conserves_peek r
    | atEnd => exact conserves_atEnd r
    | atLineEnd => rfl
  · have hlast : (ofSource source).afterAll (calls ++ [call]) = r.after call :=
      List.foldl_append
    refine ⟨_, Parser.callAll?_ofReader (idle_ofSource source) (calls ++ [call]), ?_, rfl, ?_⟩
    · rw [hlast]
      exact congrArg List.reverse hafter.taken
    · rw [hlast, Parser.reader_ofReader_of_idle hafter]

end Reader
end Lisplet
