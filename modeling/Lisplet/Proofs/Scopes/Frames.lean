import Lisplet.Proofs.Scopes.Stack

/-!
Scopes as a list with the top-level scope first and the innermost one last. Here
it has to be shown that the list is never empty, so that there is a first scope
for a form to be installed in. Every operation does to the list what it does to
the scopes, of which one is the top-level scope by construction.
-/
namespace Lisplet

/-- Scopes in the order in which they were opened. -/
abbrev Frames := List Scope

namespace Frames

/-- Bind a name in the first scope; nothing if there is none. -/
def register? (fs : Frames) (name : String) (value : Datum) : Option Frames :=
  fs[0]?.map fun top => fs.set 0 (top.insert name value)

/-- Bind a name in the last scope, if there is one. -/
def insert (fs : Frames) (name : String) (value : Datum) : Frames :=
  match fs.getLast? with
  | some c => fs.dropLast ++ [c.insert name value]
  | none => fs

def push (fs : Frames) : Frames := fs ++ [({} : Scope)]

/-- Drop the last scope, unless it is the only one. -/
def pop (fs : Frames) : Frames := if fs.length ≤ 1 then fs else fs.dropLast

end Frames

namespace Scopes

variable (s : Scopes) (name : String) (value : Datum)

/-- The scopes in the order in which they were opened. -/
def frames : Frames := s.all.reverse

theorem frames_eq : s.frames = s.outer.reverse ++ [s.innermost] := by
  rw [frames, all_eq, List.reverse_cons]

/-- There is always a first scope. -/
theorem register?_frames : s.frames.register? name value = some (s.register name value).frames := by
  have hfirst (t : Scopes) : t.frames = t.top :: t.inner.reverse := by simp [frames, all]
  rw [hfirst, hfirst]
  rfl

theorem insert_frames : s.frames.insert name value = (s.insert name value).frames := by
  rw [frames_eq, frames_eq, innermost_insert, outer_insert]
  simp [Frames.insert]

theorem push_frames : s.frames.push = s.enter.frames := by
  rw [frames_eq s.enter, innermost_enter, outer_enter]
  rfl

theorem pop_frames : s.frames.pop = s.leave.frames := by
  obtain ⟨top, inner⟩ := s
  cases inner with
  | nil => rfl
  | cons c rest =>
    have hlength : ¬ (Scopes.frames ⟨top, c :: rest⟩).length ≤ 1 := by simp [frames, all]
    rw [Frames.pop, if_neg hlength, frames_eq, List.dropLast_concat]
    simp [outer, frames, all, leave, leave?]

end Scopes
end Lisplet
