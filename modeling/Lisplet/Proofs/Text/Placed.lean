import Lisplet.Proofs.Token.Scanned
import Lisplet.Text.Lines

/-!
Where the characters of lines stand. Lines are counted from zero and so are the
characters within a line, its line feed included. A reader hands out each
character with its line and column, and ends at the start of the line that would
come next.
-/
namespace Lisplet

def placedFrom (line col : Nat) (cs : List Char) : List (Char × Place) :=
  (cs.zipIdx col).map fun (c, j) => (c, ⟨line, j⟩)

/-- All characters of lines with their places, where the first line has the number `first`. -/
def placedLines (first : Nat) (lines : List (List Char)) : List (Char × Place) :=
  (lines.zipIdx first).flatMap fun (cs, i) => placedFrom i 0 cs

@[simp] theorem placedFrom_nil (line col : Nat) : placedFrom line col [] = [] := rfl
@[simp] theorem placedFrom_cons (line col : Nat) (c : Char) (cs : List Char) :
    placedFrom line col (c :: cs) = (c, ⟨line, col⟩) :: placedFrom line (col + 1) cs := rfl
@[simp] theorem placedLines_nil (first : Nat) : placedLines first [] = [] := rfl
@[simp] theorem placedLines_cons (first : Nat) (cs : List Char) (lines : List (List Char)) :
    placedLines first (cs :: lines) = placedFrom first 0 cs ++ placedLines (first + 1) lines := rfl

theorem placedLines_append (first : Nat) (xs ys : List (List Char)) :
    placedLines first (xs ++ ys) = placedLines first xs ++ placedLines (first + xs.length) ys := by
  induction xs generalizing first with
  | nil => rfl
  | cons cs xs ih => simp [ih, Nat.add_assoc, Nat.add_comm 1]

@[simp] theorem map_fst_placedFrom (line col : Nat) (cs : List Char) :
    (placedFrom line col cs).map Prod.fst = cs := by
  induction cs generalizing col with
  | nil => rfl
  | cons c cs ih => simp [ih]

@[simp] theorem map_fst_placedLines (first : Nat) (lines : List (List Char)) :
    (placedLines first lines).map Prod.fst = lines.flatten := by
  induction lines generalizing first with
  | nil => rfl
  | cons cs lines ih => simp [ih]

theorem Place.compare_eq_lt_iff {a b : Place} :
    compare a b = .lt ↔ a.line < b.line ∨ a.line = b.line ∧ a.col < b.col := by
  change (compare a.line b.line).then (compare a.col b.col) = .lt ↔ _
  simp [Ordering.then_eq_lt, Nat.compare_eq_lt]

theorem forall_mem_placedFrom {line col : Nat} {cs : List Char} {x : Char × Place}
    (h : x ∈ placedFrom line col cs) : x.2.line = line ∧ col ≤ x.2.col := by
  induction cs generalizing col with
  | nil => simp at h
  | cons c cs ih =>
    obtain rfl | h := List.mem_cons.1 h
    · exact ⟨rfl, Nat.le_refl _⟩
    · exact ⟨(ih h).1, Nat.le_of_succ_le (ih h).2⟩

theorem le_line_of_mem_placedLines {first : Nat} {lines : List (List Char)} {x : Char × Place}
    (h : x ∈ placedLines first lines) : first ≤ x.2.line := by
  induction lines generalizing first with
  | nil => simp at h
  | cons cs lines ih =>
    obtain h | h := List.mem_append.1 h
    · exact Nat.le_of_eq (forall_mem_placedFrom h).1.symm
    · exact Nat.le_of_succ_le (ih h)

theorem pairwise_placedFrom (line col : Nat) (cs : List Char) :
    (placedFrom line col cs).Pairwise fun x y => compare x.2 y.2 = .lt := by
  induction cs generalizing col with
  | nil => exact .nil
  | cons c cs ih =>
    refine .cons (fun y hy => ?_) (ih (col + 1))
    obtain ⟨hline, hcol⟩ := forall_mem_placedFrom hy
    exact Place.compare_eq_lt_iff.2 (.inr ⟨hline.symm, hcol⟩)

/-- The characters of lines stand in reading order, and no two of them at the same place. -/
theorem pairwise_placedLines (first : Nat) (lines : List (List Char)) :
    (placedLines first lines).Pairwise fun x y => compare x.2 y.2 = .lt := by
  induction lines generalizing first with
  | nil => exact .nil
  | cons cs lines ih =>
    refine List.pairwise_append.2 ⟨pairwise_placedFrom first 0 cs, ih (first + 1), ?_⟩
    intro x hx y hy
    have hline := (forall_mem_placedFrom hx).1
    have hlater := le_line_of_mem_placedLines hy
    exact Place.compare_eq_lt_iff.2 (.inl (by omega))

/-- The characters of a line as it is fed, with the line feed that it may lack. -/
def completed (line : String) : List Char :=
  if line.toList.getLast? = some '\n' then line.toList else line.toList ++ ['\n']

theorem Line.chars_ofString (line : String) : (Line.ofString line).chars = completed line := by
  by_cases h : line.toList.getLast? = some '\n'
  · obtain ⟨cs, hcs⟩ := List.getLast?_eq_some_iff.1 h
    simp [ofString, completed, chars, hcs]
  · simp [ofString, completed, chars, h]

theorem forall_getLast?_of_append {α : Type} {p : α → Prop} {xs ys : List α}
    (h : ∀ z ∈ (xs ++ ys).getLast?, p z) : ∀ z ∈ ys.getLast?, p z := by
  intro z hz
  refine h z ?_
  rw [List.getLast?_append, hz]
  rfl

def EndsLine (cs : List (Char × Place)) : Prop := ∀ x ∈ cs.getLast?, x.1 = '\n'

theorem endsLine_nil : EndsLine [] := by simp [EndsLine]

theorem EndsLine.of_append {cs ds : List (Char × Place)} (h : EndsLine (cs ++ ds)) : EndsLine ds :=
  forall_getLast?_of_append h

theorem EndsLine.tail {x : Char × Place} {cs : List (Char × Place)} (h : EndsLine (x :: cs)) :
    EndsLine cs := EndsLine.of_append (show EndsLine ([x] ++ cs) from h)

theorem EndsLine.append {cs ds : List (Char × Place)} (hcs : EndsLine cs) (hds : EndsLine ds) :
    EndsLine (cs ++ ds) := by
  intro x hx
  rw [List.getLast?_append, Option.mem_def, Option.or_eq_some_iff] at hx
  rcases hx with hx | ⟨-, hx⟩
  · exact hds x hx
  · exact hcs x hx

/-- A line that ends has a last character in front of its end. -/
theorem EndsLine.eq_concat {cs : List (Char × Place)} (h : EndsLine cs) (hne : cs ≠ []) :
    ∃ ds p, cs = ds ++ [('\n', p)] := by
  obtain rfl | ⟨ds, ⟨c, p⟩, rfl⟩ := List.eq_nil_or_concat cs
  · exact absurd rfl hne
  rw [List.concat_eq_append] at h ⊢
  obtain rfl : c = '\n' := h (c, p) List.getLast?_concat
  exact ⟨ds, p, rfl⟩

theorem endsLine_line (number : Nat) (l : Line) : EndsLine (placedFrom number 0 l.chars) := by
  intro x hx
  have hx' : x.1 ∈ l.chars.getLast? := by
    rw [← map_fst_placedFrom number 0 l.chars, List.getLast?_map]
    exact Option.mem_map_of_mem Prod.fst hx
  rw [Line.chars, List.getLast?_concat] at hx'
  exact (Option.some.inj hx').symm

theorem endsLine_placedLines (first : Nat) (lines : List Line) :
    EndsLine (placedLines first (lines.map Line.chars)) := by
  induction lines generalizing first with
  | nil => exact endsLine_nil
  | cons l lines ih => exact (endsLine_line first l).append (ih (first + 1))

namespace LineReader

def lineRest (r : LineReader) : List (Char × Place) := placedFrom (r.read.size - 1) r.col r.rest

/-- Behind a line that is used up comes the beginning of the next one. -/
theorem place_of_end {r : LineReader} (h : r.rest = []) : r.place = ⟨r.read.size, 0⟩ := by
  rw [place, h]
  rfl

theorem place_of_rest {r : LineReader} (h : r.rest ≠ []) : r.place = ⟨r.read.size - 1, r.col⟩ := by
  rw [place, if_neg (by simpa using h)]

theorem chars_of_next? {r r' : LineReader} {c : Char} (h : r.next? = some (c, r')) :
    Source.chars r = (c, r.place) :: Source.chars r' :=
  Source.chars_of_char h

/-- A reader hands out the rest of its line and then the lines of its feed. -/
theorem chars_eq_placed (r : LineReader) :
    Source.chars r = r.lineRest ++ placedLines r.read.size (r.feed.map Line.chars) := by
  fun_induction Source.chars r with
  | case1 r h =>
    obtain ⟨hr, hf⟩ := next?_eq_none_iff.1 h
    simp [lineRest, hr, hf]
  | case2 r c r' h ih =>
    have hplace : Source.place r = r.place := rfl
    rw [ih, hplace]
    obtain ⟨rest, hr, rfl⟩ | ⟨line, feed, hr, hf, rfl, rfl⟩ := next?_cases h
    · simp [lineRest, hr, place]
    · simp [lineRest, hr, hf, place, line.chars_eq]

/-- No line is begun, or the current one is used up or given up. -/
theorem endsLine_of_rest {r : LineReader} (h : r.rest = []) : EndsLine r.lineRest := by
  rw [lineRest, h]
  exact endsLine_nil

theorem endsLine_chars {r : LineReader} (h : EndsLine r.lineRest) : EndsLine (Source.chars r) := by
  rw [chars_eq_placed]
  exact h.append (endsLine_placedLines _ r.feed)

theorem endPlace_eq (r : LineReader) :
    Source.endPlace r = ⟨r.read.size + r.feed.length, 0⟩ := by
  fun_induction Source.endPlace r with
  | case1 r h =>
    have hplace : Source.place r = r.place := rfl
    obtain ⟨hr, hf⟩ := next?_eq_none_iff.1 h
    simp [hplace, place, hr, hf]
  | case2 r c r' h ih =>
    rw [ih]
    obtain ⟨rest, hr, rfl⟩ | ⟨line, feed, hr, hf, rfl, rfl⟩ := next?_cases h
    · rfl
    · rw [hf, Array.size_push, List.length_cons, Nat.add_right_comm, Nat.add_assoc]

theorem chars_ofLines (lines : List String) :
    Source.chars (ofLines lines) = placedLines 0 (lines.map completed) := by
  rw [chars_eq_placed]
  simp [lineRest, ofLines, Function.comp_def, Line.chars_ofString]

theorem endPlace_ofLines (lines : List String) :
    Source.endPlace (ofLines lines) = ⟨lines.length, 0⟩ := by
  rw [endPlace_eq]
  simp [ofLines]

end LineReader
end Lisplet
