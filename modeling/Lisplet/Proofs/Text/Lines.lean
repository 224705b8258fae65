import Lisplet.Proofs.Text.Placed

/-!
The characters of a text that is read line by line are those of the text, with
a line feed after the last line if the text does not end in one.
-/
namespace Lisplet

theorem LineReader.chars_eq (r : LineReader) :
    (Source.chars r).map Prod.fst = r.rest ++ r.feed.flatMap Line.chars := by
  simp [chars_eq_placed, lineRest, List.flatMap_def]

/-- Only the last line can lack its line feed. -/
theorem flatMap_splitLines_go (acc cs : List Char) :
    ∃ tail, (tail = [] ∨ tail = ['\n']) ∧
      (splitLines.go acc cs).flatMap Line.chars = acc.reverse ++ (cs ++ tail) := by
  induction cs generalizing acc with
  | nil =>
    by_cases h : acc = []
    · exact ⟨[], .inl rfl, by simp [splitLines.go, h]⟩
    · exact ⟨['\n'], .inr rfl, by simp [splitLines.go, h, Line.chars]⟩
  | cons c cs ih =>
    by_cases hc : c = '\n'
    · obtain ⟨tail, htail, he⟩ := ih []
      exact ⟨tail, htail, by simp [splitLines.go, hc, Line.chars, he]⟩
    · obtain ⟨tail, htail, he⟩ := ih (c :: acc)
      exact ⟨tail, htail, by simp [splitLines.go, hc, he]⟩

theorem LineReader.chars_ofText (text : String) :
    ∃ tail, (tail = [] ∨ tail = ['\n']) ∧
      (Source.chars (LineReader.ofText text)).map Prod.fst = text.toList ++ tail := by
  obtain ⟨tail, htail, he⟩ := flatMap_splitLines_go [] text.toList
  exact ⟨tail, htail, by rw [LineReader.chars_eq]; exact he⟩

/-- A line feed at the end belongs to the last line. -/
theorem flatMap_splitLines_go_lineFeed (acc cs : List Char) :
    (splitLines.go acc (cs ++ ['\n'])).flatMap Line.chars = acc.reverse ++ (cs ++ ['\n']) := by
  induction cs generalizing acc with
  | nil => simp [splitLines.go, Line.chars]
  | cons c cs ih =>
    by_cases hc : c = '\n'
    · simp [splitLines.go, hc, Line.chars, ih []]
    · simp [splitLines.go, hc, ih (c :: acc)]

theorem getLast?_flatMap_chars {lines : List Line} (h : lines ≠ []) :
    (lines.flatMap Line.chars).getLast? = some '\n' := by
  obtain rfl | ⟨others, line, rfl⟩ := List.eq_nil_or_concat lines
  · exact absurd rfl h
  rw [List.concat_eq_append, List.flatMap_append, List.flatMap_singleton, Line.chars,
    ← List.append_assoc, List.getLast?_concat]

/-- A text that is not empty is completed by the line feed that it may lack. -/
theorem LineReader.chars_ofText_eq {text : String} (h : text ≠ "") :
    (Source.chars (LineReader.ofText text)).map Prod.fst = completed text := by
  have hlines : (Source.chars (LineReader.ofText text)).map Prod.fst =
      (splitLines text).flatMap Line.chars := LineReader.chars_eq _
  rw [hlines, completed]
  split
  next hlast =>
    obtain ⟨cs, hcs⟩ := List.getLast?_eq_some_iff.1 hlast
    rw [splitLines, hcs]
    exact flatMap_splitLines_go_lineFeed [] cs
  next hlast =>
    obtain ⟨tail, rfl | rfl, he⟩ := flatMap_splitLines_go [] text.toList
    · -- the last line would end in no line feed
      rw [List.append_nil] at he
      have hne : splitLines text ≠ [] := by
        intro hnil
        rw [← splitLines, hnil] at he
        exact h (String.toList_eq_nil_iff.1 he.symm)
      have hends := getLast?_flatMap_chars hne
      rw [splitLines, he] at hends
      exact absurd hends hlast
    · exact he

theorem splitLines_go_of_not_mem {cs : List Char} (h : '\n' ∉ cs) (acc rest : List Char) :
    splitLines.go acc (cs ++ rest) = splitLines.go (cs.reverse ++ acc) rest := by
  induction cs generalizing acc with
  | nil => rfl
  | cons c cs ih =>
    rw [List.mem_cons, not_or] at h
    simp [splitLines.go, Ne.symm h.1, ih h.2]

/-- A text that has no line feed but at its end is one line. -/
theorem splitLines_eq_singleton {text : String} (hne : text ≠ "")
    (h : '\n' ∉ text.toList.dropLast) : splitLines text = [Line.ofString text] := by
  have hcs : text.toList ≠ [] := fun hnil => hne (String.toList_eq_nil_iff.1 hnil)
  rw [splitLines, Line.ofString]
  by_cases hlast : text.toList.getLast? = some '\n'
  · obtain ⟨cs, hcs⟩ := List.getLast?_eq_some_iff.1 hlast
    rw [hcs, List.dropLast_concat] at h
    simp [hcs, splitLines_go_of_not_mem h, splitLines.go]
  · have hmem : '\n' ∉ text.toList := by
      intro hmem
      rw [← List.dropLast_concat_getLast hcs, List.mem_append, List.mem_singleton] at hmem
      exact hmem.elim h fun heq => hlast (by rw [List.getLast?_eq_some_getLast hcs, heq])
    have hgo := splitLines_go_of_not_mem hmem [] []
    rw [List.append_nil, List.append_nil] at hgo
    simp [hlast, hgo, splitLines.go, hne]

end Lisplet
