import Lisplet.Token.Scan
import Lisplet.Text.Source

/-!
Tokens from a source, one at a time. At most one character is held back, the
delimiter that ended the last word. Every token takes up at least one character
unless input has ended, and so does an error, so scanning can go on after it.
-/
namespace Lisplet

structure TokenStream (σ : Type) where
  source : σ
  held : Option (Char × Place) := none

namespace TokenStream

variable {σ : Type} [Source σ]

/-- The next character with its place, the held one first. -/
def pull? (ts : TokenStream σ) : Option (Char × Place × TokenStream σ) :=
  match ts.held with
  | some (c, place) => some (c, place, { ts with held := none })
  | none =>
    match Source.next? ts.source with
    | some (c, source) => some (c, Source.place ts.source, { source })
    | none => none

def left (ts : TokenStream σ) : Nat := Source.left ts.source + ts.held.toList.length

theorem held_pull? {ts ts' : TokenStream σ} {c : Char} {place : Place}
    (h : ts.pull? = some (c, place, ts')) : ts'.held = none := by
  unfold pull? at h
  split at h
  next => cases h; rfl
  next =>
    split at h
    next => cases h; rfl
    next => cases h

/-- A character that is handed out, held or not, is no longer left. -/
theorem left_pull? {ts ts' : TokenStream σ} {c : Char} {place : Place}
    (h : ts.pull? = some (c, place, ts')) : ts'.left < ts.left := by
  unfold pull? at h
  split at h
  next hh => cases h; simp [left, hh]
  next hh =>
    split at h
    next hs => cases h; simpa [left, hh] using Source.left_next? hs
    next => cases h

def scan (s : Scan) (ts : TokenStream σ) : Except ScanError Token × TokenStream σ :=
  match _h : ts.pull? with
  | none => (s.finish (Source.place ts.source), ts)
  | some (c, place, ts') =>
    match s.step c place with
    | .go next => scan next ts'
    | .done token => (.ok token, ts')
    | .hold token => (.ok token, { ts' with held := some (c, place) })
    | .fail error => (.error error, ts')
termination_by ts.left
decreasing_by exact left_pull? _h

theorem scan_of_end {ts : TokenStream σ} (h : ts.pull? = none) (s : Scan) :
    scan s ts = (s.finish (Source.place ts.source), ts) := by
  rw [scan]
  split <;> simp_all

/-- One turn of the loop that scans a token. -/
theorem scan_of_char {ts ts' : TokenStream σ} {c : Char} {place : Place}
    (h : ts.pull? = some (c, place, ts')) (s : Scan) :
    scan s ts =
      match s.step c place with
      | .go next => scan next ts'
      | .done token => (.ok token, ts')
      | .hold token => (.ok token, { ts' with held := some (c, place) })
      | .fail error => (.error error, ts') := by
  rw [scan]
  split
  next h' => simp [h] at h'
  next h' =>
    obtain ⟨rfl, rfl, rfl⟩ : c = _ ∧ place = _ ∧ ts' = _ := by simpa [h] using h'
    rfl

def next (ts : TokenStream σ) : Except ScanError Token × TokenStream σ := scan .gap ts

/-- Nothing but white space or a comment is left on the current line. -/
def atLineEnd (ts : TokenStream σ) : Bool := ts.held.isNone && Source.atLineEnd ts.source

def skipLine (ts : TokenStream σ) : TokenStream σ := { source := Source.skipLine ts.source }

theorem left_scan_le (s : Scan) (ts : TokenStream σ) : (scan s ts).2.left ≤ ts.left := by
  fun_induction scan s ts with
  | case1 => exact Nat.le_refl _
  | case2 s ts c place ts' h next _ ih => exact Nat.le_trans ih (Nat.le_of_lt (left_pull? h))
  | case3 s ts c place ts' h => exact Nat.le_of_lt (left_pull? h)
  | case4 s ts c place ts' h =>
    have hlt := left_pull? h
    simp only [left, held_pull? h, Option.toList_none, Option.toList_some, List.length_nil,
      List.length_singleton] at hlt ⊢
    omega
  | case5 s ts c place ts' h => exact Nat.le_of_lt (left_pull? h)

/-- A token read from the gap between tokens holds no character back at once. -/
theorem step_gap_ne_hold (c : Char) (place : Place) (token : Token) :
    Scan.gap.step c place ≠ .hold token := by
  simp only [Scan.step, Scan.first]
  repeat' split
  all_goals simp

/-- Reading a token consumes a character, or reports the end of input. -/
theorem left_next (ts : TokenStream σ) :
    ts.next.2.left < ts.left ∨ ∃ place, ts.next = (.ok ⟨.eof, place⟩, ts) := by
  unfold next scan
  split
  next => exact .inr ⟨_, rfl⟩
  next c place ts' h =>
    have hlt := left_pull? h
    left
    split
    next => exact Nat.lt_of_le_of_lt (left_scan_le ..) hlt
    next => exact hlt
    next token hs => exact absurd hs (step_gap_ne_hold c place token)
    next => exact hlt

theorem left_next_le (ts : TokenStream σ) : ts.next.2.left ≤ ts.left := left_scan_le ..

theorem left_next_lt {ts : TokenStream σ} {t : Token} (h : ts.next.1 = .ok t)
    (hne : t.lexeme ≠ .eof) : ts.next.2.left < ts.left := by
  rcases left_next ts with hlt | ⟨place, he⟩
  · exact hlt
  · rw [he] at h
    cases h
    exact absurd rfl hne

theorem left_skipLine (ts : TokenStream σ) : ts.skipLine.left ≤ ts.left := by
  have := Source.left_skipLine ts.source
  simp only [left, skipLine, Option.toList_none, List.length_nil]
  omega

end TokenStream
end Lisplet
