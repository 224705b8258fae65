import Lisplet.Proofs.Datum.Places
import Lisplet.Proofs.Session.ReadAhead
import Lisplet.Proofs.Token.Places

/-!
Where a reader finds what it answers. An expression has all its places from its
tokens. An error in reading is reported at the token that could not be taken, or
at what is no token. Tokens that are put back have their places in the text as
before, although more lines may have been read by the time they are taken again.
-/
namespace Lisplet

namespace Reading

def Move.FailsAt (p : Place) : Move → Prop
  | .fail e => e.place = p
  | .more _ | .done _ => True

theorem give_failsAt (p : Place) (d : Datum) (stack : List OpenForm) :
    (give d stack).FailsAt p := by
  induction stack generalizing d with
  | nil => trivial
  | cons form stack ih =>
    cases form with
    | quote place => exact ih _
    | list place items => trivial

theorem giveType_failsAt (p : Place) (stack : List OpenForm) (dollar : Place) (ty : Ty)
    (types : List OpenType) : (giveType stack dollar ty types).FailsAt p := by
  induction types generalizing ty with
  | nil => exact give_failsAt ..
  | cons form types ih =>
    cases form with
    | quoted => exact ih _
    | listOf => trivial
    | group members => cases members <;> trivial

theorem takeExpr_failsAt (stack : List OpenForm) (t : Token) :
    (takeExpr stack t).FailsAt t.place := by
  unfold takeExpr openExpr
  repeat' split
  all_goals first | exact give_failsAt .. | trivial

theorem notClosing_failsAt (wanted : String) (t : Token) :
    (notClosing wanted t).FailsAt t.place := by
  unfold notClosing
  split <;> rfl

theorem takeType_failsAt (stack : List OpenForm) (dollar : Place) (types : List OpenType)
    (t : Token) (goal : TypeGoal) : (takeType stack dollar types t goal).FailsAt t.place := by
  unfold takeType openType
  repeat' split
  all_goals first | exact giveType_failsAt .. | exact notClosing_failsAt .. | trivial

/-- A token that cannot be taken is where the report points. -/
theorem take_failsAt (g : Reading) (t : Token) : (g.take t).FailsAt t.place := by
  unfold take
  split
  · exact takeExpr_failsAt ..
  · exact takeType_failsAt ..

end Reading

namespace Reader

/-- The tokens of the reader, and those that it has taken or put back, stand in the text. -/
structure InText (r : Reader LineReader) : Prop where
  tokens : r.tokens.InText
  pending : ∀ t ∈ r.pending, TokenStream.Stands r.source t
  taken : ∀ t ∈ r.taken, TokenStream.Stands r.source t

theorem inText_ofSource {source : LineReader} (h : source.rest = []) : (ofSource source).InText :=
  ⟨TokenStream.inText_of_rest rfl h, by simp [ofSource], by simp [ofSource]⟩

variable {r s : Reader LineReader}

theorem InText.skipLine (r : Reader LineReader) : r.skipLine.InText :=
  (inText_ofSource rfl : (ofSource (Source.skipLine r.source)).InText)

theorem InText.giveBack (h : r.InText) : r.giveBack.InText := by
  refine ⟨h.tokens, ?_, by simp [Reader.giveBack]⟩
  intro t ht
  simp only [Reader.giveBack, List.mem_append, List.mem_reverse] at ht
  exact ht.elim (h.taken t) (h.pending t)

theorem InText.settle (h : r.InText) : r.settle.InText :=
  ⟨h.tokens, h.pending, by simp [Reader.settle]⟩

/-- A token is taken from its place in the text, and an error is at one of its characters. -/
theorem InText.next {x : Except ReadError Token} (h : r.InText) (hnext : r.next = (x, s)) :
    s.InText ∧ ∀ e, x = .error e → s.source.Points e.place := by
  unfold Reader.next at hnext
  split at hnext
  next t pending hp =>
    cases hnext
    have hpending := h.pending
    rw [hp, List.forall_mem_cons] at hpending
    exact ⟨⟨h.tokens, hpending.2, List.forall_mem_cons.2 ⟨hpending.1, h.taken⟩⟩, by rintro _ ⟨⟩⟩
  next hp =>
    obtain ⟨htokens, hreports⟩ := h.tokens.next
    obtain ⟨lines, htakes⟩ := TokenStream.takes_scan .gap r.tokens
    change r.tokens.source.Takes lines r.tokens.next.2.source at htakes
    have htaken : ∀ t ∈ r.taken, TokenStream.Stands r.tokens.next.2.source t :=
      fun t ht => (h.taken t ht).takes htakes
    split at hnext
    next t tokens hn =>
      cases hnext
      rw [hn] at htokens hreports htaken
      exact ⟨⟨htokens, by simp [hp], List.forall_mem_cons.2 ⟨hreports, htaken⟩⟩, by rintro _ ⟨⟩⟩
    next e tokens hn =>
      cases hnext
      rw [hn] at htokens hreports htaken
      exact ⟨⟨htokens, by simp [hp], htaken⟩, by rintro _ ⟨⟩; exact hreports⟩

/-- An answer of a reader that stands in the text: so does the reader again, the value of the answer
fits the lines that have been read, and an error is reported in them or where input ends. -/
structure Tells {α ε : Type} (Fits : LineReader → α → Prop)
    (p : Except (Located ε) α × Reader LineReader) : Prop where
  reader : p.2.InText
  value : ∀ a, p.1 = .ok a → Fits p.2.source a
  error : ∀ e, p.1 = .error e → p.2.source.Marks e.place

theorem Tells.ofOk {α ε : Type} {Fits : LineReader → α → Prop} {a : α} (hs : s.InText)
    (ha : Fits s.source a) : Tells (ε := ε) Fits (.ok a, s) :=
  ⟨hs, by rintro _ ⟨⟩; exact ha, by rintro _ ⟨⟩⟩

theorem Tells.ofError {α ε : Type} {Fits : LineReader → α → Prop} {e : Located ε} (hs : s.InText)
    (he : s.source.Marks e.place) : Tells Fits (.error e, s) :=
  ⟨hs, by rintro _ ⟨⟩, by rintro _ ⟨⟩; exact he⟩

def FitsDatum (source : LineReader) (d : Datum) : Prop := d.Within source.Points

def FitsAnswer (source : LineReader) (x : Option Datum) : Prop := ∀ d ∈ x, FitsDatum source d

/-- The reading in progress agrees with the tokens taken. The induction is on the attempt. -/
theorem InText.resume (h : r.InText) (hr : Reading.Reached r.reading r.taken.reverse) :
    Tells FitsDatum r.resume := by
  fun_induction Reader.resume r with
  | case1 r e s hnext =>
    obtain ⟨hs, herror⟩ := h.next hnext
    exact .ofError hs.giveBack (.inl (herror e rfl))
  | case2 r t s hnext g hg ih =>
    obtain ⟨hs, -⟩ := h.next hnext
    have hmove := Reading.take_follows hr t
    rw [hg] at hmove
    have htaken : s.taken.reverse = r.taken.reverse ++ [t] := by simp [(next_ok hnext).1]
    exact ih ⟨hs.tokens, hs.pending, hs.taken⟩ (by rw [htaken]; exact hmove)
  | case3 r t s hnext d hd =>
    obtain ⟨hs, -⟩ := h.next hnext
    have hmove := Reading.take_follows hr t
    rw [hd] at hmove
    obtain ⟨n, -, hspells⟩ := hmove
    have htaken : s.taken.reverse = r.taken.reverse ++ [t] := by simp [(next_ok hnext).1]
    rw [← htaken] at hspells
    exact .ofOk hs.settle (hspells.within fun u hu =>
      (hs.taken u (List.mem_reverse.1 hu)).points (hspells.ne_eof hu))
  | case4 r t s hnext e he =>
    obtain ⟨hs, -⟩ := h.next hnext
    have hplace := r.reading.take_failsAt t
    rw [he] at hplace
    have hmarks := (hs.taken t (by simp [(next_ok hnext).1])).marks
    rw [← show e.place = t.place from hplace] at hmarks
    exact .ofError hs.giveBack hmarks

theorem InText.peek (h : r.InText) : Tells TokenStream.Stands r.peek := by
  unfold Reader.peek
  split
  next t pending hp => exact .ofOk h (h.pending t (by simp [hp]))
  next hp =>
    obtain ⟨htokens, hreports⟩ := h.tokens.next
    obtain ⟨lines, htakes⟩ := TokenStream.takes_scan .gap r.tokens
    change r.tokens.source.Takes lines r.tokens.next.2.source at htakes
    have htaken : ∀ t ∈ r.taken, TokenStream.Stands r.tokens.next.2.source t :=
      fun t ht => (h.taken t ht).takes htakes
    split
    next t tokens hn =>
      rw [hn] at htokens hreports htaken
      exact .ofOk ⟨htokens, List.forall_mem_singleton.2 hreports, htaken⟩ hreports
    next e tokens hn =>
      rw [hn] at htokens hreports htaken
      exact .ofError ⟨htokens, by simp [hp], htaken⟩ (.inl hreports)

theorem InText.atEnd (h : r.InText) : Tells (fun _ _ => True) r.atEnd := by
  have hpeek := h.peek
  unfold Reader.atEnd
  split
  next hp => rw [hp] at hpeek; exact .ofOk hpeek.reader trivial
  next e s hp => rw [hp] at hpeek; exact .ofError hpeek.reader (hpeek.error e rfl)

/-- An expression has its places in the lines that have been read, and so does an error. -/
theorem InText.read? (h : r.InText) (hidle : r.Idle) : Tells FitsAnswer r.read? := by
  have hend := h.atEnd
  have hidle' := idle_atEnd hidle
  unfold Reader.read?
  split
  next e s hp => rw [hp] at hend; exact .ofError hend.reader (hend.error e rfl)
  next hp => rw [hp] at hend; exact .ofOk hend.reader (by simp [FitsAnswer])
  next s hp =>
    rw [hp] at hend hidle'
    have hreached : Reading.Reached s.reading s.taken.reverse := by
      rw [hidle'.reading, hidle'.taken]
      exact Reading.reached_start
    have hread : Tells FitsDatum s.read := hend.reader.resume hreached
    split
    next e s' hr => rw [hr] at hread; exact .ofError hread.reader (hread.error e rfl)
    next d s' hr =>
      rw [hr] at hread
      exact .ofOk hread.reader (by simpa [FitsAnswer] using hread.value d rfl)

/-- Text behind an expression is reported where its first token stands or where it is wrong. -/
theorem InText.readLine? (h : r.InText) (hidle : r.Idle) : Tells FitsAnswer r.readLine? := by
  have hread := h.read? hidle
  unfold Reader.readLine?
  split
  next e s hr => rw [hr] at hread; exact .ofError hread.reader (hread.error e rfl)
  next hr => rw [hr] at hread; exact .ofOk hread.reader (by simp [FitsAnswer])
  next d s hr =>
    rw [hr] at hread
    split
    next => exact .ofOk hread.reader (hread.value _ rfl)
    next =>
      have hpeek := hread.reader.peek
      split
      next t s' hp => rw [hp] at hpeek; exact .ofError hpeek.reader (hpeek.value t rfl).marks
      next e s' hp => rw [hp] at hpeek; exact .ofError hpeek.reader (hpeek.error e rfl)

end Reader
end Lisplet
