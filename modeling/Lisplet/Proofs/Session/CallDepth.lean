import Lisplet.Proofs.RoundTrip
import Lisplet.Proofs.Session.Discipline

/-!
How deep the calls of what was read can nest. The reader admits 128 levels, and
the innermost call needs one more of them for its head; so calls nest at most
127 deep in what was read. A function that can be called was made inside another
form, two levels down at least, and its body has room for 125. In between, it is
only the bodies of functions that let calls nest deeper than they are written.
-/
namespace Lisplet

namespace Datum

mutual

/-- How deep calls are written inside one another in a datum, where every list that is not empty
is taken for a call. -/
def callLevels : Datum → Nat
  | list _ (d :: ds) => max (callLevels d) (callLevelsAll ds) + 1
  | _ => 0

def callLevelsAll : List Datum → Nat
  | [] => 0
  | d :: ds => max (callLevels d) (callLevelsAll ds)

end

theorem callLevels_le_all {d : Datum} {ds : List Datum} (h : d ∈ ds) :
    d.callLevels ≤ callLevelsAll ds := by
  induction ds with
  | nil => cases h
  | cons e ds ih =>
    rw [callLevelsAll]
    rcases List.mem_cons.1 h with rfl | h
    · omega
    · have hle := ih h
      omega

theorem callLevels_lt_list {p : Place} {items : List Datum} {d : Datum} (h : d ∈ items) :
    d.callLevels < (list p items).callLevels := by
  have hle := callLevels_le_all h
  cases items with
  | nil => cases h
  | cons e es => exact Nat.lt_succ_of_le hle

theorem one_le_callLevels {d : Datum} (h : d.isCall = true) : 1 ≤ d.callLevels := by
  obtain ⟨p, head, args, rfl⟩ := exists_of_isCall h
  exact Nat.succ_pos _

/-- A datum that was read, by whatever reader. -/
def Parsed (d : Datum) : Prop :=
  ∃ (σ : Type) (_ : Source σ) (r s : Reader σ), r.Idle ∧ r.read = (.ok d, s)

end Datum

mutual

/-- The innermost call is a level above its head. -/
theorem Spells.callLevels_lt : ∀ {n : Nat} {ts : List Token} {d : Datum}, Spells n ts d →
    d.callLevels < n
  | _, _, _, .nil _ | _, _, _, .bool _ | _, _, _, .int _ _ | _, _, _, .str _
  | _, _, _, .ident _ | _, _, _, .type _ _ | _, _, _, .quote _ _ => by
    simp [Datum.callLevels]
  | _, _, .list _ [], .list _ _ _ => by simp [Datum.callLevels]
  | _, _, .list _ (d :: ds), .list _ h _ => Nat.succ_lt_succ (h.callLevelsAll_lt (by simp))

/-- Calls nest less deep than what spells them, since every call is a list. -/
theorem SpellsAll.callLevelsAll_lt : ∀ {n : Nat} {ts : List Token} {ds : List Datum},
    SpellsAll n ts ds → ds ≠ [] → Datum.callLevelsAll ds < n
  | _, _, _, .nil, hne => absurd rfl hne
  | _, _, [_], .cons h _, _ => by
    have hd := h.callLevels_lt
    simp only [Datum.callLevelsAll]
    omega
  | _, _, _ :: _ :: _, .cons h hs, _ => by
    have hd := h.callLevels_lt
    have hds := hs.callLevelsAll_lt (by simp)
    rw [Datum.callLevelsAll]
    omega

end

/-- What can be read is what can be spelled within the limit. -/
theorem Datum.parsed_iff {d : Datum} :
    d.Parsed ↔ ∃ n ≤ maxNesting, ∃ ts, Spells n ts d := by
  constructor
  · rintro ⟨σ, _, r, s, hidle, hread⟩
    have hends := Reader.ends_read hidle
    rw [hread] at hends
    obtain ⟨-, n, hn, ts, hspells, -⟩ := hends
    exact ⟨n, hn, ts, hspells⟩
  · rintro ⟨n, hn, ts, hspells⟩
    let r : Reader LineReader := { tokens := { source := .ofText "" }, pending := ts }
    obtain ⟨s, hread, -⟩ := Reader.read_of_spells (r := r) ⟨rfl, rfl⟩ rfl hspells hn
    exact ⟨LineReader, _, r, s, ⟨rfl, rfl⟩, hread⟩

/-- In what can be read there is no function, and calls nest at most 127 deep. -/
theorem Datum.Parsed.callLevels_le {d : Datum} (h : d.Parsed) :
    d.functionFree = true ∧ d.callLevels ≤ 127 := by
  obtain ⟨n, hn, ts, hspells⟩ := Datum.parsed_iff.1 h
  exact ⟨hspells.functionFree, Nat.le_of_lt_succ (Nat.lt_of_lt_of_le hspells.callLevels_lt hn)⟩

namespace Activation

def calls (st : List Activation) : Nat := st.countP isCall

def bodies (st : List Activation) : Nat := st.countP isBody

theorem calls_cons_le (a : Activation) (rest : List Activation) :
    calls (a :: rest) ≤ calls rest + a.datum.callLevels := by
  rw [calls, List.countP_cons]
  split
  next hcall => exact Nat.add_le_add_left (Datum.one_le_callLevels hcall) _
  next => exact Nat.le_add_right _ _

/-- An activation of what can be read, or of a part of it, on the ones around it. The two innermost
levels may be missing where a function is made, so what may be evaluated there has 125 levels. -/
structure Nests (a : Activation) (rest : List Activation) : Prop where
  free : a.datum.functionFree = true
  levels : a.datum.callLevels + min rest.length 2 ≤ 127
  room : calls rest + a.datum.callLevels ≤ 127 + 125 * bodies (a :: rest)

/-- A part of a call is a level inside it. -/
theorem Nests.part {a : Activation} {rest : List Activation} {p : Place} {items : List Datum}
    {e : Datum} (h : a.Nests rest) (ha : a.datum = .list p items) (he : e ∈ items) :
    Nests ⟨e, false⟩ (a :: rest) := by
  have hlt : e.callLevels < a.datum.callLevels := ha ▸ Datum.callLevels_lt_list he
  refine ⟨?_, ?_, ?_⟩
  · have hfree := h.free
    rw [ha, Datum.functionFree, Datum.functionFreeAll_iff] at hfree
    exact hfree e he
  · have hlevels := h.levels
    simp only [List.length_cons]
    omega
  · have hroom := h.room
    have hone : calls (a :: rest) ≤ calls rest + 1 := by
      rw [calls, calls, List.countP_cons]
      split <;> omega
    have hbodies : bodies (⟨e, false⟩ :: a :: rest) = bodies (a :: rest) := rfl
    rw [hbodies]
    simp only
    omega

theorem Nests.item {rest : List Activation} {p : Place} {items : List Datum} {e : Datum}
    (h : Nests ⟨.list p items, false⟩ rest) (he : e ∈ items) : Nests ⟨e, false⟩ rest := by
  have hlt : e.callLevels < (Datum.list p items).callLevels := Datum.callLevels_lt_list he
  refine ⟨?_, ?_, ?_⟩
  · have hfree := h.free
    rw [Datum.functionFree, Datum.functionFreeAll_iff] at hfree
    exact hfree e he
  · exact Nat.le_trans (Nat.add_le_add_right (Nat.le_of_lt hlt) _) h.levels
  · exact Nat.le_trans (Nat.add_le_add_left (Nat.le_of_lt hlt) _) h.room

theorem Nests.calls_le {a : Activation} {rest : List Activation} (h : a.Nests rest) :
    calls (a :: rest) ≤ 127 + 125 * bodies (a :: rest) :=
  Nat.le_trans (calls_cons_le a rest) h.room

/-- A body of a function begins to nest anew. -/
theorem Nests.body {a : Activation} {rest : List Activation} {e : Datum} (h : a.Nests rest)
    (hfree : e.functionFree = true) (hlevels : e.callLevels ≤ 125) :
    Nests ⟨e, true⟩ (a :: rest) := by
  refine ⟨hfree, ?_, ?_⟩
  · have hmin : min (a :: rest).length 2 ≤ 2 := Nat.min_le_right _ _
    simp only
    omega
  · have hcalls := h.calls_le
    have hbodies : bodies (⟨e, true⟩ :: a :: rest) = bodies (a :: rest) + 1 :=
      List.countP_cons_of_pos rfl
    rw [hbodies]
    simp only
    omega

/-- Where a function is made inside another form, its body has room for two levels around it. -/
theorem Nests.bodied {a b : Activation} {rest : List Activation} (h : a.Nests (b :: rest))
    (hne : rest ≠ []) : a.datum.functionFree = true ∧ a.datum.callLevels ≤ 125 := by
  have hlevels := h.levels
  have hlength := List.length_pos_iff.2 hne
  rw [List.length_cons, Nat.min_eq_right (Nat.succ_le_succ hlength)] at hlevels
  exact ⟨h.free, Nat.le_of_add_le_add_right hlevels⟩

end Activation

/-- Only what can be read is evaluated, and so functions have bodies of at most 125 levels. -/
def Discipline.nesting : Discipline where
  stack := Activation.Innermost Activation.Nests
  value := Datum.Bindable (fun e => e.functionFree = true ∧ e.callLevels ≤ 125)
    (·.functionFree = true)
  result rest v := rest ≠ [] →
    v.Bindable (fun e => e.functionFree = true ∧ e.callLevels ≤ 125) (·.functionFree = true)
  part h ha he := h.part ha he
  item h he := h.item he
  body h _ he := h.body he.1 he.2
  constant h _ _ := Datum.bindable_of_functionFree h.free h.free
  quote {a rest p d} h ha _ := by
    have hfree := h.free
    rw [ha] at hfree
    exact Datum.bindable_of_functionFree hfree hfree
  func _ _ h hne := h.bodied hne
  result_of_value rest h _ := h
  value_of_result h := h (List.cons_ne_nil _ _)
  builtin h := h
  nil _ := rfl
  bool _ _ := rfl
  int _ _ := rfl
  typeOf _ _ := rfl
  named name h := h.named name

namespace Session

open Activation

theorem nests_of_parsed {d : Datum} (h : d.Parsed) :
    d.standard = true ∧ Discipline.nesting.stack [⟨d, false⟩] := by
  obtain ⟨hfree, hlevels⟩ := h.callLevels_le
  exact ⟨Datum.standard_of_functionFree d hfree, hfree, hlevels,
    by simpa [calls, bodies] using hlevels⟩

theorem settled_evalEach_fresh {before : List Datum} (h : ∀ d ∈ before, d.Parsed) :
    (fresh.evalEach before).Settled ∧
      (fresh.evalEach before).state.scopes.Values Discipline.nesting.value :=
  values_evalEach settled_fresh (Scopes.values_withBuiltins fun _ hb => hb)
    fun d hd => nests_of_parsed (h d hd)

/-- When what was read is evaluated in a session that has evaluated only what was read, the calls
in progress are never more than one text can nest, and 125 for each function whose body is being
evaluated. The limit, which is below 127 + 125 + 125, is therefore met only inside the bodies of two
functions. -/
theorem calls_le_of_parsed {before : List Datum} {d : Datum} (hbefore : ∀ e ∈ before, e.Parsed)
    (hd : d.Parsed) :
    let s := fresh.evalEach before
    let w := Eval.watched d s.state
    ((s.eval d).1 = w.1 ∧ (s.eval d).2.state = w.2.forget) ∧
    (∀ st ∈ w.2.scopes.chains, calls st ≤ 127 + 125 * bodies st) ∧
    ∀ place, (s.eval d).1 = .error ⟨.tooDeep, place⟩ → ∃ a rest chains,
      w.2.scopes.chains = (a :: rest) :: chains ∧ a.isCall = true ∧ a.datum.place = place ∧
        calls (a :: rest) = 257 ∧ 2 ≤ bodies (a :: rest) := by
  intro s w
  obtain ⟨hs, hv⟩ := settled_evalEach_fresh hbefore
  obtain ⟨hstandard, hstack⟩ := nests_of_parsed hd
  have hends := ends_eval hs hv hstack
  have hfits := (Discipline.within_of_ends hends).chains
  have hwatched := eval_watched hs hstandard
  have hle : ∀ st ∈ w.2.scopes.chains, calls st ≤ 127 + 125 * bodies st := by
    intro st hst
    cases st with
    | nil => exact Nat.zero_le _
    | cons a rest => exact (hfits (a :: rest) hst).stack.calls_le
  refine ⟨hwatched, hle, ?_⟩
  intro place hplace
  obtain ⟨a, rest, chains, hchains, hfull, hcall, ha⟩ :=
    Discipline.exists_of_tooDeep hends (hwatched.1.symm.trans hplace)
  have hmem : a :: rest ∈ w.2.scopes.chains := hchains ▸ List.mem_cons_self
  have hcalls : calls (a :: rest) = 257 := by
    have hall := List.countP_eq_length.2 (List.forall_mem_cons.2 ⟨hcall, (hfits _ hmem).calls⟩)
    exact hall.trans hfull
  have hbound := hle _ hmem
  exact ⟨a, rest, chains, hchains, hcall, ha, hcalls, by omega⟩

/-- A function that calls itself once for every call there is room for. -/
theorem calls_le_of_parsed_runaway :
    let define : Datum := .list ⟨0, 0⟩ [.ident ⟨0, 1⟩ "set", .ident ⟨0, 5⟩ "f",
      .list ⟨0, 7⟩ [.ident ⟨0, 8⟩ "lambda", .list ⟨0, 15⟩ [],
        .list ⟨0, 18⟩ [.ident ⟨0, 19⟩ "f"]]]
    let d : Datum := .list ⟨1, 0⟩ [.ident ⟨1, 1⟩ "f"]
    let s := fresh.evalEach [define]
    (define.Parsed ∧ d.Parsed) ∧ (s.eval d).1 = .error ⟨.tooDeep, ⟨0, 18⟩⟩ ∧
      ∃ st ∈ (Eval.watched d s.state).2.scopes.chains, calls st = 257 ∧ 2 ≤ bodies st := by
  intro define d s
  have hf : ∀ p q r : Place,
      Spells 2 [⟨.lparen, p⟩, ⟨.ident "f", q⟩, ⟨.rparen, r⟩] (.list p [.ident q "f"]) :=
    fun p q r => .list (l := ⟨.lparen, p⟩) (r := ⟨.rparen, r⟩) rfl
      (.cons (.ident (t := ⟨.ident "f", q⟩) rfl) .nil) rfl
  have hlambda : Spells 3 _ (.list ⟨0, 7⟩ [.ident ⟨0, 8⟩ "lambda", .list ⟨0, 15⟩ [],
      .list ⟨0, 18⟩ [.ident ⟨0, 19⟩ "f"]]) :=
    .list (l := ⟨.lparen, ⟨0, 7⟩⟩) (r := ⟨.rparen, ⟨0, 21⟩⟩) rfl
      (.cons (.ident (t := ⟨.ident "lambda", ⟨0, 8⟩⟩) rfl)
        (.cons (.list (l := ⟨.lparen, ⟨0, 15⟩⟩) (r := ⟨.rparen, ⟨0, 16⟩⟩) rfl .nil rfl)
          (.cons (hf ⟨0, 18⟩ ⟨0, 19⟩ ⟨0, 20⟩) .nil))) rfl
  have hdefine : Spells 4 _ define :=
    .list (l := ⟨.lparen, ⟨0, 0⟩⟩) (r := ⟨.rparen, ⟨0, 22⟩⟩) rfl
      (.cons (.ident (t := ⟨.ident "set", ⟨0, 1⟩⟩) rfl)
        (.cons (.ident (t := ⟨.ident "f", ⟨0, 5⟩⟩) rfl) (.cons hlambda .nil))) rfl
  have hparsed : define.Parsed ∧ d.Parsed :=
    ⟨Datum.parsed_iff.2 ⟨4, by decide, _, hdefine⟩,
      Datum.parsed_iff.2 ⟨2, by decide, _, hf ⟨1, 0⟩ ⟨1, 1⟩ ⟨1, 2⟩⟩⟩
  have hbefore : ∀ e ∈ [define], e.Parsed := by simpa using hparsed.1
  obtain ⟨-, -, hdeep⟩ := calls_le_of_parsed hbefore hparsed.2
  obtain ⟨hs, hv⟩ := settled_evalEach_fresh hbefore
  obtain ⟨hstandard, hstack⟩ := nests_of_parsed hparsed.2
  have hfull := (Discipline.tooDeep_iff (ends_eval hs hv hstack) ⟨0, 18⟩).2 (by decide +kernel)
  have herror : (s.eval d).1 = .error ⟨.tooDeep, ⟨0, 18⟩⟩ :=
    (eval_watched hs hstandard).1.trans hfull
  obtain ⟨a, rest, chains, hchains, -, -, hcalls, hbodies⟩ := hdeep ⟨0, 18⟩ herror
  refine ⟨hparsed, herror, a :: rest, ?_, hcalls, hbodies⟩
  rw [hchains]
  exact List.mem_cons_self

end Session
end Lisplet
