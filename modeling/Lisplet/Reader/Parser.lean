import Lisplet.Reader
import Mathlib.Data.Nat.PSub

/-!
A parser over put-back tokens, and what productions are made of. A production
marks how many tokens have been consumed when it begins, and if it fails it puts
back all that came after the mark. What is being read is counted, up to
`maxNesting`. Whatever could be out of bounds is checked: the index of a token
that was put back, a mark, and the count when it is lowered. If a check fails
then there is no result at all.
-/
namespace Lisplet

namespace Token

def text (t : Token) : String := t.lexeme.text?.getD ""

end Token

structure Parser (σ : Type) where
  tokens : TokenStream σ
  /-- Tokens that were put back, the next one last. -/
  restore : List Token := []
  /-- Tokens taken for the expression that is being read, in order. -/
  consumed : List Token := []
  /-- How many expressions and types are being read. -/
  nesting : Nat := 0

/-- A result with the parser that is left, or nothing if a check fails. -/
abbrev Parse (σ : Type) := ExceptT ReadError (StateT (Parser σ) Option)

namespace Parser

variable {σ α β : Type}

def ofSource (source : σ) : Parser σ := { tokens := { source } }

/-- The last of the tokens that were put back, looked up by its index. -/
def lastRestored? (s : Parser σ) : Option Token :=
  s.restore.length.ppred.bind fun i => s.restore[i]?

/-- Put back what was consumed after a mark. -/
def putBack? (s : Parser σ) (mark : Nat) : Option (Parser σ) :=
  if mark ≤ s.consumed.length then
    some { s with
      consumed := s.consumed.take mark
      restore := s.restore ++ (s.consumed.drop mark).reverse }
  else none

/-- Run a production. If it fails, every token that it consumed is put back. -/
def production (p : Parse σ α) : Parse σ α := fun s => do
  match ← p s with
  | (.ok a, s') => return (.ok a, s')
  | (.error e, s') => return (.error e, ← s'.putBack? s.consumed.length)

variable [Source σ]

def left (s : Parser σ) : Nat :=
  s.tokens.left + s.restore.countP fun t => t.lexeme ≠ .eof

def peek : Parse σ Token := fun s =>
  if s.restore.isEmpty then
    match s.tokens.next with
    | (.ok t, tokens) =>
      let s' := { s with tokens, restore := [t] }
      s'.lastRestored?.map fun t => (.ok t, s')
    | (.error e, tokens) => some (.error (e.map .scan), { s with tokens })
  else s.lastRestored?.map fun t => (.ok t, s)

def atEnd : Parse σ Bool := do
  let t ← peek
  return t.kind = .eof

def atLineEnd (s : Parser σ) : Bool := s.restore.isEmpty && s.tokens.atLineEnd

/-- Take the next token, one that was put back first. -/
def next : Parse σ Token := fun s =>
  match s.restore.getLast? with
  | some t =>
    some (.ok t, { s with restore := s.restore.dropLast, consumed := s.consumed ++ [t] })
  | none =>
    match s.tokens.next with
    | (.ok t, tokens) => some (.ok t, { s with tokens, consumed := s.consumed ++ [t] })
    | (.error e, tokens) => some (.error (e.map .scan), { s with tokens })

def refuse : Parse σ α := do
  let t ← peek
  throw ⟨.tooDeep, t.place⟩

/-- Run one level deeper, if there is room for another level. -/
def nested (p : Parse σ α) : Parse σ α := fun s =>
  if maxNesting ≤ s.nesting then refuse s
  else do
    let (x, s') ← p { s with nesting := s.nesting + 1 }
    return (x, { s' with nesting := ← s'.nesting.ppred })

def expectKind (kind : Kind) : Parse σ Token := do
  let t ← next
  if t.kind = kind then return t
  else throw ⟨.expectedKind kind, t.place⟩

def expectText (kind : Kind) (text : String) : Parse σ Token := do
  let t ← expectKind kind
  if t.text = text then return t
  else throw ⟨.expectedText text, t.place⟩

/-- Whenever it succeeds, at least so much less is left to be read. -/
def Lowers (n : Nat) (p : Parse σ α) : Prop :=
  ∀ ⦃s : Parser σ⦄ ⦃a : α⦄ ⦃s' : Parser σ⦄, p s = some (.ok a, s') → s'.left + n ≤ s.left

end Parser

/-- A production that takes something whenever it succeeds, so that a loop over it ends. -/
structure Production (σ α : Type) [Source σ] where
  run : Parse σ α
  lowers : Parser.Lowers 1 run

namespace Parser

variable {σ α β : Type}

theorem bind_run (p : Parse σ α) (f : α → Parse σ β) (s : Parser σ) :
    (p >>= f) s = (p s).bind fun
      | (.ok a, s') => f a s'
      | (.error e, s') => some (.error e, s') := by
  change (p s).bind (fun x => ExceptT.bindCont f x.1 x.2) = _
  congr 1
  funext ⟨x, s'⟩
  cases x <;> rfl

/-- A sequence that succeeds is one success and then another. -/
theorem bind_ok {p : Parse σ α} {f : α → Parse σ β} {s s' : Parser σ} {b : β}
    (h : (p >>= f) s = some (.ok b, s')) :
    ∃ a s₁, p s = some (.ok a, s₁) ∧ f a s₁ = some (.ok b, s') := by
  rw [bind_run] at h
  obtain ⟨⟨x, s₁⟩, hp, h⟩ := Option.bind_eq_some_iff.1 h
  cases x with
  | ok a => exact ⟨a, s₁, hp, h⟩
  | error e => cases h

theorem lastRestored?_eq (s : Parser σ) : s.lastRestored? = s.restore.getLast? := by
  rw [lastRestored?, List.getLast?_eq_getElem?]
  cases s.restore with
  | nil => rfl
  | cons t ts => rfl

variable [Source σ]

/-- The check of the index passes, since a token has just been put back if there was none. -/
theorem peek_run (s : Parser σ) :
    peek s = match s.restore.getLast? with
      | some t => some (.ok t, s)
      | none =>
        match s.tokens.next with
        | (.ok t, tokens) => some (.ok t, { s with tokens, restore := [t] })
        | (.error e, tokens) => some (.error (e.map .scan), { s with tokens }) := by
  simp only [peek, lastRestored?_eq]
  cases h : s.restore.getLast? with
  | none =>
    rw [List.getLast?_eq_none_iff.1 h]
    rfl
  | some t =>
    obtain ⟨ts, hts⟩ := List.getLast?_eq_some_iff.1 h
    simp [hts]

theorem left_scanned_le {ts tokens : TokenStream σ} {t : Token} (h : ts.next = (.ok t, tokens)) :
    tokens.left + [t].countP (fun t => t.lexeme ≠ .eof) ≤ ts.left := by
  by_cases heof : t.lexeme = .eof
  · have hle := ts.left_next_le
    rw [h] at hle
    simpa [heof] using hle
  · have hlt := ts.left_next_lt (by rw [h]) heof
    rw [h] at hlt
    simpa [heof, Nat.succ_le_iff] using hlt

theorem lowers_peek : Lowers 0 (peek : Parse σ Token) := by
  intro s t s' h
  rw [peek_run] at h
  split at h
  next => cases h; exact Nat.le_refl _
  next hs =>
    split at h
    next u tokens hn =>
      cases h
      simpa [left, List.getLast?_eq_none_iff.1 hs] using left_scanned_le hn
    next => cases h

/-- A token that is taken is not left any more. -/
theorem left_next_le {s s' : Parser σ} {t : Token} (h : next s = some (.ok t, s')) :
    s'.left + [t].countP (fun t => t.lexeme ≠ .eof) ≤ s.left := by
  unfold next at h
  split at h
  next u hu =>
    cases h
    obtain ⟨ts, hts⟩ := List.getLast?_eq_some_iff.1 hu
    simp [left, hts, Nat.add_assoc]
  next hs =>
    split at h
    next u tokens hn =>
      cases h
      simpa [left, List.getLast?_eq_none_iff.1 hs] using left_scanned_le hn
    next => cases h

theorem Lowers.zero {n : Nat} {p : Parse σ α} (h : Lowers n p) : Lowers 0 p := by
  intro s a s' hp
  have := h hp
  omega

theorem lowers_pure (a : α) : Lowers 0 (pure a : Parse σ α) := by
  intro s b s' h
  cases h
  exact Nat.le_refl _

theorem lowers_throw (n : Nat) (e : ReadError) : Lowers n (throw e : Parse σ α) := by
  intro s a s' h
  cases h

theorem Lowers.bind {n : Nat} {p : Parse σ α} {f : α → Parse σ β} (hp : Lowers n p)
    (hf : ∀ a, Lowers 0 (f a)) : Lowers n (p >>= f) := by
  intro s b s' h
  obtain ⟨a, s₁, ha, hb⟩ := bind_ok h
  exact Nat.le_trans (Nat.add_le_add_right (hf a hb) n) (hp ha)

theorem lowers_peek_bind {n : Nat} {f : Token → Parse σ α} (hf : ∀ t, Lowers n (f t)) :
    Lowers n (peek >>= f) := by
  intro s a s' h
  obtain ⟨t, s₁, ht, ha⟩ := bind_ok h
  exact Nat.le_trans (hf t ha) (lowers_peek ht)

/-- A production that fails may give back what it took, but then it owes nothing. -/
theorem Lowers.production {n : Nat} {p : Parse σ α} (hp : Lowers n p) :
    Lowers n (production p) := by
  intro s a s' h
  obtain ⟨⟨x, s₁⟩, hs, h⟩ := Option.bind_eq_some_iff.1 h
  cases x with
  | ok b => cases h; exact hp hs
  | error e =>
    obtain ⟨s₂, -, h⟩ := Option.bind_eq_some_iff.1 h
    cases h

theorem lowers_refuse (n : Nat) : Lowers n (refuse : Parse σ α) :=
  lowers_peek_bind fun _ => lowers_throw ..

theorem Lowers.nested {n : Nat} {p : Parse σ α} (hp : Lowers n p) : Lowers n (nested p) := by
  intro s a s' h
  unfold Parser.nested at h
  split at h
  next => exact lowers_refuse n h
  next =>
    obtain ⟨⟨x, s₁⟩, hs, h⟩ := Option.bind_eq_some_iff.1 h
    obtain ⟨m, -, h⟩ := Option.bind_eq_some_iff.1 h
    cases h
    have := hp hs
    exact this

/-- The end of input is no success, so a success takes something. -/
theorem lowers_next_bind {f : Token → Parse σ α} (heof : ∀ place, ∃ e, f ⟨.eof, place⟩ = throw e)
    (hf : ∀ t, Lowers 0 (f t)) : Lowers 1 (next >>= f) := by
  intro s a s' h
  obtain ⟨⟨lexeme, place⟩, s₁, ht, ha⟩ := bind_ok h
  have hnext := left_next_le ht
  have hrest := hf _ ha
  by_cases hl : lexeme = .eof
  · obtain ⟨e, he⟩ := heof place
    rw [hl, he] at ha
    cases ha
  · simp only [List.countP_singleton, ne_eq, hl, not_false_eq_true, decide_true, if_true] at hnext
    omega

theorem lowers_expectKind (kind : Kind) (h : kind ≠ .eof) :
    Lowers 1 (expectKind kind : Parse σ Token) := by
  apply lowers_next_bind (fun place => ⟨_, if_neg h.symm⟩)
  intro t
  split
  · exact lowers_pure t
  · exact lowers_throw ..

theorem lowers_expectText (kind : Kind) (text : String) (h : kind ≠ .eof) :
    Lowers 1 (expectText kind text : Parse σ Token) := by
  apply (lowers_expectKind kind h).bind
  intro t
  split
  · exact lowers_pure t
  · exact lowers_throw ..

end Parser
end Lisplet
