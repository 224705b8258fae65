import Lisplet.Proofs.Grammar.Derives
import Lisplet.Proofs.Reading.Reached

/-!
Where a reading can go. The tokens of a reading that is not over can always be
completed to an expression, since every open form can be filled and closed, so
they are no expression themselves. A reading that is given all tokens of an
expression is over with them, or before.
-/
namespace Lisplet

/-- One more item of a list. -/
theorem Derives.concat_expr {m n : Nat} {ls ms : List Lexeme} (h : Derives .exprs m ls)
    (h' : Derives .expr n ms) : Derives .exprs (max m n) (ls ++ ms) := by
  generalize hp : Phrase.exprs = p at h
  induction h with
  | none => simpa using Derives.more h' .none
  | more h _ _ ih =>
    rw [List.append_assoc, Nat.max_assoc]
    exact .more h (ih hp)
  | _ => cases hp

namespace Reading

/-- Lexemes that make a phrase of the kind `p` can be completed to one of the kind `q` behind these
tokens. -/
def Completes (q p : Phrase) (ts : List Token) : Prop :=
  ∀ n ls, Derives p n ls → ∃ m closing, Derives q m (ts.map Token.lexeme ++ (ls ++ closing))

/-- An expression fills the innermost form, and then every form can be closed. -/
theorem Opened.completes {stack : List OpenForm} {ts : List Token} (h : Opened stack ts) :
    Completes .expr .expr ts := by
  induction h with
  | nil => exact fun n ls h => ⟨n, [], by simpa using h⟩
  | quote _ ht ih =>
    intro n ls h
    obtain ⟨m, closing, hm⟩ := ih _ _ (.quote h)
    exact ⟨m, closing, by simpa [ht] using hm⟩
  | list _ ht hitems _ ih =>
    intro n ls h
    obtain ⟨m, closing, hm⟩ := ih _ _ (.list (hitems.derives.1.concat_expr h))
    exact ⟨m, .rparen :: closing, by simpa [ht] using hm⟩

/-- Types that are open can be closed with a type in the innermost of them. -/
theorem OpenedTypes.completes {base : Nat} {types : List OpenType} {ts : List Token}
    (h : OpenedTypes base types ts) : Completes .type .type ts := by
  induction h with
  | nil => exact fun n ls h => ⟨n, [], by simpa using h⟩
  | quoted _ ht ih =>
    intro n ls h
    obtain ⟨m, closing, hm⟩ := ih _ _ (.quoted h)
    exact ⟨m, closing, by simpa [ht] using hm⟩
  | listOf _ ht ih =>
    intro n ls h
    obtain ⟨m, closing, hm⟩ := ih _ _ (.listOf h)
    exact ⟨m, .rbracket :: closing, by simpa [ht] using hm⟩
  | group _ ht ih =>
    intro n ls h
    obtain ⟨m, closing, hm⟩ := ih _ _ (.group (.one h))
    exact ⟨m, .rparen :: closing, by simpa [ht] using hm⟩
  | member _ ht hmembers hb _ ih =>
    intro n ls h
    obtain ⟨m, closing, hm⟩ := ih _ _ (.group (hmembers.derives.1.concat h))
    exact ⟨m, .rparen :: closing, by simpa [ht, hb] using hm⟩

/-- Whatever has to come next in a type, it is at least one token. -/
theorem OpenedGoal.completable {base : Nat} {types : List OpenType} {goal : TypeGoal}
    {ts : List Token} (h : OpenedGoal base types goal ts) :
    ∃ n more, more ≠ [] ∧ Derives .type n (ts.map Token.lexeme ++ more) := by
  cases h with
  | type htypes =>
    obtain ⟨n, closing, hn⟩ := htypes.completes _ _ (.atom (a := .nil))
    exact ⟨n, _, by simp, hn⟩
  | name htypes hq =>
    obtain ⟨n, closing, hn⟩ := htypes.completes _ [.question, .ident ""] .infer
    exact ⟨n, .ident "" :: closing, by simp, by simpa [hq] using hn⟩
  | bracket htypes hl hinner =>
    obtain ⟨n, closing, hn⟩ := htypes.completes _ _ (.listOf hinner.derives.1)
    exact ⟨n, .rbracket :: closing, by simp, by simpa [hl] using hn⟩
  | paren htypes hl hmembers =>
    obtain ⟨n, closing, hn⟩ := htypes.completes _ _ (.group hmembers.derives.1)
    exact ⟨n, .rparen :: closing, by simp, by simpa [hl] using hn⟩

/-- Wherever a reading has come to, tokens may follow that complete it. -/
theorem Reached.completable {g : Reading} {ts : List Token} (h : Reached g ts) :
    ∃ n more, more ≠ [] ∧ Derives .expr n (ts.map Token.lexeme ++ more) := by
  cases h with
  | expr hs =>
    obtain ⟨n, closing, hn⟩ := hs.completes _ _ (.value (l := .atom .nil) rfl)
    exact ⟨n, _, by simp, hn⟩
  | inType hs ht hgoal =>
    obtain ⟨m, more, hne, hm⟩ := hgoal.completable
    obtain ⟨n, closing, hn⟩ := hs.completes _ _ (.literal hm)
    exact ⟨n, more ++ closing, by simp [hne], by simpa [ht] using hn⟩

/-- After all tokens of an expression a reading is over. -/
theorem feed_ne_more_of_derives {n : Nat} {ts : List Token} {g : Reading}
    (h : Derives .expr n (ts.map Token.lexeme)) : feed (.more start) ts ≠ (.more g, []) := by
  intro hfeed
  obtain ⟨ws, hws, hreached⟩ := feed_follows (m := .more start) reached_start hfeed
  obtain rfl : ws = ts := by simpa using hws.symm
  obtain ⟨m, more, hne, hm⟩ := Reached.completable hreached
  rw [List.nil_append] at hm
  obtain ⟨heq, -⟩ := h.eq_of_begins hm (List.prefix_append ..)
  exact hne (by simpa using heq)

end Reading
end Lisplet
