import Lisplet.Proofs.Datum.Standard

/-!
The places in a datum: its own, those of its parts, and those in the body of a
function. A datum that is read has its places from the tokens that spell it.
-/
namespace Lisplet

namespace Datum

mutual

/-- All places in the datum, its own first. -/
def places : Datum → List Place
  | quote p inner => p :: places inner
  | list p items => p :: placesAll items
  | func p _ _ body => p :: places body
  | nil p | type p _ | bool p _ | int p _ | str p _ | ident p _ | builtin p _ => [p]

def placesAll : List Datum → List Place
  | [] => []
  | d :: ds => places d ++ placesAll ds

end

theorem placesAll_eq_flatMap (ds : List Datum) : placesAll ds = ds.flatMap places := by
  induction ds with
  | nil => rfl
  | cons d ds ih => rw [placesAll, ih, List.flatMap_cons]

theorem place_mem_places (d : Datum) : d.place ∈ d.places := by
  cases d <;> exact List.mem_cons_self

def Within (P : Place → Prop) (d : Datum) : Prop := ∀ p ∈ d.places, P p

variable {P Q : Place → Prop} {d : Datum}

theorem Within.place (h : d.Within P) : P d.place := h _ d.place_mem_places

theorem Within.mono (h : d.Within P) (hPQ : ∀ p, P p → Q p) : d.Within Q :=
  fun p hp => hPQ p (h p hp)

end Datum

mutual

/-- Every place in a datum is that of one of its tokens. -/
theorem Spells.places_subset : ∀ {n : Nat} {ts : List Token} {d : Datum}, Spells n ts d →
    d.places ⊆ ts.map Token.place
  | _, _, _, .nil _ | _, _, _, .bool _ | _, _, _, .int _ _ | _, _, _, .str _ | _, _, _, .ident _ =>
    List.Subset.refl _
  | _, _, _, .type _ _ => List.cons_subset_cons _ (List.nil_subset _)
  | _, _, _, .quote _ h => List.cons_subset_cons _ h.places_subset
  | _, _, _, .list _ h _ => by
    rw [List.map_cons, List.map_append]
    exact List.cons_subset_cons _ (List.subset_append_of_subset_left _ h.placesAll_subset)

theorem SpellsAll.placesAll_subset : ∀ {n : Nat} {ts : List Token} {ds : List Datum},
    SpellsAll n ts ds → Datum.placesAll ds ⊆ ts.map Token.place
  | _, _, _, .nil => List.Subset.refl _
  | _, _, _, .cons h hs => by
    rw [List.map_append, Datum.placesAll]
    exact List.append_subset.2 ⟨List.subset_append_of_subset_left _ h.places_subset,
      List.subset_append_of_subset_right _ hs.placesAll_subset⟩

end

/-- What holds of the places of the tokens holds of all places in the datum that they spell. -/
theorem Spells.within {n : Nat} {ts : List Token} {d : Datum} {P : Place → Prop}
    (h : Spells n ts d) (hP : ∀ t ∈ ts, P t.place) : d.Within P := by
  intro p hp
  obtain ⟨t, ht, rfl⟩ := List.mem_map.1 (h.places_subset hp)
  exact hP t ht

end Lisplet
