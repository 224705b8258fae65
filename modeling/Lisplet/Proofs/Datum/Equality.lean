import Lisplet.Proofs.Datum.Relocate
import Lisplet.Proofs.Datum.Written
import Lisplet.Proofs.Reader.Language

/-!
Equality of data and what is shown of them. Equal data are written alike and
have one type. For data that can be read the converse holds as well, at any
depth: the written form is scanned to the lexemes of the datum, and no two
shapes have the same lexemes, since a phrase ends where its own lexemes say so.
-/
namespace Lisplet

/-- Lexemes that a type begins with are its own only. -/
theorem Ty.eq_of_lexemes_append {s t : Ty} {rest rest' : List Lexeme}
    (h : s.lexemes ++ rest = t.lexemes ++ rest') : s = t ∧ rest = rest' := by
  induction s generalizing t rest rest' with
  | atom a =>
    cases t with
    | atom b => simpa [lexemes] using h
    | _ => simp [lexemes] at h
  | quoted s ih =>
    cases t with
    | quoted t =>
      obtain ⟨rfl, hrest⟩ := ih (List.cons.inj h).2
      exact ⟨rfl, hrest⟩
    | _ => simp [lexemes] at h
  | listOf s ih =>
    cases t with
    | listOf t =>
      rw [lexemes, lexemes, List.cons_append, List.cons_append, List.append_assoc,
        List.append_assoc] at h
      obtain ⟨rfl, hrest⟩ := ih (List.cons.inj h).2
      exact ⟨rfl, (List.cons.inj hrest).2⟩
    | _ => simp [lexemes] at h
  | infer name =>
    cases t with
    | infer name' => simpa [lexemes] using h
    | _ => simp [lexemes] at h
  | union l r ihl ihr =>
    cases t with
    | union l' r' =>
      simp only [lexemes, List.cons_append, List.append_assoc, List.cons.injEq, true_and] at h
      obtain ⟨rfl, hbar⟩ := ihl h
      obtain ⟨rfl, hrest⟩ := ihr (List.cons.inj hbar).2
      exact ⟨rfl, (List.cons.inj hrest).2⟩
    | _ => simp [lexemes] at h

namespace Datum

/-- What can be read does not begin with a closing parenthesis. -/
theorem lexemes_ne_rparen {d : Datum} (h : d.readable = true) (rest more : List Lexeme) :
    d.lexemes ++ rest ≠ .rparen :: more := by
  cases d <;> simp [lexemes, readable] at h ⊢

/-- The numeral of a word is that of no other word. -/
theorem eq_of_write_eq {m n : Int64}
    (h : String.ofList (Text.Numeral.write m.toInt) = String.ofList (Text.Numeral.write n.toInt)) :
    m = n := by
  have hm := Text.Numeral.word64?_write m
  rw [String.ofList_injective h, Text.Numeral.word64?_write] at hm
  exact (Option.some.inj hm).symm

mutual

/-- What is written the same way has one shape, whatever follows it. -/
theorem shape_eq_of_lexemes_append : ∀ (a b : Datum) {rest rest' : List Lexeme},
    a.readable = true → b.readable = true → a.lexemes ++ rest = b.lexemes ++ rest' →
    a.shape = b.shape ∧ rest = rest'
  | .type _ s, b, _, _, _, hb, h => by
    cases b with
    | type _ t =>
      obtain ⟨rfl, hrest⟩ := Ty.eq_of_lexemes_append (List.cons.inj h).2
      exact ⟨rfl, hrest⟩
    | _ => simp [lexemes, readable] at h hb
  | .int _ m, b, _, _, _, hb, h => by
    cases b with
    | int _ n =>
      obtain ⟨hword, hrest⟩ := List.cons.inj h
      rw [eq_of_write_eq (Lexeme.int.inj hword)]
      exact ⟨rfl, hrest⟩
    | _ => simp [lexemes, readable] at h hb
  | .quote _ a, b, _, _, ha, hb, h => by
    cases b with
    | quote _ b =>
      obtain ⟨hshape, hrest⟩ := shape_eq_of_lexemes_append a b ha hb (List.cons.inj h).2
      exact ⟨by rw [shape, shape, hshape], hrest⟩
    | _ => simp [lexemes, readable] at h hb
  | .list _ as, b, _, _, ha, hb, h => by
    cases b with
    | list _ bs =>
      rw [lexemes, lexemes, List.cons_append, List.cons_append, List.append_assoc,
        List.append_assoc] at h
      obtain ⟨hshapes, hrest⟩ := shapeAll_eq_of_lexemes_append as bs ha hb (List.cons.inj h).2
      exact ⟨by rw [shape, shape, hshapes], hrest⟩
    | _ => simp [lexemes, readable] at h hb
  | .nil _, b, _, _, _, hb, h | .bool _ _, b, _, _, _, hb, h | .str _ _, b, _, _, _, hb, h
  | .ident _ _, b, _, _, _, hb, h => by
    cases b <;> simp_all [lexemes, readable, shape]

/-- The parenthesis behind the last item tells that there is no other. -/
theorem shapeAll_eq_of_lexemes_append : ∀ (as bs : List Datum) {rest rest' : List Lexeme},
    readableAll as = true → readableAll bs = true →
    lexemesAll as ++ .rparen :: rest = lexemesAll bs ++ .rparen :: rest' →
    shapeAll as = shapeAll bs ∧ rest = rest'
  | [], [], _, _, _, _, h => ⟨rfl, (List.cons.inj h).2⟩
  | [], b :: bs, _, _, _, hb, h => by
    rw [readableAll, Bool.and_eq_true] at hb
    rw [lexemesAll, lexemesAll, List.append_assoc] at h
    exact absurd h.symm (lexemes_ne_rparen hb.1 _ _)
  | a :: as, [], _, _, ha, _, h => by
    rw [readableAll, Bool.and_eq_true] at ha
    rw [lexemesAll, lexemesAll, List.append_assoc] at h
    exact absurd h (lexemes_ne_rparen ha.1 _ _)
  | a :: as, b :: bs, _, _, ha, hb, h => by
    rw [readableAll, Bool.and_eq_true] at ha hb
    rw [lexemesAll, lexemesAll, List.append_assoc, List.append_assoc] at h
    obtain ⟨hshape, htail⟩ := shape_eq_of_lexemes_append a b ha.1 hb.1 h
    obtain ⟨hshapes, hrest⟩ := shapeAll_eq_of_lexemes_append as bs ha.2 hb.2 htail
    exact ⟨by rw [shapeAll, shapeAll, hshape, hshapes], hrest⟩

end

end Datum

/-- Up to the end of input there is one way to scan. -/
theorem Scans.unique {final : Place} {cs : List (Char × Place)} {ts us : List Token}
    (h : Scans final cs ts) (h' : Scans final cs us) (hts : .eof ∉ ts.map Token.lexeme)
    (hus : .eof ∉ us.map Token.lexeme) : ts = us := by
  induction h generalizing us with
  | eof h =>
    cases h' with
    | eof => rfl
    | token h' =>
      rw [h] at h'
      cases h'
      simp at hus
  | token h _ ih =>
    cases h' with
    | eof h' =>
      rw [h] at h'
      cases h'
      simp at hts
    | token h' hs' =>
      rw [h] at h'
      cases h'
      rw [List.map_cons, List.mem_cons, not_or] at hts hus
      rw [ih hs' hts.2 hus.2]

theorem Lexes.unique {cs : List Char} {ls ms : List Lexeme} (h : Lexes cs ls) (h' : Lexes cs ms)
    (hls : .eof ∉ ls) (hms : .eof ∉ ms) : ls = ms := by
  let ps : List (Char × Place) := cs.map fun c => (c, default)
  have hps : ps.map Prod.fst = cs := by simp [ps, Function.comp_def]
  obtain ⟨ts, hts, rfl⟩ := h default ps hps
  obtain ⟨us, hus, rfl⟩ := h' default ps hps
  rw [hts.unique hus hls hms]

namespace Datum

theorem eof_not_mem_lexemes {d : Datum} (h : d.readable = true) : .eof ∉ d.lexemes := by
  let ts : List Token := d.lexemes.map fun l => ⟨l, default⟩
  have hts : ts.map Token.lexeme = d.lexemes := by simp [ts, Function.comp_def]
  obtain ⟨e, hspells, -⟩ := spells_of_lexemes d h hts
  have hderives := hspells.derives.1
  rw [hts] at hderives
  exact hderives.eof_not_mem

/-- Data that can be read and are written alike have the same lexemes, so they are equal. -/
theorem shape_eq_of_toString_eq {a b : Datum} (ha : a.readable = true) (hb : b.readable = true)
    (h : toString a = toString b) : a.shape = b.shape := by
  have hlexes := lexes_toString ha rfl lexes_nil
  rw [h] at hlexes
  have hlexemes : a.lexemes = b.lexemes :=
    hlexes.unique (lexes_toString hb rfl lexes_nil) (eof_not_mem_lexemes ha)
      (eof_not_mem_lexemes hb)
  exact (shape_eq_of_lexemes_append a b ha hb (congrArg (· ++ []) hlexemes)).1

/-- Equality is an equivalence on all data and does not see where they stand; equal data have one
written form and one type. On data that can be read, however deep they are, to be equal is to have
one written form. -/
theorem beq_equivalence_shown :
    Equivalence (fun a b : Datum => (a == b) = true) ∧
    (∀ a a' b b' : Datum, a.relocate nowhere = a'.relocate nowhere →
      b.relocate nowhere = b'.relocate nowhere → (a == b) = (a' == b')) ∧
    (∀ a b : Datum, (a == b) = true → toString a = toString b ∧ a.typeOf = b.typeOf) ∧
    ∀ a b : Datum, a.readable = true → b.readable = true →
      ((a == b) = true ↔ toString a = toString b) := by
  refine ⟨equivalence_beq, ?_, ?_, ?_⟩
  · intro a a' b b' ha hb
    change same a b = same a' b'
    rw [← same_relocate nowhere nowhere a, ha, hb, same_relocate]
  · intro a b h
    have hshape := beq_iff_shape_eq.1 h
    exact ⟨toString_eq_of_shape_eq hshape, by rw [← typeOf_shape a, hshape, typeOf_shape b]⟩
  · intro a b ha hb
    constructor
    · intro h
      exact toString_eq_of_shape_eq (beq_iff_shape_eq.1 h)
    · intro h
      exact beq_iff_shape_eq.2 (shape_eq_of_toString_eq ha hb h)

/-- A text and a name, quoted more often than can be read, and two anonymous functions that stand in
different places. -/
theorem beq_equivalence_shown_quoted :
    let a : Datum := Nat.repeat (.quote default) 200 (.str default "x")
    let b : Datum := Nat.repeat (.quote default) 200 (.ident default "x")
    let f (p : Place) : Datum := .func p "" ["x"] (.ident p "x")
    (a.readable = true ∧ b.readable = true ∧ toString a ≠ toString b) ∧
      (f ⟨0, 1⟩ == f ⟨2, 0⟩) = (f default == f default) ∧
      toString (f ⟨0, 1⟩) = toString (f ⟨2, 0⟩) := by
  intro a b f
  obtain ⟨-, hplaces, hshown, hreadable⟩ := beq_equivalence_shown
  have ha : a.readable = true := by decide +kernel
  have hb : b.readable = true := by decide +kernel
  have hne : (a == b) ≠ true := by decide +kernel
  exact ⟨⟨ha, hb, fun h => hne ((hreadable a b ha hb).2 h)⟩,
    hplaces _ _ _ _ rfl rfl, (hshown _ _ (by decide +kernel)).1⟩

end Datum
end Lisplet
