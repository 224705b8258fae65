import Lisplet.Proofs.Reader.Follows
import Lisplet.Reader.Descent

/-!
Recursive descent does what the reader does. The expressions and types that a
production is inside of are the forms on the stack of the reading, so both find
room for one more or neither does. A failed production leaves consumed what was
consumed before, and in the end nothing is being read.
-/
namespace Lisplet.Parser

variable {σ : Type} [Source σ] {m : Reading.Move} {s s' : Parser σ} {t u : Token} {g : Reading}

/-- A token of its kind is next, and it is an expression by itself. -/
theorem reads_literal {kind : Kind} {datum : Token → Datum} {k : Datum → Reading.Move}
    (hu : s.Next u) (hk : u.kind = kind) (hm : g.take u = k (datum u)) :
    Reads (.more g) k (literal kind datum) s := by
  apply reads_openingKind hu hk
  exact fun s' _ => reads_pure (datum u) hm

variable {stack : List OpenForm} {dollar : Place} {types : List OpenType}

/-- The token does not end the innermost form, so it is the first one of an expression. -/
def Opens (stack : List OpenForm) (t : Token) : Prop :=
  Reading.takeExpr stack t =
    if stack.length < maxNesting then Reading.openExpr stack t else .fail ⟨.tooDeep, t.place⟩

theorem opens_nil (t : Token) : Opens [] t := rfl
theorem opens_quote (place : Place) (stack : List OpenForm) (t : Token) :
    Opens (.quote place :: stack) t := rfl

theorem opens_list (place : Place) (values : List Datum) (stack : List OpenForm)
    (h : t.lexeme ≠ .rparen) : Opens (.list place values :: stack) t := by
  obtain ⟨lexeme, p⟩ := t
  cases lexeme with
  | rparen => exact absurd rfl h
  | _ => rfl

/-- Inside of `n` expressions and types, the production reads an expression. -/
def ExprAt (n : Nat) (expr : Production σ Datum) : Prop :=
  ∀ (s : Parser σ) (stack : List OpenForm), s.nesting = n → stack.length = n →
    (∀ t, s.Next t → Opens stack t) →
      Reads (.more ⟨stack, .expr⟩) (Reading.give · stack) expr.run s

def TypeAt (n : Nat) (type : Production σ Ty) : Prop :=
  ∀ (s : Parser σ) (stack : List OpenForm) (dollar : Place) (types : List OpenType),
    s.nesting = n → stack.length + 1 + types.length = n →
      Reads (.more ⟨stack, .inType dollar types .type⟩)
        (Reading.giveType stack dollar · types) type.run s

/-- An integer is read if its word fits, and is refused at its place otherwise. -/
theorem reads_integer {word : String} {place : Place} (hu : s.Next ⟨.int word, place⟩)
    (hm : g.take ⟨.int word, place⟩ = Reading.openExpr stack ⟨.int word, place⟩) :
    Reads (.more g) (Reading.give · stack) integer s := by
  apply reads_openingKind hu rfl
  intro s' _
  have htext : Token.text ⟨.int word, place⟩ = word := rfl
  simp only [hm, Reading.openExpr, htext]
  cases Text.Numeral.word64? word.toList with
  | some n => exact reads_pure _ rfl
  | none => exact reads_throw _ rfl

theorem reads_quoted {n : Nat} {expr : Production σ Datum} (hexpr : ExprAt n expr) {place : Place}
    (hu : s.Next ⟨.quote, place⟩) (hs : s.nesting = n) (hstack : stack.length + 1 = n)
    (hm : g.take ⟨.quote, place⟩ = Reading.openExpr stack ⟨.quote, place⟩) :
    Reads (.more g) (Reading.give · stack) (quoted expr) s := by
  apply reads_openingKind hu rfl
  intro s₁ hs₁
  have hvalue := hexpr s₁ (.quote place :: stack) (hs₁.trans hs) hstack fun t _ =>
    opens_quote place stack t
  rw [hm]
  apply hvalue.bind
  exact fun value s₂ _ _ => reads_pure _ rfl

theorem items_eq (expr : Production σ Datum) (values : List Datum) :
    items expr values = (do
      let t ← peek
      if t.lexeme = .rparen then return values
      else
        let value ← expr.run
        items expr (values ++ [value])) := by
  funext s
  rw [items, bind_run]
  rcases peek s with _ | ⟨_ | t, s₁⟩
  · rfl
  · rfl
  · simp only [Option.bind_some]
    split
    · rfl
    · rw [bind_run]
      rcases expr.run s₁ with _ | ⟨_ | value, s₂⟩ <;> rfl

theorem members_eq (type : Production σ Ty) (ty : Ty) :
    members type ty = (do
      let t ← peek
      if t.lexeme = .bar then
        let right ← member type
        members type (.union ty right)
      else return ty) := by
  funext s
  rw [members, bind_run]
  rcases peek s with _ | ⟨_ | t, s₁⟩
  · rfl
  · rfl
  · simp only [Option.bind_some]
    split
    · rw [bind_run]
      rcases member type s₁ with _ | ⟨_ | right, s₂⟩ <;> rfl
    · rfl

/-- The items of a list and its end. The induction is on what is left to be read. -/
theorem reads_items {n : Nat} {expr : Production σ Datum} (hexpr : ExprAt n expr) {place : Place}
    (values : List Datum) (hs : s.nesting = n) (hstack : stack.length + 1 = n) :
    Reads (.more ⟨.list place values.reverse :: stack, .expr⟩) (Reading.give · stack)
      (items expr values >>= fun values => expectText .paren ")" >>= fun _ =>
        pure (.list place values)) s := by
  induction hleft : s.left using Nat.strong_induction_on generalizing s values with
  | _ left ih =>
    rw [items_eq, bind_assoc]
    apply reads_peek.bind
    intro t s₁ ht hs₁
    obtain ⟨hheld, -⟩ := held_of_peek ht
    split
    next hclose =>
      rw [pure_bind]
      apply Reads.bind (reads_expectText (l := fun _ => Reading.give (.list place values) stack) ?_)
      · exact fun _ s₂ _ _ => reads_pure _ rfl
      · intro u hu
        rw [hu.unique (next_of_held hheld)]
        simp [Reading.take, Reading.takeExpr, hclose, Token.kind, Token.text, Lexeme.kind,
          Lexeme.text?]
    next hclose =>
      rw [bind_assoc]
      have hopens : ∀ u, s₁.Next u → Opens (.list place values.reverse :: stack) u := fun u hu =>
        opens_list place values.reverse stack (hu.unique (next_of_held hheld) ▸ hclose)
      have hvalue := hexpr s₁ (.list place values.reverse :: stack) (hs₁.trans hs) hstack hopens
      apply hvalue.bind
      intro value s₂ hrun hs₂
      have hlt : s₂.left < left := by
        have := lowers_peek ht
        have := expr.lowers hrun
        omega
      have hrest := ih s₂.left hlt (values ++ [value]) (hs₂.trans (hs₁.trans hs)) rfl
      rwa [List.reverse_append] at hrest

/-- A list is read as the reading machine does it: the form is opened, filled and closed. -/
theorem reads_list {n : Nat} {expr : Production σ Datum} (hexpr : ExprAt n expr) {place : Place}
    (hu : s.Next ⟨.lparen, place⟩) (hs : s.nesting = n) (hstack : stack.length + 1 = n)
    (hm : g.take ⟨.lparen, place⟩ = Reading.openExpr stack ⟨.lparen, place⟩) :
    Reads (.more g) (Reading.give · stack) (list expr) s := by
  apply reads_openingText hu rfl rfl
  intro s₁ hs₁
  rw [hm]
  exact reads_items hexpr [] (hs₁.trans hs) hstack

/-- A token that ends something, or the report that another one was needed. -/
theorem reads_closing {α : Type} {k : α → Reading.Move} {text : String} {a : α}
    (h : ∀ t, s.Next t → g.take t = if t.kind = .paren ∧ t.text = text then m
      else Reading.notClosing text t) (hk : m = k a) :
    Reads (.more g) k (expectText .paren text >>= fun _ => pure a) s := by
  apply Reads.bind (reads_expectText (l := fun _ => m) ?_)
  · exact fun _ s₁ _ _ => reads_pure a hk
  · intro t ht
    rw [h t ht, Reading.notClosing]
    split <;> split <;> simp_all

theorem reads_typeAtom {a : Atom} {place : Place} (hu : s.Next ⟨.atom a, place⟩)
    (hm : g.take ⟨.atom a, place⟩ = Reading.openType stack dollar types ⟨.atom a, place⟩) :
    Reads (.more g) (Reading.giveType stack dollar · types) typeAtom s := by
  apply Reads.opening hu reads_next fun _ _ => next_of_run
  intro s₁ _
  have htext : Token.text ⟨.atom a, place⟩ = a.word := rfl
  simp only [hm, htext, Atom.ofWord?_word]
  cases a <;> exact reads_pure _ rfl

theorem reads_typeQuoted {n : Nat} {type : Production σ Ty} (htype : TypeAt n type) {place : Place}
    (hu : s.Next ⟨.quote, place⟩) (hs : s.nesting = n)
    (hstack : stack.length + 2 + types.length = n)
    (hm : g.take ⟨.quote, place⟩ = Reading.openType stack dollar types ⟨.quote, place⟩) :
    Reads (.more g) (Reading.giveType stack dollar · types) (typeQuoted type) s := by
  apply reads_openingKind hu rfl
  intro s₁ hs₁
  have hinner := htype s₁ stack dollar (.quoted :: types) (hs₁.trans hs)
    (by rw [List.length_cons]; omega)
  rw [hm]
  apply hinner.bind
  exact fun inner s₂ _ _ => reads_pure _ rfl

/-- What a reading expects behind the type inside brackets. -/
theorem takeType_bracket (stack : List OpenForm) (dollar : Place) (types : List OpenType)
    (inner : Ty) (t : Token) :
    Reading.take ⟨stack, .inType dollar types (.bracket inner)⟩ t =
      if t.kind = .paren ∧ t.text = "]" then Reading.giveType stack dollar (.listOf inner) types
      else Reading.notClosing "]" t := by
  obtain ⟨lexeme, place⟩ := t
  cases lexeme with
  | atom a => cases a <;> rfl
  | _ => rfl

/-- What a reading expects behind the members inside parentheses. -/
theorem takeType_paren (stack : List OpenForm) (dollar : Place) (types : List OpenType)
    (members : Ty) (t : Token) (h : t.lexeme ≠ .bar) :
    Reading.take ⟨stack, .inType dollar types (.paren members)⟩ t =
      if t.kind = .paren ∧ t.text = ")" then Reading.giveType stack dollar members types
      else Reading.notClosing ")" t := by
  obtain ⟨lexeme, place⟩ := t
  cases lexeme with
  | atom a => cases a <;> rfl
  | bar => exact absurd rfl h
  | _ => rfl

theorem takeType_name (stack : List OpenForm) (dollar : Place) (types : List OpenType) (t : Token) :
    Reading.take ⟨stack, .inType dollar types .name⟩ t =
      if t.kind = .ident then Reading.giveType stack dollar (.infer t.text) types
      else .fail ⟨.expectedKind .ident, t.place⟩ := by
  obtain ⟨lexeme, place⟩ := t
  cases lexeme with
  | atom a => cases a <;> rfl
  | _ => rfl

theorem reads_typeList {n : Nat} {type : Production σ Ty} (htype : TypeAt n type) {place : Place}
    (hu : s.Next ⟨.lbracket, place⟩) (hs : s.nesting = n)
    (hstack : stack.length + 2 + types.length = n)
    (hm : g.take ⟨.lbracket, place⟩ = Reading.openType stack dollar types ⟨.lbracket, place⟩) :
    Reads (.more g) (Reading.giveType stack dollar · types) (typeList type) s := by
  apply reads_openingText hu rfl rfl
  intro s₁ hs₁
  have hinner := htype s₁ stack dollar (.listOf :: types) (hs₁.trans hs)
    (by rw [List.length_cons]; omega)
  rw [hm]
  apply hinner.bind
  intro inner s₂ _ _
  exact reads_closing (fun t _ => takeType_bracket stack dollar types inner t) rfl

theorem reads_typeInfer {place : Place} (hu : s.Next ⟨.question, place⟩)
    (hm : g.take ⟨.question, place⟩ = Reading.openType stack dollar types ⟨.question, place⟩) :
    Reads (.more g) (Reading.giveType stack dollar · types) typeInfer s := by
  apply reads_openingText hu rfl rfl
  intro s₁ _
  rw [hm]
  apply Reads.bind (reads_expectKind fun t _ => takeType_name stack dollar types t)
  exact fun name s₂ _ _ => reads_pure _ rfl

theorem reads_member {n : Nat} {type : Production σ Ty} (htype : TypeAt n type) {ty : Ty}
    {place : Place} (hu : s.Next ⟨.bar, place⟩) (hs : s.nesting = n)
    (hstack : stack.length + 2 + types.length = n) :
    Reads (.more ⟨stack, .inType dollar types (.paren ty)⟩)
      (fun right => .more ⟨stack, .inType dollar types (.paren (.union ty right))⟩)
      (member type) s := by
  apply reads_next.bind
  intro t s₁ ht hs₁
  obtain rfl : t = ⟨.bar, place⟩ := (next_of_run ht).unique hu
  exact htype s₁ stack dollar (.group (some ty) :: types) (hs₁.trans hs)
    (by rw [List.length_cons]; omega)

/-- The further members of a union and its end. The induction is on what is left to be read. -/
theorem reads_members {n : Nat} {type : Production σ Ty} (htype : TypeAt n type) (ty : Ty)
    (hs : s.nesting = n) (hstack : stack.length + 2 + types.length = n) :
    Reads (.more ⟨stack, .inType dollar types (.paren ty)⟩)
      (Reading.giveType stack dollar · types)
      (members type ty >>= fun ty => expectText .paren ")" >>= fun _ => pure ty) s := by
  induction hleft : s.left using Nat.strong_induction_on generalizing s ty with
  | _ left ih =>
    rw [members_eq, bind_assoc]
    apply reads_peek.bind
    intro t s₁ ht hs₁
    obtain ⟨hheld, -⟩ := held_of_peek ht
    have hnext := next_of_held hheld
    split
    next hbar =>
      obtain ⟨lexeme, place⟩ := t
      subst hbar
      rw [bind_assoc]
      apply (reads_member htype hnext (hs₁.trans hs) hstack).bind
      intro right s₂ hrun hs₂
      have hlt : s₂.left < left := by
        have := lowers_peek ht
        have := lowers_member type hrun
        omega
      exact ih s₂.left hlt (.union ty right) (hs₂.trans (hs₁.trans hs)) rfl
    next hbar =>
      rw [pure_bind]
      exact reads_closing (fun u hu =>
        takeType_paren stack dollar types ty u (hu.unique hnext ▸ hbar)) rfl

/-- Parentheses hold one type, or the members of a union. -/
theorem reads_typeParen {n : Nat} {type : Production σ Ty} (htype : TypeAt n type) {place : Place}
    (hu : s.Next ⟨.lparen, place⟩) (hs : s.nesting = n)
    (hstack : stack.length + 2 + types.length = n)
    (hm : g.take ⟨.lparen, place⟩ = Reading.openType stack dollar types ⟨.lparen, place⟩) :
    Reads (.more g) (Reading.giveType stack dollar · types) (typeParen type) s := by
  apply reads_openingText hu rfl rfl
  intro s₁ hs₁
  have hfirst := htype s₁ stack dollar (.group none :: types) (hs₁.trans hs)
    (by rw [List.length_cons]; omega)
  rw [hm]
  apply hfirst.bind
  exact fun first s₂ _ hs₂ => reads_members htype first (hs₂.trans (hs₁.trans hs)) hstack

/-- A type, when one more is being read than the `n` forms that are open. -/
theorem reads_typeBody {n : Nat} {type : Production σ Ty} (htype : TypeAt (n + 1) type)
    (hs : s.nesting = n + 1) (hstack : stack.length + 1 + types.length = n)
    (hroom : n < maxNesting) :
    Reads (.more ⟨stack, .inType dollar types .type⟩) (Reading.giveType stack dollar · types)
      (typeBody type) s := by
  have hstack' : stack.length + 2 + types.length = n + 1 := by omega
  apply reads_peek.bind
  intro t s₁ ht hs₁
  obtain ⟨hheld, -⟩ := held_of_peek ht
  have hnext := next_of_held hheld
  have hs' := hs₁.trans hs
  have hlt : stack.length + 1 + types.length < maxNesting := by omega
  have hm : Reading.take ⟨stack, .inType dollar types .type⟩ t =
      Reading.openType stack dollar types t := if_pos hlt
  obtain ⟨lexeme, place⟩ := t
  cases lexeme with
  | atom a => exact reads_typeAtom hnext hm
  | quote => exact reads_typeQuoted htype hnext hs' hstack' hm
  | lbracket => exact reads_typeList htype hnext hs' hstack' hm
  | question => exact reads_typeInfer hnext hm
  | lparen => exact reads_typeParen htype hnext hs' hstack' hm
  | _ => exact reads_throw_of_held hheld hm

/-- The dollar sign is one level, and its type another one inside it. -/
theorem reads_typeExpr {n : Nat} {type : Production σ Ty} (htype : TypeAt n type) {place : Place}
    (hu : s.Next ⟨.dollar, place⟩) (hs : s.nesting = n) (hstack : stack.length + 1 = n)
    (hm : g.take ⟨.dollar, place⟩ = Reading.openExpr stack ⟨.dollar, place⟩) :
    Reads (.more g) (Reading.give · stack) (typeExpr type) s := by
  apply reads_openingText hu rfl rfl
  intro s₁ hs₁
  rw [hm]
  apply (htype s₁ stack place [] (hs₁.trans hs) hstack).bind
  exact fun ty s₂ _ _ => reads_pure _ rfl

/-- An expression, when one more is being read than the `n` forms that are open. -/
theorem reads_exprBody {n : Nat} {expr : Production σ Datum} {type : Production σ Ty}
    (hexpr : ExprAt (n + 1) expr) (htype : TypeAt (n + 1) type) (hs : s.nesting = n + 1)
    (hstack : stack.length = n) (hroom : n < maxNesting) (hopens : ∀ t, s.Next t → Opens stack t) :
    Reads (.more ⟨stack, .expr⟩) (Reading.give · stack) (exprBody expr type) s := by
  have hstack' : stack.length + 1 = n + 1 := by omega
  apply reads_peek.bind
  intro t s₁ ht hs₁
  obtain ⟨hheld, hfirst⟩ := held_of_peek ht
  have hnext := next_of_held hheld
  have hs' := hs₁.trans hs
  have hm : Reading.take ⟨stack, .expr⟩ t = Reading.openExpr stack t :=
    (hopens t hfirst).trans (if_pos (by omega))
  obtain ⟨lexeme, place⟩ := t
  cases lexeme with
  | atom a =>
    cases a with
    | nil => exact reads_literal hnext rfl hm
    | _ => exact reads_throw_of_held hheld hm
  | bool b =>
    refine reads_literal hnext rfl (hm.trans ?_)
    cases b <;> rfl
  | int word => exact reads_integer hnext hm
  | str text => exact reads_literal hnext rfl hm
  | ident name => exact reads_literal hnext rfl hm
  | quote => exact reads_quoted hexpr hnext hs' hstack' hm
  | lparen => exact reads_list hexpr hnext hs' hstack' hm
  | dollar => exact reads_typeExpr htype hnext hs' hstack' hm
  | _ => exact reads_throw_of_held hheld hm

/-- With room for all levels that are left, the production reads a type. -/
theorem typeAt_type (room : Nat) {n : Nat} (h : maxNesting ≤ n + room) :
    TypeAt n (type room : Production σ Ty) := by
  induction room generalizing n with
  | zero =>
    intro s stack dollar types hs hstack
    have hfull : ¬ stack.length + 1 + types.length < maxNesting := by omega
    exact reads_refuse fun t _ => if_neg hfull
  | succ room ih =>
    intro s stack dollar types hs hstack
    by_cases hroom : n < maxNesting
    · apply Reads.nested (hs ▸ hroom)
      apply Reads.production
      exact reads_typeBody (ih (by omega)) (congrArg (· + 1) hs) hstack hroom
    · have hfull : ¬ stack.length + 1 + types.length < maxNesting := by omega
      exact reads_nested_of_full (by omega) fun t _ => if_neg hfull

/-- With room for all levels that are left, the production reads an expression. -/
theorem exprAt_expr (room : Nat) {n : Nat} (h : maxNesting ≤ n + room) :
    ExprAt n (expr room : Production σ Datum) := by
  induction room generalizing n with
  | zero =>
    intro s stack hs hstack hopens
    have hfull : ¬ stack.length < maxNesting := by omega
    exact reads_refuse fun t ht => (hopens t ht).trans (if_neg hfull)
  | succ room ih =>
    intro s stack hs hstack hopens
    by_cases hroom : n < maxNesting
    · apply Reads.nested (hs ▸ hroom)
      apply Reads.production
      exact reads_exprBody (ih (by omega)) (typeAt_type room (by omega)) (congrArg (· + 1) hs)
        hstack hroom hopens
    · have hfull : ¬ stack.length < maxNesting := by omega
      exact reads_nested_of_full (by omega) fun t ht => (hopens t ht).trans (if_neg hfull)

/-- An expression that is not read leaves consumed what was consumed before. -/
theorem consumed_of_expr_error {room n : Nat} (hroom : maxNesting ≤ n + room) (hs : s.nesting = n)
    (hstack : stack.length = n) (hopens : ∀ t, s.Next t → Opens stack t) {e : ReadError}
    (h : (expr room).run s = some (.error e, s')) : s'.consumed = s.consumed := by
  cases room with
  | zero => exact consumed_of_refuse h
  | succ room =>
    by_cases hn : n < maxNesting
    · have hbody := reads_exprBody (exprAt_expr room (by omega)) (typeAt_type room (by omega))
        (s := { s with nesting := s.nesting + 1 }) (congrArg (· + 1) hs) hstack hn hopens
      obtain ⟨x, s₁, hx, hfollows⟩ := hbody.production
      have hrun := nested_of_room (hs ▸ hn) hx hfollows.nesting
      cases hrun.symm.trans h
      have hconsumed := consumed_of_production hbody hx
      exact hconsumed
    · exact consumed_of_refuse ((if_pos (by omega)).symm.trans h)

/-- All checks of recursive descent pass. It reads what the reader reads, and whether or not that is
an expression, nothing is consumed in the end and nothing is being read. -/
theorem parseExpr_ofReader {r : Reader σ} (h : r.Idle) {room : Nat} (hroom : maxNesting ≤ room) :
    parseExpr room (ofReader r 0) = some (r.read.1, ofReader r.read.2 0) := by
  have hopens : ∀ t, (ofReader r 0).Next t → Opens [] t := fun t _ => opens_nil t
  replace hroom : maxNesting ≤ 0 + room := by omega
  obtain ⟨x, s, hx, hfollows⟩ := exprAt_expr room hroom (ofReader r 0) [] rfl rfl hopens
  have hfinish := hfollows.finish
  have hnesting : s.nesting = 0 := hfollows.nesting
  have hr := reader_ofReader_of_idle h 0
  have hread : r.read = s.finish (moveOf (Reading.give · []) x) := by
    rw [← hfinish]
    exact congrArg Reader.resume hr.symm
  rw [parseExpr, bind_run, hx, hread]
  cases x with
  | ok d =>
    have hafter : ofReader (s.reader .start).settle 0 = { s with consumed := [] } := by
      simp [ofReader, reader, Reader.settle, hnesting]
    exact congrArg (fun q => some (Except.ok d, q)) hafter.symm
  | error e =>
    have hconsumed : s.consumed = [] := (consumed_of_expr_error hroom rfl rfl hopens hx).trans
      (congrArg List.reverse h.taken)
    have hafter : ofReader (s.reader .start).giveBack 0 = s := by
      rw [← ofReader_reader s .start]
      simp [ofReader, reader, Reader.giveBack, hnesting, hconsumed]
    exact congrArg (fun q => some (Except.error e, q)) hafter.symm

end Lisplet.Parser
