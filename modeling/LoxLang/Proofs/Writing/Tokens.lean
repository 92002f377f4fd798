import LoxLang.Proofs.Writing.Spelling
/-! Every tree whose numbers are read from digits is written out by tokens. -/
namespace LoxLang

/-- A token is written so, or a number is: not every number is read from digits. -/
inductive Glyph.Regular : Glyph → Prop where
  | token {t : Token} : t.Spelled → Regular t.glyph
  | number (x : Float) : Regular (.constant .number (.number x))

/-- A token of a kind with many lexemes is spelled as that demands. -/
theorem Token.spelled_of_none {t : Token} (free : t.kind.spelling? = none) : t.Spelled := by
  intro lexeme fixed
  rw [free] at fixed
  cases fixed

theorem Kind.glyph_regular (k : Kind) (only : k.spelling?.isSome = true) : k.glyph.Regular := by
  obtain ⟨lexeme, found⟩ := Option.isSome_iff_exists.mp only
  let t : Token := ⟨k, lexeme, .start⟩
  have spelled : t.Spelled := fun other fixed => Option.some.inj (found.symm.trans fixed)
  have same := Token.proper_glyph (t := t) rfl only
  rw [spelled.proper] at same
  exact same ▸ .token spelled

theorem Name.glyph_regular (n : Name) : n.glyph.Regular := by
  let t : Token := ⟨.identifier, n.text, .start⟩
  have free : t.Spelled := Token.spelled_of_none rfl
  exact Glyph.Regular.token free

theorem Literal.glyph_regular (value : Literal) : value.glyph.Regular := by
  cases value with
  | nil => exact Kind.glyph_regular _ (by decide)
  | bool b => cases b <;> exact Kind.glyph_regular _ (by decide)
  | number x => exact .number x
  | text s =>
      let t : Token := ⟨.text, String.ofList ('"' :: (s.toList ++ ['"'])), .start⟩
      have free : t.Spelled := Token.spelled_of_none rfl
      have same : t.glyph = (Literal.text s).glyph := by
        simp [t, Token.glyph, Token.literal?, Literal.glyph]
      exact same ▸ .token free

def RegularAll (gs : List Glyph) : Prop := ∀ g ∈ gs, g.Regular

@[simp] theorem regularAll_nil : RegularAll [] := List.forall_mem_nil _

@[simp] theorem regularAll_cons (g : Glyph) (gs : List Glyph) :
    RegularAll (g :: gs) ↔ g.Regular ∧ RegularAll gs := List.forall_mem_cons

@[simp] theorem regularAll_append (gs hs : List Glyph) :
    RegularAll (gs ++ hs) ↔ RegularAll gs ∧ RegularAll hs := List.forall_mem_append

theorem regularAll_separated {list : List (List Glyph)} (each : ∀ gs ∈ list, RegularAll gs) :
    RegularAll (separated list) := by
  induction list with
  | nil => exact regularAll_nil
  | cons gs others ih =>
      obtain ⟨first, rest⟩ := List.forall_mem_cons.mp each
      by_cases last : others = []
      · simpa [last, separated] using first
      · simp [separated_cons gs last, first, ih rest, Kind.glyph_regular .comma (by decide)]

section
variable {δ : Type}

mutual

theorem Expr.glyphs_regular : ∀ e : Expr δ, RegularAll e.glyphs
  | .literal _ value => by simp [Expr.glyphs, value.glyph_regular]
  | .var name _ => by simp [Expr.glyphs, name.glyph_regular]
  | .receiver _ _ => by simp (disch := decide) [Expr.glyphs, Kind.glyph_regular]
  | .inherited _ method _ => by
      simp (disch := decide) [Expr.glyphs, Kind.glyph_regular, method.glyph_regular]
  | .grouping _ inner => by
      simp (disch := decide) [Expr.glyphs, Kind.glyph_regular, inner.glyphs_regular]
  | .assign name value _ => by
      simp (disch := decide) [Expr.glyphs, Kind.glyph_regular, name.glyph_regular,
        value.glyphs_regular]
  | .unary op _ operand => by
      have sign := Kind.glyph_regular op.kind (by cases op <;> decide)
      simp [Expr.glyphs, sign, operand.glyphs_regular]
  | .binary left op _ right => by
      have sign := Kind.glyph_regular op.kind (Operator.binary op).kind_only
      simp [Expr.glyphs, left.glyphs_regular, sign, right.glyphs_regular]
  | .logical left op _ right => by
      have sign := Kind.glyph_regular op.kind (Operator.logical op).kind_only
      simp [Expr.glyphs, left.glyphs_regular, sign, right.glyphs_regular]
  | .conditional c a b => by
      simp (disch := decide) [Expr.glyphs, Kind.glyph_regular, c.glyphs_regular, a.glyphs_regular,
        b.glyphs_regular]
  | .call callee _ arguments => by
      simp (disch := decide) [Expr.glyphs, Kind.glyph_regular, callee.glyphs_regular,
        regularAll_separated (regular_all arguments)]
  | .member object name => by
      simp (disch := decide) [Expr.glyphs, Kind.glyph_regular, object.glyphs_regular,
        name.glyph_regular]
  | .assignMember object name value => by
      simp (disch := decide) [Expr.glyphs, Kind.glyph_regular, object.glyphs_regular,
        name.glyph_regular, value.glyphs_regular]

theorem regular_all : ∀ es : List (Expr δ), ∀ gs ∈ glyphsOfAll es, RegularAll gs
  | [] => List.forall_mem_nil _
  | e :: rest => List.forall_mem_cons.mpr ⟨e.glyphs_regular, regular_all rest⟩

end

mutual

theorem Stmt.glyphs_regular : ∀ s : Stmt δ, RegularAll s.glyphs
  | .expression value => by
      simp (disch := decide) [Stmt.glyphs, Kind.glyph_regular, value.glyphs_regular]
  | .print _ value => by
      simp (disch := decide) [Stmt.glyphs, Kind.glyph_regular, value.glyphs_regular]
  | .var name none => by
      simp (disch := decide) [Stmt.glyphs, Kind.glyph_regular, name.glyph_regular]
  | .var name (some value) => by
      simp (disch := decide) [Stmt.glyphs, Kind.glyph_regular, name.glyph_regular,
        value.glyphs_regular]
  | .block _ body => by
      simp (disch := decide) [Stmt.glyphs, Kind.glyph_regular, regular_body body]
  | .ifThen _ condition a => by
      simp (disch := decide) [Stmt.glyphs, Kind.glyph_regular, condition.glyphs_regular,
        a.glyphs_regular]
  | .ifElse _ condition a b => by
      simp (disch := decide) [Stmt.glyphs, Kind.glyph_regular, condition.glyphs_regular,
        a.glyphs_regular, b.glyphs_regular]
  | .loop _ condition body => by
      simp (disch := decide) [Stmt.glyphs, Kind.glyph_regular, condition.glyphs_regular,
        body.glyphs_regular]
  | .function declaration => by
      simp (disch := decide) [Stmt.glyphs, Kind.glyph_regular, declaration.glyphs_regular]
  | .classDecl name none methods => by
      simp (disch := decide) [Stmt.glyphs, Kind.glyph_regular, name.glyph_regular,
        regular_methods methods]
  | .classDecl name (some parent) methods => by
      simp (disch := decide) [Stmt.glyphs, Superclass.glyphs, Kind.glyph_regular,
        name.glyph_regular, parent.name.glyph_regular, regular_methods methods]
  | .ret _ none => by simp (disch := decide) [Stmt.glyphs, Kind.glyph_regular]
  | .ret _ (some value) => by
      simp (disch := decide) [Stmt.glyphs, Kind.glyph_regular, value.glyphs_regular]

theorem regular_body : ∀ ss : List (Stmt δ), RegularAll (glyphsOfBody ss)
  | [] => regularAll_nil
  | s :: rest => (regularAll_append _ _).mpr ⟨s.glyphs_regular, regular_body rest⟩

theorem Routine.glyphs_regular : ∀ r : Routine δ, RegularAll r.glyphs
  | .mk name params body => by
      have names : ∀ gs ∈ params.map fun p => [p.glyph], RegularAll gs :=
        List.forall_mem_map.mpr fun p _ => by simp [p.glyph_regular]
      simp (disch := decide) [Routine.glyphs, Kind.glyph_regular, name.glyph_regular,
        regularAll_separated names, regular_body body]

theorem regular_methods : ∀ rs : List (Routine δ), RegularAll (glyphsOfMethods rs)
  | [] => regularAll_nil
  | r :: rest => (regularAll_append _ _).mpr ⟨r.glyphs_regular, regular_methods rest⟩

end

end

/-- What is written of a program is written by tokens, if its numbers are read from digits. -/
theorem RegularAll.tokens {gs : List Glyph} (regular : RegularAll gs)
    (digits : ∀ x, Glyph.constant .number (.number x) ∈ gs →
      ∃ lexeme : String, readNumber lexeme.toList = x) :
    ∃ tokens : List Token, (∀ t ∈ tokens, t.Spelled) ∧ tokens.map Token.glyph = gs := by
  induction gs with
  | nil => exact ⟨[], List.forall_mem_nil _, rfl⟩
  | cons g gs ih =>
      obtain ⟨first, rest⟩ := (regularAll_cons g gs).mp regular
      obtain ⟨tokens, spelled, rfl⟩ := ih rest fun x member => digits x (.tail _ member)
      have found : ∃ t : Token, t.Spelled ∧ t.glyph = g := by
        cases first with
        | @token t spelled => exact ⟨t, spelled, rfl⟩
        | number x =>
            obtain ⟨lexeme, rfl⟩ := digits x (.head _)
            exact ⟨⟨.number, lexeme, .start⟩, Token.spelled_of_none rfl, rfl⟩
      obtain ⟨t, here, rfl⟩ := found
      exact ⟨t :: tokens, List.forall_mem_cons.mpr ⟨here, spelled⟩, rfl⟩

end LoxLang
