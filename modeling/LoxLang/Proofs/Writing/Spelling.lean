import LoxLang.Proofs.Writing.Written
/-! A tree is written by tokens just if these are the tokens of the tree written out, apart from their
places; the tree takes its places from them. -/
namespace LoxLang

/-! Single tokens. -/

def Glyph.kind : Glyph → Kind
  | word kind _ | constant kind _ => kind

@[simp] theorem Token.kind_glyph (t : Token) : t.glyph.kind = t.kind := by
  unfold glyph
  split <;> rfl

@[simp] theorem Kind.kind_glyph (k : Kind) : k.glyph.kind = k := rfl

theorem Token.Spelled.proper {t : Token} (spelled : t.Spelled) : t.proper = t := by
  cases found : t.kind.spelling? with
  | none => simp only [Token.proper, found, Option.getD_none]
  | some lexeme => simp only [Token.proper, found, Option.getD_some, ← spelled lexeme found]

theorem Token.literal?_of_only {t : Token} (only : t.kind.spelling?.isSome = true) :
    t.literal? = none := by
  unfold literal?
  split
  · next number => exact absurd (number ▸ only) (by decide)
  · next text => exact absurd (text ▸ only) (by decide)
  · rfl

/-- A token of a kind with only one lexeme is written as that kind. -/
theorem Token.proper_glyph {t : Token} {k : Kind} (same : t.kind = k)
    (only : k.spelling?.isSome = true) : t.proper.glyph = k.glyph := by
  subst same
  obtain ⟨lexeme, found⟩ := Option.isSome_iff_exists.mp only
  have word : t.proper.literal? = none := Token.literal?_of_only only
  rw [Token.glyph, word]
  simp only [Kind.glyph, Token.proper, found, Option.getD_some]

/-- A token of a kind with many lexemes keeps its own. -/
theorem Token.proper_of_none {t : Token} (free : t.kind.spelling? = none) : t.proper = t := by
  simp only [proper, free, Option.getD_none]

/-- What the tokens say, each with the lexeme that its kind demands. -/
def properGlyphs (us : List Token) : List Glyph := us.map fun t => t.proper.glyph

@[simp] theorem properGlyphs_nil : properGlyphs [] = [] := rfl

@[simp] theorem properGlyphs_cons (t : Token) (us : List Token) :
    properGlyphs (t :: us) = t.proper.glyph :: properGlyphs us := rfl

@[simp] theorem properGlyphs_append (us vs : List Token) :
    properGlyphs (us ++ vs) = properGlyphs us ++ properGlyphs vs := List.map_append

theorem properGlyphs_eq {us : List Token} (spelled : ∀ t ∈ us, t.Spelled) :
    properGlyphs us = us.map Token.glyph :=
  List.map_congr_left fun t member => by rw [(spelled t member).proper]

theorem Token.kind_of_glyph {t : Token} {k : Kind} (same : t.glyph = k.glyph) : t.kind = k := by
  rw [← t.kind_glyph, same, Kind.kind_glyph]

theorem Token.glyph_name {t : Token} (same : t.kind = .identifier) : t.glyph = t.name.glyph := by
  simp [glyph, literal?, same, Name.glyph, name]

theorem Token.name_of_glyph {t : Token} {n : Name} (same : t.glyph = n.glyph) :
    t.kind = .identifier ∧ t.name.unplaced = n.unplaced := by
  have kind : t.kind = .identifier := by rw [← t.kind_glyph, same]; rfl
  rw [Token.glyph_name kind] at same
  injection same with _ text
  exact ⟨kind, by rw [Name.unplaced, Name.unplaced, text]⟩

theorem Token.proper_name {t : Token} (same : t.kind = .identifier) :
    t.proper.glyph = t.name.glyph := by
  rw [Token.proper_of_none (by rw [same]; decide), Token.glyph_name same]

theorem constant?_glyph {t : Token} {value : Literal} (found : Reading.constant? t = some value) :
    t.proper.glyph = value.glyph := by
  unfold Reading.constant? at found
  split at found
  · next same =>
      cases found
      exact Token.proper_glyph same (by decide)
  · next same =>
      cases found
      exact Token.proper_glyph same (by decide)
  · next same =>
      cases found
      exact Token.proper_glyph same (by decide)
  · have free : t.kind.spelling? = none := by
      cases fixed : t.kind.spelling? with
      | none => rfl
      | some lexeme =>
          rw [Token.literal?_of_only (by rw [fixed]; rfl)] at found
          cases found
    rw [Token.proper_of_none free, Token.glyph, found]
    unfold Token.literal? at found
    split at found
    · next same =>
        cases found
        simp only [same, Literal.glyph]
    · next same =>
        cases found
        simp only [same, Literal.glyph]
    · cases found

theorem constant?_of_glyph {t : Token} {value : Literal} (same : t.glyph = value.glyph) :
    Reading.constant? t = some value := by
  cases value with
  | nil => simp [Reading.constant?, Token.kind_of_glyph same]
  | bool b => cases b <;> simp [Reading.constant?, Token.kind_of_glyph same]
  | number x =>
      have kind : t.kind = .number := by rw [← t.kind_glyph, same]; rfl
      unfold Token.glyph at same
      split at same
      · next found =>
          injection same with _ value
          simp [Reading.constant?, kind, found, value]
      · cases same
  | text s =>
      have kind : t.kind = .text := by rw [← t.kind_glyph, same]; rfl
      unfold Token.glyph at same
      split at same
      · next found =>
          injection same with _ value
          simp [Reading.constant?, kind, found, value]
      · cases same

theorem unaryOp?_kind {k : Kind} {op : UnaryOp} (found : Reading.unaryOp? k = some op) :
    k = op.kind := by
  cases k <;> cases found <;> rfl

theorem unaryOp?_of_kind (op : UnaryOp) : Reading.unaryOp? op.kind = some op := by
  cases op <;> rfl

/-! Entries with commas between them. -/

theorem separated_cons (gs : List Glyph) {others : List (List Glyph)} (some : others ≠ []) :
    separated (gs :: others) = gs ++ Kind.comma.glyph :: separated others := by
  simp [separated, List.intercalate_cons_of_ne_nil some]

theorem Joined.glyphs {list : List (List Token)} {us : List Token} (joined : Joined list us) :
    properGlyphs us = separated (list.map properGlyphs) := by
  induction joined with
  | none => rfl
  | one us => simp [separated]
  | @more us vs t others comma some _ ih =>
      have filled : others.map properGlyphs ≠ [] := by simpa using some
      rw [List.map_cons, separated_cons _ filled, properGlyphs_append, properGlyphs_cons, ih,
        Token.proper_glyph comma (by decide)]

theorem joined_of_glyphs {list : List (List Glyph)} {us : List Token}
    (whole : us.map Token.glyph = separated list) :
    ∃ pieces : List (List Token), Joined pieces us ∧ pieces.map (List.map Token.glyph) = list := by
  induction list generalizing us with
  | nil => exact ⟨[], by rw [List.map_eq_nil_iff.mp whole]; exact .none, rfl⟩
  | cons gs others ih =>
      by_cases last : others = []
      · subst last
        refine ⟨[us], .one us, ?_⟩
        simpa [separated] using whole
      · rw [separated_cons gs last] at whole
        obtain ⟨us, vs, rfl, rfl, behind⟩ := List.map_eq_append_iff.mp whole
        obtain ⟨t, vs, rfl, comma, behind⟩ := List.map_eq_cons_iff.mp behind
        obtain ⟨pieces, joined, rfl⟩ := ih behind
        refine ⟨us :: pieces, .more (Token.kind_of_glyph comma) ?_ joined, rfl⟩
        exact fun none => last (by rw [none]; rfl)

/-! Expressions. -/

theorem glyphsOfAll_eq {δ : Type} (es : List (Expr δ)) : glyphsOfAll es = es.map Expr.glyphs := by
  induction es with
  | nil => rfl
  | cons e rest ih => rw [glyphsOfAll, ih, List.map_cons]

theorem levelledAll_iff {δ : Type} (es : List (Expr δ)) :
    levelledAll es ↔ ∀ e ∈ es, e.Sits .assignment ∧ e.Levelled := by
  induction es with
  | nil => simp [levelledAll]
  | cons e rest ih => rw [levelledAll, ih, List.forall_mem_cons]

theorem Operator.kind_only (o : Operator) : o.kind.spelling?.isSome = true := by
  cases o with
  | binary op => cases op <;> decide
  | logical op => cases op <;> decide

/-- The tokens that write an expression are the expression written out. -/
theorem Written.glyphs {e : RawExpr} {us : List Token} (written : Written e us) :
    properGlyphs us = e.glyphs := by
  induction written with
  | constant found => simp [Expr.glyphs, constant?_glyph found]
  | var same => simp [Expr.glyphs, Token.proper_name same]
  | receiver same => simp [Expr.glyphs, Token.proper_glyph same (by decide)]
  | inherited same dotted identifier =>
      simp [Expr.glyphs, Token.proper_glyph same (by decide),
        Token.proper_glyph dotted (by decide), Token.proper_name identifier]
  | grouping same _ closed ih =>
      simp [Expr.glyphs, Token.proper_glyph same (by decide), ih,
        Token.proper_glyph closed (by decide)]
  | @call callee start stop us vs parts _ _ same _ _ _ joined closed ih each =>
      have list : (parts.map Prod.snd).map properGlyphs = glyphsOfAll (parts.map Prod.fst) := by
        rw [glyphsOfAll_eq, List.map_map, List.map_map]
        exact List.map_congr_left each
      simp [Expr.glyphs, ih, Token.proper_glyph same (by decide), joined.glyphs, ← list,
        Token.proper_glyph closed (by decide)]
  | member _ _ dotted identifier ih =>
      simp [Expr.glyphs, ih, Token.proper_glyph dotted (by decide), Token.proper_name identifier]
  | @unary op t e us found _ _ ih =>
      have sign := Token.proper_glyph (unaryOp?_kind found) (by cases op <;> decide)
      simp [Expr.glyphs, sign, ih]
  | operation o _ _ kind _ _ ih ih' => simp [ih, Token.proper_glyph kind o.kind_only, ih']
  | conditional _ _ asked _ _ parted _ _ ih ih' ih'' =>
      simp [Expr.glyphs, ih, Token.proper_glyph asked (by decide), ih',
        Token.proper_glyph parted (by decide), ih'']
  | assign identifier sign _ _ ih =>
      simp [Expr.glyphs, Token.proper_name identifier, Token.proper_glyph sign (by decide), ih]
  | assignMember _ _ dotted identifier sign _ _ ih ih' =>
      simp [Expr.glyphs, ih, Token.proper_glyph dotted (by decide), Token.proper_name identifier,
        Token.proper_glyph sign (by decide), ih']

theorem Written.levelled {e : RawExpr} {us : List Token} (written : Written e us) :
    e.Levelled := by
  induction written with
  | constant | var | receiver | inherited => trivial
  | grouping _ _ _ ih => exact ih
  | @call _ _ _ _ _ parts _ sits _ _ levels room _ _ ih each =>
      refine ⟨⟨sits, ih⟩, by simpa using room, (levelledAll_iff _).mpr fun e member => ?_⟩
      obtain ⟨part, inside, rfl⟩ := List.mem_map.mp member
      exact ⟨levels part inside, each part inside⟩
  | member _ sits _ _ ih => exact ⟨sits, ih⟩
  | unary _ _ sits ih => exact ⟨sits, ih⟩
  | operation o _ sits _ _ sits' ih ih' =>
      cases o <;> exact ⟨⟨sits, ih⟩, sits', ih'⟩
  | conditional _ sits _ _ sits' _ _ sits'' ih ih' ih'' =>
      exact ⟨⟨sits, ih⟩, ⟨sits', ih'⟩, sits'', ih''⟩
  | assign _ _ _ sits ih => exact ⟨sits, ih⟩
  | assignMember _ sits _ _ _ _ sits' ih ih' => exact ⟨⟨sits, ih⟩, sits', ih'⟩

/-! Statements. -/

theorem glyphsOfBody_eq {δ : Type} (ss : List (Stmt δ)) :
    glyphsOfBody ss = (ss.map Stmt.glyphs).flatten := by
  induction ss with
  | nil => rfl
  | cons s rest ih => rw [glyphsOfBody, ih, List.map_cons, List.flatten_cons]

theorem glyphsOfMethods_eq {δ : Type} (rs : List (Routine δ)) :
    glyphsOfMethods rs = (rs.map Routine.glyphs).flatten := by
  induction rs with
  | nil => rfl
  | cons r rest ih => rw [glyphsOfMethods, ih, List.map_cons, List.flatten_cons]

theorem levelledBody_iff {δ : Type} (ss : List (Stmt δ)) :
    levelledBody ss ↔ ∀ s ∈ ss, s.Levelled := by
  induction ss with
  | nil => simp [levelledBody]
  | cons s rest ih => rw [levelledBody, ih, List.forall_mem_cons]

theorem levelledMethods_iff {δ : Type} (rs : List (Routine δ)) :
    levelledMethods rs ↔ ∀ r ∈ rs, r.Levelled := by
  induction rs with
  | nil => simp [levelledMethods]
  | cons r rest ih => rw [levelledMethods, ih, List.forall_mem_cons]

/-- Pieces that are each something written out are together all of that written out. -/
theorem glyphs_flatten {β : Type} {tokens : β → List Token} {glyphs : β → List Glyph}
    {parts : List β} (each : ∀ i ∈ parts, properGlyphs (tokens i) = glyphs i) :
    properGlyphs (parts.map tokens).flatten = (parts.map glyphs).flatten := by
  rw [properGlyphs, List.map_flatten, List.map_map]
  exact congrArg _ (List.map_congr_left each)

/-- The tokens of a body are its statements written out, if each is. -/
theorem glyphs_body {parts : List (RawStmt × List Token)}
    (each : ∀ part ∈ parts, properGlyphs part.2 = part.1.glyphs) :
    properGlyphs (parts.map Prod.snd).flatten = glyphsOfBody (parts.map Prod.fst) := by
  rw [glyphsOfBody_eq, List.map_map]
  exact glyphs_flatten each

theorem RoutineText.glyphs {r : RoutineText} (formed : r.Formed)
    (each : ∀ part ∈ r.parts, properGlyphs part.2 = part.1.glyphs) :
    properGlyphs r.tokens = r.routine.glyphs := by
  have params : (r.params.map fun t => [t]).map properGlyphs =
      (r.params.map Token.name).map fun p => [p.glyph] := by
    rw [List.map_map, List.map_map]
    refine List.map_congr_left fun t member => ?_
    simp [Token.proper_name (formed.params t member)]
  have names := formed.joined.glyphs
  rw [params] at names
  simp [tokens, routine, Routine.glyphs, Token.proper_name formed.name,
    Token.proper_glyph formed.opening (by decide), names,
    Token.proper_glyph formed.closing (by decide), Token.proper_glyph formed.start (by decide),
    ← glyphs_body each, Token.proper_glyph formed.stop (by decide)]

theorem WrittenAbove.glyphs {parent : Option (Superclass Unit)} {above : List Token}
    (written : WrittenAbove parent above) :
    properGlyphs above = (parent.map Superclass.glyphs).getD [] := by
  cases written with
  | none => rfl
  | some less name =>
      simp [Superclass.glyphs, Token.proper_glyph less (by decide), Token.proper_name name]

/-- The tokens that write a statement are the statement written out. -/
theorem WrittenStmt.glyphs {s : RawStmt} {us : List Token} (written : WrittenStmt s us) :
    properGlyphs us = s.glyphs := by
  induction written with
  | expression value ended =>
      simp [Stmt.glyphs, value.glyphs, Token.proper_glyph ended (by decide)]
  | print same value ended =>
      simp [Stmt.glyphs, Token.proper_glyph same (by decide), value.glyphs,
        Token.proper_glyph ended (by decide)]
  | declare same identifier ended =>
      simp [Stmt.glyphs, Token.proper_glyph same (by decide), Token.proper_name identifier,
        Token.proper_glyph ended (by decide)]
  | define same identifier sign value ended =>
      simp [Stmt.glyphs, Token.proper_glyph same (by decide), Token.proper_name identifier,
        Token.proper_glyph sign (by decide), value.glyphs, Token.proper_glyph ended (by decide)]
  | block same _ closed ih =>
      simp [Stmt.glyphs, Token.proper_glyph same (by decide), ← glyphs_body ih,
        Token.proper_glyph closed (by decide)]
  | ifThen same opened condition closed _ _ ih =>
      simp [Stmt.glyphs, Token.proper_glyph same (by decide),
        Token.proper_glyph opened (by decide), condition.glyphs,
        Token.proper_glyph closed (by decide), ih]
  | ifElse same opened condition closed _ _ _ elsewise _ _ ih ih' =>
      simp [Stmt.glyphs, Token.proper_glyph same (by decide),
        Token.proper_glyph opened (by decide), condition.glyphs,
        Token.proper_glyph closed (by decide), ih, Token.proper_glyph elsewise (by decide), ih']
  | loop same opened condition closed _ _ ih =>
      simp [Stmt.glyphs, Token.proper_glyph same (by decide),
        Token.proper_glyph opened (by decide), condition.glyphs,
        Token.proper_glyph closed (by decide), ih]
  | function same formed _ ih =>
      simp [Stmt.glyphs, Token.proper_glyph same (by decide), RoutineText.glyphs formed ih]
  | @classDecl _ _ _ _ _ _ methods same identifier inherits opened formed _ closed ih =>
      have routines : properGlyphs (methods.map RoutineText.tokens).flatten =
          glyphsOfMethods (methods.map RoutineText.routine) := by
        rw [glyphsOfMethods_eq, List.map_map]
        exact glyphs_flatten fun r member => RoutineText.glyphs (formed r member) (ih r member)
      simp [Stmt.glyphs, Token.proper_glyph same (by decide), Token.proper_name identifier,
        inherits.glyphs, Token.proper_glyph opened (by decide), ← routines,
        Token.proper_glyph closed (by decide)]
  | exit same ended =>
      simp [Stmt.glyphs, Token.proper_glyph same (by decide), Token.proper_glyph ended (by decide)]
  | ret same value ended =>
      simp [Stmt.glyphs, Token.proper_glyph same (by decide), value.glyphs,
        Token.proper_glyph ended (by decide)]

theorem levelled_body {parts : List (RawStmt × List Token)}
    (each : ∀ part ∈ parts, part.1.Levelled) : levelledBody (parts.map Prod.fst) := by
  rw [levelledBody_iff]
  exact List.forall_mem_map.mpr each

theorem RoutineText.levelled {r : RoutineText} (formed : r.Formed)
    (each : ∀ part ∈ r.parts, part.1.Levelled) : r.routine.Levelled :=
  ⟨by simpa using formed.room, levelled_body each⟩

theorem WrittenStmt.levelled {s : RawStmt} {us : List Token} (written : WrittenStmt s us) :
    s.Levelled := by
  induction written with
  | expression value => exact value.levelled
  | print _ value => exact value.levelled
  | declare | exit => trivial
  | define _ _ _ value => exact value.levelled
  | ret _ value => exact value.levelled
  | block _ _ _ ih => exact levelled_body ih
  | ifThen _ _ condition _ _ plain ih => exact ⟨condition.levelled, plain, ih⟩
  | ifElse _ _ condition _ _ plain shut _ _ plain' ih ih' =>
      exact ⟨condition.levelled, ⟨plain, shut, ih⟩, plain', ih'⟩
  | loop _ _ condition _ _ plain ih => exact ⟨condition.levelled, plain, ih⟩
  | function _ formed _ ih => exact RoutineText.levelled formed ih
  | classDecl _ _ _ _ formed _ _ ih =>
      refine (levelledMethods_iff _).mpr (List.forall_mem_map.mpr fun r member => ?_)
      exact RoutineText.levelled (formed r member) (ih r member)

end LoxLang
