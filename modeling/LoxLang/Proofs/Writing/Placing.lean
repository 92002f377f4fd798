import LoxLang.Proofs.Writing.Spelling
/-! Tokens that spell a tree write it, once it has taken its places from them. -/
namespace LoxLang

@[simp] theorem Expr.level_unplaced {δ : Type} (e : Expr δ) : e.unplaced.level = e.level := by
  cases e <;> rfl

/-- Trees that differ in their places only sit at the same levels. -/
theorem Expr.Sits.alike {δ : Type} {n : Level} {e e' : Expr δ} (sits : e.Sits n)
    (same : e'.unplaced = e.unplaced) : e'.Sits n := by
  rwa [Sits, ← e'.level_unplaced, same, level_unplaced]

theorem unplacedAll_eq {δ : Type} (es : List (Expr δ)) : unplacedAll es = es.map Expr.unplaced := by
  induction es with
  | nil => rfl
  | cons e rest ih => rw [unplacedAll, ih, List.map_cons]

/-- The tokens write the expression in other places. -/
def Expr.Placed (e : RawExpr) (us : List Token) : Prop :=
  ∃ e', Written e' us ∧ e'.unplaced = e.unplaced

theorem Operator.unplaced_join (o : Operator) (l r : RawExpr) (p : Pos) :
    (o.join l p r).unplaced = o.join l.unplaced .start r.unplaced := by cases o <;> rfl

/-- Tokens that spell two operands around an operator write them so. -/
theorem Operator.placed (o : Operator) {l r : RawExpr} {p : Pos} {us : List Token}
    (left : ∀ vs : List Token, vs.map Token.glyph = l.glyphs → l.Placed vs) (sits : l.Sits o.level)
    (right : ∀ vs : List Token, vs.map Token.glyph = r.glyphs → r.Placed vs)
    (sits' : r.Sits o.level.next) (whole : us.map Token.glyph = (o.join l p r).glyphs) :
    (o.join l p r).Placed us := by
  rw [Operator.glyphs_join] at whole
  obtain ⟨us, vs, rfl, front, behind⟩ := List.map_eq_append_iff.mp whole
  obtain ⟨t, vs, rfl, sign, behind⟩ := List.map_eq_cons_iff.mp behind
  obtain ⟨l', written, same⟩ := left us front
  obtain ⟨r', written', same'⟩ := right vs behind
  refine ⟨o.join l' t.pos r', .operation o written (sits.alike same) (Token.kind_of_glyph sign)
    written' (sits'.alike same'), ?_⟩
  rw [o.unplaced_join, o.unplaced_join, same, same']

mutual

theorem Expr.placed : ∀ e : RawExpr, e.Levelled → ∀ us : List Token, us.map Token.glyph = e.glyphs →
    e.Placed us
  | .literal _ value => fun _ us whole => by
      obtain ⟨t, rfl, same⟩ := List.map_eq_singleton_iff.mp whole
      exact ⟨.literal t.pos.line value, .constant (constant?_of_glyph same), rfl⟩
  | .var name () => fun _ us whole => by
      obtain ⟨t, rfl, same⟩ := List.map_eq_singleton_iff.mp whole
      obtain ⟨identifier, alike⟩ := Token.name_of_glyph same
      exact ⟨.var t.name (), .var identifier, by simp only [Expr.unplaced, alike]⟩
  | .receiver _ () => fun _ us whole => by
      obtain ⟨t, rfl, same⟩ := List.map_eq_singleton_iff.mp whole
      exact ⟨.receiver t.pos (), .receiver (Token.kind_of_glyph same), rfl⟩
  | .inherited _ method () => fun _ us whole => by
      obtain ⟨word, vs, rfl, same, behind⟩ := List.map_eq_cons_iff.mp whole
      obtain ⟨dot, vs, rfl, dotted, behind⟩ := List.map_eq_cons_iff.mp behind
      obtain ⟨t, rfl, name⟩ := List.map_eq_singleton_iff.mp behind
      obtain ⟨identifier, alike⟩ := Token.name_of_glyph name
      exact ⟨.inherited word.pos t.name (), .inherited (Token.kind_of_glyph same)
        (Token.kind_of_glyph dotted) identifier, by simp only [Expr.unplaced, alike]⟩
  | .grouping _ inner => fun levelled us whole => by
      obtain ⟨start, vs, rfl, same, behind⟩ := List.map_eq_cons_iff.mp whole
      obtain ⟨vs, ws, rfl, middle, behind⟩ := List.map_eq_append_iff.mp behind
      obtain ⟨stop, rfl, closed⟩ := List.map_eq_singleton_iff.mp behind
      obtain ⟨e', written, alike⟩ := inner.placed levelled vs middle
      exact ⟨.grouping start.pos.line e', .grouping (Token.kind_of_glyph same) written
        (Token.kind_of_glyph closed), by simp only [Expr.unplaced, alike]⟩
  | .assign name value () => fun levelled us whole => by
      obtain ⟨t, vs, rfl, same, behind⟩ := List.map_eq_cons_iff.mp whole
      obtain ⟨equals, vs, rfl, sign, behind⟩ := List.map_eq_cons_iff.mp behind
      obtain ⟨identifier, alike⟩ := Token.name_of_glyph same
      obtain ⟨e', written, alike'⟩ := value.placed levelled.2 vs behind
      exact ⟨.assign t.name e' (), .assign identifier (Token.kind_of_glyph sign) written
        (levelled.1.alike alike'), by simp only [Expr.unplaced, alike, alike']⟩
  | .unary op _ operand => fun levelled us whole => by
      obtain ⟨t, vs, rfl, sign, behind⟩ := List.map_eq_cons_iff.mp whole
      obtain ⟨e', written, alike⟩ := operand.placed levelled.2 vs behind
      have found : Reading.unaryOp? t.kind = some op := by
        rw [Token.kind_of_glyph sign, unaryOp?_of_kind]
      exact ⟨.unary op t.pos e', .unary found written (levelled.1.alike alike),
        by simp only [Expr.unplaced, alike]⟩
  | .binary left op p right => fun levelled us whole =>
      Operator.placed (.binary op) (left.placed levelled.1.2) levelled.1.1
        (right.placed levelled.2.2) levelled.2.1 whole
  | .logical left op p right => fun levelled us whole =>
      Operator.placed (.logical op) (left.placed levelled.1.2) levelled.1.1
        (right.placed levelled.2.2) levelled.2.1 whole
  | .conditional c a b => fun levelled us whole => by
      obtain ⟨us, vs, rfl, front, behind⟩ := List.map_eq_append_iff.mp whole
      obtain ⟨question, vs, rfl, asked, behind⟩ := List.map_eq_cons_iff.mp behind
      obtain ⟨vs, ws, rfl, middle, behind⟩ := List.map_eq_append_iff.mp behind
      obtain ⟨colon, ws, rfl, parted, behind⟩ := List.map_eq_cons_iff.mp behind
      obtain ⟨⟨sits, first⟩, ⟨sits', second⟩, sits'', third⟩ := levelled
      obtain ⟨c', written, alike⟩ := c.placed first us front
      obtain ⟨a', written', alike'⟩ := a.placed second vs middle
      obtain ⟨b', written'', alike''⟩ := b.placed third ws behind
      exact ⟨.conditional c' a' b', .conditional written (sits.alike alike)
        (Token.kind_of_glyph asked) written' (sits'.alike alike') (Token.kind_of_glyph parted)
        written'' (sits''.alike alike''), by simp only [Expr.unplaced, alike, alike', alike'']⟩
  | .call callee _ arguments => fun levelled us whole => by
      obtain ⟨us, vs, rfl, front, behind⟩ := List.map_eq_append_iff.mp whole
      obtain ⟨start, vs, rfl, same, behind⟩ := List.map_eq_cons_iff.mp behind
      obtain ⟨vs, ws, rfl, middle, behind⟩ := List.map_eq_append_iff.mp behind
      obtain ⟨stop, rfl, closed⟩ := List.map_eq_singleton_iff.mp behind
      obtain ⟨⟨sits, first⟩, room, all⟩ := levelled
      obtain ⟨c', written, alike⟩ := callee.placed first us front
      obtain ⟨pieces, joined, list⟩ := joined_of_glyphs middle
      obtain ⟨parts, rfl, each, alike'⟩ := placedAll arguments all pieces list
      have count : parts.length ≤ maxEntries := by
        have sizes := congrArg List.length alike'
        simp only [unplacedAll_eq, List.length_map] at sizes
        omega
      exact ⟨.call c' stop.pos (parts.map Prod.fst), .call written (sits.alike alike)
        (Token.kind_of_glyph same) (fun part member => (each part member).1)
        (fun part member => (each part member).2) count joined (Token.kind_of_glyph closed),
        by simp only [Expr.unplaced, alike, alike']⟩
  | .member object name => fun levelled us whole => by
      obtain ⟨us, vs, rfl, front, behind⟩ := List.map_eq_append_iff.mp whole
      obtain ⟨dot, vs, rfl, dotted, behind⟩ := List.map_eq_cons_iff.mp behind
      obtain ⟨t, rfl, same⟩ := List.map_eq_singleton_iff.mp behind
      obtain ⟨identifier, alike⟩ := Token.name_of_glyph same
      obtain ⟨o', written, alike'⟩ := object.placed levelled.2 us front
      exact ⟨.member o' t.name, .member written (levelled.1.alike alike')
        (Token.kind_of_glyph dotted) identifier, by simp only [Expr.unplaced, alike, alike']⟩
  | .assignMember object name value => fun levelled us whole => by
      obtain ⟨us, vs, rfl, front, behind⟩ := List.map_eq_append_iff.mp whole
      obtain ⟨dot, vs, rfl, dotted, behind⟩ := List.map_eq_cons_iff.mp behind
      obtain ⟨t, vs, rfl, same, behind⟩ := List.map_eq_cons_iff.mp behind
      obtain ⟨equals, vs, rfl, sign, behind⟩ := List.map_eq_cons_iff.mp behind
      obtain ⟨identifier, alike⟩ := Token.name_of_glyph same
      obtain ⟨⟨sits, first⟩, sits', second⟩ := levelled
      obtain ⟨o', written, alike'⟩ := object.placed first us front
      obtain ⟨e', written', alike''⟩ := value.placed second vs behind
      exact ⟨.assignMember o' t.name e', .assignMember written (sits.alike alike')
        (Token.kind_of_glyph dotted) identifier (Token.kind_of_glyph sign) written'
        (sits'.alike alike''), by simp only [Expr.unplaced, alike, alike', alike'']⟩

theorem placedAll : ∀ es : List RawExpr, levelledAll es → ∀ list : List (List Token),
    list.map (List.map Token.glyph) = glyphsOfAll es →
    ∃ parts : List (RawExpr × List Token), parts.map Prod.snd = list ∧
      (∀ part ∈ parts, Written part.1 part.2 ∧ part.1.Sits .assignment) ∧
      unplacedAll (parts.map Prod.fst) = unplacedAll es
  | [] => fun _ list whole => by
      cases List.map_eq_nil_iff.mp whole
      exact ⟨[], rfl, by simp, rfl⟩
  | e :: rest => fun levelled list whole => by
      obtain ⟨us, list, rfl, here, later⟩ := List.map_eq_cons_iff.mp whole
      obtain ⟨⟨sits, first⟩, others⟩ := levelled
      obtain ⟨e', written, alike⟩ := e.placed first us here
      obtain ⟨parts, rfl, each, alike'⟩ := placedAll rest others list later
      have all : ∀ part ∈ (e', us) :: parts, Written part.1 part.2 ∧ part.1.Sits .assignment :=
        List.forall_mem_cons.mpr ⟨⟨written, sits.alike alike⟩, each⟩
      refine ⟨(e', us) :: parts, rfl, all, ?_⟩
      simp only [List.map_cons, unplacedAll, alike, alike']

end

/-! Statements. -/

theorem Stmt.takesElse_unplaced {δ : Type} : ∀ s : Stmt δ, s.unplaced.takesElse = s.takesElse
  | .ifElse _ _ _ elseBranch => elseBranch.takesElse_unplaced
  | .loop _ _ body => body.takesElse_unplaced
  | .ifThen _ _ _ | .expression _ | .print _ _ | .var _ _ | .block _ _ | .function _
  | .classDecl _ _ _ | .ret _ _ => rfl

theorem Stmt.binds_unplaced {δ : Type} (s : Stmt δ) :
    s.unplaced.binds = s.binds.map Name.unplaced := by
  cases s with
  | function r => cases r; rfl
  | _ => rfl

section
variable {δ : Type} {s s' : Stmt δ}

theorem Stmt.takesElse_alike (same : s'.unplaced = s.unplaced) : s'.takesElse = s.takesElse := by
  rw [← s'.takesElse_unplaced, same, s.takesElse_unplaced]

theorem Stmt.plain_alike (plain : s.binds = none) (same : s'.unplaced = s.unplaced) :
    s'.binds = none := by
  have none := s'.binds_unplaced
  rw [same, s.binds_unplaced, plain] at none
  exact Option.map_eq_none_iff.mp none.symm

end

/-- The tokens write the statement in other places. -/
def Stmt.Placed (s : RawStmt) (us : List Token) : Prop :=
  ∃ s', WrittenStmt s' us ∧ s'.unplaced = s.unplaced

/-- The tokens write the statements in other places, one after another. -/
def PlacedBody (ss : List RawStmt) (us : List Token) : Prop :=
  ∃ parts : List (RawStmt × List Token), us = (parts.map Prod.snd).flatten ∧
    (∀ part ∈ parts, WrittenStmt part.1 part.2) ∧
    unplacedBody (parts.map Prod.fst) = unplacedBody ss

/-- The tokens write the routine in other places. -/
def Routine.Placed (r : RawRoutine) (us : List Token) : Prop :=
  ∃ text : RoutineText, us = text.tokens ∧ text.Formed ∧
    (∀ part ∈ text.parts, WrittenStmt part.1 part.2) ∧ text.routine.unplaced = r.unplaced

theorem params_of_glyphs {params : List Name} {list : List (List Token)}
    (whole : list.map (List.map Token.glyph) = params.map fun p => [p.glyph]) :
    ∃ ts : List Token, list = ts.map (fun t => [t]) ∧ (∀ t ∈ ts, t.kind = .identifier) ∧
      (ts.map Token.name).map Name.unplaced = params.map Name.unplaced := by
  induction params generalizing list with
  | nil =>
      cases List.map_eq_nil_iff.mp whole
      exact ⟨[], rfl, by simp, rfl⟩
  | cons p params ih =>
      obtain ⟨us, list, rfl, here, later⟩ := List.map_eq_cons_iff.mp whole
      obtain ⟨t, rfl, same⟩ := List.map_eq_singleton_iff.mp here
      obtain ⟨identifier, alike⟩ := Token.name_of_glyph same
      obtain ⟨ts, rfl, all, rest⟩ := ih later
      refine ⟨t :: ts, rfl, List.forall_mem_cons.mpr ⟨identifier, all⟩, ?_⟩
      rw [List.map_cons, List.map_cons, List.map_cons, alike, rest]

theorem superclass_of_glyphs {parent : Option (Superclass Unit)} {us : List Token}
    (whole : us.map Token.glyph = (parent.map Superclass.glyphs).getD []) :
    ∃ parent', WrittenAbove parent' us ∧
      parent'.map Superclass.unplaced = parent.map Superclass.unplaced := by
  cases parent with
  | none =>
      cases List.map_eq_nil_iff.mp whole
      exact ⟨none, .none, rfl⟩
  | some parent =>
      obtain ⟨less, us, rfl, sign, behind⟩ := List.map_eq_cons_iff.mp whole
      obtain ⟨t, rfl, same⟩ := List.map_eq_singleton_iff.mp behind
      obtain ⟨identifier, alike⟩ := Token.name_of_glyph same
      exact ⟨some ⟨t.name, ()⟩, .some (Token.kind_of_glyph sign) identifier,
        by simp only [Option.map_some, Superclass.unplaced, alike]⟩

mutual

theorem Stmt.placed : ∀ s : RawStmt, s.Levelled → ∀ us : List Token, us.map Token.glyph = s.glyphs →
    s.Placed us
  | .expression value => fun levelled us whole => by
      obtain ⟨us, vs, rfl, front, behind⟩ := List.map_eq_append_iff.mp whole
      obtain ⟨stop, rfl, ended⟩ := List.map_eq_singleton_iff.mp behind
      obtain ⟨e', written, alike⟩ := value.placed levelled us front
      exact ⟨.expression e', .expression written (Token.kind_of_glyph ended),
        by simp only [Stmt.unplaced, alike]⟩
  | .print _ value => fun levelled us whole => by
      obtain ⟨word, us, rfl, same, behind⟩ := List.map_eq_cons_iff.mp whole
      obtain ⟨us, vs, rfl, front, behind⟩ := List.map_eq_append_iff.mp behind
      obtain ⟨stop, rfl, ended⟩ := List.map_eq_singleton_iff.mp behind
      obtain ⟨e', written, alike⟩ := value.placed levelled us front
      exact ⟨.print word.pos.line e', .print (Token.kind_of_glyph same) written
        (Token.kind_of_glyph ended), by simp only [Stmt.unplaced, alike]⟩
  | .var name none => fun _ us whole => by
      obtain ⟨word, us, rfl, same, behind⟩ := List.map_eq_cons_iff.mp whole
      obtain ⟨t, us, rfl, named, behind⟩ := List.map_eq_cons_iff.mp behind
      obtain ⟨stop, rfl, ended⟩ := List.map_eq_singleton_iff.mp behind
      obtain ⟨identifier, alike⟩ := Token.name_of_glyph named
      exact ⟨.var t.name none, .declare (Token.kind_of_glyph same) identifier
        (Token.kind_of_glyph ended), by simp only [Stmt.unplaced, alike]⟩
  | .var name (some value) => fun levelled us whole => by
      obtain ⟨word, us, rfl, same, behind⟩ := List.map_eq_cons_iff.mp whole
      obtain ⟨t, us, rfl, named, behind⟩ := List.map_eq_cons_iff.mp behind
      obtain ⟨equals, us, rfl, sign, behind⟩ := List.map_eq_cons_iff.mp behind
      obtain ⟨us, vs, rfl, front, behind⟩ := List.map_eq_append_iff.mp behind
      obtain ⟨stop, rfl, ended⟩ := List.map_eq_singleton_iff.mp behind
      obtain ⟨identifier, alike⟩ := Token.name_of_glyph named
      obtain ⟨e', written, alike'⟩ := value.placed levelled us front
      exact ⟨.var t.name (some e'), .define (Token.kind_of_glyph same) identifier
        (Token.kind_of_glyph sign) written (Token.kind_of_glyph ended),
        by simp only [Stmt.unplaced, alike, Option.map_some, alike']⟩
  | .block _ body => fun levelled us whole => by
      obtain ⟨start, us, rfl, same, behind⟩ := List.map_eq_cons_iff.mp whole
      obtain ⟨us, vs, rfl, front, behind⟩ := List.map_eq_append_iff.mp behind
      obtain ⟨stop, rfl, closed⟩ := List.map_eq_singleton_iff.mp behind
      obtain ⟨parts, rfl, all, alike⟩ := placedBody body levelled us front
      exact ⟨.block start.pos.line (parts.map Prod.fst), .block (Token.kind_of_glyph same) all
        (Token.kind_of_glyph closed), by simp only [Stmt.unplaced, alike]⟩
  | .ifThen _ c s => fun levelled us whole => by
      obtain ⟨word, us, rfl, same, behind⟩ := List.map_eq_cons_iff.mp whole
      obtain ⟨start, us, rfl, opened, behind⟩ := List.map_eq_cons_iff.mp behind
      obtain ⟨us, vs, rfl, front, behind⟩ := List.map_eq_append_iff.mp behind
      obtain ⟨stop, vs, rfl, closed, behind⟩ := List.map_eq_cons_iff.mp behind
      obtain ⟨test, plain, branch⟩ := levelled
      obtain ⟨c', written, alike⟩ := c.placed test us front
      obtain ⟨s', written', alike'⟩ := s.placed branch vs behind
      exact ⟨.ifThen word.pos.line c' s', .ifThen (Token.kind_of_glyph same)
        (Token.kind_of_glyph opened) written (Token.kind_of_glyph closed) written'
        (Stmt.plain_alike plain alike'), by simp only [Stmt.unplaced, alike, alike']⟩
  | .ifElse _ c s₁ s₂ => fun levelled us whole => by
      obtain ⟨word, us, rfl, same, behind⟩ := List.map_eq_cons_iff.mp whole
      obtain ⟨start, us, rfl, opened, behind⟩ := List.map_eq_cons_iff.mp behind
      obtain ⟨us, vs, rfl, front, behind⟩ := List.map_eq_append_iff.mp behind
      obtain ⟨stop, vs, rfl, closed, behind⟩ := List.map_eq_cons_iff.mp behind
      obtain ⟨vs, ws, rfl, middle, behind⟩ := List.map_eq_append_iff.mp behind
      obtain ⟨other, ws, rfl, elsewise, behind⟩ := List.map_eq_cons_iff.mp behind
      obtain ⟨test, ⟨plain₁, shut, branch₁⟩, plain₂, branch₂⟩ := levelled
      obtain ⟨c', written, alike⟩ := c.placed test us front
      obtain ⟨s₁', written₁, alike₁⟩ := s₁.placed branch₁ vs middle
      obtain ⟨s₂', written₂, alike₂⟩ := s₂.placed branch₂ ws behind
      exact ⟨.ifElse word.pos.line c' s₁' s₂', .ifElse (Token.kind_of_glyph same)
        (Token.kind_of_glyph opened) written (Token.kind_of_glyph closed) written₁
        (Stmt.plain_alike plain₁ alike₁) ((Stmt.takesElse_alike alike₁).trans shut)
        (Token.kind_of_glyph elsewise) written₂ (Stmt.plain_alike plain₂ alike₂),
        by simp only [Stmt.unplaced, alike, alike₁, alike₂]⟩
  | .loop _ c s => fun levelled us whole => by
      obtain ⟨word, us, rfl, same, behind⟩ := List.map_eq_cons_iff.mp whole
      obtain ⟨start, us, rfl, opened, behind⟩ := List.map_eq_cons_iff.mp behind
      obtain ⟨us, vs, rfl, front, behind⟩ := List.map_eq_append_iff.mp behind
      obtain ⟨stop, vs, rfl, closed, behind⟩ := List.map_eq_cons_iff.mp behind
      obtain ⟨test, plain, body⟩ := levelled
      obtain ⟨c', written, alike⟩ := c.placed test us front
      obtain ⟨s', written', alike'⟩ := s.placed body vs behind
      exact ⟨.loop word.pos.line c' s', .loop (Token.kind_of_glyph same)
        (Token.kind_of_glyph opened) written (Token.kind_of_glyph closed) written'
        (Stmt.plain_alike plain alike'), by simp only [Stmt.unplaced, alike, alike']⟩
  | .function r => fun levelled us whole => by
      obtain ⟨word, us, rfl, same, behind⟩ := List.map_eq_cons_iff.mp whole
      obtain ⟨text, rfl, formed, all, alike⟩ := r.placed levelled us behind
      exact ⟨.function text.routine, .function (Token.kind_of_glyph same) formed all,
        by simp only [Stmt.unplaced, alike]⟩
  | .classDecl name parent methods => fun levelled us whole => by
      obtain ⟨word, us, rfl, same, behind⟩ := List.map_eq_cons_iff.mp whole
      obtain ⟨t, us, rfl, named, behind⟩ := List.map_eq_cons_iff.mp behind
      obtain ⟨above, us, rfl, front, behind⟩ := List.map_eq_append_iff.mp behind
      obtain ⟨start, us, rfl, opened, behind⟩ := List.map_eq_cons_iff.mp behind
      obtain ⟨us, vs, rfl, middle, behind⟩ := List.map_eq_append_iff.mp behind
      obtain ⟨stop, rfl, closed⟩ := List.map_eq_singleton_iff.mp behind
      obtain ⟨identifier, alike⟩ := Token.name_of_glyph named
      obtain ⟨parent', inherits, alike'⟩ := superclass_of_glyphs front
      obtain ⟨texts, rfl, formed, all, alike''⟩ := placedMethods methods levelled us middle
      exact ⟨.classDecl t.name parent' (texts.map RoutineText.routine),
        .classDecl (Token.kind_of_glyph same) identifier inherits (Token.kind_of_glyph opened)
          formed all (Token.kind_of_glyph closed),
        by simp only [Stmt.unplaced, alike, alike', alike'']⟩
  | .ret _ none => fun _ us whole => by
      obtain ⟨word, us, rfl, same, behind⟩ := List.map_eq_cons_iff.mp whole
      obtain ⟨stop, rfl, ended⟩ := List.map_eq_singleton_iff.mp behind
      exact ⟨.ret word.pos none, .exit (Token.kind_of_glyph same) (Token.kind_of_glyph ended), rfl⟩
  | .ret _ (some value) => fun levelled us whole => by
      obtain ⟨word, us, rfl, same, behind⟩ := List.map_eq_cons_iff.mp whole
      obtain ⟨us, vs, rfl, front, behind⟩ := List.map_eq_append_iff.mp behind
      obtain ⟨stop, rfl, ended⟩ := List.map_eq_singleton_iff.mp behind
      obtain ⟨e', written, alike⟩ := value.placed levelled us front
      exact ⟨.ret word.pos (some e'), .ret (Token.kind_of_glyph same) written
        (Token.kind_of_glyph ended), by simp only [Stmt.unplaced, Option.map_some, alike]⟩

theorem placedBody : ∀ ss : List RawStmt, levelledBody ss → ∀ us : List Token,
    us.map Token.glyph = glyphsOfBody ss → PlacedBody ss us
  | [] => fun _ us whole => by
      cases List.map_eq_nil_iff.mp whole
      exact ⟨[], rfl, by simp, rfl⟩
  | s :: rest => fun levelled us whole => by
      obtain ⟨us, vs, rfl, front, behind⟩ := List.map_eq_append_iff.mp whole
      obtain ⟨s', written, alike⟩ := s.placed levelled.1 us front
      obtain ⟨parts, rfl, all, alike'⟩ := placedBody rest levelled.2 vs behind
      refine ⟨(s', us) :: parts, rfl, List.forall_mem_cons.mpr ⟨written, all⟩, ?_⟩
      simp only [List.map_cons, unplacedBody, alike, alike']

theorem Routine.placed : ∀ r : RawRoutine, r.Levelled → ∀ us : List Token,
    us.map Token.glyph = r.glyphs → r.Placed us
  | .mk name params body => fun levelled us whole => by
      obtain ⟨t, us, rfl, named, behind⟩ := List.map_eq_cons_iff.mp whole
      obtain ⟨opening, us, rfl, opened, behind⟩ := List.map_eq_cons_iff.mp behind
      obtain ⟨us, vs, rfl, front, behind⟩ := List.map_eq_append_iff.mp behind
      obtain ⟨closing, vs, rfl, closed, behind⟩ := List.map_eq_cons_iff.mp behind
      obtain ⟨start, vs, rfl, braced, behind⟩ := List.map_eq_cons_iff.mp behind
      obtain ⟨vs, ws, rfl, middle, behind⟩ := List.map_eq_append_iff.mp behind
      obtain ⟨stop, rfl, ended⟩ := List.map_eq_singleton_iff.mp behind
      obtain ⟨identifier, alike⟩ := Token.name_of_glyph named
      obtain ⟨pieces, joined, list⟩ := joined_of_glyphs front
      obtain ⟨ts, rfl, identifiers, alike'⟩ := params_of_glyphs list
      obtain ⟨parts, rfl, all, alike''⟩ := placedBody body levelled.2 vs middle
      have room : ts.length ≤ maxEntries := by
        have sizes := congrArg List.length alike'
        simp only [List.length_map] at sizes
        have allowed := levelled.1
        omega
      refine ⟨⟨t, opening, ts, us, closing, start, parts, stop⟩, rfl, ?_, all, ?_⟩
      · exact ⟨identifier, Token.kind_of_glyph opened, identifiers, room, joined,
          Token.kind_of_glyph closed, Token.kind_of_glyph braced, Token.kind_of_glyph ended⟩
      · simp only [RoutineText.routine, Routine.unplaced, alike, alike', alike'']

theorem placedMethods : ∀ rs : List RawRoutine, levelledMethods rs → ∀ us : List Token,
    us.map Token.glyph = glyphsOfMethods rs → ∃ texts : List RoutineText,
      us = (texts.map RoutineText.tokens).flatten ∧ (∀ r ∈ texts, r.Formed) ∧
      (∀ r ∈ texts, ∀ part ∈ r.parts, WrittenStmt part.1 part.2) ∧
      unplacedMethods (texts.map RoutineText.routine) = unplacedMethods rs
  | [] => fun _ us whole => by
      cases List.map_eq_nil_iff.mp whole
      exact ⟨[], rfl, by simp, by simp, rfl⟩
  | r :: rest => fun levelled us whole => by
      obtain ⟨us, vs, rfl, front, behind⟩ := List.map_eq_append_iff.mp whole
      obtain ⟨text, rfl, formed, all, alike⟩ := r.placed levelled.1 us front
      obtain ⟨texts, rfl, formeds, alls, alike'⟩ := placedMethods rest levelled.2 vs behind
      refine ⟨text :: texts, rfl, List.forall_mem_cons.mpr ⟨formed, formeds⟩,
        List.forall_mem_cons.mpr ⟨all, alls⟩, ?_⟩
      simp only [List.map_cons, unplacedMethods, alike, alike']

end

end LoxLang
