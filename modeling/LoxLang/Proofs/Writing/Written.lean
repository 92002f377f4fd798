import LoxLang.Proofs.Grammar.Readings
import LoxLang.Proofs.Grammar.Starts
import LoxLang.Proofs.Writing
/-! Expressions with the tokens they are written by, places included. -/
namespace LoxLang

/-- An operator between two operands. -/
inductive Operator where
  | binary (op : BinaryOp)
  | logical (op : LogicalOp)

namespace Operator

def level : Operator → Level
  | binary op => op.level
  | logical op => op.level

def kind : Operator → Kind
  | binary op => op.kind
  | logical op => op.kind

def join (o : Operator) (left : RawExpr) (pos : Pos) (right : RawExpr) : RawExpr :=
  match o with
  | binary op => .binary left op pos right
  | logical op => .logical left op pos right

@[simp] theorem level_join (o : Operator) (left right : RawExpr) (pos : Pos) :
    (o.join left pos right).level = o.level := by cases o <;> rfl

@[simp] theorem glyphs_join (o : Operator) (left right : RawExpr) (pos : Pos) :
    (o.join left pos right).glyphs = left.glyphs ++ o.kind.glyph :: right.glyphs := by
  cases o <;> rfl

end Operator

/-- The expression is written by the tokens: each takes its place and its names from them. -/
inductive Written : RawExpr → List Token → Prop
  | constant {t : Token} {value : Literal} :
    Reading.constant? t = some value → Written (.literal t.pos.line value) [t]
  | var {t : Token} : t.kind = .identifier → Written (.var t.name ()) [t]
  | receiver {t : Token} : t.kind = .thisWord → Written (.receiver t.pos ()) [t]
  | inherited {word dot name : Token} :
    word.kind = .superWord → dot.kind = .dot → name.kind = .identifier →
    Written (.inherited word.pos name.name ()) [word, dot, name]
  | grouping {start stop : Token} {e : RawExpr} {us : List Token} :
    start.kind = .leftParen → Written e us → stop.kind = .rightParen →
    Written (.grouping start.pos.line e) (start :: (us ++ [stop]))
  | call {callee : RawExpr} {start stop : Token} {us vs : List Token}
    {parts : List (RawExpr × List Token)} :
    Written callee us → callee.Sits .call → start.kind = .leftParen →
    (∀ part ∈ parts, Written part.1 part.2) → (∀ part ∈ parts, part.1.Sits .assignment) →
    parts.length ≤ maxEntries → Joined (parts.map Prod.snd) vs → stop.kind = .rightParen →
    Written (.call callee stop.pos (parts.map Prod.fst)) (us ++ start :: (vs ++ [stop]))
  | member {object : RawExpr} {dot name : Token} {us : List Token} :
    Written object us → object.Sits .call → dot.kind = .dot → name.kind = .identifier →
    Written (.member object name.name) (us ++ [dot, name])
  | unary {op : UnaryOp} {t : Token} {e : RawExpr} {us : List Token} :
    Reading.unaryOp? t.kind = some op → Written e us → e.Sits .unary →
    Written (.unary op t.pos e) (t :: us)
  | operation (o : Operator) {l r : RawExpr} {t : Token} {us vs : List Token} :
    Written l us → l.Sits o.level → t.kind = o.kind → Written r vs → r.Sits o.level.next →
    Written (o.join l t.pos r) (us ++ t :: vs)
  | conditional {c a b : RawExpr} {question colon : Token} {us vs ws : List Token} :
    Written c us → c.Sits .disjunction → question.kind = .question →
    Written a vs → a.Sits .assignment → colon.kind = .colon →
    Written b ws → b.Sits .conditional →
    Written (.conditional c a b) (us ++ question :: (vs ++ colon :: ws))
  | assign {name equals : Token} {e : RawExpr} {us : List Token} :
    name.kind = .identifier → equals.kind = .equal → Written e us → e.Sits .assignment →
    Written (.assign name.name e ()) (name :: equals :: us)
  | assignMember {object e : RawExpr} {dot name equals : Token} {us vs : List Token} :
    Written object us → object.Sits .call → dot.kind = .dot → name.kind = .identifier →
    equals.kind = .equal → Written e vs → e.Sits .assignment →
    Written (.assignMember object name.name e) (us ++ dot :: name :: equals :: vs)

/-! What a tree looks like at its level. -/

theorem Operator.level_ne (o : Operator) :
    o.level ∉ [Level.assignment, .conditional, .unary, .call, .primary] := by
  cases o with
  | binary op => cases op <;> decide
  | logical op => cases op <;> decide

theorem Operator.not_sits (o : Operator) {left right : RawExpr} {pos : Pos} :
    ¬(o.join left pos right).Sits .unary := by
  intro sits
  have least : Level.unary.rank ≤ o.level.rank := by simpa [Expr.Sits] using sits
  revert least
  cases o with
  | binary op => cases op <;> decide
  | logical op => cases op <;> decide

theorem Level.rank_next {n : Level} (other : n ≠ .primary) : n.next.rank = n.rank + 1 := by
  cases n <;> first | rfl | exact absurd rfl other

theorem Level.eq_of_rank {n m : Level} (same : n.rank = m.rank) : n = m := by
  cases n <;> cases m <;> first | rfl | cases same

namespace Expr

theorem Sits.of_next {δ : Type} {n : Level} {e : Expr δ} (sits : e.Sits n.next) : e.Sits n := by
  refine Nat.le_trans ?_ sits
  cases n <;> decide

/-- What sits at a level without being of it sits at the next. -/
theorem Sits.next {δ : Type} {n : Level} {e : Expr δ} (sits : e.Sits n) (other : e.level ≠ n) :
    e.Sits n.next := by
  have apart : n.rank ≠ e.level.rank := fun same => other (Level.eq_of_rank same).symm
  have less : n.rank ≤ e.level.rank := sits
  by_cases last : n = .primary
  · subst last
    exact less
  · show n.next.rank ≤ e.level.rank
    rw [Level.rank_next last]
    omega

end Expr

namespace Written
variable {e : RawExpr} {us : List Token}

theorem ne_nil (written : Written e us) : us ≠ [] := by
  cases written <;> simp

/-- A variable is written by its name alone. -/
theorem of_var {n : Name} (written : Written (.var n ()) us) :
    ∃ t, us = [t] ∧ t.kind = .identifier ∧ n = t.name := by
  generalize whole : Expr.var n () = e at written
  cases written with
  | var same =>
      cases whole
      exact ⟨_, rfl, same, rfl⟩
  | operation o => cases o <;> cases whole
  | _ => cases whole

theorem of_member {object : RawExpr} {n : Name} (written : Written (.member object n) us) :
    ∃ vs dot t, us = vs ++ [dot, t] ∧ Written object vs ∧ object.Sits .call ∧ dot.kind = .dot ∧
      t.kind = .identifier ∧ n = t.name := by
  generalize whole : Expr.member object n = e at written
  cases written with
  | member inner sits dotted same =>
      cases whole
      exact ⟨_, _, _, rfl, inner, sits, dotted, same, rfl⟩
  | operation o => cases o <;> cases whole
  | _ => cases whole

/-- An expression of an operator's level is two operands around such an operator. -/
theorem split {o : Operator} (written : Written e us) (same : e.level = o.level) :
    ∃ (o' : Operator) (l r : RawExpr) (t : Token) (vs ws : List Token), o'.level = o.level ∧
      e = o'.join l t.pos r ∧ us = vs ++ t :: ws ∧ t.kind = o'.kind ∧ Written l vs ∧
      l.Sits o.level ∧ Written r ws ∧ r.Sits o.level.next := by
  cases written with
  | operation o' left sits kind right sits' =>
      rw [Operator.level_join] at same
      rw [← same]
      exact ⟨o', _, _, _, _, _, rfl, rfl, rfl, kind, left, sits, right, sits'⟩
  | _ => exact absurd (same ▸ by simp [Expr.level]) o.level_ne

/-- What an expression starts with; a call does not start with an operator. -/
theorem starts (written : Written e us) : ∃ t vs, us = t :: vs ∧ t.kind ∈ expressionStarts ∧
    (e.Sits .call → t.kind ∈ primaryStarts) := by
  have primary {t : Token} {vs : List Token} (e : RawExpr) (start : t.kind ∈ primaryStarts) :
      ∃ u ws, t :: vs = u :: ws ∧ u.kind ∈ expressionStarts ∧
        (e.Sits .call → u.kind ∈ primaryStarts) :=
    ⟨t, vs, rfl, List.mem_cons_of_mem _ (List.mem_cons_of_mem _ start), fun _ => start⟩
  induction written with
  | @constant t value found =>
      refine primary _ ?_
      revert found
      unfold Reading.constant? Token.literal?
      cases t.kind <;> simp [primaryStarts]
  | var same => exact primary _ (by rw [same]; decide)
  | receiver same => exact primary _ (by rw [same]; decide)
  | inherited same => exact primary _ (by rw [same]; decide)
  | grouping same => exact primary _ (by rw [same]; decide)
  | assign same => exact primary _ (by rw [same]; decide)
  | call _ sits _ _ _ _ _ _ ih =>
      obtain ⟨t, vs, rfl, start, other⟩ := ih
      exact ⟨t, _, rfl, start, fun _ => other sits⟩
  | member _ sits _ _ ih =>
      obtain ⟨t, vs, rfl, start, other⟩ := ih
      exact ⟨t, _, rfl, start, fun _ => other sits⟩
  | @unary op t e us found _ _ _ =>
      refine ⟨t, us, rfl, ?_, fun sits => absurd (show 10 ≤ 9 from sits) (by decide)⟩
      revert found
      cases t.kind <;> simp [Reading.unaryOp?, expressionStarts]
  | operation o _ _ _ _ _ ih =>
      obtain ⟨t, vs, rfl, start, -⟩ := ih
      exact ⟨t, _, rfl, start, fun sits => absurd (sits.of_next (n := .unary)) o.not_sits⟩
  | conditional _ _ _ _ _ _ _ _ ih =>
      obtain ⟨t, vs, rfl, start, -⟩ := ih
      exact ⟨t, _, rfl, start, fun sits => absurd (show 10 ≤ 2 from sits) (by decide)⟩
  | assignMember _ sits _ _ _ _ _ ih =>
      obtain ⟨t, vs, rfl, start, other⟩ := ih
      exact ⟨t, _, rfl, start, fun _ => other sits⟩

end Written
/-- The tokens of a routine: its name, its parameters with commas between them, and its body,
statement by statement. -/
structure RoutineText where
  name : Token
  opening : Token
  params : List Token
  list : List Token
  closing : Token
  start : Token
  parts : List (RawStmt × List Token)
  stop : Token

namespace RoutineText

def routine (r : RoutineText) : RawRoutine :=
  .mk r.name.name (r.params.map Token.name) (r.parts.map Prod.fst)

def tokens (r : RoutineText) : List Token :=
  r.name :: r.opening :: (r.list ++ r.closing :: r.start ::
    ((r.parts.map Prod.snd).flatten ++ [r.stop]))

/-- The tokens are of the kinds that a routine has, apart from its body. -/
structure Formed (r : RoutineText) : Prop where
  name : r.name.kind = .identifier
  opening : r.opening.kind = .leftParen
  params : ∀ t ∈ r.params, t.kind = .identifier
  room : r.params.length ≤ maxEntries
  joined : Joined (r.params.map fun t => [t]) r.list
  closing : r.closing.kind = .rightParen
  start : r.start.kind = .leftBrace
  stop : r.stop.kind = .rightBrace

end RoutineText

/-- The superclass of a class, if there is one, is written by the tokens. -/
inductive WrittenAbove : Option (Superclass Unit) → List Token → Prop
  | none : WrittenAbove none []
  | some {less name : Token} : less.kind = .less → name.kind = .identifier →
    WrittenAbove (some ⟨name.name, ()⟩) [less, name]

/-- The statement is written by the tokens. None is a `for`. -/
inductive WrittenStmt : RawStmt → List Token → Prop
  | expression {e : RawExpr} {us : List Token} {stop : Token} :
    Written e us → stop.kind = .semicolon → WrittenStmt (.expression e) (us ++ [stop])
  | print {word stop : Token} {e : RawExpr} {us : List Token} :
    word.kind = .printWord → Written e us → stop.kind = .semicolon →
    WrittenStmt (.print word.pos.line e) (word :: (us ++ [stop]))
  | declare {word name stop : Token} :
    word.kind = .varWord → name.kind = .identifier → stop.kind = .semicolon →
    WrittenStmt (.var name.name none) [word, name, stop]
  | define {word name equals stop : Token} {e : RawExpr} {us : List Token} :
    word.kind = .varWord → name.kind = .identifier → equals.kind = .equal → Written e us →
    stop.kind = .semicolon →
    WrittenStmt (.var name.name (some e)) (word :: name :: equals :: (us ++ [stop]))
  | block {start stop : Token} {parts : List (RawStmt × List Token)} :
    start.kind = .leftBrace → (∀ part ∈ parts, WrittenStmt part.1 part.2) →
    stop.kind = .rightBrace →
    WrittenStmt (.block start.pos.line (parts.map Prod.fst))
      (start :: ((parts.map Prod.snd).flatten ++ [stop]))
  | ifThen {word start stop : Token} {c : RawExpr} {s : RawStmt} {us vs : List Token} :
    word.kind = .ifWord → start.kind = .leftParen → Written c us → stop.kind = .rightParen →
    WrittenStmt s vs → s.binds = none →
    WrittenStmt (.ifThen word.pos.line c s) (word :: start :: (us ++ stop :: vs))
  | ifElse {word start stop other : Token} {c : RawExpr} {s s' : RawStmt}
    {us vs ws : List Token} :
    word.kind = .ifWord → start.kind = .leftParen → Written c us → stop.kind = .rightParen →
    WrittenStmt s vs → s.binds = none → s.takesElse = false → other.kind = .elseWord →
    WrittenStmt s' ws → s'.binds = none →
    WrittenStmt (.ifElse word.pos.line c s s')
      (word :: start :: (us ++ stop :: (vs ++ other :: ws)))
  | loop {word start stop : Token} {c : RawExpr} {s : RawStmt} {us vs : List Token} :
    word.kind = .whileWord → start.kind = .leftParen → Written c us → stop.kind = .rightParen →
    WrittenStmt s vs → s.binds = none →
    WrittenStmt (.loop word.pos.line c s) (word :: start :: (us ++ stop :: vs))
  | function {word : Token} {r : RoutineText} :
    word.kind = .funWord → r.Formed → (∀ part ∈ r.parts, WrittenStmt part.1 part.2) →
    WrittenStmt (.function r.routine) (word :: r.tokens)
  | classDecl {word name start stop : Token} {parent : Option (Superclass Unit)}
    {above : List Token} {methods : List RoutineText} :
    word.kind = .classWord → name.kind = .identifier → WrittenAbove parent above →
    start.kind = .leftBrace → (∀ r ∈ methods, r.Formed) →
    (∀ r ∈ methods, ∀ part ∈ r.parts, WrittenStmt part.1 part.2) → stop.kind = .rightBrace →
    WrittenStmt (.classDecl name.name parent (methods.map RoutineText.routine))
      (word :: name :: (above ++ start :: ((methods.map RoutineText.tokens).flatten ++ [stop])))
  | exit {word stop : Token} : word.kind = .returnWord → stop.kind = .semicolon →
    WrittenStmt (.ret word.pos none) [word, stop]
  | ret {word stop : Token} {e : RawExpr} {us : List Token} :
    word.kind = .returnWord → Written e us → stop.kind = .semicolon →
    WrittenStmt (.ret word.pos (some e)) (word :: (us ++ [stop]))

/-- What a statement starts with; only a declaration starts with a word of declarations. -/
theorem WrittenStmt.starts {s : RawStmt} {us : List Token} (written : WrittenStmt s us) :
    ∃ t vs, us = t :: vs ∧ t.kind ∈ declarationStarts ∧
      (s.binds = none → t.kind ∈ statementStarts) := by
  have word {t : Token} {vs : List Token} {k : Kind} (s : RawStmt) (same : t.kind = k)
      (start : k ∈ statementStarts) : ∃ u ws, t :: vs = u :: ws ∧ u.kind ∈ declarationStarts ∧
        (s.binds = none → u.kind ∈ statementStarts) :=
    ⟨t, vs, rfl, List.mem_append_right _ (same ▸ start), fun _ => same ▸ start⟩
  cases written with
  | expression inner =>
      obtain ⟨t, vs, rfl, start, -⟩ := inner.starts
      exact word _ rfl (List.mem_append_right _ start)
  | print same => exact word _ same (by decide)
  | block same => exact word _ same (by decide)
  | ifThen same => exact word _ same (by decide)
  | ifElse same => exact word _ same (by decide)
  | loop same => exact word _ same (by decide)
  | exit same => exact word _ same (by decide)
  | ret same => exact word _ same (by decide)
  | declare same => exact ⟨_, _, rfl, by rw [same]; decide, fun none => nomatch none⟩
  | define same => exact ⟨_, _, rfl, by rw [same]; decide, fun none => nomatch none⟩
  | function same => exact ⟨_, _, rfl, by rw [same]; decide, fun none => nomatch none⟩
  | classDecl same => exact ⟨_, _, rfl, by rw [same]; decide, fun none => nomatch none⟩

end LoxLang
