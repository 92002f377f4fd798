import LoxLang.Tree.Statement
/-! Where readings are abandoned. Whatever a reading has reported before and goes on from, it gives
up at the token that its last message is about. -/
namespace LoxLang
namespace Reading
variable {α β : Type}

/-- Without a value, the last message is about the first token that is left. -/
def Outcome.Blames (o : Outcome α) : Prop :=
  o.value? = none → ∃ before cause, o.issues = before ++ [⟨o.rest.head?, cause⟩]

def Blames (x : Reading α) : Prop := ∀ ts, (x ts).Blames

theorem Outcome.Blames.some {a : α} {rest : List Token} {issues : List Issue} :
    Outcome.Blames ⟨some a, rest, issues⟩ := nofun

namespace Blames
variable {x : Reading α} {f : α → Reading β} {kind : Kind} {cause : SyntaxError}

theorem pure {a : α} : Blames (Pure.pure a : Reading α) := fun _ => .some

theorem fail : Blames (Reading.fail cause : Reading α) := fun _ _ => ⟨[], cause, rfl⟩

/-- What the first part has reported comes before what the second part is abandoned for. -/
theorem bind (first : Blames x) (second : ∀ a, Blames (f a)) : Blames (x >>= f) := by
  intro ts
  cases value : (x ts).value? with
  | none =>
      intro _
      simpa only [Bind.bind, value] using first ts value
  | some a =>
      intro abandoned
      simp only [Bind.bind, value] at abandoned ⊢
      obtain ⟨before, cause, issues⟩ := second a (x ts).rest abandoned
      exact ⟨(x ts).issues ++ before, cause, by rw [issues, List.append_assoc]⟩

theorem bind_pure {g : α → β} (blames : Blames x) : Blames (x >>= fun a => Pure.pure (g a)) :=
  blames.bind fun _ => pure

theorem map {g : α → β} (blames : Blames x) : Blames (g <$> x) := blames.bind_pure

theorem reportAt {site : Option Token} : Blames (Reading.reportAt site cause) := fun _ => .some

theorem report : Blames (Reading.report cause) := fun _ => .some

theorem nextIs : Blames (Reading.nextIs kind) := fun _ => .some

theorem acceptWith? {choice : Kind → Option α} : Blames (Reading.acceptWith? choice) := by
  intro ts
  unfold Reading.acceptWith?
  split
  · exact .some
  · split <;> exact .some

theorem accept? : Blames (Reading.accept? kind) := by
  intro ts
  unfold Reading.accept?
  split
  · exact .some
  · split <;> exact .some

theorem expect : Blames (Reading.expect kind cause) := by
  intro ts
  unfold Reading.expect
  split
  · exact fail []
  · split
    · exact .some
    · exact fail _

theorem expectName : Blames (Reading.expectName cause) := expect.bind_pure

theorem recover : Blames (Reading.recover x) := by
  intro ts
  unfold Reading.recover
  dsimp only
  split <;> exact .some

theorem untilBrace (blames : Blames x) (n : Nat) : Blames (Reading.untilBrace x n) := by
  induction n with
  | zero => exact pure
  | succ n ih =>
      intro ts
      unfold Reading.untilBrace
      split
      · exact .some
      · exact (blames.bind fun _ => ih.bind_pure) ts

theorem entry {tooMany : SyntaxError} (blames : Blames x) (count : Nat) :
    Blames (Reading.entry tooMany x count) := by
  unfold Reading.entry
  split
  · exact report.bind fun _ => blames
  · exact blames

theorem entries {tooMany : SyntaxError} (blames : Blames x) (n : Nat) :
    ∀ count, Blames (Reading.entries tooMany x n count) := by
  induction n with
  | zero => exact fun count => (blames.entry count).bind_pure
  | succ n ih =>
      refine fun count => (blames.entry count).bind fun first => accept?.bind fun comma => ?_
      cases comma with
      | none => exact pure
      | some _ => exact (ih (count + 1)).bind_pure

end Blames

/-! Expressions. -/

section
variable {budget : Nat} {nested operand : Reading RawExpr}

theorem blames_leftNested {ω : Type} {choice : Kind → Option ω}
    {join : RawExpr → ω → Pos → RawExpr → RawExpr} (blames : Blames operand) :
    Blames (leftNested choice join budget operand) := by
  have chain (n : Nat) : ∀ left, Blames (chain choice join operand n left) := by
    induction n with
    | zero => exact fun left => .pure
    | succ n ih =>
        refine fun left => Blames.acceptWith?.bind fun found => ?_
        cases found with
        | none => exact .pure
        | some _ => exact blames.bind fun right => ih _
  exact blames.bind fun first => chain budget first

theorem blames_primary (blames : Blames nested) : Blames (primary budget nested) := by
  intro ts
  unfold primary
  split
  · exact Blames.fail []
  · split
    · exact .some
    · split
      · exact (Blames.expect.bind fun _ => Blames.expectName.bind_pure) _
      · exact .some
      · exact .some
      · exact ((blames_leftNested blames).bind fun _ => Blames.expect.bind_pure) _
      · exact Blames.fail _

theorem blames_arguments (blames : Blames nested) : Blames (arguments budget nested) := by
  refine Blames.nextIs.bind fun close => ?_
  cases close with
  | true => exact Blames.expect.bind_pure
  | false => exact (blames.entries budget 0).bind fun _ => Blames.expect.bind_pure

theorem blames_suffixes (blames : Blames nested) (n : Nat) :
    ∀ e, Blames (suffixes budget nested n e) := by
  induction n with
  | zero => exact fun e => .pure
  | succ n ih =>
      intro e ts
      unfold suffixes
      split
      · exact .some
      · split
        · exact ((blames_arguments blames).bind fun _ => ih _) _
        · exact (Blames.expectName.bind fun _ => ih _) _
        · exact .some

theorem blames_unaryLevel (blames : Blames nested) (n : Nat) :
    Blames (unaryLevel budget nested n) := by
  induction n with
  | zero => exact .fail
  | succ n ih =>
      refine Blames.acceptWith?.bind fun found => ?_
      cases found with
      | none => exact (blames_primary blames).bind fun e => blames_suffixes blames budget e
      | some _ => exact ih.bind_pure

theorem blames_disjunction (blames : Blames nested) : Blames (disjunction budget nested) :=
  blames_leftNested <| blames_leftNested <| blames_leftNested <| blames_leftNested <|
    blames_leftNested <| blames_leftNested <| blames_unaryLevel blames budget

theorem blames_conditional (blames : Blames nested) (n : Nat) :
    Blames (conditional budget nested n) := by
  induction n with
  | zero => exact .fail
  | succ n ih =>
      refine (blames_disjunction blames).bind fun c => Blames.accept?.bind fun question => ?_
      cases question with
      | none => exact .pure
      | some _ => exact blames.bind fun _ => Blames.expect.bind fun _ => ih.bind_pure

theorem blames_assignTo (target : RawExpr) (equals : Token) (value : RawExpr) :
    Blames (assignTo target equals value) := by
  unfold assignTo
  split
  · exact .pure
  · exact .pure
  · exact Blames.reportAt.bind_pure

theorem blames_assignment (n : Nat) : Blames (assignment n) := by
  induction n with
  | zero => exact .fail
  | succ n ih =>
      refine (blames_conditional ih (n + 1)).bind fun left => Blames.accept?.bind fun equals => ?_
      cases equals with
      | none => exact .pure
      | some equals => exact ih.bind fun value => blames_assignTo left equals value

theorem blames_expression (budget : Nat) : Blames (expression budget) :=
  blames_leftNested (blames_assignment budget)

end

/-! Statements. -/

section
variable {budget : Nat} {statement : Reading RawStmt} {declaration : Reading (Option RawStmt)}

theorem blames_variableDeclaration : Blames (variableDeclaration budget) := by
  refine Blames.expectName.bind fun name => Blames.accept?.bind fun equals => ?_
  cases equals with
  | none => exact Blames.expect.bind_pure
  | some _ => exact (blames_expression budget).bind fun _ => Blames.expect.bind_pure

theorem blames_expressionStatement : Blames (expressionStatement budget) :=
  (blames_expression budget).bind fun _ => Blames.expect.bind_pure

theorem blames_optionalExpression (stop : Kind) : Blames (optionalExpression budget stop) := by
  refine Blames.nextIs.bind fun next => ?_
  cases next with
  | true => exact .pure
  | false => exact (blames_expression budget).map

theorem blames_forInitializer : Blames (forInitializer budget) := by
  refine Blames.accept?.bind fun semicolon => ?_
  cases semicolon with
  | some _ => exact .pure
  | none =>
      refine Blames.accept?.bind fun word => ?_
      cases word with
      | some _ => exact blames_variableDeclaration.map
      | none => exact blames_expressionStatement.map

theorem blames_forLoop (blames : Blames statement) (line : Nat) :
    Blames (forLoop budget statement line) :=
  Blames.expect.bind fun _ => blames_forInitializer.bind fun _ =>
    (blames_optionalExpression .semicolon).bind fun _ => Blames.expect.bind fun _ =>
      (blames_optionalExpression .rightParen).bind fun _ => Blames.expect.bind fun _ =>
        blames.bind_pure

theorem blames_ifStatement (blames : Blames statement) (line : Nat) :
    Blames (ifStatement budget statement line) := by
  refine Blames.expect.bind fun _ => (blames_expression budget).bind fun _ =>
    Blames.expect.bind fun _ => blames.bind fun _ => Blames.accept?.bind fun word => ?_
  cases word with
  | none => exact .pure
  | some _ => exact blames.bind_pure

theorem blames_whileStatement (blames : Blames statement) (line : Nat) :
    Blames (whileStatement budget statement line) :=
  Blames.expect.bind fun _ => (blames_expression budget).bind fun _ => Blames.expect.bind fun _ =>
    blames.bind_pure

theorem blames_block (blames : Blames declaration) : Blames (block budget declaration) :=
  (blames.untilBrace budget).bind fun _ => Blames.expect.bind_pure

theorem blames_routine (blames : Blames declaration) (kind : RoutineKind) :
    Blames (routine budget declaration kind) := by
  have behind {x : Reading (List Name)} (params : Blames x) (name : Name) :
      Blames (do
        let params ← x
        let _ ← expect .rightParen .parametersEnd
        let _ ← expect .leftBrace (.routineBodyStart kind)
        let body ← block budget declaration
        Pure.pure (Routine.mk name params body)) :=
    params.bind fun _ => Blames.expect.bind fun _ => Blames.expect.bind fun _ =>
      (blames_block blames).bind_pure
  refine Blames.expectName.bind fun name => Blames.expect.bind fun _ =>
    Blames.nextIs.bind fun close => ?_
  cases close with
  | true => exact behind .pure name
  | false => exact behind (Blames.expectName.entries budget 0) name

theorem blames_superclass : Blames superclass := by
  refine Blames.accept?.bind fun less => ?_
  cases less with
  | none => exact .pure
  | some _ => exact Blames.expectName.bind_pure

theorem blames_classDeclaration (blames : Blames declaration) :
    Blames (classDeclaration budget declaration) :=
  Blames.expectName.bind fun _ => blames_superclass.bind fun _ => Blames.expect.bind fun _ =>
    ((blames_routine blames .method).untilBrace budget).bind fun _ => Blames.expect.bind_pure

theorem blames_statementLevel (statements : Blames statement) (declarations : Blames declaration) :
    Blames (statementLevel budget statement declaration) := by
  intro ts
  unfold statementLevel
  split
  · exact blames_expressionStatement []
  · split
    · exact blames_forLoop statements _ _
    · exact blames_ifStatement statements _ _
    · exact ((blames_expression budget).bind fun _ => Blames.expect.bind_pure) _
    · exact ((blames_optionalExpression .semicolon).bind fun _ => Blames.expect.bind_pure) _
    · exact blames_whileStatement statements _ _
    · exact (blames_block declarations).map _
    · exact blames_expressionStatement _

theorem blames_declarationLevel (statements : Blames statement)
    (declarations : Blames declaration) :
    Blames (declarationLevel budget statement declaration) := by
  intro ts
  unfold declarationLevel
  split
  · exact blames_statementLevel statements declarations []
  · split
    · exact blames_classDeclaration declarations _
    · exact (blames_routine declarations .function).map _
    · exact blames_variableDeclaration _
    · exact blames_statementLevel statements declarations _

end

theorem blames_statement_declaration (n : Nat) :
    Blames (Reading.statement n) ∧ Blames (Reading.declaration n) := by
  induction n with
  | zero => exact ⟨.fail, .recover⟩
  | succ n ih => exact ⟨blames_statementLevel ih.1 ih.2, .recover⟩

end Reading
end LoxLang
