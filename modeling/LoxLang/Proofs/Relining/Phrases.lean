import LoxLang.Proofs.Grammar.Starts
import LoxLang.Proofs.Grammar.Statements
import LoxLang.Proofs.Relining.Readings
/-! Phrases on other lines, with other tokens behind them. -/
namespace LoxLang
namespace Reading
variable {f : Nat → Nat}

/-- A reading of an expression, which is on other lines then. -/
abbrev CarriesExpr (f : Nat → Nat) (budget : Nat) (x x' : Reading RawExpr) : Prop :=
  Carries f AtEnd budget false (Expr.reline f) x x'

/-- Joining two operands is the same on other lines. -/
def Relocates {ω : Type} (f : Nat → Nat) (join : RawExpr → ω → Pos → RawExpr → RawExpr) : Prop :=
  ∀ l op p r, join (l.reline f) op (p.reline f) (r.reline f) = (join l op p r).reline f

section
variable {ω : Type} {choice : Kind → Option ω} {join : RawExpr → ω → Pos → RawExpr → RawExpr}
  {operand operand' : Reading RawExpr}

theorem carries_chain (relocates : Relocates f join) (n : Nat) :
    ∀ {n' b} (left), n ≤ n' → b ≤ n → CarriesExpr f b operand operand' →
      CarriesExpr f b (chain choice join operand n left)
        (chain choice join operand' n' (left.reline f)) := by
  induction n with
  | zero =>
      rintro n' b left - none - ts _ _ short ⟨⟩
      obtain rfl : ts = [] := List.length_eq_zero_iff.mp (by omega)
      refine ⟨Nat.le_refl _, fun more allowed => ?_⟩
      obtain rfl : more = [] := allowed rfl
      cases n' <;> rfl
  | succ n ih =>
      intro n' b left le enough carries
      obtain ⟨n', rfl⟩ : ∃ k, n' = k + 1 := ⟨n' - 1, by omega⟩
      refine Carries.acceptWith (.pure rfl) fun op t => ?_
      refine (carries.mono (Nat.sub_le b 1)).bind_thin fun right => ?_
      rw [show (t.reline f).pos = t.pos.reline f from rfl, relocates]
      exact ih _ (by omega) (by omega) (carries.mono (Nat.sub_le b 1))

/-- A level of operators that nest to the left. -/
theorem carries_leftNested {budget budget' b : Nat} (relocates : Relocates f join)
    (le : budget ≤ budget') (enough : b ≤ budget) (carries : CarriesExpr f b operand operand') :
    CarriesExpr f b (leftNested choice join budget operand)
      (leftNested choice join budget' operand') :=
  carries.bind_thin fun left => carries_chain relocates budget left le enough carries

end

theorem relocates_binary : Relocates f (Expr.binary (δ := Unit)) := fun _ _ _ _ => rfl

theorem relocates_logical : Relocates f (Expr.logical (δ := Unit)) := fun _ _ _ _ => rfl

section
variable {budget budget' : Nat} {nested nested' : Reading RawExpr}

theorem carries_inheritedAccess (b : Nat) (pos : Pos) :
    CarriesExpr f b (inheritedAccess pos) (inheritedAccess (pos.reline f)) :=
  Carries.weaken (Carries.expect.bind_solid fun _ => Carries.expectName.bind_pure fun _ => rfl)

theorem carries_grouping {b : Nat} (le : budget ≤ budget') (enough : b ≤ budget)
    (carries : CarriesExpr f b nested nested') (line : Nat) :
    CarriesExpr f b (grouping budget nested line) (grouping budget' nested' (f line)) :=
  Carries.weaken ((carries_leftNested relocates_binary le enough carries).bind_solid fun _ =>
    Carries.expect.bind_pure fun _ => rfl)

/-- A reading that goes on behind a token like another reading is carried like that one. -/
theorem Carries.behind {α : Type} {follow : List Token → Prop} {solid solid' : Bool} {g : α → α}
    {x x' y' : Reading α} (carries : Carries f follow (budget - 1) solid g x x') {t : Token}
    {ts rest : List Token} {a : α} (short : (t :: ts).length ≤ budget) (gives : Gives x ts a rest)
    (same : ∀ us, y' (t.reline f :: us) = x' us) :
    rest.length + solid'.toNat ≤ (t :: ts).length ∧ ∀ more, (rest = [] → follow more) →
      Gives y' (relineTokens f (t :: ts) ++ more) (g a) (relineTokens f rest ++ more) := by
  rw [List.length_cons] at short ⊢
  obtain ⟨taken, carries⟩ := carries ts a rest (by omega) gives
  have small := solid'.toNat_le
  exact ⟨by omega, fun more allowed => (same _).trans (carries more allowed)⟩

@[simp] theorem constant?_reline (t : Token) : constant? (t.reline f) = constant? t := rfl

theorem carries_primary {b : Nat} (le : budget ≤ budget') (enough : b - 1 ≤ budget)
    (carries : CarriesExpr f (b - 1) nested nested') :
    CarriesExpr f b (primary budget nested) (primary budget' nested') := by
  intro ts e rest short gives
  cases ts with
  | nil => cases gives
  | cons t ts =>
      cases constant : constant? t with
      | some value =>
          simp only [Gives, primary, constant] at gives
          cases gives
          exact ⟨Nat.le_succ _, fun more _ => by simp [Gives, primary, constant]; rfl⟩
      | none =>
          simp only [Gives, primary, constant] at gives
          split at gives
          case h_1 same =>
            exact (carries_inheritedAccess (b - 1) t.pos).behind short gives fun us => by
              simp [primary, constant, same]
          case h_2 same =>
            cases gives
            exact ⟨Nat.le_succ _, fun more _ => by simp [Gives, primary, constant, same]; rfl⟩
          case h_3 same =>
            cases gives
            exact ⟨Nat.le_succ _, fun more _ => by simp [Gives, primary, constant, same]; rfl⟩
          case h_4 same =>
            exact (carries_grouping le enough carries t.pos.line).behind short gives fun us => by
              simp [primary, constant, same]
          case h_5 => cases gives

/-- The arguments of a call. -/
theorem carries_arguments {b : Nat} (le : budget ≤ budget') (enough : b ≤ budget)
    (carries : CarriesExpr f b nested nested') :
    Carries f AtEnd b true (Prod.map (List.map (Expr.reline f)) (Pos.reline f))
      (arguments budget nested) (arguments budget' nested') := by
  have closed {x x' : Reading (List RawExpr)}
      (inner : Carries f AtEnd b false (List.map (Expr.reline f)) x x') :
      Carries f AtEnd b true (Prod.map (List.map (Expr.reline f)) (Pos.reline f))
        (do
          let args ← x
          let close ← expect .rightParen .argumentsEnd
          Pure.pure (args, close.pos))
        (do
          let args ← x'
          let close ← expect .rightParen .argumentsEnd
          Pure.pure (args, close.pos)) :=
    inner.bind_solid fun _ => Carries.expect.bind_pure fun _ => rfl
  refine Carries.nextIs.bind fun next => ?_
  cases next with
  | true => exact closed (.pure rfl)
  | false => exact closed (carries.entries budget 0 le enough)

/-- A call, and what is read behind it. -/
theorem carries_call {b : Nat} (le : budget ≤ budget') (enough : b ≤ budget)
    (carries : CarriesExpr f b nested nested') {next next' : RawExpr → Reading RawExpr}
    (again : ∀ e, CarriesExpr f b (next e) (next' (e.reline f))) (e : RawExpr) :
    CarriesExpr f b (do
      let (args, close) ← arguments budget nested
      next (.call e close args)) (do
      let (args, close) ← arguments budget' nested'
      next' (.call (e.reline f) close args)) := by
  refine (carries_arguments le enough carries).weaken.bind_thin ?_
  rintro ⟨args, close⟩
  simpa only [Expr.reline, relineAll_eq_map, Prod.map] using again (.call e close args)

theorem carries_suffixes (le : budget ≤ budget') (n : Nat) : ∀ {n' b} (e), n ≤ n' → b ≤ n →
    b - 1 ≤ budget → CarriesExpr f (b - 1) nested nested' →
      CarriesExpr f b (suffixes budget nested n e) (suffixes budget' nested' n' (e.reline f)) := by
  induction n with
  | zero =>
      rintro n' b e - none - - ts _ _ short ⟨⟩
      obtain rfl : ts = [] := List.length_eq_zero_iff.mp (by omega)
      refine ⟨Nat.le_refl _, fun more allowed => ?_⟩
      obtain rfl : more = [] := allowed rfl
      cases n' <;> rfl
  | succ n ih =>
      intro n' b e less enough room carries
      obtain ⟨n', rfl⟩ : ∃ k, n' = k + 1 := ⟨n' - 1, by omega⟩
      have again (e : RawExpr) : CarriesExpr f (b - 1) (suffixes budget nested n e)
          (suffixes budget' nested' n' (e.reline f)) :=
        ih e (by omega) (by omega) (by omega) (carries.mono (by omega))
      intro ts a rest short gives
      cases ts with
      | nil =>
          cases gives
          refine ⟨Nat.le_refl _, fun more allowed => ?_⟩
          obtain rfl : more = [] := allowed rfl
          rfl
      | cons t ts =>
          simp only [Gives, suffixes] at gives
          split at gives
          case h_1 same =>
            exact (carries_call le room carries again e).behind short gives fun us => by
              simp [suffixes, same]
          case h_2 same =>
            have member : CarriesExpr f (b - 1) (do
                let name ← expectName .propertyName
                suffixes budget nested n (.member e name)) (do
                let name ← expectName .propertyName
                suffixes budget' nested' n' (.member (e.reline f) name)) :=
              Carries.expectName.bind_thin fun name => again (.member e name)
            exact member.behind short gives fun us => by simp [suffixes, same]
          case h_3 call member =>
            cases gives
            refine ⟨Nat.le_refl _, fun more _ => ?_⟩
            simp [Gives, suffixes]

theorem carries_callLevel {b : Nat} (le : budget ≤ budget') (enough : b ≤ budget)
    (carries : CarriesExpr f (b - 1) nested nested') :
    CarriesExpr f b (callLevel budget nested) (callLevel budget' nested') :=
  (carries_primary le (by omega) carries).bind_thin fun e =>
    carries_suffixes le budget e le enough (by omega) carries

/-- Prefix operators. -/
theorem carries_unaryLevel (le : budget ≤ budget') (n : Nat) : ∀ {n' b}, n ≤ n' → b ≤ n →
    b ≤ budget → CarriesExpr f (b - 1) nested nested' →
      CarriesExpr f b (unaryLevel budget nested n) (unaryLevel budget' nested' n') := by
  induction n with
  | zero => exact fun _ _ _ _ => .fail
  | succ n ih =>
      intro n' b less enough room carries
      obtain ⟨n', rfl⟩ : ∃ k, n' = k + 1 := ⟨n' - 1, by omega⟩
      refine Carries.acceptWith (carries_callLevel le room carries) fun op t => ?_
      exact (ih (by omega) (by omega) (by omega) (carries.mono (by omega))).bind_pure fun _ => rfl

/-- The levels of operators from products to alternatives. -/
theorem carries_disjunction {b : Nat} (le : budget ≤ budget') (enough : b ≤ budget)
    (carries : CarriesExpr f (b - 1) nested nested') :
    CarriesExpr f b (disjunction budget nested) (disjunction budget' nested') := by
  have level {ω : Type} {choice : Kind → Option ω} {join : RawExpr → ω → Pos → RawExpr → RawExpr}
      (relocates : Relocates f join) {x x' : Reading RawExpr} (operand : CarriesExpr f b x x') :
      CarriesExpr f b (leftNested choice join budget x) (leftNested choice join budget' x') :=
    carries_leftNested relocates le enough operand
  have products : CarriesExpr f b (factor budget nested) (factor budget' nested') :=
    level relocates_binary (carries_unaryLevel le budget le enough enough carries)
  have sums : CarriesExpr f b (term budget nested) (term budget' nested') :=
    level relocates_binary products
  have orders : CarriesExpr f b (comparison budget nested) (comparison budget' nested') :=
    level relocates_binary sums
  have equalities : CarriesExpr f b (equality budget nested) (equality budget' nested') :=
    level relocates_binary orders
  have conjunctions : CarriesExpr f b (conjunction budget nested) (conjunction budget' nested') :=
    level relocates_logical equalities
  exact level relocates_logical conjunctions

theorem carries_conditional (le : budget ≤ budget') (n : Nat) : ∀ {n' b}, n ≤ n' → b ≤ n →
    b ≤ budget → CarriesExpr f (b - 1) nested nested' →
      CarriesExpr f b (conditional budget nested n) (conditional budget' nested' n') := by
  induction n with
  | zero => exact fun _ _ _ _ => .fail
  | succ n ih =>
      intro n' b less enough room carries
      obtain ⟨n', rfl⟩ : ∃ k, n' = k + 1 := ⟨n' - 1, by omega⟩
      refine (carries_disjunction le room carries).bind_thin fun condition => ?_
      refine Carries.accept (.inr fun _ => Ends.of_atEnd) (.pure rfl) fun t => ?_
      have others : CarriesExpr f (b - 1) (conditional budget nested n)
          (conditional budget' nested' n') :=
        ih (by omega) (by omega) (by omega) (carries.mono (by omega))
      exact Carries.weaken (carries.bind_solid fun thenBranch => Carries.expect.bind_behind fun _ =>
        others.bind_pure fun _ => rfl)

/-- An assignment to what can be assigned to. -/
theorem carries_assignTo {b : Nat} (target : RawExpr) (equals : Token) (value : RawExpr) :
    CarriesExpr f b (assignTo target equals value)
      (assignTo (target.reline f) (equals.reline f) (value.reline f)) := by
  cases target with
  | var name _ => exact .pure rfl
  | member object name => exact .pure rfl
  | _ =>
      intro ts a rest _ gives
      simp [Gives, assignTo, Bind.bind, reportAt] at gives

end

theorem carries_assignment (n : Nat) : ∀ {n' b}, n ≤ n' → b ≤ n →
    CarriesExpr f b (assignment n) (assignment n') := by
  induction n with
  | zero => exact fun _ _ => .fail
  | succ n ih =>
      intro n' b less enough
      obtain ⟨n', rfl⟩ : ∃ k, n' = k + 1 := ⟨n' - 1, by omega⟩
      have nested : CarriesExpr f (b - 1) (assignment n) (assignment n') :=
        ih (by omega) (by omega)
      refine (carries_conditional less (n + 1) less enough enough nested).bind_thin fun left => ?_
      refine Carries.accept (.inr fun _ => Ends.of_atEnd) (.pure rfl) fun equals => ?_
      exact nested.bind_thin fun value => carries_assignTo left equals value

theorem carries_expression {budget budget' b : Nat} (le : budget ≤ budget') (enough : b ≤ budget) :
    CarriesExpr f b (expression budget) (expression budget') :=
  carries_leftNested relocates_binary le enough (carries_assignment budget le enough)

/-! Statements and declarations. An `else` may go on with a statement that has come to the end. -/

/-- A reading of a statement, which is on other lines then. -/
abbrev CarriesStmt (f : Nat → Nat) (b : Nat) (x x' : Reading RawStmt) : Prop :=
  Carries f (Ends [.elseWord]) b true (Stmt.reline f) x x'

abbrev CarriesDeclaration (f : Nat → Nat) (b : Nat) (x x' : Reading (Option RawStmt)) : Prop :=
  Carries f (Ends [.elseWord]) b true (Option.map (Stmt.reline f)) x x'

section
variable {budget budget' b : Nat} {statement statement' : Reading RawStmt}
  {declaration declaration' : Reading (Option RawStmt)}

theorem carries_variableDeclaration (le : budget ≤ budget') (enough : b ≤ budget) :
    CarriesStmt f b (variableDeclaration budget) (variableDeclaration budget') := by
  refine Carries.expectName.bind_solid fun name => ?_
  refine Carries.accept (.inl rfl) (Carries.expect.bind_pure fun _ => rfl) fun t => ?_
  exact Carries.weaken ((carries_expression le (by omega)).bind_solid fun _ =>
    Carries.expect.bind_pure fun _ => rfl)

theorem carries_expressionStatement (le : budget ≤ budget') (enough : b ≤ budget) :
    CarriesStmt f b (expressionStatement budget) (expressionStatement budget') :=
  (carries_expression le enough).bind_solid fun _ => Carries.expect.bind_pure fun _ => rfl

theorem carries_printStatement (le : budget ≤ budget') (enough : b ≤ budget) (line : Nat) :
    CarriesStmt f b (printStatement budget line) (printStatement budget' (f line)) :=
  (carries_expression le enough).bind_solid fun _ => Carries.expect.bind_pure fun _ => rfl

/-- An expression that may be missing. -/
theorem carries_optionalExpression (le : budget ≤ budget') (enough : b ≤ budget) (stop : Kind) :
    Carries f AtEnd b false (Option.map (Expr.reline f)) (optionalExpression budget stop)
      (optionalExpression budget' stop) := by
  refine Carries.nextIs.bind_thin fun next => ?_
  cases next with
  | true => exact .pure rfl
  | false => exact (carries_expression le enough).bind_pure fun _ => rfl

theorem carries_returnStatement (le : budget ≤ budget') (enough : b ≤ budget) (pos : Pos) :
    CarriesStmt f b (returnStatement budget pos) (returnStatement budget' (pos.reline f)) :=
  (carries_optionalExpression le enough .semicolon).bind_solid fun _ =>
    Carries.expect.bind_pure fun _ => rfl

theorem carries_whileStatement (le : budget ≤ budget') (enough : b ≤ budget)
    (carries : CarriesStmt f b statement statement') (line : Nat) :
    CarriesStmt f b (whileStatement budget statement line)
      (whileStatement budget' statement' (f line)) :=
  Carries.expect.bind_solid fun _ => (carries_expression le enough).bind_solid fun _ =>
    Carries.expect.bind_solid fun _ => carries.bind_pure fun _ => rfl

theorem carries_ifStatement (le : budget ≤ budget') (enough : b ≤ budget)
    (carries : CarriesStmt f b statement statement') (line : Nat) :
    CarriesStmt f b (ifStatement budget statement line) (ifStatement budget' statement' (f line)) := by
  refine Carries.expect.bind_solid fun _ => (carries_expression le enough).bind_solid fun _ =>
    Carries.expect.bind_solid fun _ => carries.bind_behind fun _ => ?_
  refine Carries.accept (.inr fun _ => id) (.pure rfl) fun t => ?_
  exact (carries.mono (Nat.sub_le b 1)).weaken.bind_pure fun _ => rfl

theorem carries_forInitializer (le : budget ≤ budget') (enough : b ≤ budget) :
    Carries f AtEnd b false (Option.map (Stmt.reline f)) (forInitializer budget)
      (forInitializer budget') := by
  refine Carries.accept (.inr fun _ => Ends.of_atEnd) ?_ fun t => .pure rfl
  refine Carries.accept (.inr fun _ => Ends.of_atEnd) ?_ fun t => ?_
  · exact ((carries_expressionStatement le enough).weaken.follows fun _ => Ends.of_atEnd).bind_pure
      fun _ => rfl
  · exact ((carries_variableDeclaration le (by omega)).weaken.follows fun _ =>
      Ends.of_atEnd).bind_pure fun _ => rfl

theorem forStatement_reline (line : Nat) (initializer : Option RawStmt)
    (condition increment : Option RawExpr) (body : RawStmt) :
    forStatement (f line) (initializer.map (Stmt.reline f)) (condition.map (Expr.reline f))
        (increment.map (Expr.reline f)) (body.reline f) =
      (forStatement line initializer condition increment body).reline f := by
  cases initializer <;> cases condition <;> cases increment <;> rfl

theorem carries_forLoop (le : budget ≤ budget') (enough : b ≤ budget)
    (carries : CarriesStmt f b statement statement') (line : Nat) :
    CarriesStmt f b (forLoop budget statement line) (forLoop budget' statement' (f line)) :=
  Carries.expect.bind_solid fun _ => (carries_forInitializer le enough).bind_solid fun _ =>
    (carries_optionalExpression le enough .semicolon).bind_solid fun _ =>
      Carries.expect.bind_solid fun _ =>
        (carries_optionalExpression le enough .rightParen).bind_solid fun _ =>
          Carries.expect.bind_solid fun _ =>
            carries.bind_pure fun _ => forStatement_reline line _ _ _ _

theorem carries_block {follow : List Token → Prop} (le : budget ≤ budget') (enough : b ≤ budget)
    (carries : CarriesDeclaration f b declaration declaration') :
    Carries f follow b true (List.map (Stmt.reline f)) (block budget declaration)
      (block budget' declaration') := by
  refine (Carries.untilBrace budget le enough (carries.follows fun _ =>
    Ends.of_atEnd)).bind_solid fun found => Carries.expect.bind_pure fun _ => ?_
  simp [List.filterMap_map, List.map_filterMap]

theorem carries_routine {follow : List Token → Prop} (le : budget ≤ budget') (enough : b ≤ budget)
    (carries : CarriesDeclaration f b declaration declaration') (kind : RoutineKind) :
    Carries f follow b true (Routine.reline f) (routine budget declaration kind)
      (routine budget' declaration' kind) := by
  refine Carries.expectName.bind_solid fun name => Carries.expect.bind_solid fun _ => ?_
  have rest {x x' : Reading (List Name)}
      (inner : Carries f AtEnd b false (List.map (Name.reline f)) x x') :
      Carries f follow b true (Routine.reline f)
        (do
          let params ← x
          let _ ← expect .rightParen .parametersEnd
          let _ ← expect .leftBrace (.routineBodyStart kind)
          let body ← block budget declaration
          Pure.pure (Routine.mk name params body))
        (do
          let params ← x'
          let _ ← expect .rightParen .parametersEnd
          let _ ← expect .leftBrace (.routineBodyStart kind)
          let body ← block budget' declaration'
          Pure.pure (Routine.mk (name.reline f) params body)) :=
    inner.bind_solid fun params => Carries.expect.bind_solid fun _ =>
      Carries.expect.bind_solid fun _ => (carries_block le enough carries).bind_pure fun body => by
        simp only [Routine.reline, relineBody_eq_map]
  refine Carries.nextIs.bind_solid fun next => ?_
  cases next with
  | true => exact rest (.pure rfl)
  | false => exact rest (Carries.expectName.entries budget 0 le enough)

theorem carries_superclass : Carries f AtEnd b false (Option.map (Superclass.reline f)) superclass
    superclass :=
  Carries.accept (.inr fun _ => Ends.of_atEnd) (.pure rfl) fun _ =>
    Carries.weaken (Carries.expectName.bind_pure fun _ => rfl)

theorem carries_classDeclaration (le : budget ≤ budget') (enough : b ≤ budget)
    (carries : CarriesDeclaration f b declaration declaration') :
    CarriesStmt f b (classDeclaration budget declaration) (classDeclaration budget' declaration') :=
  Carries.expectName.bind_solid fun _ => carries_superclass.bind_solid fun _ =>
    Carries.expect.bind_solid fun _ =>
      (Carries.untilBrace budget le enough (carries_routine le enough carries .method)).bind_solid
        fun methods => Carries.expect.bind_pure fun _ => by
          simp only [Stmt.reline, relineMethods_eq_map]

theorem carries_statementLevel (le : budget ≤ budget') (enough : b ≤ budget)
    (statements : CarriesStmt f (b - 1) statement statement')
    (declarations : CarriesDeclaration f (b - 1) declaration declaration') :
    CarriesStmt f b (statementLevel budget statement declaration)
      (statementLevel budget' statement' declaration') := by
  intro ts s rest short gives
  have fewer : b - 1 ≤ budget := by omega
  have simple := carries_expressionStatement (f := f) le enough ts s rest short
  cases ts with
  | nil =>
      obtain ⟨taken, -⟩ := simple gives
      cases taken
  | cons t ts =>
      simp only [Gives, statementLevel] at gives
      split at gives
      case h_1 same =>
        exact (carries_forLoop le fewer statements t.pos.line).behind short gives fun us => by
          simp [statementLevel, same]
      case h_2 same =>
        exact (carries_ifStatement le fewer statements t.pos.line).behind short gives fun us => by
          simp [statementLevel, same]
      case h_3 same =>
        exact (carries_printStatement le fewer t.pos.line).behind short gives fun us => by
          simp [statementLevel, same]
      case h_4 same =>
        exact (carries_returnStatement le fewer t.pos).behind short gives fun us => by
          simp [statementLevel, same]
      case h_5 same =>
        exact (carries_whileStatement le fewer statements t.pos.line).behind short gives fun us => by
          simp [statementLevel, same]
      case h_6 same =>
        have whole : CarriesStmt f (b - 1) (Stmt.block t.pos.line <$> block budget declaration)
            (Stmt.block (f t.pos.line) <$> block budget' declaration') :=
          (carries_block le fewer declarations).bind_pure fun body => by
            simp only [Stmt.reline, relineBody_eq_map]
        exact whole.behind short gives fun us => by
          simp [statementLevel, same]
      case h_7 =>
        obtain ⟨taken, carries⟩ := simple gives
        exact ⟨taken, fun more allowed => by
          simpa [Gives, statementLevel, *] using carries more allowed⟩

theorem carries_declarationLevel (le : budget ≤ budget') (enough : b ≤ budget)
    (statements : CarriesStmt f (b - 1) statement statement')
    (declarations : CarriesDeclaration f (b - 1) declaration declaration') :
    CarriesStmt f b (declarationLevel budget statement declaration)
      (declarationLevel budget' statement' declaration') := by
  intro ts s rest short gives
  have fewer : b - 1 ≤ budget := by omega
  have simple := carries_statementLevel le enough statements declarations ts s rest short
  cases ts with
  | nil =>
      obtain ⟨taken, -⟩ := simple gives
      cases taken
  | cons t ts =>
      simp only [Gives, declarationLevel] at gives
      split at gives
      case h_1 same =>
        exact (carries_classDeclaration le fewer declarations).behind short gives fun us => by
          simp [declarationLevel, same]
      case h_2 same =>
        have whole : CarriesStmt f (b - 1) (Stmt.function <$> routine budget declaration .function)
            (Stmt.function <$> routine budget' declaration' .function) :=
          (carries_routine le fewer declarations .function).bind_pure fun _ => rfl
        exact whole.behind short gives fun us => by
          simp [declarationLevel, same]
      case h_3 same =>
        exact (carries_variableDeclaration le fewer).behind short gives fun us => by
          simp [declarationLevel, same]
      case h_4 =>
        obtain ⟨taken, carries⟩ := simple gives
        exact ⟨taken, fun more allowed => by
          simpa [Gives, declarationLevel, *] using carries more allowed⟩

end

theorem carries_statement_declaration (n : Nat) : ∀ {n'}, n ≤ n' →
    CarriesStmt f n (statement n) (statement n') ∧
      CarriesDeclaration f n (declaration n) (declaration n') := by
  induction n with
  | zero =>
      intro n' _
      exact ⟨.fail, by cases n' <;> exact .recover (Takes.fail (D := fun _ _ => True)) .fail⟩
  | succ n ih =>
      intro n' le
      obtain ⟨n', rfl⟩ : ∃ k, n' = k + 1 := ⟨n' - 1, by omega⟩
      obtain ⟨statements, declarations⟩ := ih (Nat.le_of_succ_le_succ le)
      obtain ⟨taken, taken'⟩ := takes_statement_declaration n
      exact ⟨carries_statementLevel le (Nat.le_refl _) statements declarations,
        .recover (takes_declarationLevel taken taken')
          (carries_declarationLevel le (Nat.le_refl _) statements declarations)⟩

/-! Whole programs. -/

section
variable {α : Type} {item item' : Reading α} {g : α → α}

theorem untilEnd_next {n : Nat} {t : Token} {ts : List Token} :
    untilEnd item (n + 1) (t :: ts) = (do
      let first ← item
      let others ← untilEnd item n
      pure (first :: others)) (t :: ts) := by
  simp [untilEnd]

/-- More items may be read than there are. -/
theorem untilEnd_mono (k : Nat) : ∀ {n ts as}, k ≤ n → Gives (untilEnd item k) ts as [] →
    Gives (untilEnd item n) ts as [] := by
  induction k with
  | zero =>
      rintro n ts as - ⟨⟩
      cases n <;> rfl
  | succ k ih =>
      intro n ts as le gives
      obtain ⟨n, rfl⟩ : ∃ i, n = i + 1 := ⟨n - 1, by omega⟩
      cases ts with
      | nil => exact gives
      | cons t ts =>
          rw [Gives, untilEnd_next] at gives ⊢
          obtain ⟨a, mid, first, others⟩ := Gives.of_bind gives
          obtain ⟨as, rest, others, done⟩ := Gives.of_bind others
          cases done
          exact first.bind ((ih (by omega) others).bind .pure)

/-- Items up to the end, and others behind them. -/
theorem untilEnd_append {follow : List Token → Prop} {b : Nat}
    (carries : Carries f follow b true g item item') {more : List Token} (behind : follow more)
    {k : Nat} {others : List α} (gives : Gives (untilEnd item' k) more others []) (n : Nat) :
    ∀ ts as, ts.length ≤ b → Gives (untilEnd item n) ts as [] →
      Gives (untilEnd item' (n + k)) (relineTokens f ts ++ more) (as.map g ++ others) [] := by
  have none (n : Nat) : Gives (untilEnd item' (n + k)) more others [] :=
    untilEnd_mono k (Nat.le_add_left k n) gives
  induction n with
  | zero =>
      rintro ts as - ⟨⟩
      exact none 0
  | succ n ih =>
      intro ts as short whole
      cases ts with
      | nil =>
          cases whole
          exact none (n + 1)
      | cons t ts =>
          rw [Gives, untilEnd_next] at whole
          obtain ⟨a, mid, first, tail⟩ := Gives.of_bind whole
          obtain ⟨as, rest, tail, done⟩ := Gives.of_bind tail
          cases done
          obtain ⟨taken, first⟩ := carries (t :: ts) a mid short first
          rw [Nat.add_right_comm]
          exact untilEnd_next.trans ((first more fun _ => behind).bind
            ((ih mid as (by omega) tail).bind .pure))

end

end Reading

/-- Tokens that are read without issues are read up to the end. -/
theorem gives_of_parse {ts : List Token} (quiet : (parse ts).issues = []) :
    ∃ found, Reading.Gives (Reading.untilEnd (Reading.declaration ts.length) ts.length) ts found [] ∧
      (parse ts).program = found.filterMap id := by
  have items : (Reading.untilEnd (Reading.declaration ts.length) ts.length ts).issues = [] := by
    simpa only [parse, Reading.program, Reading.bind_pure_run] using quiet
  have takes := (Reading.takes_statement_declaration ts.length).2
  have rest := Reading.untilEnd_rest takes (fun _ _ declared => declared.some) ts.length ts
    (Nat.le_refl _) items
  obtain ⟨found, _, value, -⟩ := Reading.Takes.untilEnd takes (E := fun _ _ => True) trivial
    (fun _ _ _ _ _ _ => trivial) ts.length ts items
  refine ⟨found, by rw [Reading.Gives, ← value, ← rest, ← items], ?_⟩
  simp [parse, Reading.program, Reading.bind_pure_run, value]

/-- No program begins with `else`. -/
theorem ends_of_parse {ts : List Token} (quiet : (parse ts).issues = []) :
    Ends [.elseWord] ts := by
  intro t head member
  have start := Derives.starts (parse_sound quiet).1 t.kind (by simp [kinds, head])
  rw [List.mem_singleton.mp member] at start
  revert start
  decide

/-- Tokens in two parts, each read without issues, of which the second is on other lines. -/
theorem parse_append (f : Nat → Nat) {ts us : List Token} (quiet : (parse ts).issues = [])
    (quiet' : (parse us).issues = []) : parse (ts ++ relineTokens f us) =
      ⟨(parse ts).program ++ relineBody f (parse us).program, []⟩ := by
  obtain ⟨found, gives, program⟩ := gives_of_parse quiet
  obtain ⟨found', gives', program'⟩ := gives_of_parse quiet'
  have before := (Reading.carries_statement_declaration (f := id) ts.length
    (Nat.le_add_right ts.length us.length)).2
  have behind := (Reading.carries_statement_declaration (f := f) us.length
    (Nat.le_add_left us.length ts.length)).2
  have second := Reading.untilEnd_append behind Ends.nil (k := 0) rfl us.length us found'
    (Nat.le_refl _) gives'
  rw [List.append_nil, List.append_nil] at second
  have whole := Reading.untilEnd_append before ((ends_of_parse quiet').reline f) second ts.length ts
    found (Nat.le_refl _) gives
  have same : found.map (Option.map (Stmt.reline id)) = found :=
    List.map_id'' (map_id_of_eq Stmt.reline_id) found
  rw [relineTokens, List.map_id'' Token.reline_id, same] at whole
  have length : (ts ++ relineTokens f us).length = ts.length + us.length := by simp
  have read : Reading.Gives (Reading.program (ts ++ relineTokens f us).length)
      (ts ++ relineTokens f us)
      ((found ++ found'.map (Option.map (Stmt.reline f))).filterMap id) [] := by
    rw [length]
    exact whole.bind .pure
  rw [parse.eq_def (ts ++ relineTokens f us), read, program, program', relineBody_eq_map]
  simp [List.filterMap_append, List.map_filterMap, List.filterMap_map]

end LoxLang
