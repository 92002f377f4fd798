import LoxLang.Proofs.Respelling.Phrases
/-! Statements and programs from respelled tokens, and with more budget. -/
namespace LoxLang

/-- What a `for` stands for, respelled. -/
theorem forStatement_respell (τ : Respelling) (line : Nat) (initializer : Option RawStmt)
    (condition increment : Option RawExpr) (body : RawStmt) :
    forStatement line (initializer.map (Stmt.respell τ)) (condition.map (Expr.respell τ))
        (increment.map (Expr.respell τ)) (body.respell τ) =
      (forStatement line initializer condition increment body).respell τ := by
  cases initializer <;> cases condition <;> cases increment <;>
    simp [forStatement, Stmt.respell, respellBody, Expr.respell]

namespace Reading
variable {τ : Respelling} {n n' k : Nat} {statement statement' : Reading RawStmt}
  {declaration declaration' : Reading (Option RawStmt)}

/-- Readings of the same statement. -/
abbrev AlikeStmt (τ : Respelling) (k : Nat) (x y : Reading RawStmt) : Prop :=
  Alike τ k (Stmt.respell τ) x y

abbrev AlikeDecl (τ : Respelling) (k : Nat) (x y : Reading (Option RawStmt)) : Prop :=
  Alike τ k (Option.map (Stmt.respell τ)) x y

theorem alike_variableDeclaration (le : n ≤ n') (enough : k ≤ n) :
    AlikeStmt τ k (variableDeclaration n) (variableDeclaration n') := by
  refine Alike.naming fun name => Alike.accepting ?_ fun equals => ?_
  · exact Alike.expecting fun _ _ => .pure (by simp [Stmt.respell])
  · refine Alike.bind_any (consumes_expression n) (alike_expression le (by omega)) fun value => ?_
    exact Alike.expecting fun _ _ => .pure (by simp [Stmt.respell])

theorem alike_expressionStatement (le : n ≤ n') (enough : k ≤ n) :
    AlikeStmt τ k (expressionStatement n) (expressionStatement n') := by
  refine Alike.bind_any (consumes_expression n) (alike_expression le enough) fun value => ?_
  exact Alike.expecting fun _ _ => .pure (by rw [Stmt.respell])

theorem alike_printStatement (le : n ≤ n') (enough : k ≤ n) (line : Nat) :
    AlikeStmt τ k (printStatement n line) (printStatement n' line) := by
  refine Alike.bind_any (consumes_expression n) (alike_expression le enough) fun value => ?_
  exact Alike.expecting fun _ _ => .pure (by rw [Stmt.respell])

theorem alike_optionalExpression (le : n ≤ n') (enough : k ≤ n) (stop : Kind) :
    Alike τ k (Option.map (Expr.respell τ)) (optionalExpression n stop)
      (optionalExpression n' stop) := by
  refine Alike.looking fun next => ?_
  cases next with
  | true => exact .pure rfl
  | false => exact (alike_expression le enough).map fun _ => rfl

theorem alike_returnStatement (le : n ≤ n') (enough : k ≤ n) (pos : Pos) :
    AlikeStmt τ k (returnStatement n pos) (returnStatement n' (τ.pos pos)) := by
  refine Alike.bind_any (consumes_optionalExpression .semicolon)
    (alike_optionalExpression le enough .semicolon) fun value => ?_
  exact Alike.expecting fun _ _ => .pure (by rw [Stmt.respell])

theorem alike_whileStatement (le : n ≤ n') (enough : k ≤ n)
    (alike : AlikeStmt τ k statement statement') (line : Nat) :
    AlikeStmt τ k (whileStatement n statement line) (whileStatement n' statement' line) := by
  refine Alike.expecting fun _ _ => ?_
  refine Alike.bind_any (consumes_expression n) (alike_expression le (by omega)) fun c => ?_
  refine Alike.expecting fun _ _ => (alike.mono (by omega)).bind_pure fun body => ?_
  rw [Stmt.respell]

theorem alike_ifStatement (le : n ≤ n') (enough : k ≤ n) (consumes : ConsumesStmt statement)
    (alike : AlikeStmt τ k statement statement') (line : Nat) :
    AlikeStmt τ k (ifStatement n statement line) (ifStatement n' statement' line) := by
  refine Alike.expecting fun _ _ => ?_
  refine Alike.bind_any (consumes_expression n) (alike_expression le (by omega)) fun c => ?_
  refine Alike.expecting fun _ _ => ?_
  refine Alike.bind_any consumes (alike.mono (by omega)) fun first => ?_
  refine Alike.accepting (.pure (by rw [Stmt.respell])) fun word => ?_
  refine (alike.mono (by omega)).bind_pure fun second => ?_
  rw [Stmt.respell]

theorem alike_forInitializer (le : n ≤ n') (enough : k ≤ n) :
    Alike τ k (Option.map (Stmt.respell τ)) (forInitializer n) (forInitializer n') := by
  refine Alike.accepting ?_ fun stop => .pure rfl
  refine Alike.accepting ?_ fun word => ?_
  · exact (alike_expressionStatement le enough).map fun _ => rfl
  · exact (alike_variableDeclaration le (by omega)).map fun _ => rfl

theorem alike_forLoop (le : n ≤ n') (enough : k ≤ n)
    (alike : AlikeStmt τ k statement statement') (line : Nat) :
    AlikeStmt τ k (forLoop n statement line) (forLoop n' statement' line) := by
  refine Alike.expecting fun _ _ => ?_
  refine Alike.bind_any consumes_forInitializer (alike_forInitializer le (by omega)) fun first => ?_
  refine Alike.bind_any (consumes_optionalExpression .semicolon)
    (alike_optionalExpression le (by omega) .semicolon) fun second => ?_
  refine Alike.expecting fun _ _ => ?_
  refine Alike.bind_any (consumes_optionalExpression .rightParen)
    (alike_optionalExpression le (by omega) .rightParen) fun third => ?_
  refine Alike.expecting fun _ _ => (alike.mono (by omega)).bind_pure fun body => ?_
  exact forStatement_respell τ line first second third body

theorem filterMap_id_map {α : Type} (g : α → α) (os : List (Option α)) :
    (os.map (Option.map g)).filterMap id = (os.filterMap id).map g := by
  rw [List.filterMap_map, List.map_filterMap]
  rfl

theorem alike_block (le : n ≤ n') (enough : k ≤ n) (consumes : ConsumesDecl declaration)
    (shrinks : Alike.Shrinks declaration) (alike : AlikeDecl τ k declaration declaration') :
    Alike τ k (respellBody τ) (block n declaration) (block n' declaration') := by
  refine Alike.bind_any (D := fun _ _ => True)
    (.untilBrace consumes trivial (fun _ _ _ _ _ _ => trivial) n)
    (.untilBrace n shrinks n' k le enough alike) fun found => ?_
  refine Alike.expecting fun _ _ => .pure ?_
  rw [filterMap_id_map, respellBody_eq_map]

theorem alike_parameters (le : n ≤ n') (enough : k ≤ n) : Alike τ k (List.map (Name.respell τ))
    (entries .tooManyParameters (expectName .parameterName) n 0)
    (entries .tooManyParameters (expectName .parameterName) n' 0) :=
  .entries Consumes.expectName n n' k 0 le enough .expectName

theorem alike_routine (le : n ≤ n') (enough : k ≤ n) (consumes : ConsumesDecl declaration)
    (shrinks : Alike.Shrinks declaration) (alike : AlikeDecl τ k declaration declaration')
    (kind : RoutineKind) : Alike τ k (Routine.respell τ) (routine n declaration kind)
      (routine n' declaration' kind) := by
  refine Alike.naming fun name => Alike.expecting fun _ _ => ?_
  have rest {x x' : Reading (List Name)} {D : List Name → List Token → Prop} (taken : Consumes x D)
      (inner : Alike τ (k - 1 - 1) (List.map (Name.respell τ)) x x') :
      Alike τ (k - 1 - 1) (Routine.respell τ)
        (do
          let params ← x
          let _ ← expect .rightParen .parametersEnd
          let _ ← expect .leftBrace (.routineBodyStart kind)
          let body ← block n declaration
          Pure.pure (Routine.mk name params body))
        (do
          let params ← x'
          let _ ← expect .rightParen .parametersEnd
          let _ ← expect .leftBrace (.routineBodyStart kind)
          let body ← block n' declaration'
          Pure.pure (Routine.mk (name.respell τ) params body)) := by
    refine Alike.bind_any taken inner fun params => ?_
    refine Alike.expecting fun _ _ => Alike.expecting fun _ _ => ?_
    refine (alike_block le (by omega) consumes shrinks (alike.mono (by omega))).bind_pure ?_
    intro body
    rw [Routine.respell]
  refine Alike.looking fun next => ?_
  cases next with
  | true => exact rest (D := fun _ _ => True) (.pure trivial) (.pure rfl)
  | false => exact rest (consumes_parameters n) (alike_parameters le (by omega))

theorem alike_superclass : Alike τ k (Option.map (Superclass.respell τ)) superclass superclass :=
  Alike.accepting (.pure rfl) fun _ => Alike.naming fun _ => .pure rfl

theorem alike_classDeclaration (le : n ≤ n') (enough : k ≤ n)
    (consumes : ConsumesDecl declaration) (shrinks : Alike.Shrinks declaration)
    (alike : AlikeDecl τ k declaration declaration') :
    AlikeStmt τ k (classDeclaration n declaration) (classDeclaration n' declaration') := by
  have methods : Consumes (routine n declaration .method) fun r used => Draws r.names used :=
    consumes_routine consumes .method
  refine Alike.naming fun name => ?_
  refine Alike.bind_any consumes_superclass alike_superclass fun parent => ?_
  refine Alike.expecting fun _ _ => ?_
  refine Alike.bind_any (D := fun _ _ => True)
    (.untilBrace methods trivial (fun _ _ _ _ _ _ => trivial) n)
    (.untilBrace n (.of_consumes methods fun _ _ draws => draws.some) n' (k - 1 - 1) le (by omega)
      (alike_routine le (by omega) consumes shrinks (alike.mono (by omega)) .method))
    fun methods => ?_
  refine Alike.expecting fun _ _ => .pure ?_
  rw [Stmt.respell, respellMethods_eq_map]

/-- Behind the first token less budget is needed. -/
theorem alike_behind {α : Type} {g : α → α} {x y : Reading α} (alike : Alike τ (k - 1) g x y)
    {t : Token} {ts : List Token} (short : (t :: ts).length ≤ k) :
    y (ts.map (Token.respell τ)) = (x ts).respell τ g :=
  alike ts (Nat.le_sub_one_of_lt short)

theorem alike_statementLevel (le : n ≤ n') (enough : k ≤ n) (takes : ConsumesStmt statement)
    (consumes : ConsumesDecl declaration) (shrinks : Alike.Shrinks declaration)
    (statements : AlikeStmt τ (k - 1) statement statement')
    (declarations : AlikeDecl τ (k - 1) declaration declaration') :
    AlikeStmt τ k (statementLevel n statement declaration)
      (statementLevel n' statement' declaration') := by
  intro ts short
  have less : k - 1 ≤ n := by omega
  cases ts with
  | nil => exact alike_expressionStatement le enough [] short
  | cons t ts =>
      simp only [List.map_cons, statementLevel, Token.kind_respell, Token.pos_respell,
        Respelling.line_pos]
      split
      case h_1 => exact alike_behind (alike_forLoop le less statements t.pos.line) short
      case h_2 => exact alike_behind (alike_ifStatement le less takes statements t.pos.line) short
      case h_3 => exact alike_behind (alike_printStatement le less t.pos.line) short
      case h_4 => exact alike_behind (alike_returnStatement le less t.pos) short
      case h_5 => exact alike_behind (alike_whileStatement le less statements t.pos.line) short
      case h_6 =>
        refine alike_behind ((alike_block le less consumes shrinks declarations).map fun body => ?_)
          short
        rw [Stmt.respell]
      case h_7 => exact alike_expressionStatement le enough (t :: ts) short

theorem alike_declarationLevel (le : n ≤ n') (enough : k ≤ n) (takes : ConsumesStmt statement)
    (consumes : ConsumesDecl declaration) (shrinks : Alike.Shrinks declaration)
    (statements : AlikeStmt τ (k - 1) statement statement')
    (declarations : AlikeDecl τ (k - 1) declaration declaration') :
    AlikeStmt τ k (declarationLevel n statement declaration)
      (declarationLevel n' statement' declaration') := by
  have others := alike_statementLevel le enough takes consumes shrinks statements declarations
  intro ts short
  have less : k - 1 ≤ n := by omega
  cases ts with
  | nil => exact others [] short
  | cons t ts =>
      simp only [List.map_cons, declarationLevel, Token.kind_respell]
      split
      case h_1 =>
        exact alike_behind (alike_classDeclaration le less consumes shrinks declarations) short
      case h_2 =>
        refine alike_behind ((alike_routine le less consumes shrinks declarations .function).map
          fun r => ?_) short
        rw [Stmt.respell]
      case h_3 => exact alike_behind (alike_variableDeclaration le less) short
      case h_4 => exact others (t :: ts) short

theorem shrinks_declaration (n : Nat) : Alike.Shrinks (Reading.declaration n) := by
  intro t ts o _
  obtain ⟨-, used, taken, split⟩ := declaration_takes n t ts
  have whole := congrArg List.length split
  have some_taken := List.length_pos_iff.mpr taken
  rw [List.length_append, List.length_cons] at whole
  omega

theorem statementLevel_nil (n : Nat) : statementLevel n statement declaration [] =
    Reading.fail .expression [] := by
  simp [statementLevel, expressionStatement, expression, commaList, leftNested, bind, assignment_nil,
    Reading.fail]

theorem statement_nil (n : Nat) : Reading.statement n [] = Reading.fail .expression [] := by
  cases n with
  | zero => rfl
  | succ n => exact statementLevel_nil (n + 1)

theorem declaration_nil (n : Nat) :
    Reading.declaration n [] = recover (Reading.fail .expression) [] := by
  cases n with
  | zero => rfl
  | succ n => simp only [Reading.declaration, recover, declarationLevel, statementLevel_nil]

theorem alike_statement_declaration (n : Nat) : ∀ n' k, n ≤ n' → k ≤ n →
    AlikeStmt τ k (Reading.statement n) (Reading.statement n') ∧
      AlikeDecl τ k (Reading.declaration n) (Reading.declaration n') := by
  induction n with
  | zero =>
      intro n' k _ none
      obtain rfl : k = 0 := by omega
      constructor
      · intro ts short
        obtain rfl : ts = [] := List.length_eq_zero_iff.mp (Nat.le_zero.mp short)
        rw [List.map_nil, statement_nil, statement_nil]
        rfl
      · intro ts short
        obtain rfl : ts = [] := List.length_eq_zero_iff.mp (Nat.le_zero.mp short)
        rw [List.map_nil, declaration_nil, declaration_nil]
        rfl
  | succ n ih =>
      intro n' k le enough
      obtain ⟨n', rfl⟩ : ∃ k, n' = k + 1 := ⟨n' - 1, by omega⟩
      obtain ⟨statements, declarations⟩ := ih n' (k - 1) (by omega) (by omega)
      obtain ⟨takes, consumes⟩ := consumes_statement_declaration n
      have shrinks := shrinks_declaration n
      constructor
      · exact alike_statementLevel le enough takes consumes shrinks statements declarations
      · exact (alike_declarationLevel le enough takes consumes shrinks statements
          declarations).recover

theorem alike_program (le : n ≤ n') :
    Alike τ n (respellBody τ) (program n) (program n') := by
  refine Alike.bind_pure (Alike.untilEnd n (shrinks_declaration n) n' n le (Nat.le_refl n)
    (alike_statement_declaration n n' n le (Nat.le_refl n)).2) fun found => ?_
  rw [filterMap_id_map, respellBody_eq_map]

/-- A budget beyond the number of tokens changes nothing. -/
theorem Alike.same_outcome {α : Type} {g : α → α} {x y : Reading α} (alike : Alike .same n g x y)
    (identity : ∀ a, g a = a) {ts : List Token} (short : ts.length ≤ n) : y ts = x ts := by
  have whole := alike ts short
  rw [List.map_id'' Token.respell_same] at whole
  rw [whole]
  cases x ts with
  | mk value rest issues =>
      simp [Outcome.respell, funext identity, funext Token.respell_same, funext Issue.respell_same]

theorem program_budget {ts : List Token} (le : ts.length ≤ n) :
    program n ts = program ts.length ts :=
  (alike_program le).same_outcome respellBody_same (Nat.le_refl _)

theorem declaration_budget {ts : List Token} (le : ts.length ≤ n) :
    Reading.declaration n ts = Reading.declaration ts.length ts :=
  (alike_statement_declaration ts.length n ts.length le (Nat.le_refl _)).2.same_outcome
    (fun o => by simp [funext Stmt.respell_same]) (Nat.le_refl _)

end Reading

/-- Respelled tokens are those of the respelled program. -/
theorem parse_respell (τ : Respelling) (tokens : List Token) :
    parse (tokens.map (Token.respell τ)) =
      ⟨respellBody τ (parse tokens).program, (parse tokens).issues.map (Issue.respell τ)⟩ := by
  have whole := Reading.alike_program (τ := τ) (Nat.le_refl tokens.length) tokens (Nat.le_refl _)
  simp only [parse, List.length_map, whole, Reading.Outcome.respell]
  cases (Reading.program tokens.length tokens).value? <;> rfl

end LoxLang
