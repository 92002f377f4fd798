import LoxLang.Proofs.Progress.Phrases
/-! What every reading of a statement takes. A declaration that cannot be read is skipped with
some tokens, so a program is read to its end. -/
namespace LoxLang

theorem namesOfBody_filterMap_cons (o : Option RawStmt) (os : List (Option RawStmt)) :
    namesOfBody ((o :: os).filterMap id) =
      (o.map Stmt.names).getD [] ++ namesOfBody (os.filterMap id) := by
  cases o with
  | none => rfl
  | some s =>
      have front : (some s :: os).filterMap id = s :: os.filterMap id := rfl
      rw [front, namesOfBody, Option.map_some, Option.getD_some]

/-- A `for` stands for a statement with the names of its parts. -/
theorem count_names_forStatement (line : Nat) (initializer : Option RawStmt)
    (condition increment : Option RawExpr) (body : RawStmt) (n : Name) :
    (forStatement line initializer condition increment body).names.count n =
      ((initializer.map Stmt.names).getD []).count n + (optionalNames condition).count n +
        (optionalNames increment).count n + body.names.count n := by
  cases initializer <;> cases condition <;> cases increment <;>
    simp only [forStatement, Stmt.names, namesOfBody, optionalNames, Option.map_none, Option.map_some,
      Option.getD_none, Option.getD_some, Expr.names, List.count_append, List.count_nil] <;> omega

namespace Reading

/-- A reading takes tokens with the names of the statement, perhaps none. -/
abbrev ConsumesRest (x : Reading RawStmt) : Prop := Consumes x fun s used => Drawn s.names used

/-- A reading of a declaration that cannot be abandoned. -/
abbrev ConsumesDecl (x : Reading (Option RawStmt)) : Prop :=
  Consumes x fun o used => Drawn ((o.map Stmt.names).getD []) used

section
variable {budget : Nat} {statement : Reading RawStmt} {declaration : Reading (Option RawStmt)}

theorem consumes_variableDeclaration : ConsumesRest (variableDeclaration budget) := by
  refine Consumes.expectName.bind fun name used drawn => Consumes.accept?.bind ?_
  rintro o _ rfl
  cases o with
  | none =>
      refine Consumes.expect.bind ?_
      rintro stop _ ⟨rfl, -⟩
      apply Consumes.pure
      simpa [Stmt.names, optionalNames] using drawn.2.append_left [stop]
  | some equals =>
      refine (consumes_expression budget).bind fun value more draws => Consumes.expect.bind ?_
      rintro stop _ ⟨rfl, -⟩
      apply Consumes.pure
      simpa [Stmt.names, optionalNames] using
        drawn.2.append ((draws.drawn.append_left [stop]).cons equals)

theorem consumes_expressionStatement : ConsumesStmt (expressionStatement budget) := by
  refine (consumes_expression budget).bind fun value used draws => Consumes.expect.bind ?_
  rintro stop _ ⟨rfl, -⟩
  apply Consumes.pure
  rw [Stmt.names]
  exact draws.append_left _

theorem consumes_printStatement (line : Nat) : ConsumesRest (printStatement budget line) := by
  refine (consumes_expression budget).bind fun value used draws => Consumes.expect.bind ?_
  rintro stop _ ⟨rfl, -⟩
  apply Consumes.pure
  rw [Stmt.names]
  exact draws.drawn.append_left _

theorem consumes_optionalExpression (stop : Kind) :
    Consumes (optionalExpression budget stop) fun e used => Drawn (optionalNames e) used := by
  refine (Consumes.nextIs (E := fun _ used => used = []) fun _ => rfl).bind ?_
  rintro next _ rfl
  cases next with
  | true => exact .pure (.nil [])
  | false => exact Consumes.map ((consumes_expression budget).imp fun e used draws => draws.drawn)

theorem consumes_returnStatement (pos : Pos) : ConsumesRest (returnStatement budget pos) := by
  refine (consumes_optionalExpression .semicolon).bind fun value used drawn => ?_
  refine Consumes.expect.bind ?_
  rintro stop _ ⟨rfl, -⟩
  apply Consumes.pure
  rw [Stmt.names]
  exact drawn.append_left _

theorem consumes_whileStatement (consumes : ConsumesStmt statement) (line : Nat) :
    ConsumesRest (whileStatement budget statement line) := by
  refine Consumes.expect.bind ?_
  rintro begin _ ⟨rfl, -⟩
  refine (consumes_expression budget).bind fun c used draws => Consumes.expect.bind ?_
  rintro stop _ ⟨rfl, -⟩
  refine consumes.bind fun body more draws' => .pure ?_
  rw [Stmt.names]
  exact (draws.drawn.append ((draws'.drawn.append_left []).append_right [stop])).append_right [begin]

theorem consumes_ifStatement (consumes : ConsumesStmt statement) (line : Nat) :
    ConsumesRest (ifStatement budget statement line) := by
  refine Consumes.expect.bind ?_
  rintro begin _ ⟨rfl, -⟩
  refine (consumes_expression budget).bind fun c used draws => Consumes.expect.bind ?_
  rintro stop _ ⟨rfl, -⟩
  refine consumes.bind fun first more draws₁ => Consumes.accept?.bind ?_
  rintro o _ rfl
  cases o with
  | none =>
      apply Consumes.pure
      rw [Stmt.names]
      exact (draws.drawn.append ((draws₁.drawn.append_left _).append_right [stop])).append_right
        [begin]
  | some word =>
      refine consumes.bind fun second others draws₂ => .pure ?_
      rw [Stmt.names]
      exact (draws.drawn.append ((draws₁.drawn.append ((draws₂.drawn.append_left []).append_right
        [word])).append_right [stop])).append_right [begin]

theorem consumes_forInitializer : Consumes (forInitializer budget) fun o used =>
    Drawn ((o.map Stmt.names).getD []) used := by
  refine Consumes.accept?.bind ?_
  rintro o _ rfl
  cases o with
  | some stop => exact .pure (.nil _)
  | none =>
      refine Consumes.accept?.bind ?_
      rintro o _ rfl
      cases o with
      | some word =>
          exact Consumes.map (consumes_variableDeclaration.imp fun s used drawn => drawn.cons word)
      | none => exact Consumes.map (consumes_expressionStatement.imp fun s used draws => draws.drawn)

theorem consumes_forLoop (consumes : ConsumesStmt statement) (line : Nat) :
    ConsumesRest (forLoop budget statement line) := by
  refine Consumes.expect.bind ?_
  rintro begin _ ⟨rfl, -⟩
  refine consumes_forInitializer.bind fun initializer used₁ first => ?_
  refine (consumes_optionalExpression .semicolon).bind fun c used₂ second => Consumes.expect.bind ?_
  rintro stop _ ⟨rfl, -⟩
  refine (consumes_optionalExpression .rightParen).bind fun i used₃ third => Consumes.expect.bind ?_
  rintro close _ ⟨rfl, -⟩
  refine consumes.bind fun body used₄ draws => .pure fun n => ?_
  have parts := ((first.append (second.append ((third.append ((draws.drawn.append_left []).append_right
    [close])).append_right [stop]))).append_right [begin]) n
  rw [count_names_forStatement]
  refine Nat.le_trans ?_ parts
  simp only [List.count_append]
  omega

theorem consumes_block (consumes : ConsumesDecl declaration) :
    Consumes (block budget declaration) fun body used => Drawn (namesOfBody body) used := by
  refine (Consumes.untilBrace consumes (E := fun found used =>
    Drawn (namesOfBody (found.filterMap id)) used) (.nil []) ?_ budget).bind ?_
  · intro o os used more drawn others
    rw [namesOfBody_filterMap_cons]
    exact drawn.append others
  · intro found used drawn
    refine Consumes.expect.bind ?_
    rintro stop _ ⟨rfl, -⟩
    exact .pure (drawn.append_left _)

theorem consumes_parameters (n : Nat) : Consumes
    (entries .tooManyParameters (expectName .parameterName) n 0) fun params used =>
      Drawn params used := by
  apply Consumes.expectName.entries
  · intro name used drawn
    exact drawn.2
  · intro name names used t more drawn others
    exact drawn.2.append (others.cons t)

theorem consumes_routine (consumes : ConsumesDecl declaration) (kind : RoutineKind) :
    Consumes (routine budget declaration kind) fun r used => Draws r.names used := by
  refine Consumes.expectName.bind fun name used₁ drawn => Consumes.expect.bind ?_
  rintro begin _ ⟨rfl, -⟩
  have rest {x : Reading (List Name)} (inner : Consumes x fun params used => Drawn params used) :
      Consumes (do
        let params ← x
        let _ ← expect .rightParen .parametersEnd
        let _ ← expect .leftBrace (.routineBodyStart kind)
        let body ← block budget declaration
        Pure.pure (Routine.mk name params body)) fun r more =>
          Draws r.names (used₁ ++ (begin :: more)) := by
    refine inner.bind fun params used₂ first => Consumes.expect.bind ?_
    rintro stop _ ⟨rfl, -⟩
    refine Consumes.expect.bind ?_
    rintro brace _ ⟨rfl, -⟩
    refine (consumes_block consumes).bind fun body used₃ second => .pure ?_
    have behind := (first.append ((second.append_left []).append_right [stop, brace])).cons begin
    refine ⟨List.append_ne_nil_of_left_ne_nil drawn.1 _, ?_⟩
    simpa [Routine.names] using drawn.2.append behind
  refine (Consumes.nextIs (E := fun _ used => used = []) fun _ => rfl).bind ?_
  rintro next _ rfl
  cases next with
  | true => exact rest (.pure (.nil []))
  | false => exact rest (consumes_parameters budget)

theorem consumes_superclass :
    Consumes superclass fun parent used => Drawn (superclassNames parent) used := by
  refine Consumes.accept?.bind ?_
  rintro o _ rfl
  cases o with
  | none => exact .pure (.nil _)
  | some less =>
      exact Consumes.expectName.bind fun name used drawn =>
        .pure ((drawn.2.append_left []).append_right [less])

theorem consumes_classDeclaration (consumes : ConsumesDecl declaration) :
    ConsumesRest (classDeclaration budget declaration) := by
  refine Consumes.expectName.bind fun name used₁ drawn => ?_
  refine consumes_superclass.bind fun parent used₂ above => Consumes.expect.bind ?_
  rintro begin _ ⟨rfl, -⟩
  refine (Consumes.untilBrace (consumes_routine consumes .method) (E := fun methods used =>
    Drawn (namesOfMethods methods) used) (.nil []) ?_ budget).bind ?_
  · intro r rs used more draws others
    rw [namesOfMethods]
    exact draws.drawn.append others
  · intro methods used₃ inner
    refine Consumes.expect.bind ?_
    rintro stop _ ⟨rfl, -⟩
    apply Consumes.pure
    rw [Stmt.names]
    exact drawn.2.append (above.append ((inner.append_left _).append_right [begin]))

theorem consumes_statementLevel (statements : ConsumesStmt statement)
    (declarations : ConsumesDecl declaration) :
    ConsumesStmt (statementLevel budget statement declaration) := by
  intro ts
  cases ts with
  | nil => exact consumes_expressionStatement []
  | cons t ts =>
      have behind {x : Reading RawStmt} (consumes : ConsumesRest x) :
          (x ts).Consumed (t :: ts) fun s used => Draws s.names used :=
        .cons ((consumes ts).imp fun s used drawn => .cons drawn t)
      simp only [statementLevel]
      split
      case h_1 => exact behind (consumes_forLoop statements _)
      case h_2 => exact behind (consumes_ifStatement statements _)
      case h_3 => exact behind (consumes_printStatement _)
      case h_4 => exact behind (consumes_returnStatement _)
      case h_5 => exact behind (consumes_whileStatement statements _)
      case h_6 =>
        refine behind (Consumes.map ((consumes_block declarations).imp fun body used drawn => ?_))
        rwa [Stmt.names]
      case h_7 => exact consumes_expressionStatement (t :: ts)

theorem consumes_declarationLevel (statements : ConsumesStmt statement)
    (declarations : ConsumesDecl declaration) :
    ConsumesStmt (declarationLevel budget statement declaration) := by
  intro ts
  cases ts with
  | nil => exact consumes_statementLevel statements declarations []
  | cons t ts =>
      have behind {x : Reading RawStmt} (consumes : ConsumesRest x) :
          (x ts).Consumed (t :: ts) fun s used => Draws s.names used :=
        .cons ((consumes ts).imp fun s used drawn => .cons drawn t)
      simp only [declarationLevel]
      split
      case h_1 => exact behind (consumes_classDeclaration declarations)
      case h_2 =>
        refine behind (Consumes.map ((consumes_routine declarations .function).imp ?_))
        intro r used draws
        rw [Stmt.names]
        exact draws.drawn
      case h_3 => exact behind consumes_variableDeclaration
      case h_4 => exact consumes_statementLevel statements declarations (t :: ts)

end

theorem consumes_statement_declaration (n : Nat) :
    ConsumesStmt (statement n) ∧ ConsumesDecl (declaration n) := by
  have recovered {x : Reading RawStmt} (consumes : ConsumesStmt x) : ConsumesDecl (recover x) :=
    consumes.recover.imp fun o used draws => by
      cases o with
      | none => exact .nil used
      | some s => exact (draws s rfl).drawn
  induction n with
  | zero => exact ⟨.fail, recovered .fail⟩
  | succ n ih =>
      constructor
      · exact consumes_statementLevel ih.1 ih.2
      · exact recovered (consumes_declarationLevel ih.1 ih.2)

/-- The names of a program are among the identifiers it was read from. -/
theorem consumes_program (n : Nat) :
    Consumes (program n) fun body used => Drawn (namesOfBody body) used := by
  refine (Consumes.untilEnd (consumes_statement_declaration n).2 (E := fun found used =>
    Drawn (namesOfBody (found.filterMap id)) used) (.nil []) ?_ n).bind ?_
  · intro o os used more drawn others
    rw [namesOfBody_filterMap_cons]
    exact drawn.append others
  · intro found used drawn
    exact .pure (drawn.append_left [])

/-! Progress. -/

/-- A declaration is never abandoned, and goes on behind at least one token. -/
theorem declaration_takes (n : Nat) (t : Token) (ts : List Token) :
    ((declaration n (t :: ts)).value? ≠ none) ∧
      ∃ used, used ≠ [] ∧ t :: ts = used ++ (declaration n (t :: ts)).rest := by
  have recovered (x : Reading RawStmt) : (recover x (t :: ts)).value? ≠ none := by
    simp only [recover]
    split <;> simp
  cases n with
  | zero => exact ⟨recovered _, recover_taken (D := fun _ _ => False) .fail (fun _ _ => False.elim) t ts⟩
  | succ n =>
      obtain ⟨statements, declarations⟩ := consumes_statement_declaration n
      exact ⟨recovered _, recover_taken (consumes_declarationLevel statements declarations)
        (fun s used draws => draws.some) t ts⟩

/-- Items that are never abandoned and take a token each are read up to the end. -/
theorem untilEnd_total {α : Type} {item : Reading α}
    (takes : ∀ t ts, (item (t :: ts)).value? ≠ none ∧
      ∃ used, used ≠ [] ∧ t :: ts = used ++ (item (t :: ts)).rest) (n : Nat) :
    ∀ ts : List Token, ts.length ≤ n →
      (untilEnd item n ts).value? ≠ none ∧ (untilEnd item n ts).rest = [] := by
  induction n with
  | zero =>
      intro ts short
      obtain rfl : ts = [] := List.length_eq_zero_iff.mp (Nat.le_zero.mp short)
      exact ⟨by simp [untilEnd, pure], rfl⟩
  | succ n ih =>
      intro ts short
      cases ts with
      | nil => exact ⟨by simp [untilEnd], rfl⟩
      | cons t ts =>
          obtain ⟨value, used, taken, split⟩ := takes t ts
          obtain ⟨a, value⟩ := Option.ne_none_iff_exists'.mp value
          have fewer := congrArg List.length split
          have some_taken := List.length_pos_iff.mpr taken
          rw [List.length_append] at fewer
          obtain ⟨others, rest⟩ := ih (item (t :: ts)).rest (by omega)
          obtain ⟨as, others⟩ := Option.ne_none_iff_exists'.mp others
          simp only [untilEnd, List.isEmpty_cons, Bool.false_eq_true, if_false, bind, value, others,
            pure]
          exact ⟨by simp, rest⟩

theorem program_total (ts : List Token) :
    ∃ statements, (program ts.length ts).value? = some statements ∧
      (program ts.length ts).rest = [] := by
  obtain ⟨value, rest⟩ := untilEnd_total (declaration_takes ts.length) ts.length ts (Nat.le_refl _)
  obtain ⟨found, value⟩ := Option.ne_none_iff_exists'.mp value
  refine ⟨found.filterMap id, ?_, ?_⟩
  · simp only [program, bind, value, pure]
  · simp only [program, bind, value, pure]
    exact rest

end Reading
end LoxLang
