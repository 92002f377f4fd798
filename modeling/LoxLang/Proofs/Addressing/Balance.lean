import LoxLang.Proofs.Addressing.Visits
/-! A walk over any tree, read from wrong tokens or not, closes every scope that it opens, and no
other. -/
namespace LoxLang
namespace Walk

/-- As many scopes are open as before, and of these only the innermost has changed. What is
around a place is the same as before. -/
structure Balances (c d : Context) : Prop where
  depth : d.scopes.length = c.scopes.length
  outer : d.scopes.tail = c.scopes.tail
  enclosing : d.enclosing = c.enclosing
  surrounding : d.surrounding = c.surrounding

namespace Balances
variable {c d e : Context}

theorem refl (c : Context) : Balances c c := ⟨rfl, rfl, rfl, rfl⟩

theorem trans (first : Balances c d) (second : Balances d e) : Balances c e :=
  ⟨second.depth.trans first.depth, second.outer.trans first.outer,
    second.enclosing.trans first.enclosing, second.surrounding.trans first.surrounding⟩

theorem of_keeps (keeps : Keeps c d) : Balances c d :=
  ⟨congrArg List.length keeps.scopes, congrArg List.tail keeps.scopes, keeps.enclosing,
    keeps.surrounding⟩

/-- Where a scope was open, one is open behind what balances. -/
theorem isEmpty (balances : Balances c d) : d.scopes.isEmpty = c.scopes.isEmpty := by
  rw [Bool.eq_iff_iff, List.isEmpty_iff_length_eq_zero, List.isEmpty_iff_length_eq_zero,
    balances.depth]

/-- What balances in a scope of its own leaves nothing behind once that scope is closed. -/
theorem close {g : Table Bool} (inner : Balances { c with scopes := g :: c.scopes } d) :
    Keeps c (closeScope d).context := by
  rw [run_closeScope]
  exact ⟨inner.outer, inner.enclosing, inner.surrounding⟩

end Balances

theorem enter_scopes (Γ : Scopes) (x : String) (b : Bool) :
    (Scopes.enter Γ x b).length = Γ.length ∧ (Scopes.enter Γ x b).tail = Γ.tail := by
  cases Γ with
  | nil => exact ⟨rfl, rfl⟩
  | cons g Δ => exact ⟨rfl, rfl⟩

theorem enter_balances (n : Name) (b : Bool) (c : Context) : Balances c (enter n b c).context := by
  rw [context_enter]
  exact ⟨(enter_scopes c.scopes n.text b).1, (enter_scopes c.scopes n.text b).2, rfl, rfl⟩

theorem defineAll_balances (ps : List Name) (c : Context) :
    Balances c (defineAll ps c).context := by
  induction ps generalizing c with
  | nil => exact .refl c
  | cons p ps ih => exact ((enter_balances p false c).trans (enter_balances p true _)).trans (ih _)

mutual

theorem stmt_balances : ∀ (s : Stmt Unit) (c : Context), Balances c (stmt s c).context
  | .expression value, c => .of_keeps (expr_keeps value c)
  | .print _ value, c => .of_keeps (expr_keeps value c)
  | .var name value, c =>
      ((enter_balances name false c).trans (.of_keeps (optionalExpr_keeps value _))).trans
        (enter_balances name true _)
  | .block _ body, c =>
      .of_keeps (stmts_balance body { c with scopes := Table.empty :: c.scopes }).close
  | .ifThen _ condition thenBranch, c =>
      (Balances.of_keeps (expr_keeps condition c)).trans (stmt_balances thenBranch _)
  | .ifElse _ condition thenBranch elseBranch, c =>
      ((Balances.of_keeps (expr_keeps condition c)).trans (stmt_balances thenBranch _)).trans
        (stmt_balances elseBranch _)
  | .loop _ condition body, c =>
      (Balances.of_keeps (expr_keeps condition c)).trans (stmt_balances body _)
  | .function declaration, c =>
      ((enter_balances declaration.name false c).trans
        (enter_balances declaration.name true _)).trans (.of_keeps (routine_restores .function declaration _))
  | .classDecl name none methods, c => by
      let d : Context := (define name (declare name
        { c with surrounding := .plainClass }).context).context
      have declared : Balances { c with surrounding := .plainClass } d :=
        (enter_balances name false _).trans (enter_balances name true _)
      have inner := Balances.of_keeps
        (routines_restore methods { d with scopes := receiverScope :: d.scopes })
      have whole := declared.trans (.of_keeps inner.close)
      exact ⟨whole.depth, whole.outer, whole.enclosing, rfl⟩
  | .classDecl name (some parent) methods, c => by
      let d : Context := (define name (declare name
        { c with surrounding := .plainClass }).context).context
      have declared : Balances { c with surrounding := .plainClass } d :=
        (enter_balances name false _).trans (enter_balances name true _)
      have above := keeps_superclass name parent d
      let around : Context := { (superclass name parent d).context with
        scopes := inheritedScope :: (superclass name parent d).context.scopes }
      have inner := Balances.of_keeps
        (routines_restore methods { around with scopes := receiverScope :: around.scopes })
      have closed := (Balances.of_keeps inner.close).close
      have outer := closed.scopes.trans above.scopes
      exact ⟨(congrArg List.length outer).trans declared.depth,
        (congrArg List.tail outer).trans declared.outer,
        (closed.enclosing.trans above.enclosing).trans declared.enclosing, rfl⟩
  | .ret pos value, c => .of_keeps (keeps_ret pos value c)

theorem stmts_balance : ∀ (ss : List (Stmt Unit)) (c : Context), Balances c (stmts ss c).context
  | [], c => .refl c
  | s :: rest, c => (stmt_balances s c).trans (stmts_balance rest _)

/-- A routine is walked over in a scope of its own. -/
theorem routine_restores : ∀ (k : RoutineKind) (r : Routine Unit) (c : Context),
    Keeps c (routine k r c).context
  | k, .mk name params body, c => by
      have inner := (defineAll_balances params ⟨Table.empty :: c.scopes, some k, c.surrounding,
        c.resolved⟩).trans (stmts_balance body _)
      have closed : Keeps { c with enclosing := some k } _ := inner.close
      exact ⟨closed.scopes, rfl, closed.surrounding⟩

theorem routines_restore : ∀ (rs : List (Routine Unit)) (c : Context),
    Keeps c (routines rs c).context
  | [], c => .refl c
  | r :: rest, c => (routine_restores .method r c).trans (routines_restore rest _)

end

/-! Only an open scope is closed. An expression closes none; a statement closes what it opened, for
what stands between leaves as many scopes open as it met. -/

theorem overdrawn_locateReceiver (p : Pos) (c : Context) :
    (locateReceiver p c).overdrawn = false := by
  cases around : c.surrounding <;> simp [locateReceiver, around]

theorem overdrawn_locateInherited (p : Pos) (c : Context) :
    (locateInherited p c).overdrawn = false := by
  cases around : c.surrounding <;> simp [locateInherited, around]

mutual

theorem overdrawn_expr : ∀ (e : Expr Unit) (c : Context), (expr e c).overdrawn = false
  | .literal _ _, c => rfl
  | .grouping _ inner, c => by simp [expr, overdrawn_expr inner]
  | .var _ _, c => by simp [expr]
  | .assign _ value _, c => by simp [expr, overdrawn_expr value]
  | .unary _ _ operand, c => by simp [expr, overdrawn_expr operand]
  | .binary left _ _ right, c => by simp [expr, overdrawn_expr left, overdrawn_expr right]
  | .logical left _ _ right, c => by simp [expr, overdrawn_expr left, overdrawn_expr right]
  | .conditional condition thenBranch elseBranch, c => by
      simp [expr, overdrawn_expr condition, overdrawn_expr thenBranch, overdrawn_expr elseBranch]
  | .call callee _ arguments, c => by
      simp [expr, overdrawn_expr callee, overdrawn_exprs arguments]
  | .member object _, c => by simp [expr, overdrawn_expr object]
  | .assignMember object _ value, c => by
      simp [expr, overdrawn_expr value, overdrawn_expr object]
  | .receiver pos _, c => by simp [expr, overdrawn_locateReceiver]
  | .inherited pos _ _, c => by simp [expr, overdrawn_locateInherited]

theorem overdrawn_exprs : ∀ (es : List (Expr Unit)) (c : Context), (exprs es c).overdrawn = false
  | [], c => rfl
  | e :: rest, c => by simp [exprs, overdrawn_expr e, overdrawn_exprs rest]

end

theorem overdrawn_optionalExpr (e : Option (Expr Unit)) (c : Context) :
    (optionalExpr e c).overdrawn = false := by
  cases e with
  | none => rfl
  | some e => simp [optionalExpr, overdrawn_expr e]

theorem overdrawn_defineAll (ps : List Name) (c : Context) :
    (defineAll ps c).overdrawn = false := by
  induction ps generalizing c with
  | nil => rfl
  | cons p ps ih => simp [defineAll, declare, define, ih]

theorem overdrawn_superclass (name : Name) (p : Superclass Unit) (c : Context) :
    (superclass name p c).overdrawn = false := by
  unfold superclass
  split <;> simp

mutual

theorem overdrawn_stmt : ∀ (s : Stmt Unit) (c : Context), (stmt s c).overdrawn = false
  | .expression value, c => by simp [stmt, overdrawn_expr value]
  | .print _ value, c => by simp [stmt, overdrawn_expr value]
  | .var _ value, c => by simp [stmt, declare, define, overdrawn_optionalExpr value]
  | .block _ body, c => by
      have inner := stmts_balance body { c with scopes := Table.empty :: c.scopes }
      simp [stmt, overdrawn_stmts body, inner.isEmpty]
  | .ifThen _ condition thenBranch, c => by
      simp [stmt, overdrawn_expr condition, overdrawn_stmt thenBranch]
  | .ifElse _ condition thenBranch elseBranch, c => by
      simp [stmt, overdrawn_expr condition, overdrawn_stmt thenBranch, overdrawn_stmt elseBranch]
  | .loop _ condition body, c => by simp [stmt, overdrawn_expr condition, overdrawn_stmt body]
  | .function declaration, c => by
      simp [stmt, declare, define, overdrawn_routine .function declaration]
  | .classDecl name none methods, c => by
      simp [stmt, declare, define, overdrawn_routines methods, (routines_restore methods _).scopes]
  | .classDecl name (some parent) methods, c => by
      simp [stmt, declare, define, overdrawn_superclass, overdrawn_routines methods,
        (routines_restore methods _).scopes]
  | .ret pos value, c => by
      cases around : c.inRoutine <;> simp [stmt, around, overdrawn_optionalExpr value]

theorem overdrawn_stmts : ∀ (ss : List (Stmt Unit)) (c : Context), (stmts ss c).overdrawn = false
  | [], c => rfl
  | s :: rest, c => by simp [stmts, overdrawn_stmt s, overdrawn_stmts rest]

theorem overdrawn_routine : ∀ (k : RoutineKind) (r : Routine Unit) (c : Context),
    (routine k r c).overdrawn = false
  | k, .mk _ params body, c => by
      have inner := (defineAll_balances params ⟨Table.empty :: c.scopes, some k, c.surrounding,
        c.resolved⟩).trans (stmts_balance body _)
      simp [routine, overdrawn_defineAll params, overdrawn_stmts body, inner.isEmpty]

theorem overdrawn_routines : ∀ (rs : List (Routine Unit)) (c : Context),
    (routines rs c).overdrawn = false
  | [], c => rfl
  | r :: rest, c => by simp [routines, overdrawn_routine .method r, overdrawn_routines rest]

end

end Walk

@[simp] theorem overdrawn_resolve (program : List (Stmt Unit)) :
    (resolve program).overdrawn = false := Walk.overdrawn_stmts program Walk.start

end LoxLang
