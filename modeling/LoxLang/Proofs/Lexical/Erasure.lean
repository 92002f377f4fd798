import LoxLang.Proofs.Addressing.Visits
/-! Trees without their addresses. What a walk adds to a tree is addresses only. -/
namespace LoxLang

section
variable {δ : Type}

mutual

def Expr.erase : Expr δ → Expr Unit
  | .literal line value => .literal line value
  | .grouping line inner => .grouping line inner.erase
  | .var name _ => .var name ()
  | .assign name value _ => .assign name value.erase ()
  | .unary op pos operand => .unary op pos operand.erase
  | .binary left op pos right => .binary left.erase op pos right.erase
  | .logical left op pos right => .logical left.erase op pos right.erase
  | .conditional condition thenBranch elseBranch =>
    .conditional condition.erase thenBranch.erase elseBranch.erase
  | .call callee close arguments => .call callee.erase close (eraseAll arguments)
  | .member object name => .member object.erase name
  | .assignMember object name value => .assignMember object.erase name value.erase
  | .receiver pos _ => .receiver pos ()
  | .inherited pos method _ => .inherited pos method ()

def eraseAll : List (Expr δ) → List (Expr Unit)
  | [] => []
  | e :: rest => e.erase :: eraseAll rest

end

mutual

def Stmt.erase : Stmt δ → Stmt Unit
  | .expression value => .expression value.erase
  | .print line value => .print line value.erase
  | .var name none => .var name none
  | .var name (some value) => .var name (some value.erase)
  | .block line body => .block line (eraseBody body)
  | .ifThen line condition thenBranch => .ifThen line condition.erase thenBranch.erase
  | .ifElse line condition thenBranch elseBranch =>
    .ifElse line condition.erase thenBranch.erase elseBranch.erase
  | .loop line condition body => .loop line condition.erase body.erase
  | .function declaration => .function declaration.erase
  | .classDecl name none methods => .classDecl name none (eraseMethods methods)
  | .classDecl name (some parent) methods =>
    .classDecl name (some ⟨parent.name, ()⟩) (eraseMethods methods)
  | .ret pos none => .ret pos none
  | .ret pos (some value) => .ret pos (some value.erase)

def eraseBody : List (Stmt δ) → List (Stmt Unit)
  | [] => []
  | s :: rest => s.erase :: eraseBody rest

def Routine.erase : Routine δ → Routine Unit
  | .mk name params body => .mk name params (eraseBody body)

def eraseMethods : List (Routine δ) → List (Routine Unit)
  | [] => []
  | r :: rest => r.erase :: eraseMethods rest

end

@[simp] theorem Routine.name_erase (r : Routine δ) : r.erase.name = r.name := by
  cases r
  rfl

@[simp] theorem Routine.params_erase (r : Routine δ) : r.erase.params = r.params := by
  cases r
  rfl

@[simp] theorem Routine.body_erase (r : Routine δ) : r.erase.body = eraseBody r.body := by
  cases r
  rfl

end

namespace Walk

mutual

theorem erase_expr : ∀ (e : Expr Unit) (c : Context), (expr e c).value.erase = e
  | .literal _ _, _ => rfl
  | .grouping _ inner, c => congrArg (Expr.grouping _) (erase_expr inner c)
  | .var _ _, _ => rfl
  | .assign _ value _, c => by
      simp only [expr, value_bind, run_pure, Expr.erase, erase_expr value c]
  | .unary _ _ operand, c => congrArg (Expr.unary _ _) (erase_expr operand c)
  | .binary left _ _ right, c => by
      simp only [expr, value_bind, run_pure, Expr.erase, erase_expr left c, erase_expr right]
  | .logical left _ _ right, c => by
      simp only [expr, value_bind, run_pure, Expr.erase, erase_expr left c, erase_expr right]
  | .conditional condition thenBranch elseBranch, c => by
      simp only [expr, value_bind, run_pure, Expr.erase, erase_expr condition c,
        erase_expr thenBranch, erase_expr elseBranch]
  | .call callee _ arguments, c => by
      simp only [expr, value_bind, run_pure, Expr.erase, erase_expr callee c, erase_exprs arguments]
  | .member object _, c => by
      simp only [expr, value_bind, run_pure, Expr.erase, erase_expr object c]
  | .assignMember object _ value, c => by
      simp only [expr, value_bind, run_pure, Expr.erase, erase_expr value c, erase_expr object]
  | .receiver _ _, _ => rfl
  | .inherited _ _ _, _ => rfl

theorem erase_exprs : ∀ (es : List (Expr Unit)) (c : Context), eraseAll (exprs es c).value = es
  | [], _ => rfl
  | e :: rest, c => by
      simp only [exprs, value_bind, run_pure, eraseAll, erase_expr e c, erase_exprs rest]

end

theorem name_superclass (name : Name) (p : Superclass Unit) (c : Context) :
    (superclass name p c).value.name = p.name := by
  unfold superclass
  split <;> rfl

mutual

theorem erase_stmt : ∀ (s : Stmt Unit) (c : Context), (stmt s c).value.erase = s
  | .expression value, c => congrArg Stmt.expression (erase_expr value c)
  | .print _ value, c => congrArg (Stmt.print _) (erase_expr value c)
  | .var _ none, _ => rfl
  | .var _ (some value), c => by
      simp only [stmt, optionalExpr, value_bind, run_pure, Stmt.erase, erase_expr value]
  | .block _ body, c => by
      simp only [stmt, value_bind, run_pure, Stmt.erase, erase_stmts body]
  | .ifThen _ condition thenBranch, c => by
      simp only [stmt, value_bind, run_pure, Stmt.erase, erase_expr condition, erase_stmt thenBranch]
  | .ifElse _ condition thenBranch elseBranch, c => by
      simp only [stmt, value_bind, run_pure, Stmt.erase, erase_expr condition,
        erase_stmt thenBranch, erase_stmt elseBranch]
  | .loop _ condition body, c => by
      simp only [stmt, value_bind, run_pure, Stmt.erase, erase_expr condition, erase_stmt body]
  | .function declaration, c => by
      simp only [stmt, value_bind, run_pure, Stmt.erase, erase_routine .function declaration]
  | .classDecl _ none methods, c => by
      simp only [stmt, value_bind, run_pure, Stmt.erase, erase_routines methods]
  | .classDecl _ (some parent) methods, c => by
      simp only [stmt, value_bind, run_pure, Stmt.erase, erase_routines methods, name_superclass]
  | .ret _ none, c => by
      cases inside : c.inRoutine <;> simp [stmt, inside, optionalExpr, Stmt.erase]
  | .ret _ (some value), c => by
      cases inside : c.inRoutine <;> simp [stmt, inside, optionalExpr, Stmt.erase, erase_expr value]

theorem erase_stmts : ∀ (ss : List (Stmt Unit)) (c : Context), eraseBody (stmts ss c).value = ss
  | [], _ => rfl
  | s :: rest, c => by
      simp only [stmts, value_bind, run_pure, eraseBody, erase_stmt s c, erase_stmts rest]

theorem erase_routine : ∀ (k : RoutineKind) (r : Routine Unit) (c : Context),
    (routine k r c).value.erase = r
  | _, .mk _ _ body, c => by
      simp only [routine, value_bind, run_pure, Routine.erase, erase_stmts body]

theorem erase_routines : ∀ (rs : List (Routine Unit)) (c : Context),
    eraseMethods (routines rs c).value = rs
  | [], _ => rfl
  | r :: rest, c => by
      simp only [routines, value_bind, run_pure, eraseMethods, erase_routine .method r c,
        erase_routines rest]

end

end Walk

/-- A program with its addresses is the program. -/
theorem erase_resolve (program : List (Stmt Unit)) : eraseBody (resolve program).program = program :=
  Walk.erase_stmts program Walk.start

end LoxLang
