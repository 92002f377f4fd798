import LoxLang.Proofs.Addressing
/-! The sites that the walk over a program comes by. They are the sites of the tree that the
walk yields, so the local scopes around a node can be read off that tree alone. -/
namespace LoxLang
namespace Walk
variable {α β : Type}

@[simp] theorem run_pure (a : α) (c : Context) : (pure a : Walk α) c = ⟨a, c, [], false⟩ := rfl

@[simp] theorem value_bind (x : Walk α) (f : α → Walk β) (c : Context) :
    ((x >>= f) c).value = (f (x c).value (x c).context).value := rfl

@[simp] theorem context_bind (x : Walk α) (f : α → Walk β) (c : Context) :
    ((x >>= f) c).context = (f (x c).value (x c).context).context := rfl

@[simp] theorem issues_bind (x : Walk α) (f : α → Walk β) (c : Context) :
    ((x >>= f) c).issues = (x c).issues ++ (f (x c).value (x c).context).issues := rfl

@[simp] theorem overdrawn_bind (x : Walk α) (f : α → Walk β) (c : Context) :
    ((x >>= f) c).overdrawn = ((x c).overdrawn || (f (x c).value (x c).context).overdrawn) := rfl

@[simp] theorem run_context (c : Context) : context c = ⟨c, c, [], false⟩ := rfl

@[simp] theorem run_report (t : Token) (cause : ScopeError) (c : Context) :
    report t cause c = ⟨(), c, [⟨t, cause⟩], false⟩ := rfl

@[simp] theorem run_setEnclosing (k : Option RoutineKind) (c : Context) :
    setEnclosing k c = ⟨(), { c with enclosing := k }, [], false⟩ := rfl

@[simp] theorem run_setSurrounding (s : Surrounding) (c : Context) :
    setSurrounding s c = ⟨(), { c with surrounding := s }, [], false⟩ := rfl

@[simp] theorem run_openScope (g : Table Bool) (c : Context) :
    openScope g c = ⟨(), { c with scopes := g :: c.scopes }, [], false⟩ := rfl

@[simp] theorem run_closeScope (c : Context) :
    closeScope c = ⟨(), { c with scopes := c.scopes.tail }, [], c.scopes.isEmpty⟩ := by
  obtain ⟨_ | ⟨g, Γ⟩, enclosing, surrounding, resolved⟩ := c
  · rfl
  · rfl

@[simp] theorem isSome_enclosing (c : Context) : c.enclosing.isSome = c.inRoutine := rfl

@[simp] theorem inRoutine_mk (Γ : Scopes) (k : Option RoutineKind) (s : Surrounding) (n : Nat) :
    Context.inRoutine ⟨Γ, k, s, n⟩ = k.isSome := rfl

@[simp] theorem context_enter (n : Name) (b : Bool) (c : Context) :
    (enter n b c).context = { c with scopes := Scopes.enter c.scopes n.text b } := by
  unfold enter Scopes.enter
  split <;> rename_i h
  · rw [h]
    simp only [← h]
  · rw [h]

@[simp] theorem issues_enter (n : Name) (b : Bool) (c : Context) : (enter n b c).issues = [] := by
  unfold enter
  split <;> rfl

@[simp] theorem overdrawn_enter (n : Name) (b : Bool) (c : Context) :
    (enter n b c).overdrawn = false := by
  unfold enter
  split <;> rfl

@[simp] theorem context_locate (x : String) (c : Context) :
    (locate x c).context.scopes = c.scopes ∧ (locate x c).context.enclosing = c.enclosing ∧
      (locate x c).context.surrounding = c.surrounding := by
  unfold locate
  split <;> exact ⟨rfl, rfl, rfl⟩

@[simp] theorem value_locate (x : String) (c : Context) :
    (locate x c).value = Scopes.locate c.scopes x := by
  unfold locate Scopes.locate
  split <;> rename_i h <;> exact h.symm

@[simp] theorem issues_locate (x : String) (c : Context) : (locate x c).issues = [] := by
  unfold locate
  split <;> rfl

@[simp] theorem overdrawn_locate (x : String) (c : Context) :
    (locate x c).overdrawn = false := by
  unfold locate
  split <;> rfl

@[simp] theorem context_checkInitializer (n : Name) (c : Context) :
    (checkInitializer n c).context = c := by
  unfold checkInitializer
  split
  · rfl
  · split <;> rfl

@[simp] theorem overdrawn_checkInitializer (n : Name) (c : Context) :
    (checkInitializer n c).overdrawn = false := by
  unfold checkInitializer
  split
  · rfl
  · split <;> rfl

/-- What a walk over an expression does not change. -/
structure Keeps (c d : Context) : Prop where
  scopes : d.scopes = c.scopes
  enclosing : d.enclosing = c.enclosing
  surrounding : d.surrounding = c.surrounding

theorem Keeps.inRoutine {c d : Context} (h : Keeps c d) : d.inRoutine = c.inRoutine := by
  rw [Context.inRoutine, Context.inRoutine, h.enclosing]

theorem Keeps.refl (c : Context) : Keeps c c := ⟨rfl, rfl, rfl⟩

theorem Keeps.trans {c d e : Context} (h : Keeps c d) (k : Keeps d e) : Keeps c e :=
  ⟨k.scopes.trans h.scopes, k.enclosing.trans h.enclosing, k.surrounding.trans h.surrounding⟩

theorem keeps_locate (x : String) (c : Context) : Keeps c (locate x c).context := by
  have h := context_locate x c
  exact ⟨h.1, h.2.1, h.2.2⟩

theorem keeps_locateReceiver (p : Pos) (c : Context) : Keeps c (locateReceiver p c).context := by
  cases h : c.surrounding <;>
    simp only [locateReceiver, context_bind, run_context, h, run_pure, report]
  · exact .refl c
  · exact keeps_locate "this" c
  · exact keeps_locate "this" c

theorem keeps_locateInherited (p : Pos) (c : Context) : Keeps c (locateInherited p c).context := by
  cases h : c.surrounding <;>
    simp only [locateInherited, context_bind, run_context, h, run_pure, report]
  · exact .refl c
  · exact .refl c
  · exact keeps_locate "super" c

mutual

theorem expr_keeps : ∀ (e : Expr Unit) (c : Context), Keeps c (expr e c).context
  | .literal _ _, c => .refl c
  | .grouping _ inner, c => expr_keeps inner c
  | .var name _, c => by
      simp only [expr, context_bind, context_checkInitializer]
      exact keeps_locate name.text c
  | .assign name value _, c => (expr_keeps value c).trans (keeps_locate name.text _)
  | .unary _ _ operand, c => expr_keeps operand c
  | .binary left _ _ right, c => (expr_keeps left c).trans (expr_keeps right _)
  | .logical left _ _ right, c => (expr_keeps left c).trans (expr_keeps right _)
  | .conditional condition thenBranch elseBranch, c =>
      ((expr_keeps condition c).trans (expr_keeps thenBranch _)).trans (expr_keeps elseBranch _)
  | .call callee _ arguments, c => (expr_keeps callee c).trans (exprs_keep arguments _)
  | .member object _, c => expr_keeps object c
  | .assignMember object _ value, c => (expr_keeps value c).trans (expr_keeps object _)
  | .receiver pos _, c => keeps_locateReceiver pos c
  | .inherited pos _ _, c => keeps_locateInherited pos c

theorem exprs_keep : ∀ (es : List (Expr Unit)) (c : Context), Keeps c (exprs es c).context
  | [], c => .refl c
  | e :: rest, c => (expr_keeps e c).trans (exprs_keep rest _)

end

@[simp] theorem expr_scopes (e : Expr Unit) (c : Context) :
    (expr e c).context.scopes = c.scopes := (expr_keeps e c).scopes

@[simp] theorem expr_enclosing (e : Expr Unit) (c : Context) :
    (expr e c).context.enclosing = c.enclosing := (expr_keeps e c).enclosing

@[simp] theorem expr_inRoutine (e : Expr Unit) (c : Context) :
    (expr e c).context.inRoutine = c.inRoutine := (expr_keeps e c).inRoutine

@[simp] theorem expr_surrounding (e : Expr Unit) (c : Context) :
    (expr e c).context.surrounding = c.surrounding := (expr_keeps e c).surrounding

theorem optionalExpr_keeps (e : Option (Expr Unit)) (c : Context) :
    Keeps c (optionalExpr e c).context := by
  cases e with
  | none => exact .refl c
  | some e => exact expr_keeps e c

end Walk

namespace Scopes

theorem extend_of_binds_none {δ : Type} {Γ : Scopes} {s : Stmt δ} (h : s.binds = none) :
    Γ.extend s = Γ := by
  rw [extend, h]

/-- Declarations change the innermost scope only. -/
theorem extendAll_cons {δ : Type} (ss : List (Stmt δ)) (g : Table Bool) (Γ : Scopes) :
    ∃ g', ss.foldl extend (g :: Γ) = g' :: Γ := by
  induction ss generalizing g with
  | nil => exact ⟨g, rfl⟩
  | cons s ss ih =>
      rw [List.foldl_cons, extend]
      split
      · exact ih g
      · exact ih _

theorem declareAll_cons (ps : List Name) (g : Table Bool) (Γ : Scopes) :
    ∃ g', ps.foldl (fun Δ p => declare Δ p.text) (g :: Γ) = g' :: Γ := by
  induction ps generalizing g with
  | nil => exact ⟨g, rfl⟩
  | cons p ps ih => exact ih _

theorem parameters_cons (Γ : Scopes) (ps : List Name) : ∃ g, Γ.parameters ps = g :: Γ :=
  declareAll_cons ps Table.empty Γ

end Scopes

namespace Walk

theorem context_defineAll (ps : List Name) (c : Context) :
    (defineAll ps c).context =
      { c with scopes := ps.foldl (fun Δ p => Scopes.declare Δ p.text) c.scopes } := by
  induction ps generalizing c with
  | nil => rfl
  | cons p ps ih =>
      simp only [defineAll, context_bind, declare, define, context_enter, ih, List.foldl_cons,
        Scopes.declare]

@[simp] theorem issues_defineAll (ps : List Name) (c : Context) : (defineAll ps c).issues = [] := by
  induction ps generalizing c with
  | nil => rfl
  | cons p ps ih => simp [defineAll, declare, define, ih]

theorem value_superclass (name : Name) (p : Superclass Unit) (c : Context) :
    (superclass name p c).value = ⟨p.name, Scopes.locate c.scopes p.name.text⟩ := by
  unfold superclass
  split <;> simp

theorem keeps_superclass (name : Name) (p : Superclass Unit) (c : Context) :
    Keeps { c with surrounding := .subclass } (superclass name p c).context := by
  have moved := keeps_locate p.name.text { c with surrounding := Surrounding.subclass }
  unfold superclass
  split <;> simpa only [context_bind, context_checkInitializer, run_setSurrounding, run_report,
    run_pure] using moved

theorem keeps_ret (pos : Pos) (value : Option (Expr Unit)) (c : Context) :
    Keeps c (stmt (.ret pos value) c).context := by
  have kept := optionalExpr_keeps value c
  cases inside : c.inRoutine <;>
    simp only [stmt, context_bind, run_context, run_pure, run_report, inside, Bool.not_false,
      Bool.not_true, if_true, Bool.false_eq_true, if_false] <;> exact kept

mutual

theorem stmt_keeps : ∀ (s : Stmt Unit) (c : Context), s.Plain →
    Keeps { c with scopes := Scopes.extend c.scopes s } (stmt s c).context
  | .expression value, c, _ => expr_keeps value c
  | .print _ value, c, _ => expr_keeps value c
  | .var name value, c, _ => by
      have kept := optionalExpr_keeps value
      refine ⟨?_, ?_, ?_⟩ <;>
        simp only [stmt, context_bind, define, context_enter, run_pure, declare, (kept _).scopes,
          (kept _).enclosing, (kept _).surrounding]
      rfl
  | .block _ body, c, plain => by
      have moved := stmts_keep body { c with scopes := Table.empty :: c.scopes } plain
      obtain ⟨g, hg⟩ := Scopes.extendAll_cons body Table.empty c.scopes
      refine ⟨?_, ?_, ?_⟩ <;>
        simp only [stmt, context_bind, run_openScope, run_closeScope, run_pure, moved.scopes,
          moved.enclosing, moved.surrounding, hg, List.tail_cons]
      rfl
  | .ifThen _ condition thenBranch, c, plain => by
      obtain ⟨-, quiet, plain⟩ := plain
      have moved := stmt_keeps thenBranch (expr condition c).context plain
      refine ⟨?_, ?_, ?_⟩ <;>
        simp only [stmt, context_bind, run_pure, moved.scopes, moved.enclosing, moved.surrounding,
          expr_scopes, expr_enclosing, expr_surrounding]
      exact Scopes.extend_of_binds_none quiet
  | .ifElse _ condition thenBranch elseBranch, c, plain => by
      obtain ⟨-, ⟨quiet₁, plain₁⟩, quiet₂, plain₂⟩ := plain
      have first := stmt_keeps thenBranch (expr condition c).context plain₁
      have second := stmt_keeps elseBranch (stmt thenBranch (expr condition c).context).context
        plain₂
      refine ⟨?_, ?_, ?_⟩ <;>
        simp only [stmt, context_bind, run_pure, second.scopes, second.enclosing,
          second.surrounding, first.scopes, first.enclosing, first.surrounding,
          expr_scopes, expr_enclosing, expr_surrounding]
      rw [Scopes.extend_of_binds_none quiet₂, Scopes.extend_of_binds_none quiet₁]
      rfl
  | .loop _ condition body, c, plain => by
      obtain ⟨-, quiet, plain⟩ := plain
      have moved := stmt_keeps body (expr condition c).context plain
      refine ⟨?_, ?_, ?_⟩ <;>
        simp only [stmt, context_bind, run_pure, moved.scopes, moved.enclosing, moved.surrounding,
          expr_scopes, expr_enclosing, expr_surrounding]
      exact Scopes.extend_of_binds_none quiet
  | .function declaration, c, plain => by
      have moved := routine_keeps .function declaration
        { c with scopes := Scopes.declare c.scopes declaration.name.text } plain.2
      refine ⟨?_, ?_, ?_⟩ <;>
        simp only [stmt, context_bind, run_pure, declare, define, context_enter]
      · exact moved.scopes
      · exact moved.enclosing
      · exact moved.surrounding
  | .classDecl name none methods, c, plain => by
      have kept := fun d => routines_keep methods d plain.2
      refine ⟨?_, ?_, ?_⟩ <;>
        simp only [stmt, context_bind, run_pure, run_context, declare, define, context_enter,
          run_setSurrounding, run_openScope, run_closeScope, (kept _).scopes, (kept _).enclosing,
          List.tail_cons]
      rfl
  | .classDecl name (some parent) methods, c, plain => by
      have kept := fun d => routines_keep methods d plain.2
      have above := keeps_superclass name parent
      refine ⟨?_, ?_, ?_⟩ <;>
        simp only [stmt, context_bind, run_pure, run_context, declare, define, context_enter,
          run_setSurrounding, run_openScope, run_closeScope, (kept _).scopes, (kept _).enclosing,
          (above _).scopes, (above _).enclosing, List.tail_cons]
      rfl
  | .ret pos value, c, _ => keeps_ret pos value c

theorem stmts_keep : ∀ (ss : List (Stmt Unit)) (c : Context), plainBody ss →
    Keeps { c with scopes := ss.foldl Scopes.extend c.scopes } (stmts ss c).context
  | [], c, _ => .refl c
  | s :: rest, c, plain => by
      have first := stmt_keeps s c plain.1
      have others := stmts_keep rest (stmt s c).context plain.2
      refine ⟨?_, others.enclosing.trans first.enclosing, others.surrounding.trans first.surrounding⟩
      rw [first.scopes] at others
      exact others.scopes

theorem routine_keeps : ∀ (k : RoutineKind) (r : Routine Unit) (c : Context), r.Plain →
    Keeps c (routine k r c).context
  | k, .mk name params body, c, plain => by
      have moved := stmts_keep body
        ⟨Scopes.parameters c.scopes params, some k, c.surrounding, c.resolved⟩ plain.2
      obtain ⟨g, hg⟩ := Scopes.parameters_cons c.scopes params
      obtain ⟨g', hg'⟩ := Scopes.extendAll_cons body g c.scopes
      refine ⟨?_, ?_, ?_⟩ <;>
        simp only [routine, context_bind, run_pure, run_context, run_setEnclosing, run_openScope,
          run_closeScope, context_defineAll]
      · exact (congrArg List.tail moved.scopes).trans (by simp only [hg, hg', List.tail_cons])
      · exact moved.surrounding

theorem routines_keep : ∀ (rs : List (Routine Unit)) (c : Context), plainMethods rs →
    Keeps c (routines rs c).context
  | [], c, _ => .refl c
  | r :: rest, c, plain =>
      (routine_keeps .method r c plain.1).trans (routines_keep rest _ plain.2)

end

/-! Where a walk comes by, with its scopes at that moment and what it makes of the node. -/

def siteOf (c : Context) (i : Option Name) (n : Node) : Site := ⟨c.scopes, c.inRoutine, i, n⟩

def exprSite (i : Option Name) (e : Expr Unit) (c : Context) : Site :=
  siteOf c i (.expr (expr e c).value)

def stmtSite (s : Stmt Unit) (c : Context) : Site := siteOf c none (.stmt (stmt s c).value)

mutual

/-- The sites that a walk over an expression comes by. An assignment is left at its store. -/
def exprVisits (i : Option Name) : Expr Unit → Context → List Site
  | .literal line value, c => [exprSite i (.literal line value) c]
  | .grouping line inner, c => exprSite i (.grouping line inner) c :: exprVisits i inner c
  | .var name address, c => [exprSite i (.var name address) c]
  | .assign name value address, c =>
    let d := (expr value c).context
    exprSite i (.assign name value address) c
      :: (exprVisits i value c ++ [siteOf d i (.store name (locate name.text d).value)])
  | .unary op pos operand, c =>
    exprSite i (.unary op pos operand) c :: exprVisits i operand c
  | .binary left op pos right, c =>
    exprSite i (.binary left op pos right) c
      :: (exprVisits i left c ++ exprVisits i right (expr left c).context)
  | .logical left op pos right, c =>
    exprSite i (.logical left op pos right) c
      :: (exprVisits i left c ++ exprVisits i right (expr left c).context)
  | .conditional condition thenBranch elseBranch, c =>
    let d := (expr condition c).context
    exprSite i (.conditional condition thenBranch elseBranch) c
      :: (exprVisits i condition c ++ (exprVisits i thenBranch d
        ++ exprVisits i elseBranch (expr thenBranch d).context))
  | .call callee close arguments, c =>
    exprSite i (.call callee close arguments) c
      :: (exprVisits i callee c ++ exprsVisits i arguments (expr callee c).context)
  | .member object name, c => exprSite i (.member object name) c :: exprVisits i object c
  | .assignMember object name value, c =>
    exprSite i (.assignMember object name value) c
      :: (exprVisits i value c ++ exprVisits i object (expr value c).context)
  | .receiver pos address, c => [exprSite i (.receiver pos address) c]
  | .inherited pos method address, c => [exprSite i (.inherited pos method address) c]

def exprsVisits (i : Option Name) : List (Expr Unit) → Context → List Site
  | [], _ => []
  | e :: rest, c => exprVisits i e c ++ exprsVisits i rest (expr e c).context

end

/-- What a walk does between the name of a declaration and what is declared. -/
def introduce (name : Name) : Walk Unit := do
  declare name
  define name

mutual

/-- The sites that a walk over a statement comes by. -/
def stmtVisits : Stmt Unit → Context → List Site
  | .expression value, c => stmtSite (.expression value) c :: exprVisits none value c
  | .print line value, c => stmtSite (.print line value) c :: exprVisits none value c
  | .var name none, c => [stmtSite (.var name none) c]
  | .var name (some value), c =>
    stmtSite (.var name (some value)) c :: exprVisits (some name) value (declare name c).context
  | .block line body, c =>
    stmtSite (.block line body) c :: stmtsVisits body (openScope Table.empty c).context
  | .ifThen line condition thenBranch, c =>
    stmtSite (.ifThen line condition thenBranch) c
      :: (exprVisits none condition c ++ stmtVisits thenBranch (expr condition c).context)
  | .ifElse line condition thenBranch elseBranch, c =>
    let d := (expr condition c).context
    stmtSite (.ifElse line condition thenBranch elseBranch) c
      :: (exprVisits none condition c ++ (stmtVisits thenBranch d
        ++ stmtVisits elseBranch (stmt thenBranch d).context))
  | .loop line condition body, c =>
    stmtSite (.loop line condition body) c
      :: (exprVisits none condition c ++ stmtVisits body (expr condition c).context)
  | .function declaration, c =>
    stmtSite (.function declaration) c
      :: routineVisits .function declaration (introduce declaration.name c).context
  | .classDecl name none methods, c =>
    let d := ((do setSurrounding .plainClass; introduce name : Walk Unit) c).context
    stmtSite (.classDecl name none methods) c
      :: routinesVisits methods (openScope receiverScope d).context
  | .classDecl name (some parent) methods, c =>
    let d := ((do setSurrounding .plainClass; introduce name : Walk Unit) c).context
    let above := superclass name parent d
    stmtSite (.classDecl name (some parent) methods) c
      :: siteOf d none (.superclass name above.value)
      :: routinesVisits methods
        ((do openScope inheritedScope; openScope receiverScope : Walk Unit) above.context).context
  | .ret pos none, c => [stmtSite (.ret pos none) c]
  | .ret pos (some value), c => stmtSite (.ret pos (some value)) c :: exprVisits none value c

def stmtsVisits : List (Stmt Unit) → Context → List Site
  | [], _ => []
  | s :: rest, c => stmtVisits s c ++ stmtsVisits rest (stmt s c).context

def routineVisits (kind : RoutineKind) : Routine Unit → Context → List Site
  | .mk _ params body, c =>
    stmtsVisits body
      ((do setEnclosing kind; openScope Table.empty; defineAll params : Walk Unit) c).context

def routinesVisits : List (Routine Unit) → Context → List Site
  | [], _ => []
  | r :: rest, c =>
    routineVisits .method r c ++ routinesVisits rest (routine .method r c).context

end

mutual

theorem exprVisits_eq (i : Option Name) : ∀ (e : Expr Unit) (c : Context),
    exprVisits i e c = (expr e c).value.sites c.scopes c.inRoutine i
  | .literal _ _, c => rfl
  | .var _ _, c => rfl
  | .receiver _ _, c => rfl
  | .inherited _ _ _, c => rfl
  | .grouping _ inner, c => by
      simp [exprVisits, exprVisits_eq i inner, exprSite, siteOf, expr, Expr.sites, Expr.nodes]
  | .assign name value _, c => by
      simp [exprVisits, exprVisits_eq i value, exprSite, siteOf, expr, Expr.sites, Expr.nodes]
  | .unary _ _ operand, c => by
      simp [exprVisits, exprVisits_eq i operand, exprSite, siteOf, expr, Expr.sites, Expr.nodes]
  | .binary left _ _ right, c => by
      simp [exprVisits, exprVisits_eq i left, exprVisits_eq i right, exprSite, siteOf, expr,
        Expr.sites, Expr.nodes]
  | .logical left _ _ right, c => by
      simp [exprVisits, exprVisits_eq i left, exprVisits_eq i right, exprSite, siteOf, expr,
        Expr.sites, Expr.nodes]
  | .conditional condition thenBranch elseBranch, c => by
      simp [exprVisits, exprVisits_eq i condition, exprVisits_eq i thenBranch,
        exprVisits_eq i elseBranch, exprSite, siteOf, expr, Expr.sites, Expr.nodes]
  | .call callee _ arguments, c => by
      simp [exprVisits, exprVisits_eq i callee, exprsVisits_eq i arguments, exprSite, siteOf, expr,
        Expr.sites, Expr.nodes]
  | .member object _, c => by
      simp [exprVisits, exprVisits_eq i object, exprSite, siteOf, expr, Expr.sites, Expr.nodes]
  | .assignMember object _ value, c => by
      simp [exprVisits, exprVisits_eq i object, exprVisits_eq i value, exprSite, siteOf, expr,
        Expr.sites, Expr.nodes]

theorem exprsVisits_eq (i : Option Name) : ∀ (es : List (Expr Unit)) (c : Context),
    exprsVisits i es c = (nodesOfAll (exprs es c).value).map (Site.mk c.scopes c.inRoutine i)
  | [], c => rfl
  | e :: rest, c => by
      simp [exprsVisits, exprVisits_eq i e, exprsVisits_eq i rest, exprs, Expr.sites, nodesOfAll]

end

@[simp] theorem value_ret (pos : Pos) (value : Option (Expr Unit)) (c : Context) :
    (stmt (.ret pos value) c).value = .ret pos (optionalExpr value c).value := by
  cases h : c.inRoutine <;> simp [stmt, h]

/-- A walk leaves the declared names as they are. -/
@[simp] theorem binds_stmt (s : Stmt Unit) (c : Context) : (stmt s c).value.binds = s.binds := by
  cases s with
  | function declaration =>
      cases declaration
      rfl
  | classDecl name parent methods => cases parent <;> rfl
  | ret pos value =>
      rw [value_ret]
      rfl
  | _ => rfl

@[simp] theorem extend_stmt (Γ : Scopes) (s : Stmt Unit) (c : Context) :
    Γ.extend (stmt s c).value = Γ.extend s := by
  rw [Scopes.extend, Scopes.extend, binds_stmt]

@[simp] theorem context_introduce (n : Name) (c : Context) :
    (introduce n c).context = { c with scopes := Scopes.declare c.scopes n.text } := by
  simp only [introduce, context_bind, declare, define, context_enter, Scopes.declare]

@[simp] theorem name_routine (k : RoutineKind) (r : Routine Unit) (c : Context) :
    (routine k r c).value.name = r.name := by
  cases r
  rfl

mutual

theorem stmtVisits_eq : ∀ (s : Stmt Unit) (c : Context), s.Plain →
    stmtVisits s c = (stmt s c).value.sites c.scopes c.inRoutine
  | .expression value, c, _ => by
      simp [stmtVisits, exprVisits_eq, stmtSite, siteOf, stmt, Stmt.sites]
  | .print _ value, c, _ => by
      simp [stmtVisits, exprVisits_eq, stmtSite, siteOf, stmt, Stmt.sites]
  | .var _ none, c, _ => by
      simp [stmtVisits, stmtSite, siteOf, stmt, Stmt.sites, optionalExpr]
  | .var name (some value), c, _ => by
      simp [stmtVisits, exprVisits_eq, stmtSite, siteOf, stmt, Stmt.sites, optionalExpr, declare]
  | .block _ body, c, plain => by
      simp [stmtVisits, stmtsVisits_eq body _ plain, stmtSite, siteOf, stmt, Stmt.sites]
  | .ifThen _ condition thenBranch, c, plain => by
      simp [stmtVisits, exprVisits_eq, stmtVisits_eq thenBranch _ plain.2.2, stmtSite, siteOf, stmt,
        Stmt.sites]
  | .ifElse _ condition thenBranch elseBranch, c, plain => by
      obtain ⟨-, ⟨quiet, plain₁⟩, -, plain₂⟩ := plain
      have kept := stmt_keeps thenBranch (expr condition c).context plain₁
      rw [Scopes.extend_of_binds_none quiet] at kept
      simp [stmtVisits, exprVisits_eq, stmtVisits_eq thenBranch _ plain₁,
        stmtVisits_eq elseBranch _ plain₂, stmtSite, siteOf, stmt, Stmt.sites, kept.scopes,
        kept.inRoutine]
  | .loop _ condition body, c, plain => by
      simp [stmtVisits, exprVisits_eq, stmtVisits_eq body _ plain.2.2, stmtSite, siteOf, stmt,
        Stmt.sites]
  | .function declaration, c, plain => by
      simp [stmtVisits, routineVisits_eq .function declaration _ plain.2, stmtSite, siteOf, stmt, Stmt.sites,
        declare, define, Scopes.declare]
  | .classDecl name none methods, c, plain => by
      simp [stmtVisits, routinesVisits_eq methods _ plain.2, stmtSite, siteOf, stmt, Stmt.sites,
        declare, define, Scopes.declare]
  | .classDecl name (some parent) methods, c, plain => by
      have kept := keeps_superclass name parent
      simp [stmtVisits, routinesVisits_eq methods _ plain.2, stmtSite, siteOf, stmt, Stmt.sites,
        declare, define, Scopes.declare, (kept _).scopes]
  | .ret _ none, c, _ => by
      simp [stmtVisits, stmtSite, siteOf, Stmt.sites, optionalExpr]
  | .ret _ (some value), c, _ => by
      simp [stmtVisits, exprVisits_eq, stmtSite, siteOf, Stmt.sites, optionalExpr]

theorem stmtsVisits_eq : ∀ (ss : List (Stmt Unit)) (c : Context), plainBody ss →
    stmtsVisits ss c = sitesOfAll c.scopes c.inRoutine (stmts ss c).value
  | [], c, _ => rfl
  | s :: rest, c, plain => by
      have kept := stmt_keeps s c plain.1
      simp [stmtsVisits, stmtVisits_eq s c plain.1, stmtsVisits_eq rest _ plain.2, stmts,
        sitesOfAll, kept.scopes, kept.inRoutine]

theorem routineVisits_eq : ∀ (k : RoutineKind) (r : Routine Unit) (c : Context), r.Plain →
    routineVisits k r c = (routine k r c).value.sites c.scopes
  | _, .mk _ params body, c, plain => by
      simp [routineVisits, stmtsVisits_eq body _ plain.2, routine, Routine.sites, context_defineAll,
        Scopes.parameters]

theorem routinesVisits_eq : ∀ (rs : List (Routine Unit)) (c : Context), plainMethods rs →
    routinesVisits rs c = sitesOfMethods c.scopes (routines rs c).value
  | [], c, _ => rfl
  | r :: rest, c, plain => by
      have kept := routine_keeps .method r c plain.1
      simp [routinesVisits, routineVisits_eq .method r c plain.1, routinesVisits_eq rest _ plain.2, routines,
        sitesOfMethods, kept.scopes]

end

end Walk
end LoxLang
