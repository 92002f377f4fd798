import LoxLang.Proofs.Addressing.Visits
import LoxLang.Proofs.Relining
/-! The walk over a tree on other lines. Neither lines nor the number of references found before
have an influence on addresses, and after whole statements no local scope is left open, so a
program may be walked over in two parts. -/
namespace LoxLang

def ScopeIssue.reline (f : Nat → Nat) (i : ScopeIssue) : ScopeIssue :=
  { i with token := i.token.reline f }

namespace Walk

/-- The context with so many more references found before. -/
def Context.further (c : Context) (n : Nat) : Context := { c with resolved := c.resolved + n }

/-- An outcome on other lines, with so many more references found before. -/
def Outcome.moved {α : Type} (f : Nat → Nat) (g : α → α) (n : Nat) (o : Outcome α) : Outcome α :=
  ⟨g o.value, o.context.further n, o.issues.map (ScopeIssue.reline f), o.overdrawn⟩

/-- The second walk comes to what the first one does, on other lines. -/
def Relines {α : Type} (f : Nat → Nat) (g : α → α) (x x' : Walk α) : Prop :=
  ∀ c n, x' (c.further n) = (x c).moved f g n

namespace Relines
variable {α β : Type} {f : Nat → Nat} {g : α → α} {h : β → β}

theorem pure {a b : α} (same : b = g a) : Relines f g (Pure.pure a) (Pure.pure b) :=
  fun c n => congrArg (Outcome.mk · (c.further n) [] false) same

theorem bind {x x' : Walk α} {F F' : α → Walk β} (first : Relines f g x x')
    (second : ∀ a, Relines f h (F a) (F' (g a))) : Relines f h (x >>= F) (x' >>= F') := by
  intro c n
  simp only [Bind.bind, first c n, Outcome.moved, second (x c).value (x c).context n, List.map_append]

/-- A walk looks at its context for what a further count leaves alone. -/
theorem context {F F' : Context → Walk β} (walk : ∀ c n, Relines f h (F c) (F' (c.further n))) :
    Relines f h (Walk.context >>= F) (Walk.context >>= F') :=
  fun c n => walk c n c n

theorem ite {p p' : Prop} [Decidable p] [Decidable p'] {x x' y y' : Walk α} (same : p' ↔ p)
    (yes : Relines f g x x') (no : Relines f g y y') :
    Relines f g (if p then x else y) (if p' then x' else y') := by
  by_cases holds : p
  · rwa [if_pos holds, if_pos (same.mpr holds)]
  · rwa [if_neg holds, if_neg (mt same.mp holds)]

theorem report (t : Token) (cause : ScopeError) :
    Relines f id (Walk.report t cause) (Walk.report (t.reline f) cause) := fun _ _ => rfl

theorem enter (name : Name) (finished : Bool) :
    Relines f id (Walk.enter name finished) (Walk.enter (name.reline f) finished) := by
  rintro ⟨_ | ⟨scope, outer⟩, enclosing, surrounding, resolved⟩ n <;> rfl

theorem locate (name : String) : Relines f id (Walk.locate name) (Walk.locate name) := by
  intro c n
  simp only [Walk.locate, Context.further]
  cases c.scopes.findIdx? (·.contains name) with
  | none => rfl
  | some depth => simp [Outcome.moved, Context.further, Nat.add_right_comm]

theorem checkInitializer (name : Name) :
    Relines f id (Walk.checkInitializer name) (Walk.checkInitializer (name.reline f)) := by
  rintro ⟨_ | ⟨scope, outer⟩, enclosing, surrounding, resolved⟩ n
  · rfl
  · by_cases unfinished : scope.find? name.text = some false <;>
      simp [Walk.checkInitializer, Context.further, unfinished, Outcome.moved, Walk.report,
        ScopeIssue.reline]

/-- What changes the scopes or the surroundings only. -/
theorem openScope (scope : Table Bool) :
    Relines f id (Walk.openScope scope) (Walk.openScope scope) := fun _ _ => rfl

theorem closeScope : Relines f id Walk.closeScope Walk.closeScope := by
  rintro ⟨_ | ⟨scope, outer⟩, enclosing, surrounding, resolved⟩ n <;> rfl

theorem setEnclosing (k : Option RoutineKind) :
    Relines f id (Walk.setEnclosing k) (Walk.setEnclosing k) := fun _ _ => rfl

theorem setSurrounding (s : Surrounding) :
    Relines f id (Walk.setSurrounding s) (Walk.setSurrounding s) := fun _ _ => rfl

theorem locateReceiver (pos : Pos) :
    Relines f id (Walk.locateReceiver pos) (Walk.locateReceiver (pos.reline f)) := by
  refine context fun c n => ?_
  rcases c with ⟨scopes, enclosing, surrounding, resolved⟩
  cases surrounding with
  | noClass => exact (report (receiverToken pos) _).bind fun _ => pure rfl
  | plainClass | subclass => exact locate "this"

theorem locateInherited (pos : Pos) :
    Relines f id (Walk.locateInherited pos) (Walk.locateInherited (pos.reline f)) := by
  refine context fun c n => ?_
  rcases c with ⟨scopes, enclosing, surrounding, resolved⟩
  cases surrounding with
  | noClass => exact (report (inheritedToken pos) _).bind fun _ => pure rfl
  | plainClass => exact (report (inheritedToken pos) _).bind fun _ => pure rfl
  | subclass => exact locate "super"

end Relines

variable {f : Nat → Nat}

mutual

theorem expr_relines : ∀ e : Expr Unit, Relines f (Expr.reline f) (expr e) (expr (e.reline f))
  | .literal _ _ => .pure rfl
  | .grouping _ inner => (expr_relines inner).bind fun _ => .pure rfl
  | .var name _ => (Relines.checkInitializer name).bind fun _ =>
      (Relines.locate name.text).bind fun _ => .pure rfl
  | .assign name value _ => (expr_relines value).bind fun _ =>
      (Relines.locate name.text).bind fun _ => .pure rfl
  | .unary _ _ operand => (expr_relines operand).bind fun _ => .pure rfl
  | .binary left _ _ right => (expr_relines left).bind fun _ =>
      (expr_relines right).bind fun _ => .pure rfl
  | .logical left _ _ right => (expr_relines left).bind fun _ =>
      (expr_relines right).bind fun _ => .pure rfl
  | .conditional condition thenBranch elseBranch => (expr_relines condition).bind fun _ =>
      (expr_relines thenBranch).bind fun _ => (expr_relines elseBranch).bind fun _ => .pure rfl
  | .call callee _ arguments => (expr_relines callee).bind fun _ =>
      (exprs_relines arguments).bind fun _ => .pure rfl
  | .member object _ => (expr_relines object).bind fun _ => .pure rfl
  | .assignMember object _ value => (expr_relines value).bind fun _ =>
      (expr_relines object).bind fun _ => .pure rfl
  | .receiver pos _ => (Relines.locateReceiver pos).bind fun _ => .pure rfl
  | .inherited pos _ _ => (Relines.locateInherited pos).bind fun _ => .pure rfl

theorem exprs_relines : ∀ es : List (Expr Unit),
    Relines f (relineAll f) (exprs es) (exprs (relineAll f es))
  | [] => .pure rfl
  | e :: rest => (expr_relines e).bind fun _ => (exprs_relines rest).bind fun _ => .pure rfl

end

theorem optionalExpr_relines (e : Option (Expr Unit)) :
    Relines f (Option.map (Expr.reline f)) (optionalExpr e)
      (optionalExpr (e.map (Expr.reline f))) := by
  cases e with
  | none => exact .pure rfl
  | some e => exact (expr_relines e).bind fun _ => .pure rfl

theorem defineAll_relines (names : List Name) :
    Relines f id (defineAll names) (defineAll (names.map (Name.reline f))) := by
  induction names with
  | nil => exact .pure rfl
  | cons name rest ih =>
      exact (Relines.enter name false).bind fun _ => (Relines.enter name true).bind fun _ => ih

theorem superclass_relines (className : Name) (parent : Superclass Unit) :
    Relines f (Superclass.reline f) (superclass className parent)
      (superclass (className.reline f) (parent.reline f)) := by
  have rest : Relines f (Superclass.reline f) (do
      setSurrounding .subclass
      checkInitializer parent.name
      let address ← locate parent.name.text
      pure ⟨parent.name, address⟩) (do
      setSurrounding .subclass
      checkInitializer (parent.name.reline f)
      let address ← locate parent.name.text
      pure ⟨parent.name.reline f, address⟩) :=
    (Relines.setSurrounding _).bind fun _ => (Relines.checkInitializer _).bind fun _ =>
      (Relines.locate _).bind fun _ => .pure rfl
  exact .ite Iff.rfl ((Relines.report parent.name.token _).bind fun _ => rest) rest

mutual

theorem stmt_relines : ∀ s : Stmt Unit, Relines f (Stmt.reline f) (stmt s) (stmt (s.reline f))
  | .expression value => (expr_relines value).bind fun _ => .pure rfl
  | .print _ value => (expr_relines value).bind fun _ => .pure rfl
  | .var name initializer => (Relines.enter name false).bind fun _ =>
      (optionalExpr_relines initializer).bind fun _ => (Relines.enter name true).bind fun _ =>
        .pure rfl
  | .block _ body => (Relines.openScope _).bind fun _ => (stmts_relines body).bind fun _ =>
      Relines.closeScope.bind fun _ => .pure rfl
  | .ifThen _ condition thenBranch => (expr_relines condition).bind fun _ =>
      (stmt_relines thenBranch).bind fun _ => .pure rfl
  | .ifElse _ condition thenBranch elseBranch => (expr_relines condition).bind fun _ =>
      (stmt_relines thenBranch).bind fun _ => (stmt_relines elseBranch).bind fun _ => .pure rfl
  | .loop _ condition body => (expr_relines condition).bind fun _ =>
      (stmt_relines body).bind fun _ => .pure rfl
  | .function (.mk name params body) => (Relines.enter name false).bind fun _ =>
      (Relines.enter name true).bind fun _ => (routine_relines .function (.mk name params body)).bind fun _ =>
        .pure rfl
  | .classDecl name none methods => Relines.context fun _ _ =>
      (Relines.setSurrounding _).bind fun _ => (Relines.enter name false).bind fun _ =>
        (Relines.enter name true).bind fun _ => (Relines.openScope _).bind fun _ =>
          (routines_relines methods).bind fun _ => Relines.closeScope.bind fun _ =>
            (Relines.setSurrounding _).bind fun _ => .pure rfl
  | .classDecl name (some parent) methods => Relines.context fun _ _ =>
      (Relines.setSurrounding _).bind fun _ => (Relines.enter name false).bind fun _ =>
        (Relines.enter name true).bind fun _ => (superclass_relines name parent).bind fun _ =>
          (Relines.openScope _).bind fun _ => (Relines.openScope _).bind fun _ =>
            (routines_relines methods).bind fun _ => Relines.closeScope.bind fun _ =>
              Relines.closeScope.bind fun _ => (Relines.setSurrounding _).bind fun _ => .pure rfl
  | .ret pos value => by
      have rest : Relines f (Stmt.reline f) (do
          let value ← optionalExpr value
          pure (.ret pos value)) (do
          let value ← optionalExpr (value.map (Expr.reline f))
          pure (.ret (pos.reline f) value)) :=
        (optionalExpr_relines value).bind fun _ => .pure rfl
      exact Relines.context fun _ _ =>
        .ite Iff.rfl ((Relines.report (returnToken pos) _).bind fun _ => rest) rest

theorem stmts_relines : ∀ ss : List (Stmt Unit),
    Relines f (relineBody f) (stmts ss) (stmts (relineBody f ss))
  | [] => .pure rfl
  | s :: rest => (stmt_relines s).bind fun _ => (stmts_relines rest).bind fun _ => .pure rfl

theorem routine_relines (k : RoutineKind) : ∀ r : Routine Unit,
    Relines f (Routine.reline f) (routine k r) (routine k (r.reline f))
  | .mk _ params body => Relines.context fun _ _ => (Relines.setEnclosing _).bind fun _ =>
      (Relines.openScope _).bind fun _ => (defineAll_relines params).bind fun _ =>
        (stmts_relines body).bind fun _ => Relines.closeScope.bind fun _ =>
          (Relines.setEnclosing _).bind fun _ => .pure rfl

theorem routines_relines : ∀ rs : List (Routine Unit),
    Relines f (relineMethods f) (routines rs) (routines (relineMethods f rs))
  | [] => .pure rfl
  | r :: rest => (routine_relines .method r).bind fun _ => (routines_relines rest).bind fun _ => .pure rfl

end

/-- A walk over statements in two parts. -/
theorem stmts_append (first second : List (Stmt Unit)) : stmts (first ++ second) = (do
    let before ← stmts first
    let behind ← stmts second
    pure (before ++ behind)) := by
  funext c
  induction first generalizing c with
  | nil => simp [stmts, Bind.bind]
  | cons s rest ih => simp [stmts, ih, Bind.bind, Bool.or_assoc]

end Walk

/-- Declarations at the top level are global. -/
theorem Scopes.extendAll_nil {δ : Type} (ss : List (Stmt δ)) : ss.foldl extend [] = [] := by
  induction ss with
  | nil => rfl
  | cons s ss ih =>
      rw [List.foldl_cons, extend]
      cases s.binds <;> exact ih

/-- A program in two parts, of which the second is on other lines, has the addresses and the
issues of its parts. -/
theorem resolve_append (f : Nat → Nat) {first second : List (Stmt Unit)} (plain : plainBody first) :
    (resolve (first ++ relineBody f second)).program =
        (resolve first).program ++ relineBody f (resolve second).program ∧
      (resolve (first ++ relineBody f second)).issues =
        (resolve first).issues ++ (resolve second).issues.map (ScopeIssue.reline f) := by
  have kept := Walk.stmts_keep first Walk.start plain
  have between : (Walk.stmts first Walk.start).context =
      Walk.start.further (Walk.stmts first Walk.start).context.resolved := by
    generalize (Walk.stmts first Walk.start).context = c at kept
    obtain ⟨scopes, enclosing, surrounding, resolved⟩ := c
    obtain ⟨rfl, rfl, rfl⟩ := kept
    simp [Walk.Context.further, Walk.start, Scopes.extendAll_nil]
  have behind := Walk.stmts_relines (f := f) second Walk.start
    (Walk.stmts first Walk.start).context.resolved
  rw [← between] at behind
  simp [resolve, Walk.stmts_append, behind, Walk.Outcome.moved]

end LoxLang
