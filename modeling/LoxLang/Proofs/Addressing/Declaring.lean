import LoxLang.Proofs.Addressing.Balance
/-! What a walk leaves behind. A statement leaves the context as the walk found it, but for the
names that it declares in the scope it stands in; an expression leaves all scopes as they are. No
tree is excluded here, whether it was read from tokens or not, and none of the errors reported. -/
namespace LoxLang

/-- The names that a statement declares in the scope it stands in: its own and those of a branch
or a loop body, which has no scope to itself. -/
def Stmt.declared {δ : Type} : Stmt δ → List Name
  | .var name _ | .classDecl name _ _ => [name]
  | .function declaration => [declaration.name]
  | .ifThen _ _ thenBranch => thenBranch.declared
  | .ifElse _ _ thenBranch elseBranch => thenBranch.declared ++ elseBranch.declared
  | .loop _ _ body => body.declared
  | .expression _ | .print _ _ | .block _ _ | .ret _ _ => []

namespace Scopes
variable {Γ : Scopes} {g : Table Bool} {names : List Name}

/-- The scopes behind complete declarations of names. -/
def declareAll (Γ : Scopes) (names : List Name) : Scopes :=
  names.foldl (fun Δ n => Δ.declare n.text) Γ

theorem declareAll_append (Γ : Scopes) (names more : List Name) :
    Γ.declareAll (names ++ more) = (Γ.declareAll names).declareAll more := List.foldl_append

/-- Without local scopes nothing is recorded. -/
theorem declareAll_nil (names : List Name) : declareAll [] names = [] := by
  induction names with
  | nil => rfl
  | cons n rest ih => exact ih

/-- Declarations end in the innermost scope, which holds the names as finished. -/
theorem declareAll_innermost (names : List Name) (g : Table Bool) (Γ : Scopes) :
    ∃ g', declareAll (g :: Γ) names = g' :: Γ ∧
      ∀ x, g'.find? x = if x ∈ names.map Name.text then some true else g.find? x := by
  induction names generalizing g with
  | nil => exact ⟨g, rfl, fun x => by rw [List.map_nil, if_neg List.not_mem_nil]⟩
  | cons n rest ih =>
      obtain ⟨g', scopes, held⟩ := ih ((g.put n.text false).put n.text true)
      refine ⟨g', scopes, fun x => ?_⟩
      rw [held, Table.find?_put, Table.find?_put, List.map_cons]
      by_cases later : x ∈ rest.map Name.text
      · rw [if_pos later, if_pos (List.mem_cons_of_mem _ later)]
      · by_cases here : x = n.text
        · rw [if_neg later, if_pos here, if_pos (List.mem_cons.mpr (.inl here))]
        · rw [if_neg later, if_neg here, if_neg here,
            if_neg fun member => (List.mem_cons.mp member).elim here later]

end Scopes

namespace Walk
variable {c d : Context}

/-- Behind declarations a context differs in its scopes only. -/
def Context.declaring (c : Context) (names : List Name) : Context :=
  { c with scopes := Scopes.declareAll c.scopes names }

theorem declaring_append (c : Context) (names more : List Name) :
    c.declaring (names ++ more) = (c.declaring names).declaring more := by
  simp only [Context.declaring, Scopes.declareAll_append]

theorem Keeps.declaring (keeps : Keeps c d) (names : List Name) :
    Keeps (c.declaring names) (d.declaring names) :=
  ⟨congrArg (fun Γ => Scopes.declareAll Γ names) keeps.scopes, keeps.enclosing, keeps.surrounding⟩

theorem context_declaration (n : Name) (c : Context) :
    (define n (declare n c).context).context = c.declaring [n] := by
  simp only [declare, define, context_enter, Context.declaring]
  rfl

/-- Behind a statement there is nothing but its declarations. -/
theorem stmt_declares : ∀ (s : Stmt Unit) (c : Context),
    Keeps (c.declaring s.declared) (stmt s c).context
  | .expression value, c => expr_keeps value c
  | .print _ value, c => expr_keeps value c
  | .ret pos value, c => keeps_ret pos value c
  | .var name value, c => by
      have kept := optionalExpr_keeps value (declare name c).context
      have finished : Keeps (define name (declare name c).context).context
          (stmt (.var name value) c).context := by
        refine ⟨?_, ?_, ?_⟩ <;> simp only [stmt, context_bind, run_pure, define, context_enter,
          kept.scopes, kept.enclosing, kept.surrounding]
      rwa [context_declaration] at finished
  | .block _ body, c => (stmts_balance body { c with scopes := Table.empty :: c.scopes }).close
  | .ifThen _ condition thenBranch, c =>
      ((expr_keeps condition c).declaring _).trans (stmt_declares thenBranch _)
  | .ifElse _ condition thenBranch elseBranch, c => by
      have first := ((expr_keeps condition c).declaring _).trans (stmt_declares thenBranch _)
      have both := (first.declaring elseBranch.declared).trans (stmt_declares elseBranch _)
      rwa [← declaring_append] at both
  | .loop _ condition body, c =>
      ((expr_keeps condition c).declaring _).trans (stmt_declares body _)
  | .function declaration, c => by
      have kept := routine_restores .function declaration
        (define declaration.name (declare declaration.name c).context).context
      rw [context_declaration] at kept
      refine ⟨?_, ?_, ?_⟩ <;> simp only [stmt, context_bind, run_pure, context_declaration]
      · exact kept.scopes
      · exact kept.enclosing
      · exact kept.surrounding
  | .classDecl name none methods, c => by
      let inside : Context := Context.declaring { c with surrounding := .plainClass } [name]
      have kept := routines_restore methods
        { inside with scopes := receiverScope :: inside.scopes }
      refine ⟨?_, ?_, rfl⟩ <;> simp only [stmt, context_bind, run_pure, run_context,
        run_setSurrounding, run_openScope, run_closeScope, context_declaration]
      · exact congrArg List.tail kept.scopes
      · exact kept.enclosing
  | .classDecl name (some parent) methods, c => by
      let inside : Context := Context.declaring { c with surrounding := .plainClass } [name]
      have above := keeps_superclass name parent inside
      have kept := routines_restore methods { (superclass name parent inside).context with
        scopes := receiverScope :: inheritedScope :: (superclass name parent inside).context.scopes }
      refine ⟨?_, ?_, rfl⟩ <;> simp only [stmt, context_bind, run_pure, run_context,
        run_setSurrounding, run_openScope, run_closeScope, context_declaration]
      · exact (congrArg (List.tail ∘ List.tail) kept.scopes).trans above.scopes
      · exact kept.enclosing.trans above.enclosing

theorem stmts_declare (ss : List (Stmt Unit)) (c : Context) :
    Keeps (c.declaring (ss.flatMap Stmt.declared)) (stmts ss c).context := by
  induction ss generalizing c with
  | nil => exact .refl c
  | cons s rest ih =>
      rw [List.flatMap_cons, declaring_append]
      exact ((stmt_declares s c).declaring _).trans (ih (stmt s c).context)

/-- What a walk over statements that declare these names leaves of a context. -/
structure Restores (names : List Name) (c d : Context) : Prop where
  depth : d.scopes.length = c.scopes.length
  outer : d.scopes.tail = c.scopes.tail
  /-- The innermost scope holds the declared names as finished, and else what it held. -/
  innermost : ∀ g Γ, c.scopes = g :: Γ → ∃ g', d.scopes = g' :: Γ ∧
    ∀ x, g'.find? x = if x ∈ names.map Name.text then some true else g.find? x
  enclosing : d.enclosing = c.enclosing
  surrounding : d.surrounding = c.surrounding

theorem Keeps.restores {names : List Name} (keeps : Keeps (c.declaring names) d) :
    Restores names c d := by
  have scopes : d.scopes = Scopes.declareAll c.scopes names := keeps.scopes
  cases around : c.scopes with
  | nil =>
      rw [around, Scopes.declareAll_nil] at scopes
      refine ⟨by rw [scopes, around], by rw [scopes, around], fun g Γ same => ?_, keeps.enclosing,
        keeps.surrounding⟩
      rw [around] at same
      cases same
  | cons g Γ =>
      obtain ⟨g', declared, held⟩ := Scopes.declareAll_innermost names g Γ
      rw [around, declared] at scopes
      refine ⟨by rw [scopes, around]; rfl, by rw [scopes, around]; rfl, fun k Δ same => ?_,
        keeps.enclosing, keeps.surrounding⟩
      rw [around] at same
      cases same
      exact ⟨g', scopes, held⟩

/-- The walk leaves its context as it found it, from any context on and whatever it reports. An
expression changes no scope. A statement changes at most the innermost scope, which then holds the
names that the statement declares there. A routine declares nothing around it. -/
theorem context_restored (c : Context) :
    (∀ e, Keeps c (expr e c).context) ∧ (∀ s, Restores s.declared c (stmt s c).context) ∧
      (∀ ss, Restores (ss.flatMap Stmt.declared) c (stmts ss c).context) ∧
      ∀ k r, Keeps c (routine k r c).context :=
  ⟨fun e => expr_keeps e c, fun s => (stmt_declares s c).restores,
    fun ss => (stmts_declare ss c).restores, fun k r => routine_restores k r c⟩

/-- A class that is reported to inherit from itself is declared like any other. -/
example : let name : Name := ⟨"A", Pos.start⟩
    let walked := stmt (.classDecl name (some ⟨name, ()⟩) []) ⟨[Table.empty], some .function, .noClass, 0⟩
    walked.issues = [⟨name.token, .inheritsItself⟩] ∧
      walked.context = ⟨[Table.empty.put "A" true], some .function, .noClass, 1⟩ := ⟨rfl, rfl⟩

end Walk
end LoxLang
