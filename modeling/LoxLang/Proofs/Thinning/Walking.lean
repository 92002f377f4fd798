import LoxLang.Proofs.Addressing.Lawful
import LoxLang.Proofs.Thinning.Addresses
/-! The walk over a program in scopes of which some are left out. A scope without names is never
found, so leaving it out shortens the addresses and changes nothing else. -/
namespace LoxLang

namespace Scopes

/-- The second scopes are the first without some that have no names. -/
inductive Thins : List Bool → Scopes → Scopes → Prop
  | same {ks : List Bool} {Γ : Scopes} : AllKept ks → Thins ks Γ Γ
  | kept {ks : List Bool} {g : Table Bool} {Γ Δ : Scopes} : Thins ks Γ Δ →
    Thins (true :: ks) (g :: Γ) (g :: Δ)
  | left {ks : List Bool} {Γ Δ : Scopes} : Thins ks Γ Δ → Thins (false :: ks) (Table.empty :: Γ) Δ

/-- The scopes that are left out have no names. -/
def Hollow (ks : List Bool) (Γ : Scopes) : Prop :=
  ∀ d : Nat, ks[d]? = some false → Γ[d]? = some Table.empty

section
variable {ks : List Bool} {Γ Δ : Scopes} {g : Table Bool} {x : String}

namespace Thins

theorem locate (thins : Thins ks Γ Δ) (x : String) :
    Address.Shortens ks (Γ.locate x) (Δ.locate x) := by
  induction thins with
  | same all => exact .refl all _
  | kept _ ih =>
      rw [locate_cons, locate_cons]
      split
      · exact .some (.here _)
      · exact ih.kept
  | left _ ih =>
      rw [locate_cons, Table.contains, Table.find?_empty]
      exact ih.left

theorem enter (thins : Thins ks Γ Δ) (inner : Skips ks 0 0) (x : String) (b : Bool) :
    Thins ks (Γ.enter x b) (Δ.enter x b) := by
  cases thins with
  | same all => exact .same all
  | kept rest => exact .kept rest
  | left _ => cases inner

theorem tail (thins : Thins (true :: ks) Γ Δ) : Thins ks Γ.tail Δ.tail := by
  cases thins with
  | same all => exact .same (List.forall_mem_cons.mp all).2
  | kept rest => exact rest

end Thins

namespace Hollow

theorem of_allKept (all : AllKept ks) : Γ.Hollow ks := fun _ found =>
  absurd (all false (List.mem_of_getElem? found)) Bool.false_ne_true

theorem kept (hollow : Γ.Hollow ks) (g : Table Bool) : Hollow (true :: ks) (g :: Γ) := by
  intro d found
  cases d with
  | zero => cases found
  | succ d => exact hollow d found

theorem left (hollow : Γ.Hollow ks) : Hollow (false :: ks) (Table.empty :: Γ) := by
  intro d found
  cases d with
  | zero => rfl
  | succ d => exact hollow d found

theorem enter (hollow : Γ.Hollow ks) (inner : Skips ks 0 0) (x : String) (b : Bool) :
    (Γ.enter x b).Hollow ks := by
  intro d found
  cases Γ with
  | nil => exact hollow d found
  | cons g Γ =>
      cases d with
      | zero => cases inner <;> cases found
      | succ d => exact hollow (d + 1) found

theorem declare (hollow : Γ.Hollow ks) (inner : Skips ks 0 0) (x : String) :
    (Γ.declare x).Hollow ks := (hollow.enter inner x false).enter inner x true

theorem extend {δ : Type} (hollow : Γ.Hollow ks) (s : Stmt δ)
    (inner : ∀ n, s.binds = some n → Skips ks 0 0) : (Γ.extend s).Hollow ks := by
  unfold Scopes.extend
  split
  · exact hollow
  · next n found => exact hollow.declare (inner n found) n.text

theorem parameters (hollow : Γ.Hollow ks) (ps : List Name) :
    (Γ.parameters ps).Hollow (true :: ks) := by
  unfold Scopes.parameters
  generalize started : Table.empty :: Γ = Δ
  have opened : Hollow (true :: ks) Δ := started ▸ hollow.kept Table.empty
  clear started
  induction ps generalizing Δ with
  | nil => exact opened
  | cons p ps ih => exact ih _ (opened.declare (.here ks) p.text)

/-- Where a name is held, the scope is kept. -/
theorem kept_of_holds (hollow : Γ.Hollow ks) {d : Nat} (held : Γ.Holds d x) :
    ks[d]? ≠ some false := by
  intro found
  obtain ⟨g, here, finished⟩ := held
  rw [hollow d found] at here
  cases here
  cases finished

/-- Next to `super`, the scope of `this` is kept too. -/
theorem inherited (hollow : Γ.Hollow ks) {b : Bool} {i : Option Name} {pos : Pos} {method : Name}
    {a a' : Address} (lawful : Site.Lawful ⟨Γ, b, i, .expr (.inherited pos method a)⟩)
    (shortens : Address.Shortens ks a a') :
    Expr.Shortens ks (.inherited pos method a) (.inherited pos method a') := by
  obtain ⟨d, rfl, -, found⟩ := lawful
  obtain ⟨e, skips⟩ := Skips.of_kept (hollow.kept_of_holds (found.2 d rfl))
  cases shortens with
  | some further =>
      obtain rfl := skips.next further
      exact .inherited (.some ⟨further, skips⟩)

end Hollow
end
end Scopes

namespace Walk

/-- A walk in the first context is in the second one with some scopes left out. -/
structure Thins (ks : List Bool) (c d : Context) : Prop where
  scopes : Scopes.Thins ks c.scopes d.scopes
  surrounding : d.surrounding = c.surrounding

variable {ks : List Bool} {c c' d d' : Context} {Θ : Scopes} {b : Bool} {i : Option Name}

namespace Thins

theorem keep (thins : Thins ks c d) (k : Keeps c c') (k' : Keeps d d') : Thins ks c' d' := by
  refine ⟨?_, ?_⟩
  · rw [k.scopes, k'.scopes]
    exact thins.scopes
  · rw [k.surrounding, k'.surrounding, thins.surrounding]

theorem enter (thins : Thins ks c d) (inner : Skips ks 0 0) (n : Name) (b : Bool) :
    Thins ks (Walk.enter n b c).context (Walk.enter n b d).context := by
  rw [context_enter, context_enter]
  exact ⟨thins.scopes.enter inner n.text b, thins.surrounding⟩

theorem introduce (thins : Thins ks c d) (inner : Skips ks 0 0) (n : Name) :
    Thins ks (Walk.introduce n c).context (Walk.introduce n d).context :=
  (thins.enter inner n false).enter inner n true

theorem openScope (thins : Thins ks c d) (g : Table Bool) :
    Thins (true :: ks) (Walk.openScope g c).context (Walk.openScope g d).context :=
  ⟨.kept thins.scopes, thins.surrounding⟩

theorem closeScope (thins : Thins (true :: ks) c d) :
    Thins ks (Walk.closeScope c).context (Walk.closeScope d).context := by
  rw [run_closeScope, run_closeScope]
  exact ⟨thins.scopes.tail, thins.surrounding⟩

theorem setSurrounding (thins : Thins ks c d) (s : Surrounding) :
    Thins ks (Walk.setSurrounding s c).context (Walk.setSurrounding s d).context :=
  ⟨thins.scopes, rfl⟩

theorem defineAll (thins : Thins (true :: ks) c d) (ps : List Name) :
    Thins (true :: ks) (Walk.defineAll ps c).context (Walk.defineAll ps d).context := by
  induction ps generalizing c d with
  | nil => exact thins
  | cons p ps ih => exact ih (thins.introduce (.here ks) p)

theorem locate (thins : Thins ks c d) (x : String) :
    Address.Shortens ks (Walk.locate x c).value (Walk.locate x d).value := by
  rw [value_locate, value_locate]
  exact thins.scopes.locate x

theorem locateReceiver (thins : Thins ks c d) (pos : Pos) :
    Address.Shortens ks (Walk.locateReceiver pos c).value (Walk.locateReceiver pos d).value := by
  cases around : c.surrounding <;>
    simp only [Walk.locateReceiver, value_bind, run_context, thins.surrounding, around, run_pure]
  · exact .none
  · exact thins.locate "this"
  · exact thins.locate "this"

theorem locateInherited (thins : Thins ks c d) (pos : Pos) :
    Address.Shortens ks (Walk.locateInherited pos c).value (Walk.locateInherited pos d).value := by
  cases around : c.surrounding <;>
    simp only [Walk.locateInherited, value_bind, run_context, thins.surrounding, around, run_pure]
  · exact .none
  · exact .none
  · exact thins.locate "super"

end Thins

mutual

/-- An expression is resolved as before, with shorter addresses. -/
theorem expr_shortens (hollow : Θ.Hollow ks) : ∀ (e : Expr Unit) (c d : Context), Thins ks c d →
    (∀ n ∈ (expr e c).value.nodes, Site.Lawful ⟨Θ, b, i, n⟩) →
    (expr e c).value.Shortens ks (expr e d).value
  | .literal line value, c, d, _, _ => .literal line value
  | .grouping _ inner, c, d, thins, lawful =>
      .grouping (expr_shortens hollow inner c d thins (List.forall_mem_cons.mp lawful).2)
  | .var name _, c, d, thins, _ => by
      have located := thins.locate name.text
      simp only [expr, value_bind, context_checkInitializer]
      exact .var located
  | .assign name value _, c, d, thins, lawful => by
      obtain ⟨-, inside⟩ := List.forall_mem_cons.mp lawful
      exact .assign
        (expr_shortens hollow value c d thins (List.forall_mem_append.mp inside).1)
        ((thins.keep (expr_keeps value c) (expr_keeps value d)).locate name.text)
  | .unary _ _ operand, c, d, thins, lawful =>
      .unary (expr_shortens hollow operand c d thins (List.forall_mem_cons.mp lawful).2)
  | .binary left _ _ right, c, d, thins, lawful => by
      obtain ⟨first, second⟩ := List.forall_mem_append.mp (List.forall_mem_cons.mp lawful).2
      exact .binary (expr_shortens hollow left c d thins first) (expr_shortens hollow right _ _
        (thins.keep (expr_keeps left c) (expr_keeps left d)) second)
  | .logical left _ _ right, c, d, thins, lawful => by
      obtain ⟨first, second⟩ := List.forall_mem_append.mp (List.forall_mem_cons.mp lawful).2
      exact .logical (expr_shortens hollow left c d thins first) (expr_shortens hollow right _ _
        (thins.keep (expr_keeps left c) (expr_keeps left d)) second)
  | .conditional condition thenBranch elseBranch, c, d, thins, lawful => by
      obtain ⟨first, others⟩ := List.forall_mem_append.mp (List.forall_mem_cons.mp lawful).2
      obtain ⟨second, third⟩ := List.forall_mem_append.mp others
      have thins₁ := thins.keep (expr_keeps condition c) (expr_keeps condition d)
      have thins₂ := thins₁.keep (expr_keeps thenBranch _) (expr_keeps thenBranch _)
      exact .conditional (expr_shortens hollow condition c d thins first)
        (expr_shortens hollow thenBranch _ _ thins₁ second)
        (expr_shortens hollow elseBranch _ _ thins₂ third)
  | .call callee _ arguments, c, d, thins, lawful => by
      obtain ⟨first, second⟩ := List.forall_mem_append.mp (List.forall_mem_cons.mp lawful).2
      exact .call (expr_shortens hollow callee c d thins first) (exprs_shorten hollow arguments _ _
        (thins.keep (expr_keeps callee c) (expr_keeps callee d)) second)
  | .member object _, c, d, thins, lawful =>
      .member (expr_shortens hollow object c d thins (List.forall_mem_cons.mp lawful).2)
  | .assignMember object _ value, c, d, thins, lawful => by
      obtain ⟨first, second⟩ := List.forall_mem_append.mp (List.forall_mem_cons.mp lawful).2
      exact .assignMember (expr_shortens hollow object _ _
        (thins.keep (expr_keeps value c) (expr_keeps value d)) second)
        (expr_shortens hollow value c d thins first)
  | .receiver pos _, c, d, thins, _ => .receiver (thins.locateReceiver pos)
  | .inherited pos method _, c, d, thins, lawful =>
      hollow.inherited (lawful _ List.mem_cons_self) (thins.locateInherited pos)

theorem exprs_shorten (hollow : Θ.Hollow ks) : ∀ (es : List (Expr Unit)) (c d : Context),
    Thins ks c d → (∀ n ∈ nodesOfAll (exprs es c).value, Site.Lawful ⟨Θ, b, i, n⟩) →
    ShortensAll ks (exprs es c).value (exprs es d).value
  | [], _, _, _, _ => .nil
  | e :: rest, c, d, thins, lawful => by
      obtain ⟨first, others⟩ := List.forall_mem_append.mp lawful
      exact .cons (expr_shortens hollow e c d thins first) (exprs_shorten hollow rest _ _
        (thins.keep (expr_keeps e c) (expr_keeps e d)) others)

end

/-- The nodes of an expression with lawful sites are lawful. -/
theorem lawful_nodes {e : Expr Address} (lawful : ∀ σ ∈ e.sites Θ b i, σ.Lawful) :
    ∀ n ∈ e.nodes, Site.Lawful ⟨Θ, b, i, n⟩ := fun n member =>
  lawful ⟨Θ, b, i, n⟩ (List.mem_map_of_mem member)

mutual

/-- A statement is resolved as before, with shorter addresses, if what it declares goes to a scope
that is kept. -/
theorem stmt_shortens : ∀ (s : Stmt Unit) (ks : List Bool) (Θ : Scopes) (b : Bool) (c d : Context),
    Θ.Hollow ks → Thins ks c d → (∀ n, s.binds = some n → Skips ks 0 0) →
    (∀ σ ∈ (stmt s c).value.sites Θ b, σ.Lawful) →
    (stmt s c).value.Shortens ks (stmt s d).value ∧ Thins ks (stmt s c).context (stmt s d).context
  | .expression value, ks, Θ, b, c, d, hollow, thins, _, lawful => by
      obtain ⟨-, inside⟩ := List.forall_mem_cons.mp lawful
      exact ⟨.expression (expr_shortens hollow value c d thins (lawful_nodes inside)),
        thins.keep (expr_keeps value c) (expr_keeps value d)⟩
  | .print _ value, ks, Θ, b, c, d, hollow, thins, _, lawful => by
      obtain ⟨-, inside⟩ := List.forall_mem_cons.mp lawful
      exact ⟨.print (expr_shortens hollow value c d thins (lawful_nodes inside)),
        thins.keep (expr_keeps value c) (expr_keeps value d)⟩
  | .var name none, ks, Θ, b, c, d, _, thins, inner, _ =>
      ⟨.declare name (inner name rfl), thins.introduce (inner name rfl) name⟩
  | .var name (some value), ks, Θ, b, c, d, hollow, thins, inner, lawful => by
      obtain ⟨-, inside⟩ := List.forall_mem_cons.mp lawful
      have skips := inner name rfl
      have begun := thins.enter skips name false
      exact ⟨.define skips (expr_shortens (hollow.enter skips name.text false) value _ _ begun
          (lawful_nodes inside)),
        (begun.keep (expr_keeps value _) (expr_keeps value _)).enter skips name true⟩
  | .block _ body, ks, Θ, b, c, d, hollow, thins, _, lawful => by
      obtain ⟨-, inside⟩ := List.forall_mem_cons.mp lawful
      obtain ⟨shortens, after⟩ := stmts_shorten body (true :: ks) _ b _ _
        (hollow.kept Table.empty) (thins.openScope Table.empty) (.here ks) inside
      exact ⟨.block shortens, after.closeScope⟩
  | .ifThen _ condition thenBranch, ks, Θ, b, c, d, hollow, thins, _, lawful => by
      obtain ⟨here, inside⟩ := List.forall_mem_cons.mp lawful
      obtain ⟨first, second⟩ := List.forall_mem_append.mp inside
      have quiet : thenBranch.binds = none := (binds_stmt _ _).symm.trans here
      obtain ⟨shortens, after⟩ := stmt_shortens thenBranch ks Θ b _ _ hollow
        (thins.keep (expr_keeps condition c) (expr_keeps condition d)) (by simp [quiet]) second
      exact ⟨.ifThen (expr_shortens hollow condition c d thins (lawful_nodes first)) shortens, after⟩
  | .ifElse _ condition thenBranch elseBranch, ks, Θ, b, c, d, hollow, thins, _, lawful => by
      obtain ⟨⟨here, here'⟩, inside⟩ := List.forall_mem_cons.mp lawful
      obtain ⟨first, others⟩ := List.forall_mem_append.mp inside
      obtain ⟨second, third⟩ := List.forall_mem_append.mp others
      have quiet : thenBranch.binds = none := (binds_stmt _ _).symm.trans here
      have quiet' : elseBranch.binds = none := (binds_stmt _ _).symm.trans here'
      obtain ⟨shortens, after⟩ := stmt_shortens thenBranch ks Θ b _ _ hollow
        (thins.keep (expr_keeps condition c) (expr_keeps condition d)) (by simp [quiet]) second
      obtain ⟨shortens', after'⟩ := stmt_shortens elseBranch ks Θ b _ _ hollow after
        (by simp [quiet']) third
      exact ⟨.ifElse (expr_shortens hollow condition c d thins (lawful_nodes first)) shortens
        shortens', after'⟩
  | .loop _ condition body, ks, Θ, b, c, d, hollow, thins, _, lawful => by
      obtain ⟨here, inside⟩ := List.forall_mem_cons.mp lawful
      obtain ⟨first, second⟩ := List.forall_mem_append.mp inside
      have quiet : body.binds = none := (binds_stmt _ _).symm.trans here
      obtain ⟨shortens, after⟩ := stmt_shortens body ks Θ b _ _ hollow
        (thins.keep (expr_keeps condition c) (expr_keeps condition d)) (by simp [quiet]) second
      exact ⟨.loop (expr_shortens hollow condition c d thins (lawful_nodes first)) shortens, after⟩
  | .function declaration, ks, Θ, b, c, d, hollow, thins, inner, lawful => by
      obtain ⟨-, inside⟩ := List.forall_mem_cons.mp lawful
      have skips := inner declaration.name rfl
      obtain ⟨shortens, after⟩ := routine_shortens .function declaration ks _ _ _
        (hollow.declare skips (routine .function declaration
          (introduce declaration.name c).context).value.name.text)
        (thins.introduce skips declaration.name) inside
      exact ⟨.function skips shortens, after⟩
  | .classDecl name none methods, ks, Θ, b, c, d, hollow, thins, inner, lawful => by
      obtain ⟨-, inside⟩ := List.forall_mem_cons.mp lawful
      have skips := inner name rfl
      have begun := ((thins.setSurrounding .plainClass).introduce skips name).openScope receiverScope
      obtain ⟨shortens, after⟩ := routines_shorten methods (true :: ks) _ _ _
        ((hollow.declare skips name.text).kept receiverScope) begun inside
      exact ⟨.classDecl skips shortens, after.closeScope.scopes, thins.surrounding⟩
  | .classDecl name (some parent) methods, ks, Θ, b, c, d, hollow, thins, inner, lawful => by
      obtain ⟨-, others⟩ := List.forall_mem_cons.mp lawful
      obtain ⟨-, inside⟩ := List.forall_mem_cons.mp others
      have skips := inner name rfl
      have begun := (thins.setSurrounding .plainClass).introduce skips name
      have found := begun.scopes.locate parent.name.text
      have above := (begun.setSurrounding .subclass).keep (keeps_superclass name parent _)
        (keeps_superclass name parent _)
      obtain ⟨shortens, after⟩ := routines_shorten methods (true :: true :: ks) _ _ _
        (((hollow.declare skips name.text).kept inheritedScope).kept receiverScope)
        ((above.openScope inheritedScope).openScope receiverScope) inside
      refine ⟨?_, after.closeScope.closeScope.scopes, thins.surrounding⟩
      simp only [stmt, value_bind, value_superclass]
      exact .subclass skips found shortens
  | .ret pos none, ks, Θ, b, c, d, _, thins, _, _ => by
      rw [value_ret, value_ret]
      exact ⟨.leave pos, thins.keep (keeps_ret pos none c) (keeps_ret pos none d)⟩
  | .ret pos (some value), ks, Θ, b, c, d, hollow, thins, _, lawful => by
      rw [value_ret] at lawful
      obtain ⟨-, inside⟩ := List.forall_mem_cons.mp lawful
      rw [value_ret, value_ret]
      exact ⟨.give (expr_shortens hollow value c d thins (lawful_nodes inside)),
        thins.keep (keeps_ret pos (some value) c) (keeps_ret pos (some value) d)⟩

theorem stmts_shorten : ∀ (ss : List (Stmt Unit)) (ks : List Bool) (Θ : Scopes) (b : Bool)
    (c d : Context), Θ.Hollow ks → Thins ks c d → Skips ks 0 0 →
    (∀ σ ∈ sitesOfAll Θ b (stmts ss c).value, σ.Lawful) →
    ShortensBody ks (stmts ss c).value (stmts ss d).value ∧
      Thins ks (stmts ss c).context (stmts ss d).context
  | [], _, _, _, _, _, _, thins, _, _ => ⟨.nil, thins⟩
  | s :: rest, ks, Θ, b, c, d, hollow, thins, inner, lawful => by
      obtain ⟨first, others⟩ := List.forall_mem_append.mp lawful
      obtain ⟨shortens, after⟩ := stmt_shortens s ks Θ b c d hollow thins (fun _ _ => inner) first
      obtain ⟨shortens', after'⟩ := stmts_shorten rest ks _ b _ _
        (hollow.extend (stmt s c).value fun _ _ => inner) after inner others
      exact ⟨.cons shortens shortens', after'⟩

theorem routine_shortens (k : RoutineKind) : ∀ (r : Routine Unit) (ks : List Bool) (Θ : Scopes)
    (c d : Context), Θ.Hollow ks → Thins ks c d → (∀ σ ∈ (routine k r c).value.sites Θ, σ.Lawful) →
    (routine k r c).value.Shortens ks (routine k r d).value ∧
      Thins ks (routine k r c).context (routine k r d).context
  | .mk name params body, ks, Θ, c, d, hollow, thins, lawful => by
      have inside : Thins ks (setEnclosing (some k) c).context (setEnclosing (some k) d).context :=
        ⟨thins.scopes, thins.surrounding⟩
      obtain ⟨shortens, after⟩ := stmts_shorten body (true :: ks) _ true _ _
        (hollow.parameters params) ((inside.openScope Table.empty).defineAll params) (.here ks) lawful
      exact ⟨.mk name params shortens, after.closeScope.scopes, after.closeScope.surrounding⟩

theorem routines_shorten : ∀ (rs : List (Routine Unit)) (ks : List Bool) (Θ : Scopes)
    (c d : Context), Θ.Hollow ks → Thins ks c d →
    (∀ σ ∈ sitesOfMethods Θ (routines rs c).value, σ.Lawful) →
    ShortensMethods ks (routines rs c).value (routines rs d).value ∧
      Thins ks (routines rs c).context (routines rs d).context
  | [], _, _, _, _, _, thins, _ => ⟨.nil, thins⟩
  | r :: rest, ks, Θ, c, d, hollow, thins, lawful => by
      obtain ⟨first, others⟩ := List.forall_mem_append.mp lawful
      obtain ⟨shortens, after⟩ := routine_shortens .method r ks Θ c d hollow thins first
      obtain ⟨shortens', after'⟩ := routines_shorten rest ks Θ _ _ hollow after others
      exact ⟨.cons shortens shortens', after'⟩

end

end Walk
end LoxLang
