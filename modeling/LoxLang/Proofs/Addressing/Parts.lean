import LoxLang.Proofs.Addressing
/-! The parts of a program. Where a statement stands among the sites of a program, all sites of that
statement are sites of the program. -/
namespace LoxLang

/-- No statement. -/
def Node.Other : Node → Prop
  | .stmt _ => False
  | _ => True

/-- With a statement, these sites have those of its parts. -/
def ClosedSites (σs : List Site) : Prop :=
  ∀ σ ∈ σs, ∀ s, σ.node = .stmt s → ∀ τ ∈ s.sites σ.scopes σ.inRoutine, τ ∈ σs

namespace ClosedSites
variable {σs σs' : List Site} {Γ : Scopes} {b : Bool} {i : Option Name}

theorem nil : ClosedSites [] := fun _ member => absurd member List.not_mem_nil

theorem append (closed : ClosedSites σs) (closed' : ClosedSites σs') : ClosedSites (σs ++ σs') := by
  intro σ member s here τ part
  rcases List.mem_append.mp member with left | right
  · exact List.mem_append_left _ (closed σ left s here τ part)
  · exact List.mem_append_right _ (closed' σ right s here τ part)

/-- A statement before its parts. -/
theorem node {s : Stmt Address} (closed : ClosedSites σs)
    (whole : s.sites Γ b = ⟨Γ, b, none, .stmt s⟩ :: σs) : ClosedSites (s.sites Γ b) := by
  rw [whole]
  intro σ member t here τ part
  rcases List.mem_cons.mp member with rfl | inside
  · cases here
    exact whole ▸ part
  · exact List.mem_cons_of_mem _ (closed σ inside t here τ part)

/-- What is no statement has no parts. -/
theorem of_other (other : ∀ σ ∈ σs, σ.node.Other) : ClosedSites σs := by
  intro σ member s here
  have none := other σ member
  rw [here] at none
  cases none

end ClosedSites

mutual

/-- No statement stands inside an expression. -/
theorem Expr.nodes_other : ∀ e : Expr Address, ∀ n ∈ e.nodes, n.Other
  | .literal _ _ | .var _ _ | .receiver _ _ | .inherited _ _ _ =>
      List.forall_mem_singleton.mpr trivial
  | .grouping _ inner => List.forall_mem_cons.mpr ⟨trivial, inner.nodes_other⟩
  | .assign _ value _ => List.forall_mem_cons.mpr ⟨trivial, List.forall_mem_append.mpr
      ⟨value.nodes_other, List.forall_mem_singleton.mpr trivial⟩⟩
  | .unary _ _ operand => List.forall_mem_cons.mpr ⟨trivial, operand.nodes_other⟩
  | .binary left _ _ right | .logical left _ _ right => List.forall_mem_cons.mpr
      ⟨trivial, List.forall_mem_append.mpr ⟨left.nodes_other, right.nodes_other⟩⟩
  | .conditional condition thenBranch elseBranch => List.forall_mem_cons.mpr
      ⟨trivial, List.forall_mem_append.mpr ⟨condition.nodes_other, List.forall_mem_append.mpr
        ⟨thenBranch.nodes_other, elseBranch.nodes_other⟩⟩⟩
  | .call callee _ arguments => List.forall_mem_cons.mpr
      ⟨trivial, List.forall_mem_append.mpr ⟨callee.nodes_other, nodesOfAll_other arguments⟩⟩
  | .member object _ => List.forall_mem_cons.mpr ⟨trivial, object.nodes_other⟩
  | .assignMember object _ value => List.forall_mem_cons.mpr
      ⟨trivial, List.forall_mem_append.mpr ⟨value.nodes_other, object.nodes_other⟩⟩

theorem nodesOfAll_other : ∀ es : List (Expr Address), ∀ n ∈ nodesOfAll es, n.Other
  | [] => fun _ member => absurd member List.not_mem_nil
  | e :: rest => List.forall_mem_append.mpr ⟨e.nodes_other, nodesOfAll_other rest⟩

end

theorem Expr.closed (e : Expr Address) (Γ : Scopes) (b : Bool) (i : Option Name) :
    ClosedSites (e.sites Γ b i) :=
  .of_other (List.forall_mem_map.mpr e.nodes_other)

mutual

/-- The sites of a statement have with a statement its parts. -/
theorem Stmt.closed : ∀ (s : Stmt Address) (Γ : Scopes) (b : Bool), ClosedSites (s.sites Γ b)
  | .expression value, Γ, b => .node (value.closed Γ b none) rfl
  | .print _ value, Γ, b => .node (value.closed Γ b none) rfl
  | .var _ none, _, _ => .node .nil rfl
  | .var name (some value), Γ, b =>
      .node (value.closed (Γ.enter name.text false) b (some name)) rfl
  | .block _ body, Γ, b => .node (closed_all body (Table.empty :: Γ) b) rfl
  | .ifThen _ condition thenBranch, Γ, b =>
      .node ((condition.closed Γ b none).append (thenBranch.closed Γ b)) rfl
  | .ifElse _ condition thenBranch elseBranch, Γ, b =>
      .node ((condition.closed Γ b none).append
        ((thenBranch.closed Γ b).append (elseBranch.closed Γ b))) rfl
  | .loop _ condition body, Γ, b =>
      .node ((condition.closed Γ b none).append (body.closed Γ b)) rfl
  | .function declaration, Γ, _ =>
      .node (declaration.closed (Γ.declare declaration.name.text)) rfl
  | .classDecl name none methods, Γ, _ =>
      .node (closed_methods methods (Walk.receiverScope :: Γ.declare name.text)) rfl
  | .classDecl name (some parent) methods, Γ, b =>
      have above : ClosedSites [⟨Γ.declare name.text, b, none, .superclass name parent⟩] :=
        .of_other (List.forall_mem_singleton.mpr trivial)
      .node (above.append (closed_methods methods
        (Walk.receiverScope :: Walk.inheritedScope :: Γ.declare name.text))) rfl
  | .ret _ none, _, _ => .node .nil rfl
  | .ret _ (some value), Γ, b => .node (value.closed Γ b none) rfl

theorem closed_all : ∀ (ss : List (Stmt Address)) (Γ : Scopes) (b : Bool),
    ClosedSites (sitesOfAll Γ b ss)
  | [], _, _ => .nil
  | s :: rest, Γ, b => (s.closed Γ b).append (closed_all rest (Γ.extend s) b)

theorem Routine.closed : ∀ (r : Routine Address) (Γ : Scopes), ClosedSites (r.sites Γ)
  | .mk _ params body, Γ => closed_all body (Γ.parameters params) true

theorem closed_methods : ∀ (rs : List (Routine Address)) (Γ : Scopes),
    ClosedSites (sitesOfMethods Γ rs)
  | [], _ => .nil
  | r :: rest, Γ => (r.closed Γ).append (closed_methods rest Γ)

end

end LoxLang
