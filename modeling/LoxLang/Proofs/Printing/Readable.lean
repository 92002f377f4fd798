import LoxLang.Proofs.Printing.Statements
/-! The outlines of printable trees are readable: names, operators and displayed constants are solid
words. -/
namespace LoxLang

namespace Outline

/-! ### Readable outlines -/

/-- The characters of displayed numbers. -/
def Figure (c : Char) : Prop := Digit c ∨ c ∈ ['.', 'E', '-']

theorem figures_solid {cs : List Char} (some : cs ≠ []) (figures : ∀ c ∈ cs, Figure c) :
    Solid cs := by
  have none : ∀ c ∈ [' ', '(', ')', '\n'], ¬Figure c := by simp [Figure, Digit]
  exact ⟨some, fun c member other => none c other (figures c member)⟩

theorem plain_solid {cs : List Char} (plain : PlainText cs) : Solid cs := by
  cases plain with
  | whole some digits => exact figures_solid some fun c member => .inl (digits c member)
  | point _ digits _ places _ =>
    refine figures_solid (by simp) (List.forall_mem_append.mpr
      ⟨fun c member => .inl (digits c member),
      List.forall_mem_cons.mpr ⟨.inr (by decide), fun c member => .inl (places c member)⟩⟩)

theorem integer_figures {cs : List Char} (integer : IntegerText cs) : ∀ c ∈ cs, Figure c := by
  cases integer with
  | zero => exact List.forall_mem_singleton.mpr (.inl (by decide))
  | @signed c ds negative digit _ digits =>
    have figures : ∀ e ∈ c :: ds, Figure e :=
      List.forall_mem_cons.mpr ⟨.inl digit, fun e member => .inl (digits e member)⟩
    cases negative with
    | true => exact List.forall_mem_cons.mpr ⟨.inr (by decide), figures⟩
    | false => exact figures

theorem scientific_solid {cs : List Char} (scientific : ScientificText cs) : Solid cs := by
  cases scientific with
  | mk digit _ _ digits _ exponent =>
    exact figures_solid (List.cons_ne_nil _ _) (List.forall_mem_cons.mpr ⟨.inl digit,
      List.forall_mem_cons.mpr ⟨.inr (by decide),
        List.forall_mem_append.mpr ⟨fun c member => .inl (digits c member),
          List.forall_mem_cons.mpr ⟨.inr (by decide), integer_figures exponent⟩⟩⟩⟩)

theorem literal_solid {v : Literal} (printable : v.Printable) : Solid v.display := by
  cases v with
  | nil => decide
  | bool b => cases b <;> decide
  | number x =>
    obtain ⟨m, finite⟩ := printable
    obtain ⟨cs, display, -, shape⟩ := Parts.display_text false m
    rw [Literal.display, finite, display]
    split at shape
    · exact plain_solid shape
    · exact scientific_solid shape
  | text s => exact printable.elim

/-- A list with a head is readable if its other parts are. -/
theorem readable_list {head : String} (solid : Solid head.toList) {parts : List Outline}
    (each : ∀ o ∈ parts, Readable o) : Readable (list (ofText head :: parts)) :=
  .list (List.forall_mem_cons.mpr ⟨.word solid, each⟩)

theorem readable_name {n : Name} (identifier : n.Identifier) : Readable (ofText n.text) :=
  .word (identifier_solid identifier)

theorem readable_signature {name : Name} {params : List Name} (identifier : name.Identifier)
    (identifiers : ∀ p ∈ params, p.Identifier) : Readable (signature name params) := by
  rw [signature, map_word]
  refine .signature (identifier_solid identifier) ?_
  intro p member
  obtain ⟨q, inside, rfl⟩ := List.mem_map.mp member
  exact identifier_solid (identifiers q inside)

end Outline

open Outline

mutual

theorem Expr.readable : ∀ e : RawExpr, Printable e.parts → Readable e.outline
  | .literal _ _, printable => .word (literal_solid (printable _ List.mem_cons_self))
  | .grouping _ inner, printable =>
      readable_list (by decide) (List.forall_mem_singleton.mpr (inner.readable printable))
  | .var _ (), printable => readable_name (printable_name.mp printable).1
  | .assign _ value (), printable => by
      obtain ⟨identifier, rest⟩ := printable_name.mp printable
      exact readable_list (by decide) (List.forall_mem_cons.mpr ⟨readable_name identifier,
        List.forall_mem_singleton.mpr (value.readable rest)⟩)
  | .unary op _ operand, printable =>
      readable_list (by cases op <;> decide)
        (List.forall_mem_singleton.mpr (operand.readable (printable_token.mp printable).2))
  | .binary left op _ right, printable => by
      obtain ⟨first, second⟩ := printable_append.mp (printable_token.mp printable).2
      exact readable_list (by cases op <;> decide) (List.forall_mem_cons.mpr ⟨left.readable first,
        List.forall_mem_singleton.mpr (right.readable second)⟩)
  | .logical left op _ right, printable => by
      obtain ⟨first, second⟩ := printable_append.mp (printable_token.mp printable).2
      exact readable_list (by cases op <;> decide) (List.forall_mem_cons.mpr ⟨left.readable first,
        List.forall_mem_singleton.mpr (right.readable second)⟩)
  | .conditional condition thenBranch elseBranch, printable => by
      obtain ⟨first, branches⟩ := printable_append.mp printable
      obtain ⟨second, third⟩ := printable_append.mp branches
      exact readable_list (by decide) (List.forall_mem_cons.mpr ⟨condition.readable first,
        List.forall_mem_cons.mpr ⟨thenBranch.readable second,
          List.forall_mem_singleton.mpr (elseBranch.readable third)⟩⟩)
  | .call callee _ arguments, printable => by
      obtain ⟨first, second⟩ := printable_append.mp (printable_token.mp printable).2
      exact readable_list (by decide)
        (List.forall_mem_cons.mpr ⟨callee.readable first, readable_arguments arguments second⟩)
  | .member object _, printable => by
      obtain ⟨identifier, rest⟩ := printable_name.mp printable
      exact readable_list (by decide) (List.forall_mem_cons.mpr ⟨object.readable rest,
        List.forall_mem_singleton.mpr (readable_name identifier)⟩)
  | .assignMember object _ value, printable => by
      obtain ⟨identifier, rest⟩ := printable_name.mp printable
      obtain ⟨first, second⟩ := printable_append.mp rest
      have target := @readable_list "." (by decide) _ (List.forall_mem_cons.mpr
        ⟨object.readable first, List.forall_mem_singleton.mpr (readable_name identifier)⟩)
      exact readable_list (by decide) (List.forall_mem_cons.mpr ⟨target,
        List.forall_mem_singleton.mpr (value.readable second)⟩)
  | .receiver _ (), _ => .word (by decide)
  | .inherited _ _ (), printable => by
      obtain ⟨identifier, -⟩ := printable_name.mp (printable_token.mp printable).2
      exact readable_list (by decide) (List.forall_mem_singleton.mpr (readable_name identifier))

theorem readable_arguments : ∀ es : List RawExpr, Printable (partsOfAll es) →
    ∀ o ∈ outlineArguments es, Readable o
  | [], _ => nofun
  | e :: rest, printable => by
      obtain ⟨first, later⟩ := printable_append.mp printable
      exact List.forall_mem_cons.mpr ⟨e.readable first, readable_arguments rest later⟩

end

mutual

theorem Stmt.readable : ∀ s : RawStmt, Printable s.parts → Readable s.outline
  | .expression value, printable | .print _ value, printable =>
      readable_list (by decide) (List.forall_mem_singleton.mpr (value.readable printable))
  | .var _ none, printable =>
      readable_list (by decide)
        (List.forall_mem_singleton.mpr (readable_name (printable_name.mp printable).1))
  | .var _ (some value), printable => by
      obtain ⟨identifier, rest⟩ := printable_name.mp printable
      exact readable_list (by decide) (List.forall_mem_cons.mpr ⟨readable_name identifier,
        List.forall_mem_cons.mpr ⟨.word (by decide),
          List.forall_mem_singleton.mpr (value.readable rest)⟩⟩)
  | .block _ body, printable => readable_list (by decide) (readable_body body printable)
  | .ifThen _ condition thenBranch, printable => by
      obtain ⟨first, second⟩ := printable_append.mp printable
      exact readable_list (by decide) (List.forall_mem_cons.mpr ⟨condition.readable first,
        List.forall_mem_singleton.mpr (thenBranch.readable second)⟩)
  | .ifElse _ condition thenBranch elseBranch, printable => by
      obtain ⟨first, branches⟩ := printable_append.mp printable
      obtain ⟨second, third⟩ := printable_append.mp branches
      exact readable_list (by decide) (List.forall_mem_cons.mpr ⟨condition.readable first,
        List.forall_mem_cons.mpr ⟨thenBranch.readable second,
          List.forall_mem_singleton.mpr (elseBranch.readable third)⟩⟩)
  | .loop _ condition body, printable => by
      obtain ⟨first, second⟩ := printable_append.mp printable
      exact readable_list (by decide) (List.forall_mem_cons.mpr ⟨condition.readable first,
        List.forall_mem_singleton.mpr (body.readable second)⟩)
  | .function declaration, printable => declaration.readable printable
  | .classDecl _ none methods, printable => by
      obtain ⟨identifier, inner⟩ := printable_name.mp printable
      exact readable_list (by decide) (List.forall_mem_cons.mpr ⟨readable_name identifier,
        readable_methods methods inner⟩)
  | .classDecl _ (some _) methods, printable => by
      obtain ⟨identifier, rest⟩ := printable_name.mp printable
      obtain ⟨identifier', inner⟩ := printable_name.mp rest
      exact readable_list (by decide) (List.forall_mem_cons.mpr ⟨readable_name identifier,
        List.forall_mem_cons.mpr ⟨.word (by decide), List.forall_mem_cons.mpr
          ⟨readable_name identifier', readable_methods methods inner⟩⟩⟩)
  | .ret _ none, _ => readable_list (by decide) nofun
  | .ret _ (some value), printable =>
      readable_list (by decide)
        (List.forall_mem_singleton.mpr (value.readable (printable_token.mp printable).2))

theorem Routine.readable : ∀ r : Routine Unit, Printable r.parts → Readable r.outline
  | .mk _ params body, printable => by
      obtain ⟨identifier, rest⟩ := printable_name.mp printable
      obtain ⟨named, inner⟩ := printable_append.mp rest
      exact readable_list (by decide) (List.forall_mem_cons.mpr
        ⟨readable_signature identifier (printable_params named), readable_body body inner⟩)

theorem readable_body : ∀ ss : List RawStmt, Printable (partsOfBody ss) →
    ∀ o ∈ outlineBody ss, Readable o
  | [], _ => nofun
  | s :: rest, printable => by
      obtain ⟨first, later⟩ := printable_append.mp printable
      exact List.forall_mem_cons.mpr ⟨s.readable first, readable_body rest later⟩

theorem readable_methods : ∀ rs : List (Routine Unit), Printable (partsOfMethods rs) →
    ∀ o ∈ outlineMethods rs, Readable o
  | [], _ => nofun
  | r :: rest, printable => by
      obtain ⟨first, later⟩ := printable_append.mp printable
      exact List.forall_mem_cons.mpr ⟨r.readable first, readable_methods rest later⟩

end

end LoxLang
