import LoxLang.Proofs.Progress
/-! What every reading of a phrase takes: some tokens, in which the names stand that it puts
into its tree, each at most once for each time that it stands there. -/
namespace LoxLang

/-- The names are drawn from the tokens, of which there are some. -/
structure Draws (ns : List Name) (used : List Token) : Prop where
  some : used ≠ []
  drawn : Drawn ns used

namespace Draws
variable {ns ms : List Name} {used more : List Token}

theorem append (first : Draws ns used) (second : Drawn ms more) : Draws (ns ++ ms) (used ++ more) :=
  ⟨List.append_ne_nil_of_left_ne_nil first.some more, first.drawn.append second⟩

theorem append_left (draws : Draws ns used) (more : List Token) : Draws ns (used ++ more) :=
  ⟨List.append_ne_nil_of_left_ne_nil draws.some more, draws.drawn.append_left more⟩

theorem cons (drawn : Drawn ns used) (t : Token) : Draws ns (t :: used) :=
  ⟨List.cons_ne_nil t used, drawn.cons t⟩

theorem name {t : Token} (same : t.kind = .identifier) : Draws [⟨t.lexeme, t.pos⟩] [t] :=
  ⟨List.cons_ne_nil t [], Drawn.name same⟩

end Draws

namespace Reading

/-- A reading of an expression takes tokens with the names of the expression. -/
abbrev ConsumesExpr (x : Reading RawExpr) : Prop := Consumes x fun e used => Draws e.names used

abbrev ConsumesStmt (x : Reading RawStmt) : Prop := Consumes x fun s used => Draws s.names used

section
variable {ω : Type} {choice : Kind → Option ω} {join : RawExpr → ω → Pos → RawExpr → RawExpr}
  {operand : Reading RawExpr}

theorem consumes_chain (joins : ∀ l op p r, (join l op p r).names = l.names ++ r.names)
    (consumes : ConsumesExpr operand) (n : Nat) : ∀ left used, Draws left.names used →
      Consumes (chain choice join operand n left) fun e more => Draws e.names (used ++ more) := by
  induction n with
  | zero =>
      intro left used draws
      exact .pure (draws.append_left [])
  | succ n ih =>
      intro left used draws
      refine Consumes.acceptWith?.bind ?_
      rintro o _ rfl
      cases o with
      | none => exact .pure (draws.append_left [])
      | some pair =>
          refine consumes.bind fun right more draws' => ?_
          have joined : Draws (join left pair.1 pair.2.pos right).names (used ++ pair.2 :: more) := by
            rw [joins]
            exact draws.append (draws'.drawn.cons pair.2)
          exact (ih _ _ joined).imp fun e others draws => by simpa using draws

theorem consumes_leftNested (joins : ∀ l op p r, (join l op p r).names = l.names ++ r.names)
    (consumes : ConsumesExpr operand) (budget : Nat) :
    ConsumesExpr (leftNested choice join budget operand) :=
  consumes.bind fun left used draws => consumes_chain joins consumes budget left used draws

end

section
variable {budget : Nat} {nested : Reading RawExpr}

theorem names_binary (l : RawExpr) (op : BinaryOp) (p : Pos) (r : RawExpr) :
    (Expr.binary l op p r).names = l.names ++ r.names := by rw [Expr.names]

theorem names_logical (l : RawExpr) (op : LogicalOp) (p : Pos) (r : RawExpr) :
    (Expr.logical l op p r).names = l.names ++ r.names := by rw [Expr.names]

theorem consumes_grouping (consumes : ConsumesExpr nested) (line : Nat) :
    ConsumesExpr (grouping budget nested line) := by
  refine (consumes_leftNested names_binary consumes budget).bind fun inner used draws => ?_
  refine Consumes.expect.bind ?_
  rintro close _ ⟨rfl, -⟩
  apply Consumes.pure
  rw [Expr.names]
  exact draws.append_left _

theorem consumes_inheritedAccess (pos : Pos) :
    Consumes (inheritedAccess pos) fun e used => Drawn e.names used := by
  refine Consumes.expect.bind ?_
  rintro dot _ ⟨rfl, -⟩
  refine Consumes.expectName.bind fun method used drawn => .pure ?_
  rw [Expr.names]
  exact (drawn.2.append_left []).append_right [dot]

theorem consumes_primary (consumes : ConsumesExpr nested) : ConsumesExpr (primary budget nested) := by
  intro ts
  cases ts with
  | nil => exact .fail
  | cons t ts =>
      have single {e : RawExpr} (none : e.names = []) : Draws e.names [t] :=
        none ▸ Draws.cons (.nil []) t
      cases found : constant? t with
      | some value =>
          simp only [primary, found]
          exact .one (single (by rw [Expr.names]))
      | none =>
          simp only [primary, found]
          split
          case h_1 => exact .cons ((consumes_inheritedAccess t.pos).imp (fun _ _ drawn => .cons drawn t) ts)
          case h_2 => exact .one (single (by rw [Expr.names]))
          case h_3 same =>
            refine .one ?_
            rw [Expr.names]
            exact Draws.name same
          case h_4 =>
            exact .cons ((consumes_grouping consumes _).imp (fun _ _ draws => .cons draws.drawn t) ts)
          case h_5 => exact .fail

theorem consumes_arguments (consumes : ConsumesExpr nested) :
    Consumes (arguments budget nested) fun args used => Drawn (namesOfAll args.1) used := by
  have list : Consumes (entries .tooManyArguments nested budget 0) fun args used =>
      Drawn (namesOfAll args) used := by
    apply consumes.entries
    · intro e used draws
      simpa [namesOfAll] using draws.drawn
    · intro e es used t more draws drawn
      rw [namesOfAll]
      exact draws.drawn.append (drawn.cons t)
  have closed {x : Reading (List RawExpr)}
      (inner : Consumes x fun args used => Drawn (namesOfAll args) used) :
      Consumes (do
        let args ← x
        let close ← expect .rightParen .argumentsEnd
        Pure.pure (args, close.pos)) fun args used => Drawn (namesOfAll args.1) used := by
    refine inner.bind fun args used drawn => Consumes.expect.bind ?_
    rintro close _ ⟨rfl, -⟩
    exact .pure (drawn.append_left _)
  refine (Consumes.nextIs (E := fun _ used => used = []) fun _ => rfl).bind ?_
  rintro next _ rfl
  cases next with
  | true => exact closed (.pure (.nil []))
  | false => exact closed list

theorem consumes_suffixes (consumes : ConsumesExpr nested) (n : Nat) :
    ∀ e used, Draws e.names used →
      Consumes (suffixes budget nested n e) fun e' more => Draws e'.names (used ++ more) := by
  induction n with
  | zero =>
      intro e used draws
      exact .pure (draws.append_left [])
  | succ n ih =>
      intro e used draws ts
      cases ts with
      | nil => exact .nothing (draws.append_left [])
      | cons t ts =>
          simp only [suffixes]
          split
          case h_1 =>
            refine .cons (Consumes.bind (consumes_arguments consumes) (fun args more drawn => ?_) ts)
            have called : Draws (Expr.call e args.2 args.1).names (used ++ t :: more) := by
              rw [Expr.names]
              exact draws.append (drawn.cons t)
            exact (ih _ _ called).imp fun e' others draws => by simpa using draws
          case h_2 =>
            refine .cons (Consumes.bind .expectName (fun name more drawn => ?_) ts)
            have got : Draws (Expr.member e name).names (used ++ t :: more) := by
              rw [Expr.names]
              exact draws.append (drawn.2.cons t)
            exact (ih _ _ got).imp fun e' others draws => by simpa using draws
          case h_3 => exact .nothing (draws.append_left [])

theorem consumes_callLevel (consumes : ConsumesExpr nested) :
    ConsumesExpr (callLevel budget nested) :=
  (consumes_primary consumes).bind fun e used draws => consumes_suffixes consumes budget e used draws

theorem consumes_unaryLevel (consumes : ConsumesExpr nested) (n : Nat) :
    ConsumesExpr (unaryLevel budget nested n) := by
  induction n with
  | zero => exact .fail
  | succ n ih =>
      refine Consumes.acceptWith?.bind ?_
      rintro o _ rfl
      cases o with
      | none => exact consumes_callLevel consumes
      | some pair =>
          refine ih.bind fun e used draws => .pure ?_
          rw [Expr.names]
          exact .cons (draws.drawn.append_left []) pair.2

theorem consumes_disjunction (consumes : ConsumesExpr nested) :
    ConsumesExpr (disjunction budget nested) := by
  have factor : ConsumesExpr (factor budget nested) :=
    consumes_leftNested names_binary (consumes_unaryLevel consumes budget) budget
  have term : ConsumesExpr (term budget nested) := consumes_leftNested names_binary factor budget
  have comparison : ConsumesExpr (comparison budget nested) :=
    consumes_leftNested names_binary term budget
  have equality : ConsumesExpr (equality budget nested) :=
    consumes_leftNested names_binary comparison budget
  have conjunction : ConsumesExpr (conjunction budget nested) :=
    consumes_leftNested names_logical equality budget
  exact consumes_leftNested names_logical conjunction budget

theorem consumes_conditional (consumes : ConsumesExpr nested) (n : Nat) :
    ConsumesExpr (conditional budget nested n) := by
  induction n with
  | zero => exact .fail
  | succ n ih =>
      refine (consumes_disjunction consumes).bind fun c used draws => Consumes.accept?.bind ?_
      rintro o _ rfl
      cases o with
      | none => exact .pure (draws.append_left _)
      | some question =>
          refine consumes.bind fun t used₁ draws₁ => Consumes.expect.bind ?_
          rintro colon _ ⟨rfl, -⟩
          refine ih.bind fun e used₂ draws₂ => .pure ?_
          rw [Expr.names]
          exact draws.append ((draws₁.drawn.append
            ((draws₂.drawn.append_left []).append_right [colon])).cons question)

theorem consumes_assignTo {left value : RawExpr} {used more : List Token} (equals : Token)
    (target : Draws left.names used) (draws : Drawn value.names more) :
    Consumes (assignTo left equals value) fun e rest =>
      Draws e.names (used ++ equals :: (more ++ rest)) := by
  have whole : Draws (left.names ++ value.names) (used ++ equals :: (more ++ [])) := by
    rw [List.append_nil]
    exact target.append (draws.cons equals)
  unfold assignTo
  split
  case h_1 name _ =>
    apply Consumes.pure
    simpa [Expr.names] using whole
  case h_2 object name =>
    apply Consumes.pure
    simpa [Expr.names] using whole
  case h_3 =>
    refine (Consumes.reportAt (D := fun _ used => used = []) rfl).bind ?_
    rintro _ _ rfl
    exact .pure ⟨whole.some, whole.drawn.fewer fun n => by simp⟩

theorem consumes_assignment (n : Nat) : ConsumesExpr (assignment n) := by
  induction n with
  | zero => exact .fail
  | succ n ih =>
      refine (consumes_conditional ih (n + 1)).bind fun left used draws => Consumes.accept?.bind ?_
      rintro o _ rfl
      cases o with
      | none => exact .pure (draws.append_left _)
      | some equals =>
          refine ih.bind fun value more draws' => ?_
          exact (consumes_assignTo equals draws draws'.drawn).imp fun e rest draws => by
            simpa using draws

theorem consumes_expression (budget : Nat) : ConsumesExpr (expression budget) :=
  consumes_leftNested names_binary (consumes_assignment budget) budget

end

end Reading
end LoxLang
