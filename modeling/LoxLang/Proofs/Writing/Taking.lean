import LoxLang.Proofs.Writing.Written
/-! Expressions that are read without issues are written by the tokens that the reading takes. -/
namespace LoxLang

/-- The expression is written by the tokens and can stand at the level. -/
structure WrittenAt (n : Level) (e : RawExpr) (us : List Token) : Prop where
  written : Written e us
  sits : e.Sits n

theorem WrittenAt.of_next {n : Level} {e : RawExpr} {us : List Token}
    (stands : WrittenAt n.next e us) : WrittenAt n e us := ⟨stands.written, stands.sits.of_next⟩

namespace Reading

/-- The choice has the operators of the level, each with its way to join operands. -/
structure Picks {ω : Type} (choice : Kind → Option ω)
    (join : RawExpr → ω → Pos → RawExpr → RawExpr) (n : Level) : Prop where
  operator : ∀ k op, choice k = some op →
    ∃ o : Operator, o.level = n ∧ o.kind = k ∧ ∀ l p r, join l op p r = o.join l p r
  choose : ∀ o : Operator, o.level = n →
    ∃ op, choice o.kind = some op ∧ ∀ l p r, join l op p r = o.join l p r
  has : ∃ o : Operator, o.level = n

theorem picks_binary {choice : Kind → Option BinaryOp} {n : Level} (op : BinaryOp)
    (here : op.level = n)
    (sound : ∀ k op, choice k = some op → op.level = n ∧ op.kind = k)
    (all : ∀ op : BinaryOp, op.level = n → choice op.kind = some op)
    (apart : ∀ op : LogicalOp, op.level ≠ n) : Picks choice Expr.binary n where
  operator k op found := ⟨.binary op, (sound k op found).1, (sound k op found).2, fun _ _ _ => rfl⟩
  choose o same := by
    cases o with
    | binary op => exact ⟨op, all op same, fun _ _ _ => rfl⟩
    | logical op => exact absurd same (apart op)
  has := ⟨.binary op, here⟩

theorem picks_logical {choice : Kind → Option LogicalOp} {n : Level} (op : LogicalOp)
    (here : op.level = n)
    (sound : ∀ k op, choice k = some op → op.level = n ∧ op.kind = k)
    (all : ∀ op : LogicalOp, op.level = n → choice op.kind = some op)
    (apart : ∀ op : BinaryOp, op.level ≠ n) : Picks choice Expr.logical n where
  operator k op found := ⟨.logical op, (sound k op found).1, (sound k op found).2, fun _ _ _ => rfl⟩
  choose o same := by
    cases o with
    | binary op => exact absurd same (apart op)
    | logical op => exact ⟨op, all op same, fun _ _ _ => rfl⟩
  has := ⟨.logical op, here⟩

theorem picks_comma : Picks commaOp? Expr.binary .expression := by
  refine picks_binary .comma rfl (fun k op found => ?_) (fun op => ?_) fun op => ?_
  · cases k <;> cases found
    decide
  · cases op <;> decide
  · cases op <;> decide

theorem picks_equality : Picks equalityOp? Expr.binary .equality := by
  refine picks_binary .equal rfl (fun k op found => ?_) (fun op => ?_) fun op => ?_
  · cases k <;> cases found <;> decide
  · cases op <;> decide
  · cases op <;> decide

theorem picks_comparison : Picks comparisonOp? Expr.binary .comparison := by
  refine picks_binary .less rfl (fun k op found => ?_) (fun op => ?_) fun op => ?_
  · cases k <;> cases found <;> decide
  · cases op <;> decide
  · cases op <;> decide

theorem picks_term : Picks termOp? Expr.binary .term := by
  refine picks_binary .add rfl (fun k op found => ?_) (fun op => ?_) fun op => ?_
  · cases k <;> cases found <;> decide
  · cases op <;> decide
  · cases op <;> decide

theorem picks_factor : Picks factorOp? Expr.binary .factor := by
  refine picks_binary .divide rfl (fun k op found => ?_) (fun op => ?_) fun op => ?_
  · cases k <;> cases found <;> decide
  · cases op <;> decide
  · cases op <;> decide

theorem picks_or : Picks orOp? Expr.logical .disjunction := by
  refine picks_logical .or rfl (fun k op found => ?_) (fun op => ?_) fun op => ?_
  · cases k <;> cases found
    decide
  · cases op <;> decide
  · cases op <;> decide

theorem picks_and : Picks andOp? Expr.logical .conjunction := by
  refine picks_logical .and rfl (fun k op found => ?_) (fun op => ?_) fun op => ?_
  · cases k <;> cases found
    decide
  · cases op <;> decide
  · cases op <;> decide

/-! Operands with operators between them. -/

section
variable {ω : Type} {choice : Kind → Option ω} {join : RawExpr → ω → Pos → RawExpr → RawExpr}
  {n : Level} {operand : Reading RawExpr}

theorem written_chain (picks : Picks choice join n) (takes : Takes operand (WrittenAt n.next))
    (budget : Nat) : ∀ left used, WrittenAt n left used →
      Takes (chain choice join operand budget left) fun e more => WrittenAt n e (used ++ more) := by
  induction budget with
  | zero =>
      intro left used stands
      exact .pure (by simpa only [List.append_nil] using stands)
  | succ budget ih =>
      intro left used stands
      refine Takes.acceptWith?.bind fun o taken found => ?_
      cases o with
      | none =>
          subst found
          exact .pure (by simpa only [List.append_nil] using stands)
      | some pair =>
          obtain ⟨rfl, found⟩ := found
          obtain ⟨o, rfl, same, joined⟩ := picks.operator _ _ found
          refine takes.bind fun right more stands' => ?_
          have whole : WrittenAt o.level (join left pair.1 pair.2.pos right)
              (used ++ pair.2 :: more) := by
            rw [joined]
            exact ⟨.operation o stands.written stands.sits same.symm stands'.written stands'.sits,
              by simp [Expr.Sits]⟩
          exact (ih _ _ whole).imp fun e others stands => by simpa using stands

theorem written_leftNested (picks : Picks choice join n)
    (takes : Takes operand (WrittenAt n.next)) (budget : Nat) :
    Takes (leftNested choice join budget operand) (WrittenAt n) :=
  takes.bind fun left used stands => written_chain picks takes budget left used stands.of_next

end

section
variable {budget : Nat} {nested : Reading RawExpr}

theorem written_primary (takes : Takes nested (WrittenAt .assignment)) :
    Takes (primary budget nested) (WrittenAt .primary) := by
  intro ts
  cases ts with
  | nil => exact took_fail
  | cons t ts =>
      cases found : constant? t with
      | some value =>
          simp only [primary, found]
          exact Outcome.took_one ⟨.constant found, Nat.le_refl _⟩
      | none =>
          simp only [primary, found]
          split
          case h_1 same =>
            refine .cons (Takes.bind .expect (fun dot _ taken => .bind .name
              fun method more spelled => .pure ?_) ts)
            obtain ⟨rfl, dotted⟩ := taken
            obtain ⟨name, rfl, identifier, rfl⟩ := spelled
            exact ⟨.inherited same dotted identifier, Nat.le_refl _⟩
          case h_2 same => exact Outcome.took_one ⟨.receiver same, Nat.le_refl _⟩
          case h_3 same => exact Outcome.took_one ⟨.var same, Nat.le_refl _⟩
          case h_4 same =>
            refine .cons (Takes.bind (written_leftNested picks_comma takes budget)
              (fun inner used stands => .bind .expect fun close _ taken => .pure ?_) ts)
            obtain ⟨rfl, closed⟩ := taken
            exact ⟨.grouping same stands.written closed, Nat.le_refl _⟩
          case h_5 => exact took_fail

/-- The arguments of a call with its closing parenthesis. -/
theorem written_arguments (takes : Takes nested (WrittenAt .assignment)) :
    Takes (arguments budget nested) fun args used =>
      ∃ (parts : List (RawExpr × List Token)) (vs : List Token) (stop : Token),
        args = (parts.map Prod.fst, stop.pos) ∧ used = vs ++ [stop] ∧
        parts.length ≤ maxEntries ∧ Joined (parts.map Prod.snd) vs ∧
        (∀ part ∈ parts, WrittenAt .assignment part.1 part.2) ∧ stop.kind = .rightParen := by
  have closed {x : Reading (List RawExpr)} (inner : Takes x fun args used =>
      ∃ parts : List (RawExpr × List Token), parts.length ≤ maxEntries ∧
        args = parts.map Prod.fst ∧ Joined (parts.map Prod.snd) used ∧
        ∀ part ∈ parts, WrittenAt .assignment part.1 part.2) :
      Takes (do
        let args ← x
        let close ← expect .rightParen .argumentsEnd
        Pure.pure (args, close.pos)) fun args used =>
          ∃ (parts : List (RawExpr × List Token)) (vs : List Token) (stop : Token),
            args = (parts.map Prod.fst, stop.pos) ∧ used = vs ++ [stop] ∧
            parts.length ≤ maxEntries ∧ Joined (parts.map Prod.snd) vs ∧
            (∀ part ∈ parts, WrittenAt .assignment part.1 part.2) ∧ stop.kind = .rightParen := by
    refine inner.bind fun args used listed => Takes.expect.bind ?_
    rintro stop _ ⟨rfl, same⟩
    obtain ⟨parts, room, rfl, joined, all⟩ := listed
    exact .pure ⟨parts, used, stop, rfl, by simp, room, joined, all, same⟩
  refine (Takes.nextIs (E := fun _ used => used = []) fun _ => rfl).bind fun next _ none => ?_
  subst none
  cases next with
  | true => exact closed (.pure ⟨[], Nat.zero_le _, rfl, .none, by simp⟩)
  | false =>
      refine closed ((takes.entriesJoined budget 0).imp ?_)
      rintro _ used ⟨parts, -, room, rfl, joined, all⟩
      exact ⟨parts, by omega, rfl, joined, all⟩

theorem written_suffixes (takes : Takes nested (WrittenAt .assignment)) (n : Nat) :
    ∀ e used, WrittenAt .call e used →
      Takes (suffixes budget nested n e) fun e' more => WrittenAt .call e' (used ++ more) := by
  induction n with
  | zero =>
      intro e used stands
      exact .pure (by simpa only [List.append_nil] using stands)
  | succ n ih =>
      intro e used stands ts
      cases ts with
      | nil => exact Outcome.took_nothing (by simpa only [List.append_nil] using stands)
      | cons t ts =>
          simp only [suffixes]
          split
          case h_1 same =>
            refine .cons (Takes.bind (written_arguments takes) (fun args more listed => ?_) ts)
            obtain ⟨parts, vs, stop, rfl, rfl, room, joined, all, closed⟩ := listed
            have called : WrittenAt .call (.call e stop.pos (parts.map Prod.fst))
                (used ++ t :: (vs ++ [stop])) :=
              ⟨.call stands.written stands.sits same (fun part member => (all part member).written)
                (fun part member => (all part member).sits) room joined closed, Nat.le_refl _⟩
            exact (ih _ _ called).imp fun e' others stands => by simpa using stands
          case h_2 same =>
            refine .cons (Takes.bind .name (fun name more spelled => ?_) ts)
            obtain ⟨u, rfl, identifier, rfl⟩ := spelled
            have got : WrittenAt .call (.member e u.name) (used ++ [t, u]) :=
              ⟨.member stands.written stands.sits same identifier, Nat.le_refl _⟩
            exact (ih _ _ got).imp fun e' others stands => by simpa using stands
          case h_3 => exact Outcome.took_nothing (by simpa only [List.append_nil] using stands)

theorem written_callLevel (takes : Takes nested (WrittenAt .assignment)) :
    Takes (callLevel budget nested) (WrittenAt .call) :=
  (written_primary takes).bind fun e used stands =>
    written_suffixes takes budget e used (stands.of_next (n := .call))

theorem written_unaryLevel (takes : Takes nested (WrittenAt .assignment)) (n : Nat) :
    Takes (unaryLevel budget nested n) (WrittenAt .unary) := by
  induction n with
  | zero => exact .fail
  | succ n ih =>
      refine Takes.acceptWith?.bind fun o taken found => ?_
      cases o with
      | none =>
          subst found
          exact (written_callLevel takes).imp fun e used stands => stands.of_next (n := .unary)
      | some pair =>
          obtain ⟨rfl, found⟩ := found
          refine ih.bind fun e used stands => .pure ?_
          rw [List.append_nil]
          exact ⟨.unary found stands.written stands.sits, Nat.le_refl _⟩

theorem written_disjunction (takes : Takes nested (WrittenAt .assignment)) :
    Takes (disjunction budget nested) (WrittenAt .disjunction) := by
  have factor : Takes (factor budget nested) (WrittenAt .factor) :=
    written_leftNested picks_factor (written_unaryLevel takes budget) budget
  have term : Takes (term budget nested) (WrittenAt .term) :=
    written_leftNested picks_term factor budget
  have comparison : Takes (comparison budget nested) (WrittenAt .comparison) :=
    written_leftNested picks_comparison term budget
  have equality : Takes (equality budget nested) (WrittenAt .equality) :=
    written_leftNested picks_equality comparison budget
  have conjunction : Takes (conjunction budget nested) (WrittenAt .conjunction) :=
    written_leftNested picks_and equality budget
  exact written_leftNested picks_or conjunction budget

theorem written_conditional (takes : Takes nested (WrittenAt .assignment)) (n : Nat) :
    Takes (conditional budget nested n) (WrittenAt .conditional) := by
  induction n with
  | zero => exact .fail
  | succ n ih =>
      refine (written_disjunction takes).bind fun c used stands => Takes.accept?.bind ?_
      intro o more found
      cases o with
      | none =>
          subst found
          exact .pure (by simpa only [List.append_nil] using stands.of_next (n := .conditional))
      | some question =>
          obtain ⟨rfl, asked⟩ := found
          refine takes.bind fun a used₁ stands₁ => Takes.expect.bind ?_
          rintro colon _ ⟨rfl, parted⟩
          refine ih.bind fun b used₂ stands₂ => .pure ⟨?_, Nat.le_refl _⟩
          simpa using Written.conditional stands.written stands.sits asked stands₁.written
            stands₁.sits parted stands₂.written stands₂.sits

end

/-- What stands before an equals sign is a variable or a property, or else that is reported. -/
theorem written_assignTo {left value : RawExpr} {used more : List Token} {equals : Token}
    (same : equals.kind = .equal) (target : Written left used)
    (stands : WrittenAt .assignment value more) : Takes (assignTo left equals value) fun e rest =>
      WrittenAt .assignment e (used ++ equals :: (more ++ rest)) := by
  unfold assignTo
  split
  case h_1 name _ =>
    obtain ⟨t, rfl, identifier, rfl⟩ := target.of_var
    refine .pure ⟨?_, Nat.le_refl _⟩
    simpa using Written.assign identifier same stands.written stands.sits
  case h_2 object name =>
    obtain ⟨us, dot, t, rfl, inner, sits, dotted, identifier, rfl⟩ := target.of_member
    refine .pure ⟨?_, Nat.le_refl _⟩
    simpa using Written.assignMember inner sits dotted identifier same stands.written stands.sits
  case h_3 => exact fun ts quiet => absurd quiet (by simp [reportAt, bind])

theorem written_assignment (n : Nat) : Takes (assignment n) (WrittenAt .assignment) := by
  induction n with
  | zero => exact .fail
  | succ n ih =>
      refine (written_conditional ih (n + 1)).bind fun left used target => Takes.accept?.bind ?_
      intro o more found
      cases o with
      | none =>
          subst found
          exact .pure (by simpa only [List.append_nil] using target.of_next (n := .assignment))
      | some equals =>
          obtain ⟨rfl, same⟩ := found
          refine ih.bind fun value more stands => ?_
          exact (written_assignTo same target.written stands).imp fun e rest stands => by
            simpa using stands

/-- An expression that is read without issues is written by the tokens taken. -/
theorem written_expression (budget : Nat) :
    Takes (expression budget) (WrittenAt .expression) :=
  written_leftNested picks_comma (written_assignment budget) budget

end Reading
end LoxLang
