import LoxLang.Proofs.Progress.Statements
import LoxLang.Proofs.Respelling.Readings
/-! Every reading of a phrase comes to the same phrase, respelled, on respelled tokens, whatever
its budget beyond the number of tokens. -/
namespace LoxLang
namespace Reading
variable {τ : Respelling}

/-- Readings of the same expression. -/
abbrev AlikeExpr (τ : Respelling) (k : Nat) (x y : Reading RawExpr) : Prop :=
  Alike τ k (Expr.respell τ) x y

section
variable {ω : Type} {choice : Kind → Option ω} {join : RawExpr → ω → Pos → RawExpr → RawExpr}
  {operand operand' : Reading RawExpr}

/-- Joining two operands is the same for respelled ones. -/
def Respells (τ : Respelling) (join : RawExpr → ω → Pos → RawExpr → RawExpr) : Prop :=
  ∀ l op p r, join (l.respell τ) op (τ.pos p) (r.respell τ) = (join l op p r).respell τ

theorem alike_chain (respells : Respells τ join) (consumes : ConsumesExpr operand) (n : Nat) :
    ∀ n' k left, n ≤ n' → k ≤ n → AlikeExpr τ k operand operand' →
      AlikeExpr τ k (chain choice join operand n left)
        (chain choice join operand' n' (left.respell τ)) := by
  induction n with
  | zero =>
      intro n' k left _ none _ ts short
      obtain rfl : ts = [] := List.length_eq_zero_iff.mp (by omega)
      cases n' <;> rfl
  | succ n ih =>
      intro n' k left le enough alike
      obtain ⟨n', rfl⟩ : ∃ k, n' = k + 1 := ⟨n' - 1, by omega⟩
      refine Alike.acceptingWith (.pure rfl) fun op t => ?_
      refine Alike.bind_any consumes (alike.mono (Nat.sub_le k 1)) fun right => ?_
      rw [Token.pos_respell, respells]
      exact ih n' (k - 1) _ (by omega) (by omega) (alike.mono (Nat.sub_le k 1))

theorem alike_leftNested {n n' k : Nat} (respells : Respells τ join)
    (consumes : ConsumesExpr operand) (le : n ≤ n') (enough : k ≤ n)
    (alike : AlikeExpr τ k operand operand') :
    AlikeExpr τ k (leftNested choice join n operand) (leftNested choice join n' operand') :=
  Alike.bind_any consumes alike fun left =>
    alike_chain respells consumes n n' k left le enough alike

end

theorem respells_binary : Respells τ (Expr.binary (δ := Unit)) := by
  intro l op p r
  rw [Expr.respell]

theorem respells_logical : Respells τ (Expr.logical (δ := Unit)) := by
  intro l op p r
  rw [Expr.respell]

section
variable {n n' k : Nat} {nested nested' : Reading RawExpr}

theorem alike_inheritedAccess (pos : Pos) :
    AlikeExpr τ k (inheritedAccess pos) (inheritedAccess (τ.pos pos)) :=
  Alike.expecting fun _ _ => Alike.naming fun _ => .pure (by rw [Expr.respell])

theorem alike_grouping (consumes : ConsumesExpr nested) (le : n ≤ n') (enough : k ≤ n)
    (alike : AlikeExpr τ k nested nested') (line : Nat) :
    AlikeExpr τ k (grouping n nested line) (grouping n' nested' line) := by
  refine Alike.bind_any (consumes_leftNested names_binary consumes n)
    (alike_leftNested respells_binary consumes le enough alike) fun inner => ?_
  exact Alike.expecting fun _ _ => .pure (by rw [Expr.respell])

theorem constant?_respell (t : Token) : constant? (t.respell τ) = constant? t := by
  by_cases same : t.kind = .identifier
  · simp [constant?, Token.literal?, same]
  · simp only [constant?, Token.literal?, Token.kind_respell, Token.lexeme_respell same]

theorem alike_primary (consumes : ConsumesExpr nested) (le : n ≤ n') (enough : k ≤ n)
    (alike : AlikeExpr τ (k - 1) nested nested') :
    AlikeExpr τ k (primary n nested) (primary n' nested') := by
  intro ts short
  cases ts with
  | nil => rfl
  | cons t ts =>
      have fewer : ts.length ≤ k - 1 := Nat.le_sub_one_of_lt short
      cases found : constant? t with
      | some value =>
          simp [primary, constant?_respell, found, Outcome.respell, Expr.respell]
      | none =>
          simp only [List.map_cons, primary, constant?_respell, found, Token.kind_respell,
            Token.pos_respell]
          split
          case h_1 => exact alike_inheritedAccess t.pos ts fewer
          case h_2 => simp [Outcome.respell, Expr.respell]
          case h_3 same =>
            simp [Outcome.respell, Expr.respell, Token.respell_identifier same, Name.token,
              Name.respell]
          case h_4 =>
            rw [Respelling.line_pos]
            exact alike_grouping consumes le (by omega) alike t.pos.line ts fewer
          case h_5 => exact Alike.fail (t :: ts) short

theorem alike_arguments (consumes : ConsumesExpr nested) (le : n ≤ n') (enough : k ≤ n)
    (alike : AlikeExpr τ k nested nested') :
    Alike τ k (Prod.map (List.map (Expr.respell τ)) τ.pos) (arguments n nested)
      (arguments n' nested') := by
  have closed {x x' : Reading (List RawExpr)} {D : List RawExpr → List Token → Prop}
      (consumes : Consumes x D) (inner : Alike τ k (List.map (Expr.respell τ)) x x') :
      Alike τ k (Prod.map (List.map (Expr.respell τ)) τ.pos)
        (do
          let args ← x
          let close ← expect .rightParen .argumentsEnd
          Pure.pure (args, close.pos))
        (do
          let args ← x'
          let close ← expect .rightParen .argumentsEnd
          Pure.pure (args, close.pos)) :=
    Alike.bind_any consumes inner fun _ => Alike.expect.bind_pure fun _ => by simp
  have list : Consumes (entries .tooManyArguments nested n 0) fun _ _ => True :=
    consumes.entries (fun _ _ _ => trivial) (fun _ _ _ _ _ _ _ => trivial) n 0
  refine Alike.looking fun next => ?_
  cases next with
  | true => exact closed (D := fun _ _ => True) (.pure trivial) (.pure rfl)
  | false => exact closed list (.entries consumes n n' k 0 le enough alike)

theorem alike_suffixes (consumes : ConsumesExpr nested) (le : n ≤ n') (m : Nat) :
    ∀ m' k e, m ≤ m' → k ≤ m → k ≤ n → AlikeExpr τ (k - 1) nested nested' →
      AlikeExpr τ k (suffixes n nested m e) (suffixes n' nested' m' (e.respell τ)) := by
  induction m with
  | zero =>
      intro m' k e _ none _ _ ts short
      obtain rfl : ts = [] := List.length_eq_zero_iff.mp (by omega)
      cases m' <;> rfl
  | succ m ih =>
      intro m' k e more enough room alike ts short
      obtain ⟨m', rfl⟩ : ∃ k, m' = k + 1 := ⟨m' - 1, by omega⟩
      cases ts with
      | nil => rfl
      | cons t ts =>
          have fewer : ts.length ≤ k - 1 := by
            rw [List.length_cons] at short
            omega
          have goes (e : RawExpr) := ih m' (k - 1) e (by omega) (by omega) (by omega)
            (alike.mono (Nat.sub_le (k - 1) 1))
          simp only [List.map_cons, suffixes, Token.kind_respell]
          split
          case h_1 =>
            refine Alike.bind_any (consumes_arguments consumes)
              (alike_arguments consumes le (by omega) alike) (fun args => ?_) ts fewer
            simpa [Expr.respell, respellAll_eq_map] using goes (.call e args.2 args.1)
          case h_2 =>
            refine Alike.bind_any Consumes.expectName Alike.expectName (fun name => ?_) ts fewer
            simpa [Expr.respell] using goes (.member e name)
          case h_3 => simp [Outcome.respell]

theorem alike_callLevel (consumes : ConsumesExpr nested) (le : n ≤ n') (enough : k ≤ n)
    (alike : AlikeExpr τ (k - 1) nested nested') :
    AlikeExpr τ k (callLevel n nested) (callLevel n' nested') :=
  Alike.bind_any (consumes_primary consumes) (alike_primary consumes le enough alike) fun e =>
    alike_suffixes consumes le n n' k e le enough enough alike

/-- Where no tokens are left nothing can be read. -/
theorem alike_empty {x y : Reading RawExpr} {cause : SyntaxError} (first : x [] = Reading.fail cause [])
    (second : y [] = Reading.fail cause []) {g : RawExpr → RawExpr} : Alike τ 0 g x y := by
  intro ts short
  obtain rfl : ts = [] := List.length_eq_zero_iff.mp (Nat.le_zero.mp short)
  rw [List.map_nil, first, second]
  rfl

theorem unaryLevel_nil (n : Nat) (nested : Reading RawExpr) (m : Nat) :
    unaryLevel n nested m [] = Reading.fail .expression [] := by
  cases m <;> rfl

theorem alike_unaryLevel (consumes : ConsumesExpr nested) (le : n ≤ n') (m : Nat) :
    ∀ m' k, m ≤ m' → k ≤ m → k ≤ n → AlikeExpr τ (k - 1) nested nested' →
      AlikeExpr τ k (unaryLevel n nested m) (unaryLevel n' nested' m') := by
  induction m with
  | zero =>
      intro m' k _ none _ _
      obtain rfl : k = 0 := by omega
      exact alike_empty (unaryLevel_nil _ _ _) (unaryLevel_nil _ _ _)
  | succ m ih =>
      intro m' k more enough room alike
      obtain ⟨m', rfl⟩ : ∃ k, m' = k + 1 := ⟨m' - 1, by omega⟩
      refine Alike.acceptingWith (alike_callLevel consumes le room alike) fun op t => ?_
      refine (ih m' (k - 1) (by omega) (by omega) (by omega) (alike.mono (by omega))).bind_pure ?_
      intro e
      simp [Expr.respell]

theorem alike_disjunction (consumes : ConsumesExpr nested) (le : n ≤ n') (enough : k ≤ n)
    (alike : AlikeExpr τ (k - 1) nested nested') :
    AlikeExpr τ k (disjunction n nested) (disjunction n' nested') := by
  have unary : ConsumesExpr (unaryLevel n nested n) := consumes_unaryLevel consumes n
  have factors : ConsumesExpr (factor n nested) := consumes_leftNested names_binary unary n
  have terms : ConsumesExpr (term n nested) := consumes_leftNested names_binary factors n
  have comparisons : ConsumesExpr (comparison n nested) := consumes_leftNested names_binary terms n
  have equalities : ConsumesExpr (equality n nested) :=
    consumes_leftNested names_binary comparisons n
  have conjunctions : ConsumesExpr (conjunction n nested) :=
    consumes_leftNested names_logical equalities n
  have one := alike_unaryLevel consumes le n n' k le enough enough alike
  have two : AlikeExpr τ k (factor n nested) (factor n' nested') :=
    alike_leftNested respells_binary unary le enough one
  have three : AlikeExpr τ k (term n nested) (term n' nested') :=
    alike_leftNested respells_binary factors le enough two
  have four : AlikeExpr τ k (comparison n nested) (comparison n' nested') :=
    alike_leftNested respells_binary terms le enough three
  have five : AlikeExpr τ k (equality n nested) (equality n' nested') :=
    alike_leftNested respells_binary comparisons le enough four
  have six : AlikeExpr τ k (conjunction n nested) (conjunction n' nested') :=
    alike_leftNested respells_logical equalities le enough five
  exact alike_leftNested respells_logical conjunctions le enough six

theorem disjunction_nil (n : Nat) (nested : Reading RawExpr) :
    disjunction n nested [] = Reading.fail .expression [] := by
  simp [disjunction, conjunction, equality, comparison, term, factor, leftNested, bind,
    unaryLevel_nil, Reading.fail]

theorem conditional_nil (n : Nat) (nested : Reading RawExpr) (m : Nat) :
    conditional n nested m [] = Reading.fail .expression [] := by
  cases m with
  | zero => rfl
  | succ m => simp [conditional, bind, disjunction_nil, Reading.fail]

theorem alike_conditional (consumes : ConsumesExpr nested) (le : n ≤ n') (m : Nat) :
    ∀ m' k, m ≤ m' → k ≤ m → k ≤ n → AlikeExpr τ (k - 1) nested nested' →
      AlikeExpr τ k (conditional n nested m) (conditional n' nested' m') := by
  induction m with
  | zero =>
      intro m' k _ none _ _
      obtain rfl : k = 0 := by omega
      exact alike_empty (conditional_nil _ _ _) (conditional_nil _ _ _)
  | succ m ih =>
      intro m' k more enough room alike
      obtain ⟨m', rfl⟩ : ∃ k, m' = k + 1 := ⟨m' - 1, by omega⟩
      refine Alike.bind_any (consumes_disjunction consumes)
        (alike_disjunction consumes le room alike) fun c => ?_
      refine Alike.accepting (.pure rfl) fun question => ?_
      refine Alike.bind_any consumes alike fun t => ?_
      refine Alike.expecting fun _ _ => ?_
      refine (ih m' (k - 1 - 1) (by omega) (by omega) (by omega) (alike.mono (by omega))).bind_pure ?_
      intro e
      rw [Expr.respell]

end

section
variable {n n' k : Nat}

theorem alike_assignTo (left value : RawExpr) (equals : Token) :
    AlikeExpr τ k (assignTo left equals value)
      (assignTo (left.respell τ) (equals.respell τ) (value.respell τ)) := by
  cases left with
  | var name _ =>
      apply Alike.pure
      rw [Expr.respell]
  | member object name =>
      apply Alike.pure
      rw [Expr.respell]
  | _ =>
      refine Alike.bind_any (D := fun _ _ => True) (.reportAt trivial) (.reportAt (some equals) _) ?_
      exact fun _ => .pure rfl

theorem assignment_nil (n : Nat) : assignment n [] = Reading.fail .expression [] := by
  cases n with
  | zero => rfl
  | succ n => simp [assignment, bind, conditional_nil, Reading.fail]

theorem alike_assignment (n : Nat) : ∀ n' k, n ≤ n' → k ≤ n →
    AlikeExpr τ k (assignment n) (assignment n') := by
  induction n with
  | zero =>
      intro n' k _ none
      obtain rfl : k = 0 := by omega
      exact alike_empty (assignment_nil _) (assignment_nil _)
  | succ n ih =>
      intro n' k le enough
      obtain ⟨n', rfl⟩ : ∃ k, n' = k + 1 := ⟨n' - 1, by omega⟩
      have nested := ih n' (k - 1) (by omega) (by omega)
      refine Alike.bind_any (consumes_conditional (consumes_assignment n) (n + 1))
        (alike_conditional (consumes_assignment n) le (n + 1) (n' + 1) k le enough enough nested)
        fun left => ?_
      refine Alike.accepting (.pure rfl) fun equals => ?_
      exact Alike.bind_any (consumes_assignment n) nested fun value => alike_assignTo left value equals

theorem alike_expression (le : n ≤ n') (enough : k ≤ n) :
    AlikeExpr τ k (expression n) (expression n') :=
  alike_leftNested respells_binary (consumes_assignment n) le enough
    (alike_assignment n n' k le enough)

end

end Reading
end LoxLang
