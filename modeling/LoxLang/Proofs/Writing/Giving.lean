import LoxLang.Proofs.Grammar.Exact.Expressions
import LoxLang.Proofs.Writing.Taking
/-! Expressions are read back from the tokens they are written by, each as the very tree. -/
namespace LoxLang
namespace Reading

/-- From tokens that write an expression of the level the reading makes that expression and takes
just these tokens, up to some length. -/
def Exact (x : Reading RawExpr) (n : Level) (opens : List Kind) (size : Nat) : Prop :=
  ∀ e us, WrittenAt n e us → us.length ≤ size → ∀ rest, Ends opens rest → Gives x (us ++ rest) e rest

/-! Operands with operators between them. -/

section
variable {ω : Type} {choice : Kind → Option ω} {join : RawExpr → ω → Pos → RawExpr → RawExpr}
  {n : Level} {operators opens : List Kind} {operand : Reading RawExpr} {budget size : Nat}

/-- Behind an expression of the level its operators go on as behind a single operand. -/
theorem leftNested_through (picks : Picks choice join n)
    (agree : ∀ k, (choice k).isSome = true ↔ k ∈ operators) (apart : ∀ k ∈ operators, k ∉ opens)
    (operands : Exact operand n.next opens size) (enough : size ≤ budget) (m : Nat) :
    ∀ e us, us.length ≤ m → m ≤ size → WrittenAt n e us → ∀ rest, Ends opens rest →
      ∃ k, budget ≤ k + us.length ∧
        leftNested choice join budget operand (us ++ rest) =
          chain choice join operand k e rest := by
  induction m with
  | zero =>
      intro e us short _ stands
      exact absurd (List.eq_nil_of_length_eq_zero (Nat.le_zero.mp short)) stands.written.ne_nil
  | succ m ih =>
      intro e us short small stands rest ends
      by_cases same : e.level = n
      · obtain ⟨o, rfl⟩ := picks.has
        obtain ⟨o', l, r, t, vs, ws, level, rfl, rfl, kind, left, sits, right, sits'⟩ :=
          stands.written.split same
        obtain ⟨op, found, joined⟩ := picks.choose o' level
        rw [← kind] at found
        have operator : t.kind ∈ operators := (agree t.kind).mp (by rw [found]; rfl)
        simp only [List.length_append, List.length_cons] at short
        obtain ⟨k, least, before⟩ := ih l vs (by omega) (by omega) ⟨left, sits⟩
          (t :: (ws ++ rest)) (.cons (apart _ operator))
        have again := operands r ws ⟨right, sits'⟩ (by omega) rest ends
        obtain ⟨k, rfl⟩ := Nat.exists_eq_succ_of_ne_zero (show k ≠ 0 by omega)
        refine ⟨k, by simp only [List.length_append, List.length_cons]; omega, ?_⟩
        rw [List.append_assoc, List.cons_append, before, ← joined]
        exact (Gives.acceptWith found).bind_eq.trans again.bind_eq
      · have alone := operands e us ⟨stands.written, stands.sits.next same⟩ (by omega) rest ends
        exact ⟨budget, Nat.le_add_right _ _, alone.bind_eq⟩

theorem leftNested_exact (picks : Picks choice join n)
    (agree : ∀ k, (choice k).isSome = true ↔ k ∈ operators) (apart : ∀ k ∈ operators, k ∉ opens)
    (operands : Exact operand n.next opens size) (enough : size ≤ budget) :
    Exact (leftNested choice join budget operand) n (operators ++ opens) size := by
  intro e us stands short rest ends
  obtain ⟨k, -, through⟩ := leftNested_through picks agree apart operands enough size e us short
    (Nat.le_refl _) stands rest (ends.sub fun _ => List.mem_append_right _)
  exact through.trans (chain_stop agree (ends.sub fun _ => List.mem_append_left _) k e)

end

/-! From primary expressions to calls. -/

section
variable {nested : Reading RawExpr} {budget size : Nat}

/-- Entries are read one after the other, as long as there is room for them. -/
theorem entries_exact {α : Type} {tooMany : SyntaxError} {item : Reading α} {opens : List Kind}
    (outside : Kind.comma ∉ opens) {parts : List (α × List Token)} {us : List Token}
    (items : ∀ part ∈ parts, ∀ rest, Ends opens rest → Gives item (part.2 ++ rest) part.1 rest)
    (joined : Joined (parts.map Prod.snd) us) {rest : List Token}
    (ends : Ends (.comma :: opens) rest) : ∀ count n, parts ≠ [] →
      count + parts.length ≤ maxEntries → parts.length ≤ n + 1 →
      Gives (entries tooMany item n count) (us ++ rest) (parts.map Prod.fst) rest := by
  generalize whole : parts.map Prod.snd = list at joined
  induction joined generalizing parts with
  | none => exact fun _ _ some => absurd (List.map_eq_nil_iff.mp whole) some
  | one us =>
      obtain ⟨⟨a, us⟩, rfl, rfl⟩ := List.map_eq_singleton_iff.mp whole
      intro count n _ room _
      have head : Gives (entry tooMany item count) (us ++ rest) a rest :=
        (items _ List.mem_cons_self rest (ends.sub fun _ => List.mem_cons_of_mem _)).entry room
      cases n with
      | zero => exact head.bind .pure
      | succ n => exact head.bind ((Gives.accept_none (ends.ne List.mem_cons_self)).bind .pure)
  | @more us vs t others comma some _ ih =>
      obtain ⟨⟨a, us⟩, parts, rfl, rfl, rfl⟩ := List.map_eq_cons_iff.mp whole
      obtain ⟨first, later⟩ := List.forall_mem_cons.mp items
      intro count n _ room enough
      simp only [List.length_cons] at room enough
      have filled : parts ≠ [] := fun none => some (by rw [none]; rfl)
      have count' := List.length_pos_iff.mpr filled
      obtain ⟨n, rfl⟩ := Nat.exists_eq_succ_of_ne_zero (show n ≠ 0 by omega)
      have head : Gives (entry tooMany item count) (us ++ (t :: (vs ++ rest))) a
          (t :: (vs ++ rest)) := (first _ (.cons (comma ▸ outside))).entry (by omega)
      have tail := ih later rfl (count + 1) n filled (by omega) (by omega)
      rw [List.append_assoc, List.cons_append]
      exact head.bind ((Gives.accept comma).bind (tail.bind .pure))

theorem joined_length {α : Type} {parts : List (α × List Token)} {us : List Token}
    (joined : Joined (parts.map Prod.snd) us) (some : ∀ part ∈ parts, part.2 ≠ []) :
    parts.length ≤ us.length ∧ ∀ part ∈ parts, part.2.length ≤ us.length := by
  generalize whole : parts.map Prod.snd = list at joined
  induction joined generalizing parts with
  | none =>
      cases List.map_eq_nil_iff.mp whole
      simp
  | one us =>
      obtain ⟨⟨a, us⟩, rfl, rfl⟩ := List.map_eq_singleton_iff.mp whole
      have here : 0 < us.length := List.length_pos_iff.mpr (some _ List.mem_cons_self)
      simp only [List.length_singleton, List.forall_mem_singleton]
      exact ⟨here, Nat.le_refl _⟩
  | @more us vs t others _ _ _ ih =>
      obtain ⟨⟨a, us⟩, parts, rfl, rfl, rfl⟩ := List.map_eq_cons_iff.mp whole
      obtain ⟨_, later⟩ := List.forall_mem_cons.mp some
      obtain ⟨count, each⟩ := ih later rfl
      simp only [List.length_append, List.length_cons, List.forall_mem_cons]
      exact ⟨by omega, by omega, fun part member => Nat.le_trans (each part member) (by omega)⟩

/-- The arguments of a call are read up to its closing parenthesis. -/
theorem arguments_exact (inner : Exact nested .assignment assignmentOpens size)
    (enough : size ≤ budget) {parts : List (RawExpr × List Token)} {vs : List Token}
    (all : ∀ part ∈ parts, WrittenAt .assignment part.1 part.2) (room : parts.length ≤ maxEntries)
    (joined : Joined (parts.map Prod.snd) vs) (short : vs.length ≤ size) {stop : Token}
    (closed : stop.kind = .rightParen) (rest : List Token) :
    Gives (arguments budget nested) (vs ++ stop :: rest) (parts.map Prod.fst, stop.pos) rest := by
  by_cases none : parts = []
  · subst none
    cases joined
    exact (Gives.nextIs closed).bind (Gives.pure.bind ((Gives.expect closed).bind .pure))
  · obtain ⟨count, each⟩ := joined_length joined fun part member => (all part member).written.ne_nil
    have items : ∀ part ∈ parts, ∀ rest, Ends assignmentOpens rest →
        Gives nested (part.2 ++ rest) part.1 rest := fun part member =>
      inner _ _ (all part member) (Nat.le_trans (each part member) short)
    have list : Gives (entries .tooManyArguments nested budget 0) (vs ++ stop :: rest)
        (parts.map Prod.fst) (stop :: rest) :=
      entries_exact (by decide) items joined (.cons (by rw [closed]; decide)) 0 budget none
        (by omega) (by omega)
    have start : Gives (nextIs .rightParen) (vs ++ stop :: rest) false (vs ++ stop :: rest) := by
      obtain ⟨t, ts, rfl, first⟩ : ∃ t ts, vs = t :: ts ∧ t.kind ∈ expressionStarts := by
        cases parts with
        | nil => exact absurd rfl none
        | cons part parts =>
            obtain ⟨t, ts, same, first, -⟩ := (all part List.mem_cons_self).written.starts
            rw [List.map_cons, same] at joined
            obtain ⟨more, rfl⟩ := joined.first
            exact ⟨t, ts ++ more, rfl, first⟩
      exact Gives.nextIs_not fun same => absurd (same ▸ first) (by decide)
    exact start.bind (list.bind ((Gives.expect closed).bind .pure))

theorem grouping_exact (inner : Exact nested .assignment assignmentOpens size)
    (enough : size ≤ budget) {e : RawExpr} {us : List Token} (written : Written e us)
    (short : us.length ≤ size) {stop : Token} (closed : stop.kind = .rightParen) (line : Nat)
    (rest : List Token) :
    Gives (grouping budget nested line) (us ++ stop :: rest) (.grouping line e) rest := by
  have whole : Exact (commaList budget nested) .expression _ size :=
    leftNested_exact picks_comma commaOp_agrees (by decide) inner enough
  have gives := whole e us ⟨written, Nat.zero_le _⟩ short (stop :: rest)
    (.cons (by rw [closed]; decide))
  exact gives.bind ((Gives.expect closed).bind .pure)

/-- Behind a call or property access its suffixes go on as behind a primary expression. -/
theorem callLevel_through (inner : Exact nested .assignment assignmentOpens size)
    (enough : size < budget) {e : RawExpr} {us : List Token} (written : Written e us) :
    e.Sits .call → us.length ≤ size + 1 → ∀ rest, ∃ k, budget ≤ k + us.length ∧
      callLevel budget nested (us ++ rest) = suffixes budget nested k e rest := by
  have primary {e : RawExpr} {us rest : List Token}
      (gives : Gives (primary budget nested) (us ++ rest) e rest) :
      ∃ k, budget ≤ k + us.length ∧
        callLevel budget nested (us ++ rest) = suffixes budget nested k e rest :=
    ⟨budget, Nat.le_add_right _ _, gives.bind_eq⟩
  induction written with
  | constant found =>
      exact fun _ _ rest => primary (by
        simp only [Gives, Reading.primary, List.cons_append, found, List.nil_append])
  | var same => exact fun _ _ rest => primary (primary_name same rest)
  | receiver same =>
      exact fun _ _ rest => primary (by
        simp [Gives, Reading.primary, constant?, Token.literal?, same])
  | @inherited word dot name same dotted identifier =>
      intro _ _ rest
      have access : Gives (inheritedAccess word.pos) (dot :: name :: rest)
        (.inherited word.pos name.name ()) rest :=
          (Gives.expect dotted).bind ((Gives.expectName identifier).bind .pure)
      exact primary (by
        simpa [Gives, Reading.primary, constant?, Token.literal?, same] using access)
  | @grouping start stop e us same written closed _ =>
      intro _ short rest
      simp only [List.length_cons, List.length_append] at short
      have group := grouping_exact inner (Nat.le_of_lt enough) written (by omega) closed
        start.pos.line rest
      exact primary (by
        simpa [Gives, Reading.primary, constant?, Token.literal?, same] using group)
  | @call callee start stop us vs parts _ sits same all levels room joined closed ih _ =>
      intro _ short rest
      simp only [List.length_cons, List.length_append] at short
      obtain ⟨k, least, before⟩ := ih sits (by omega) (start :: (vs ++ stop :: rest))
      obtain ⟨k, rfl⟩ := Nat.exists_eq_succ_of_ne_zero (show k ≠ 0 by omega)
      have args := arguments_exact inner (Nat.le_of_lt enough)
        (fun part member => ⟨all part member, levels part member⟩) room joined (by omega) closed rest
      refine ⟨k, by simp only [List.length_cons, List.length_append]; omega, ?_⟩
      simp only [List.append_assoc, List.cons_append, List.nil_append]
      rw [before]
      simp only [suffixes, same]
      exact args.bind_eq
  | @member object dot name us _ sits dotted identifier ih =>
      intro _ short rest
      simp only [List.length_cons, List.length_append, List.length_nil] at short
      obtain ⟨k, least, before⟩ := ih sits (by omega) (dot :: name :: rest)
      obtain ⟨k, rfl⟩ := Nat.exists_eq_succ_of_ne_zero (show k ≠ 0 by omega)
      refine ⟨k, by simp only [List.length_cons, List.length_append, List.length_nil]; omega, ?_⟩
      simp only [List.append_assoc, List.cons_append, List.nil_append]
      rw [before]
      simp only [suffixes, dotted]
      exact (Gives.expectName identifier).bind_eq
  | unary => exact fun sits => absurd (show 10 ≤ 9 from sits) (by decide)
  | operation o => exact fun sits => absurd (sits.of_next (n := .unary)) o.not_sits
  | conditional => exact fun sits => absurd (show 10 ≤ 2 from sits) (by decide)
  | assign => exact fun sits => absurd (show 10 ≤ 1 from sits) (by decide)
  | assignMember => exact fun sits => absurd (show 10 ≤ 1 from sits) (by decide)

theorem callLevel_exact (inner : Exact nested .assignment assignmentOpens size)
    (enough : size < budget) : Exact (callLevel budget nested) .call callOpens (size + 1) := by
  intro e us stands short rest ends
  obtain ⟨k, -, through⟩ := callLevel_through inner enough stands.written stands.sits short rest
  exact through.trans (suffixes_stop ends k e)

theorem unaryLevel_exact (inner : Exact nested .assignment assignmentOpens size)
    (enough : size < budget) (m : Nat) : ∀ s, s ≤ m → s ≤ size + 1 →
      Exact (unaryLevel budget nested m) .unary callOpens s := by
  induction m with
  | zero =>
      intro s le _ e us stands short
      have filled := List.length_pos_iff.mpr stands.written.ne_nil
      omega
  | succ m ih =>
      intro s le small e us stands short rest ends
      by_cases same : e.level = .unary
      · cases stands.written with
        | @unary op t e us found written sits =>
            rw [List.length_cons] at short
            have operand := ih (s - 1) (by omega) (by omega) e us ⟨written, sits⟩ (by omega) rest
              ends
            exact (Gives.acceptWith found).bind (operand.bind .pure)
        | operation o => exact absurd stands.sits o.not_sits
        | _ => cases same
      · have sits := stands.sits.next same
        have call := callLevel_exact inner enough e us ⟨stands.written, sits⟩ (by omega) rest ends
        obtain ⟨t, vs, rfl, -, start⟩ := stands.written.starts
        refine unaryLevel_call call (.cons fun operator => ?_) m
        have known := start sits
        revert operator known
        cases t.kind <;> decide

theorem disjunction_exact (inner : Exact nested .assignment assignmentOpens size)
    (enough : size < budget) :
    Exact (disjunction budget nested) .disjunction orOpens (size + 1) := by
  have unary := unaryLevel_exact inner enough budget (size + 1) enough (Nat.le_refl _)
  have factor : Exact (factor budget nested) .factor factorOpens (size + 1) :=
    leftNested_exact picks_factor factorOp_agrees (by decide) unary enough
  have term : Exact (term budget nested) .term termOpens (size + 1) :=
    leftNested_exact picks_term termOp_agrees (by decide) factor enough
  have comparison : Exact (comparison budget nested) .comparison comparisonOpens (size + 1) :=
    leftNested_exact picks_comparison comparisonOp_agrees (by decide) term enough
  have equality : Exact (equality budget nested) .equality equalityOpens (size + 1) :=
    leftNested_exact picks_equality equalityOp_agrees (by decide) comparison enough
  have conjunction : Exact (conjunction budget nested) .conjunction andOpens (size + 1) :=
    leftNested_exact picks_and andOp_agrees (by decide) equality enough
  exact leftNested_exact picks_or orOp_agrees (by decide) conjunction enough

theorem conditional_exact (inner : Exact nested .assignment assignmentOpens size)
    (enough : size < budget) (m : Nat) : ∀ s, s ≤ m → s ≤ size + 1 →
      Exact (conditional budget nested m) .conditional conditionalOpens s := by
  have condition := disjunction_exact inner enough
  induction m with
  | zero =>
      intro s le _ e us stands short
      have filled := List.length_pos_iff.mpr stands.written.ne_nil
      omega
  | succ m ih =>
      intro s le small e us stands short rest ends
      by_cases same : e.level = .conditional
      · cases stands.written with
        | @conditional c a b question colon us vs ws first sits mark second sits' parted third
            sits'' =>
            have filled := List.length_pos_iff.mpr first.ne_nil
            simp only [List.length_cons, List.length_append] at short
            have head := condition c us ⟨first, sits⟩ (by omega)
              (question :: (vs ++ colon :: (ws ++ rest))) (.cons (by rw [mark]; decide))
            have middle := inner a vs ⟨second, sits'⟩ (by omega) (colon :: (ws ++ rest))
              (.cons (by rw [parted]; decide))
            have last := ih (s - 1) (by omega) (by omega) b ws ⟨third, sits''⟩ (by omega) rest ends
            simp only [List.append_assoc, List.cons_append]
            exact head.bind ((Gives.accept mark).bind (middle.bind ((Gives.expect parted).bind
              (last.bind .pure))))
        | operation o => exact absurd (same ▸ by simp) o.level_ne
        | _ => cases same
      · have alone := condition e us ⟨stands.written, stands.sits.next same⟩ (by omega) rest
          (ends.sub fun _ => List.mem_cons_of_mem _)
        exact alone.bind ((Gives.accept_none (ends.ne List.mem_cons_self)).bind .pure)

end

/-- Assignments are read back; the target is first read as what it would be by itself. -/
theorem assignment_exact (n : Nat) : Exact (assignment n) .assignment assignmentOpens n := by
  induction n with
  | zero =>
      intro e us stands short
      exact absurd (List.eq_nil_of_length_eq_zero (Nat.le_zero.mp short)) stands.written.ne_nil
  | succ n ih =>
      have left := conditional_exact ih (Nat.lt_succ_self n) (n + 1) (n + 1) (Nat.le_refl _)
        (Nat.le_refl _)
      intro e us stands short rest ends
      by_cases same : e.level = .assignment
      · cases stands.written with
        | @assign name equals e us identifier sign written sits =>
            simp only [List.length_cons] at short
            have target := left (.var name.name ()) [name] ⟨.var identifier, Nat.le_add_left _ _⟩
              (by simp) (equals :: (us ++ rest)) (.cons (by rw [sign]; decide))
            have value := ih e us ⟨written, sits⟩ (by omega) rest ends
            exact target.bind ((Gives.accept sign).bind (value.bind .pure))
        | @assignMember object e dot name equals us vs inner sits dotted identifier sign written
            sits' =>
            simp only [List.length_append, List.length_cons] at short
            have target := left (.member object name.name) (us ++ [dot, name])
              ⟨.member inner sits dotted identifier, Nat.le_add_left _ _⟩
              (by simp only [List.length_append, List.length_cons, List.length_nil]; omega)
              (equals :: (vs ++ rest)) (.cons (by rw [sign]; decide))
            have value := ih e vs ⟨written, sits'⟩ (by omega) rest ends
            simp only [List.append_assoc, List.cons_append, List.nil_append] at target ⊢
            exact target.bind ((Gives.accept sign).bind (value.bind .pure))
        | operation o => exact absurd (same ▸ by simp) o.level_ne
        | _ => cases same
      · have alone := left e us ⟨stands.written, stands.sits.next same⟩ short rest
          (ends.sub fun _ => List.mem_cons_of_mem _)
        exact alone.bind ((Gives.accept_none (ends.ne List.mem_cons_self)).bind .pure)

/-- Expressions are read back. -/
theorem expression_exact (n : Nat) : Exact (expression n) .expression expressionOpens n :=
  leftNested_exact picks_comma commaOp_agrees (by decide) (assignment_exact n) (Nat.le_refl n)

end Reading
end LoxLang
