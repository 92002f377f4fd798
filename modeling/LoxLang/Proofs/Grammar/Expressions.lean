import LoxLang.Proofs.Grammar.Readings
/-! Expressions that are read without issues derive from the grammar. -/
namespace LoxLang

/-- The kinds derive from the nonterminal, with lists no longer than may be read. -/
abbrev Phrase (n : Nonterminal) (ks : List Kind) : Prop :=
  Derives (· ≤ maxEntries) (.ref n) ks

namespace Derives
variable {allowed : Nat → Prop} {n operand : Nonterminal} {operators : List Kind} {ks ls : List Kind}

/-- A repetition goes on behind its last part. -/
theorem snoc {part : Rule} (derives : Derives allowed (.many part) ks)
    (last : Derives allowed part ls) : Derives allowed (.many part) (ks ++ ls) := by
  generalize whole : Rule.many part = rule at derives
  induction derives with
  | none =>
      cases whole
      simpa only [List.nil_append, List.append_nil] using Derives.more last .none
  | more head _ _ ih =>
      cases whole
      rw [List.append_assoc]
      exact .more head (ih rfl)
  | _ => cases whole

theorem operand_first (rule : n.rule = .operands operators operand)
    (first : Derives allowed (.ref operand) ks) : Derives allowed (.ref n) ks := by
  refine .ref ?_
  rw [rule]
  exact (Derives.sequence first (.sequence .none .empty)).cast (by simp)

theorem operand_next (rule : n.rule = .operands operators operand)
    (derives : Derives allowed (.ref n) ks) {operator : Kind} (member : operator ∈ operators)
    (last : Derives allowed (.ref operand) ls) : Derives allowed (.ref n) (ks ++ operator :: ls) := by
  refine .ref ?_
  rw [ref_iff, rule] at derives
  rw [rule]
  obtain ⟨first, _, rfl, head, tail⟩ := sequence_iff.mp derives
  obtain ⟨others, _, rfl, some, none⟩ := sequence_iff.mp tail
  cases empty_iff.mp none
  have sign : Derives allowed (.choice (operators.map .token)) [operator] :=
    .choice (List.mem_map_of_mem member) (.token operator)
  have step := Derives.sequence sign (.sequence last .empty)
  exact (Derives.sequence head (.sequence (some.snoc step) .empty)).cast (by simp)

theorem call_next (derives : Derives allowed (.ref .call) ks)
    (suffix : Derives allowed (.choice [
      .sequence [.token .leftParen, .optional (.ref .arguments), .token .rightParen],
      .sequence [.token .dot, .token .identifier]]) ls) :
    Derives allowed (.ref .call) (ks ++ ls) := by
  refine .ref ?_
  obtain ⟨first, _, rfl, head, tail⟩ := sequence_iff.mp (ref_iff.mp derives)
  obtain ⟨others, _, rfl, some, none⟩ := sequence_iff.mp tail
  cases empty_iff.mp none
  exact (Derives.sequence head (.sequence (some.snoc suffix) .empty)).cast (by simp)

end Derives

/-- What can be assigned to was read from a name alone, or from a call with a name behind. -/
def Target (e : RawExpr) (used : List Token) : Prop :=
  match e with
  | .var name _ => kinds used = [.identifier] ∧ (Named used → name.Ordinary)
  | .member _ _ => ∃ object, kinds used = object ++ [.dot, .identifier] ∧ Phrase .call object
  | _ => True

/-- The expression was read from these tokens, which derive from the nonterminal. -/
structure Spells (n : Nonterminal) (e : RawExpr) (used : List Token) : Prop where
  derives : Phrase n (kinds used)
  target : Target e used
  plain : Named used → e.Plain

namespace Spells
variable {n operand : Nonterminal} {operators : List Kind} {e l r : RawExpr} {used more : List Token}

theorem lift (spells : Spells operand e used) (derives : Phrase n (kinds used)) : Spells n e used :=
  ⟨derives, spells.target, spells.plain⟩

end Spells

namespace Reading

/-- The choice has something for just these kinds. -/
def Chooses {ω : Type} (choice : Kind → Option ω) (operators : List Kind) : Prop :=
  ∀ k, (choice k).isSome = true ↔ k ∈ operators

theorem chooses_comma : Chooses commaOp? [.comma] := by
  intro k
  cases k <;> decide

theorem chooses_or : Chooses orOp? [.orWord] := by
  intro k
  cases k <;> decide

theorem chooses_and : Chooses andOp? [.andWord] := by
  intro k
  cases k <;> decide

theorem chooses_equality : Chooses equalityOp? [.bangEqual, .equalEqual] := by
  intro k
  cases k <;> decide

theorem chooses_comparison :
    Chooses comparisonOp? [.greater, .greaterEqual, .less, .lessEqual] := by
  intro k
  cases k <;> decide

theorem chooses_term : Chooses termOp? [.minus, .plus] := by
  intro k
  cases k <;> decide

theorem chooses_factor : Chooses factorOp? [.slash, .star] := by
  intro k
  cases k <;> decide

theorem chooses_unary : Chooses unaryOp? [.bang, .minus] := by
  intro k
  cases k <;> decide

theorem Chooses.mem {ω : Type} {choice : Kind → Option ω} {operators : List Kind}
    (chooses : Chooses choice operators) {k : Kind} {op : ω} (found : choice k = some op) :
    k ∈ operators := (chooses k).mp (by rw [found]; rfl)

/-- Joining two operands yields no target of an assignment. -/
structure Joins {ω : Type} (join : RawExpr → ω → Pos → RawExpr → RawExpr) : Prop where
  target : ∀ l op p r used, Target (join l op p r) used
  plain : ∀ l op p r, l.Plain → r.Plain → (join l op p r).Plain

theorem joins_binary : Joins (Expr.binary (δ := Unit)) :=
  ⟨fun _ _ _ _ _ => trivial, fun _ _ _ _ left right => ⟨left, right⟩⟩

theorem joins_logical : Joins (Expr.logical (δ := Unit)) :=
  ⟨fun _ _ _ _ _ => trivial, fun _ _ _ _ left right => ⟨left, right⟩⟩

section
variable {ω : Type} {choice : Kind → Option ω} {join : RawExpr → ω → Pos → RawExpr → RawExpr}
  {n part : Nonterminal} {operators : List Kind} {operand : Reading RawExpr}

theorem takes_chain (rule : n.rule = .operands operators part)
    (chooses : Chooses choice operators) (joins : Joins join)
    (takes : Takes operand (Spells part)) (budget : Nat) : ∀ left used, Spells n left used →
      Takes (chain choice join operand budget left) fun e more => Spells n e (used ++ more) := by
  induction budget with
  | zero =>
      intro left used spells
      exact .pure (by simpa only [List.append_nil] using spells)
  | succ budget ih =>
      intro left used spells
      refine Takes.acceptWith?.bind fun o taken found => ?_
      cases o with
      | none =>
          subst found
          exact .pure (by simpa only [List.append_nil] using spells)
      | some pair =>
          obtain ⟨rfl, found⟩ := found
          refine takes.bind fun right more spells' => ?_
          have joined : Spells n (join left pair.1 pair.2.pos right) (used ++ pair.2 :: more) := by
            refine ⟨?_, joins.target _ _ _ _ _, fun named => ?_⟩
            · simpa using spells.derives.operand_next rule (chooses.mem found) spells'.derives
            · obtain ⟨named₁, -, named₂⟩ := by simpa using named
              exact joins.plain _ _ _ _ (spells.plain named₁) (spells'.plain named₂)
          exact (ih _ _ joined).imp fun e others spells => by simpa using spells

/-- A level of operators that nest to the left. -/
theorem takes_leftNested (rule : n.rule = .operands operators part)
    (chooses : Chooses choice operators) (joins : Joins join)
    (takes : Takes operand (Spells part)) (budget : Nat) :
    Takes (leftNested choice join budget operand) (Spells n) :=
  takes.bind fun left used spells =>
    takes_chain rule chooses joins takes budget left used
      (spells.lift (spells.derives.operand_first rule))

end

section
variable {budget : Nat} {nested : Reading RawExpr}

theorem takes_commaList (takes : Takes nested (Spells .assignment)) :
    Takes (commaList budget nested) (Spells .expression) :=
  takes_leftNested rfl chooses_comma joins_binary takes budget

theorem takes_grouping (takes : Takes nested (Spells .assignment)) (line : Nat) :
    Takes (grouping budget nested line) fun e used => ∃ inner close,
      used = inner ++ [close] ∧ close.kind = .rightParen ∧ Phrase .expression (kinds inner) ∧
        (∀ us, Target e us) ∧ (Named inner → e.Plain) := by
  refine (takes_commaList takes).bind fun inner used spells => Takes.expect.bind ?_
  rintro close _ ⟨rfl, same⟩
  exact .pure ⟨used, close, by simp, same, spells.derives, fun _ => trivial, spells.plain⟩

theorem phrase_primary {k : Kind} (member : k ∈ [Kind.trueWord, .falseWord, .nilWord, .thisWord,
    .number, .text, .identifier]) : Phrase .primary [k] := by
  refine .ref (.choice (p := .token k) ?_ (.token k))
  simp only [List.mem_cons, List.not_mem_nil, or_false] at member
  rcases member with rfl | rfl | rfl | rfl | rfl | rfl | rfl <;> simp

theorem constant?_kind {t : Token} {value : Literal} (found : constant? t = some value) :
    t.kind ∈ [Kind.trueWord, .falseWord, .nilWord, .thisWord, .number, .text, .identifier] := by
  unfold constant? Token.literal? at found
  split at found
  · next same => simp [same]
  · next same => simp [same]
  · next same => simp [same]
  · split at found
    · next same => simp [same]
    · next same => simp [same]
    · cases found

theorem takes_primary (takes : Takes nested (Spells .assignment)) :
    Takes (primary budget nested) (Spells .primary) := by
  intro ts
  cases ts with
  | nil => exact took_fail
  | cons t ts =>
      cases found : constant? t with
      | some value =>
          simp only [primary, found]
          exact Outcome.took_one ⟨phrase_primary (constant?_kind found), trivial, fun _ => trivial⟩
      | none =>
          simp only [primary, found]
          split
          case h_1 same =>
            refine .cons (Takes.bind .expect (fun dot _ taken => .bind .expectName
              fun method more spelled => .pure ?_) ts)
            obtain ⟨rfl, dotted⟩ := taken
            refine ⟨.ref (.choice (p := .sequence [.token .superWord, .token .dot,
              .token .identifier]) (by simp) ?_), trivial, fun _ => trivial⟩
            exact (Derives.sequence (.token _) (.sequence (.token _) (.sequence (.token _)
              .empty))).cast (by simp [same, dotted, spelled.1])
          case h_2 same =>
            exact Outcome.took_one ⟨phrase_primary (by simp [same]), trivial, fun _ => trivial⟩
          case h_3 same =>
            refine Outcome.took_one ⟨phrase_primary (by simp [same]), ⟨by simp [same], ?_⟩,
              fun _ => trivial⟩
            exact fun named => (named_cons.mp named).1 same
          case h_4 same =>
            refine .cons ((takes_grouping takes _).imp ?_ ts)
            rintro e _ ⟨inner, close, rfl, closed, derives, target, plain⟩
            refine ⟨.ref (.choice (p := .sequence [.token .leftParen, .ref .expression,
              .token .rightParen]) (by simp) ?_), target _, fun named => plain ?_⟩
            · exact (Derives.sequence (.token _) (.sequence derives (.sequence (.token _)
                .empty))).cast (by simp [same, closed])
            · exact (named_append.mp (named_cons.mp named).2).1
          case h_5 => exact took_fail

/-- The arguments of a call, with its closing parenthesis. -/
theorem takes_arguments (takes : Takes nested (Spells .assignment)) :
    Takes (arguments budget nested) fun args used =>
      (∃ inner, Derives (· ≤ maxEntries) (.optional (.ref .arguments)) inner ∧
        kinds used = inner ++ [.rightParen]) ∧ (Named used → plainAll args.1) := by
  have list : Takes (entries .tooManyArguments nested budget 0) fun args used =>
      Derives (· ≤ maxEntries) (.optional (.ref .arguments)) (kinds used) ∧
        (Named used → plainAll args) := by
    refine (takes.entries budget 0).imp ?_
    rintro _ used ⟨parts, some, room, rfl, spelled, all, named⟩
    constructor
    · rw [spelled]
      refine .present (.ref (.entries (by simpa using some) (by simpa using room) ?_))
      intro ks member
      obtain ⟨part, member', rfl⟩ := List.mem_map.mp member
      exact (all part member').derives
    · intro whole
      have each := named whole
      clear spelled some room named whole
      induction parts with
      | nil => trivial
      | cons part parts ih =>
          obtain ⟨first, others⟩ := List.forall_mem_cons.mp all
          obtain ⟨named₁, named₂⟩ := List.forall_mem_cons.mp each
          exact ⟨first.plain named₁, ih others named₂⟩
  have closed {x : Reading (List RawExpr)} (inner : Takes x fun args used =>
      Derives (· ≤ maxEntries) (.optional (.ref .arguments)) (kinds used) ∧
        (Named used → plainAll args)) :
      Takes (do
        let args ← x
        let close ← expect .rightParen .argumentsEnd
        Pure.pure (args, close.pos)) fun args used =>
          (∃ inner, Derives (· ≤ maxEntries) (.optional (.ref .arguments)) inner ∧
            kinds used = inner ++ [.rightParen]) ∧ (Named used → plainAll args.1) := by
    refine inner.bind fun args used spelled => Takes.expect.bind ?_
    rintro close _ ⟨rfl, same⟩
    exact .pure ⟨⟨kinds used, spelled.1, by simp [same]⟩,
      fun named => spelled.2 (named_append.mp named).1⟩
  refine (Takes.nextIs (E := fun _ used => used = []) fun _ => rfl).bind fun next _ none => ?_
  subst none
  cases next with
  | true => exact closed (.pure ⟨.absent, fun _ => trivial⟩)
  | false => exact closed list

theorem takes_suffixes (takes : Takes nested (Spells .assignment)) (n : Nat) :
    ∀ e used, Spells .call e used →
      Takes (suffixes budget nested n e) fun e' more => Spells .call e' (used ++ more) := by
  induction n with
  | zero =>
      intro e used spells
      exact .pure (by simpa only [List.append_nil] using spells)
  | succ n ih =>
      intro e used spells ts
      cases ts with
      | nil => exact Outcome.took_nothing (by simpa only [List.append_nil] using spells)
      | cons t ts =>
          simp only [suffixes]
          split
          case h_1 same =>
            refine .cons (Takes.bind (takes_arguments takes) (fun args more spelled => ?_) ts)
            obtain ⟨⟨inner, derives, close⟩, plain⟩ := spelled
            have called : Spells .call (.call e args.2 args.1) (used ++ t :: more) := by
              refine ⟨?_, trivial, fun named => ?_⟩
              · refine (spells.derives.call_next (.choice (p := .sequence [.token .leftParen,
                  .optional (.ref .arguments), .token .rightParen]) (by simp) (.sequence
                    (.token _) (.sequence derives (.sequence (.token _) .empty))))).cast ?_
                simp [same, close]
              · obtain ⟨named₁, named₂⟩ := named_append.mp named
                exact ⟨spells.plain named₁, plain (named_cons.mp named₂).2⟩
            exact (ih _ _ called).imp fun e' others spells => by simpa using spells
          case h_2 same =>
            refine .cons (Takes.bind .expectName (fun name more spelled => ?_) ts)
            have got : Spells .call (.member e name) (used ++ t :: more) := by
              refine ⟨?_, ⟨kinds used, by simp [same, spelled.1], spells.derives⟩, fun named => ?_⟩
              · refine (spells.derives.call_next (.choice (p := .sequence [.token .dot,
                  .token .identifier]) (by simp) (.sequence (.token _) (.sequence (.token _)
                    .empty)))).cast ?_
                simp [same, spelled.1]
              · exact spells.plain (named_append.mp named).1
            exact (ih _ _ got).imp fun e' others spells => by simpa using spells
          case h_3 => exact Outcome.took_nothing (by simpa only [List.append_nil] using spells)

theorem takes_callLevel (takes : Takes nested (Spells .assignment)) :
    Takes (callLevel budget nested) (Spells .call) := by
  refine (takes_primary takes).bind fun e used spells => takes_suffixes takes budget e used ?_
  exact spells.lift (.ref ((Derives.sequence spells.derives (.sequence .none .empty)).cast (by simp)))

theorem takes_unaryLevel (takes : Takes nested (Spells .assignment)) (n : Nat) :
    Takes (unaryLevel budget nested n) (Spells .unary) := by
  induction n with
  | zero => exact .fail
  | succ n ih =>
      refine Takes.acceptWith?.bind fun o taken found => ?_
      cases o with
      | none =>
          subst found
          exact (takes_callLevel takes).imp fun e used spells =>
            spells.lift (.ref (.choice (p := .ref .call) (by simp) spells.derives))
      | some pair =>
          obtain ⟨rfl, found⟩ := found
          refine ih.bind fun e used spells => .pure ⟨?_, trivial, fun named => ?_⟩
          · have member := chooses_unary.mem found
            have sign : Derives (· ≤ maxEntries) (.choice [.token .bang, .token .minus])
                [pair.2.kind] :=
              .choice (p := .token pair.2.kind) (by simpa using member) (.token _)
            refine .ref (.choice (p := .sequence [.choice [.token .bang, .token .minus],
              .ref .unary]) (by simp) ?_)
            exact (Derives.sequence sign (.sequence spells.derives .empty)).cast (by simp)
          · exact spells.plain (by simpa using (named_append.mp named).2)

theorem takes_disjunction (takes : Takes nested (Spells .assignment)) :
    Takes (disjunction budget nested) (Spells .logicOr) := by
  have factor : Takes (factor budget nested) (Spells .factor) :=
    takes_leftNested rfl chooses_factor joins_binary (takes_unaryLevel takes budget) budget
  have term : Takes (term budget nested) (Spells .term) :=
    takes_leftNested rfl chooses_term joins_binary factor budget
  have comparison : Takes (comparison budget nested) (Spells .comparison) :=
    takes_leftNested rfl chooses_comparison joins_binary term budget
  have equality : Takes (equality budget nested) (Spells .equality) :=
    takes_leftNested rfl chooses_equality joins_binary comparison budget
  have conjunction : Takes (conjunction budget nested) (Spells .logicAnd) :=
    takes_leftNested rfl chooses_and joins_logical equality budget
  exact takes_leftNested rfl chooses_or joins_logical conjunction budget

theorem takes_conditional (takes : Takes nested (Spells .assignment)) (n : Nat) :
    Takes (conditional budget nested n) (Spells .conditional) := by
  induction n with
  | zero => exact .fail
  | succ n ih =>
      refine (takes_disjunction takes).bind fun c used spells => Takes.accept?.bind ?_
      intro o more found
      cases o with
      | none =>
          subst found
          refine .pure ?_
          simp only [List.append_nil]
          exact spells.lift (.ref ((Derives.sequence spells.derives
            (.sequence .absent .empty)).cast (by simp)))
      | some question =>
          obtain ⟨rfl, asked⟩ := found
          refine takes.bind fun t used₁ spells₁ => Takes.expect.bind ?_
          rintro colon _ ⟨rfl, parted⟩
          refine ih.bind fun e used₂ spells₂ => .pure ⟨?_, trivial, fun named => ?_⟩
          · exact .ref ((Derives.sequence spells.derives (.sequence (.present
              (.sequence (.token _) (.sequence spells₁.derives (.sequence (.token _)
                (.sequence spells₂.derives .empty))))) .empty)).cast (by simp [asked, parted]))
          · simp only [List.append_nil, named_append, named_cons] at named
            exact ⟨spells.plain named.1, spells₁.plain named.2.2.1, spells₂.plain named.2.2.2.2⟩

end

/-- What stands before an equals sign can be assigned to, or else that is reported. -/
theorem takes_assignTo {left value : RawExpr} {used more : List Token} {equals : Token}
    (same : equals.kind = .equal) (target : Spells .conditional left used)
    (spells : Spells .assignment value more) : Takes (assignTo left equals value) fun e rest =>
      Spells .assignment e (used ++ equals :: (more ++ rest)) := by
  have reported {e : RawExpr} {D : RawExpr → List Token → Prop} :
      Takes (do reportAt (some equals) .assignmentTarget; Pure.pure e) D := fun ts quiet =>
    absurd quiet (by simp [reportAt, bind])
  unfold assignTo
  split
  case h_1 name _ =>
    obtain ⟨spelled, ordinary⟩ := target.target
    refine .pure ⟨.ref (.choice (p := .sequence [.optional (.sequence [.ref .call, .token .dot]),
      .token .identifier, .token .equal, .ref .assignment]) (by simp) ?_), trivial, fun named => ?_⟩
    · exact (Derives.sequence .absent (.sequence (.token _) (.sequence (.token _)
        (.sequence spells.derives .empty)))).cast (by simp [spelled, same])
    · simp only [List.append_nil, named_append, named_cons] at named
      exact ⟨ordinary named.1, spells.plain named.2.2⟩
  case h_2 object name =>
    obtain ⟨callee, spelled, derives⟩ := target.target
    refine .pure ⟨.ref (.choice (p := .sequence [.optional (.sequence [.ref .call, .token .dot]),
      .token .identifier, .token .equal, .ref .assignment]) (by simp) ?_), trivial, fun named => ?_⟩
    · exact (Derives.sequence (.present (.sequence derives (.sequence (.token _) .empty)))
        (.sequence (.token _) (.sequence (.token _) (.sequence spells.derives .empty)))).cast
          (by simp [spelled, same])
    · simp only [List.append_nil, named_append, named_cons] at named
      exact ⟨target.plain named.1, spells.plain named.2.2⟩
  case h_3 => exact reported

/-- An assignment that is read without issues derives from the grammar. -/
theorem takes_assignment (n : Nat) : Takes (assignment n) (Spells .assignment) := by
  induction n with
  | zero => exact .fail
  | succ n ih =>
      refine (takes_conditional ih (n + 1)).bind fun left used target => Takes.accept?.bind ?_
      intro o more found
      cases o with
      | none =>
          subst found
          refine .pure ?_
          simp only [List.append_nil]
          exact target.lift (.ref (.choice (p := .ref .conditional) (by simp) target.derives))
      | some equals =>
          obtain ⟨rfl, same⟩ := found
          refine ih.bind fun value more spells => ?_
          exact (takes_assignTo same target spells).imp fun e rest spells => by simpa using spells

theorem takes_expression (budget : Nat) : Takes (expression budget) (Spells .expression) :=
  takes_commaList (takes_assignment budget)

end Reading
end LoxLang
