import LoxLang.Proofs.Grammar.Exact
/-! Every level of expressions is read in full, up to a token that does not belong to it. -/
namespace LoxLang
namespace Reading

theorem length_le_flatten {α : Type} {list : List (List α)} (some : ∀ us ∈ list, us ≠ []) :
    list.length ≤ list.flatten.length := by
  induction list with
  | nil => exact Nat.le_refl _
  | cons us list ih =>
      obtain ⟨head, tail⟩ := List.forall_mem_cons.mp some
      have here := List.length_pos_iff.mpr head
      have there := ih tail
      simp only [List.flatten_cons, List.length_cons, List.length_append]
      omega

theorem length_le_of_mem {α : Type} {list : List (List α)} {us : List α} (member : us ∈ list) :
    us.length ≤ list.flatten.length := (List.sublist_flatten_of_mem member).length_le

/-! Kinds of tokens that go on with an expression of a level. -/

def callOpens : List Kind := [.leftParen, .dot]
def factorOpens : List Kind := [.slash, .star] ++ callOpens
def termOpens : List Kind := [.minus, .plus] ++ factorOpens
def comparisonOpens : List Kind := [.greater, .greaterEqual, .less, .lessEqual] ++ termOpens
def equalityOpens : List Kind := [.bangEqual, .equalEqual] ++ comparisonOpens
def andOpens : List Kind := [.andWord] ++ equalityOpens
def orOpens : List Kind := [.orWord] ++ andOpens
def conditionalOpens : List Kind := .question :: orOpens
def assignmentOpens : List Kind := .equal :: conditionalOpens
def expressionOpens : List Kind := [.comma] ++ assignmentOpens

/-! Operands with operators between them. -/

section
variable {ω : Type} {choice : Kind → Option ω} {join : RawExpr → ω → Pos → RawExpr → RawExpr}
  {operators opens : List Kind} {operand : Reading RawExpr} {rest : List Token}
  {budget size : Nat}

theorem chain_stop (agree : ∀ k, (choice k).isSome = true ↔ k ∈ operators)
    (ends : Ends operators rest) (m : Nat) (left : RawExpr) :
    Gives (chain choice join operand m left) rest left rest := by
  cases m with
  | zero => exact .pure
  | succ m =>
      refine (Gives.acceptWith_none fun t head => ?_).bind .pure
      rw [← Option.not_isSome_iff_eq_none, agree]
      exact ends t head

theorem chain_gives (agree : ∀ k, (choice k).isSome = true ↔ k ∈ operators)
    (apart : ∀ k ∈ operators, k ∉ opens) (ends : Ends (operators ++ opens) rest)
    {list : List (List Token)}
    (pieces : ∀ us ∈ list, ∃ t vs, us = t :: vs ∧ t.kind ∈ operators ∧ Reads operand opens vs) :
    ∀ m left, list.length ≤ m →
      ∃ e, Gives (chain choice join operand m left) (list.flatten ++ rest) e rest := by
  induction list with
  | nil =>
      intro m left _
      exact ⟨left, chain_stop agree (ends.sub fun k => List.mem_append_left _) m left⟩
  | cons us list ih =>
      intro m left enough
      obtain ⟨⟨t, vs, rfl, operator, reads⟩, tail⟩ := List.forall_mem_cons.mp pieces
      cases m with
      | zero => cases enough
      | succ m =>
          obtain ⟨op, found⟩ := Option.isSome_iff_exists.mp ((agree t.kind).mpr operator)
          have behind : Ends opens (list.flatten ++ rest) :=
            (ends.sub fun k => List.mem_append_right _).pieces fun us member => by
              obtain ⟨t, vs, same, operator, -⟩ := tail us member
              exact ⟨t, vs, same, apart _ operator⟩
          obtain ⟨right, first⟩ := reads _ behind
          obtain ⟨e, others⟩ := ih tail m (join left op t.pos right)
            (Nat.le_of_succ_le_succ enough)
          refine ⟨e, ?_⟩
          rw [List.flatten_cons, List.append_assoc, List.cons_append]
          exact (Gives.acceptWith found).bind (first.bind others)

/-- A level is read in full if its operands are. -/
theorem leftNested_complete {n n' : Nonterminal} (level : n'.rule = Rule.operands operators n)
    (agree : ∀ k, (choice k).isSome = true ↔ k ∈ operators)
    (apart : ∀ k ∈ operators, k ∉ opens) (operands : Complete operand n opens size)
    (enough : size ≤ budget) :
    Complete (leftNested choice join budget operand) n' (operators ++ opens) size := by
  intro ts short spelt rest ends
  rw [spelt_ref, level, Rule.operands] at spelt
  obtain ⟨us, vs, rfl, head, tail⟩ := spelt_cons.mp spelt
  obtain ⟨list, rfl, all⟩ := spelt_many (spelt_single.mp tail)
  rw [List.length_append] at short
  have pieces : ∀ us ∈ list, ∃ t vs, us = t :: vs ∧ t.kind ∈ operators ∧
      Reads operand opens vs := by
    intro us member
    obtain ⟨ws, vs, rfl, choice, spelt⟩ := spelt_cons.mp (all us member)
    obtain ⟨part, some, operator⟩ := spelt_choice.mp choice
    obtain ⟨k, inside, rfl⟩ := List.mem_map.mp some
    obtain ⟨t, rfl, rfl⟩ := spelt_token.mp operator
    refine ⟨t, vs, rfl, inside, operands vs ?_ (spelt_single.mp spelt)⟩
    have within := length_le_of_mem member
    rw [List.length_append] at within
    omega
  have count : list.length ≤ list.flatten.length := length_le_flatten fun us member => by
    obtain ⟨t, vs, rfl, -⟩ := pieces us member
    simp
  have behind : Ends opens (list.flatten ++ rest) :=
    (ends.sub fun k => List.mem_append_right _).pieces fun us member => by
      obtain ⟨t, vs, same, operator, -⟩ := pieces us member
      exact ⟨t, vs, same, apart _ operator⟩
  obtain ⟨first, here⟩ := operands us (by omega) head _ behind
  obtain ⟨e, others⟩ : ∃ e, Gives (chain choice join operand budget first) _ e rest :=
    chain_gives agree apart ends pieces budget first (by omega)
  refine ⟨e, ?_⟩
  rw [List.append_assoc]
  exact here.bind others

/-- An operand by itself is read as such. -/
theorem leftNested_operand {ts : List Token} {e : RawExpr}
    (agree : ∀ k, (choice k).isSome = true ↔ k ∈ operators) (gives : Gives operand ts e rest)
    (ends : Ends operators rest) : Gives (leftNested choice join budget operand) ts e rest :=
  gives.bind (chain_stop agree ends budget e)

end

theorem commaOp_agrees (k : Kind) : (commaOp? k).isSome = true ↔ k ∈ [Kind.comma] := by
  cases k <;> decide

theorem orOp_agrees (k : Kind) : (orOp? k).isSome = true ↔ k ∈ [Kind.orWord] := by
  cases k <;> decide

theorem andOp_agrees (k : Kind) : (andOp? k).isSome = true ↔ k ∈ [Kind.andWord] := by
  cases k <;> decide

theorem equalityOp_agrees (k : Kind) :
    (equalityOp? k).isSome = true ↔ k ∈ [Kind.bangEqual, .equalEqual] := by
  cases k <;> decide

theorem comparisonOp_agrees (k : Kind) :
    (comparisonOp? k).isSome = true ↔ k ∈ [Kind.greater, .greaterEqual, .less, .lessEqual] := by
  cases k <;> decide

theorem termOp_agrees (k : Kind) : (termOp? k).isSome = true ↔ k ∈ [Kind.minus, .plus] := by
  cases k <;> decide

theorem factorOp_agrees (k : Kind) : (factorOp? k).isSome = true ↔ k ∈ [Kind.slash, .star] := by
  cases k <;> decide

/-! From primary expressions to calls. -/

section
variable {nested : Reading RawExpr} {budget size : Nat}

theorem constant_of_kind {t : Token}
    (known : t.kind ∈ [Kind.trueWord, .falseWord, .nilWord, .number, .text]) :
    ∃ value, constant? t = some value := by
  simp only [constant?, Token.literal?]
  generalize t.kind = k at known
  revert known
  cases k <;> simp

theorem primary_constant {t : Token}
    (known : t.kind ∈ [Kind.trueWord, .falseWord, .nilWord, .number, .text]) (rest : List Token) :
    ∃ e, Gives (primary budget nested) (t :: rest) e rest := by
  obtain ⟨value, found⟩ := constant_of_kind known
  exact ⟨.literal t.pos.line value, by simp only [Gives, primary, found]⟩

/-- A name is read as a variable. -/
theorem primary_name {t : Token} (same : t.kind = .identifier) (rest : List Token) :
    Gives (primary budget nested) (t :: rest) (.var ⟨t.lexeme, t.pos⟩ ()) rest := by
  simp [Gives, primary, constant?, Token.literal?, same]

theorem primary_complete (inner : Complete nested .assignment assignmentOpens size)
    (enough : size ≤ budget) : Complete (primary budget nested) .primary [] (size + 1) := by
  intro ts short spelt rest _
  have constant {k : Kind} (known : k ∈ [Kind.trueWord, .falseWord, .nilWord, .number, .text])
      (word : Spelt (.token k) ts) : ∃ e, Gives (primary budget nested) (ts ++ rest) e rest := by
    obtain ⟨t, rfl, rfl⟩ := spelt_token.mp word
    exact primary_constant known rest
  obtain ⟨part, some, inside⟩ := spelt_choice.mp (spelt_ref.mp spelt)
  simp only [List.mem_cons, List.not_mem_nil, or_false] at some
  rcases some with rfl | rfl | rfl | rfl | rfl | rfl | rfl | rfl | rfl
  · exact constant (by decide) inside
  · exact constant (by decide) inside
  · exact constant (by decide) inside
  · obtain ⟨t, rfl, same⟩ := spelt_token.mp inside
    exact ⟨.receiver t.pos (), by simp [Gives, primary, constant?, Token.literal?, same]⟩
  · exact constant (by decide) inside
  · exact constant (by decide) inside
  · obtain ⟨t, rfl, same⟩ := spelt_token.mp inside
    exact ⟨_, primary_name same rest⟩
  · obtain ⟨t, vs, rfl, start, behind⟩ := spelt_token_cons.mp inside
    obtain ⟨us, vs, rfl, middle, behind⟩ := spelt_cons.mp behind
    obtain ⟨close, rfl, stop⟩ := spelt_token.mp (spelt_single.mp behind)
    simp only [List.length_cons, List.length_append] at short
    have whole : Complete (commaList budget nested) .expression _ size :=
      leftNested_complete rfl commaOp_agrees (by decide) inner enough
    obtain ⟨e, gives⟩ := whole us (by omega) middle (close :: rest) (.cons (by rw [stop]; decide))
    refine ⟨.grouping t.pos.line e, ?_⟩
    have group : Gives (grouping budget nested t.pos.line) (us ++ close :: rest)
      (.grouping t.pos.line e) rest := gives.bind ((Gives.expect stop).bind .pure)
    rw [List.cons_append, List.append_assoc]
    simpa [Gives, primary, constant?, Token.literal?, start] using group
  · obtain ⟨t, vs, rfl, start, behind⟩ := spelt_token_cons.mp inside
    obtain ⟨dot, vs, rfl, same, behind⟩ := spelt_token_cons.mp behind
    obtain ⟨name, rfl, identifier⟩ := spelt_token.mp (spelt_single.mp behind)
    refine ⟨.inherited t.pos ⟨name.lexeme, name.pos⟩ (), ?_⟩
    have access : Gives (inheritedAccess t.pos) (dot :: name :: rest)
      (.inherited t.pos ⟨name.lexeme, name.pos⟩ ()) rest :=
        (Gives.expect same).bind ((Gives.expectName identifier).bind .pure)
    simpa [Gives, primary, constant?, Token.literal?, start] using access

/-- A list of entries, or none, is read up to the parenthesis that closes it, before what `f` reads. -/
theorem listed_gives {α : Type} {item : Reading α} {n : Nonterminal} {part : Rule}
    {opens : List Kind} {us : List Token} (listed : n.rule = .entries part)
    (solid : (Rule.ref n).solid = true) (apart : Kind.rightParen ∉ (Rule.ref n).starts)
    (comma : Kind.comma ∉ opens) (closed : Kind.rightParen ∉ opens)
    (spelt : Spelt (.optional (.ref n)) us)
    (items : ∀ vs, vs.length ≤ us.length → Spelt part vs → Reads item opens vs)
    (short : us.length ≤ budget) (tooMany : SyntaxError) {close : Token}
    (stop : close.kind = .rightParen) (rest : List Token) :
    ∃ as, ∀ {β : Type} (f : List α → Reading β) b rest', Gives (f as) (close :: rest) b rest' →
      Gives (nextIs .rightParen >>= fun none => if none then pure [] >>= f
        else entries tooMany item budget 0 >>= f) (us ++ close :: rest) b rest' := by
  rcases spelt_optional.mp spelt with rfl | spelt
  · exact ⟨[], fun f b rest' after => (Gives.nextIs stop).bind (Gives.pure.bind after)⟩
  · obtain ⟨t, ts, rfl, start⟩ := spelt.starts solid
    have other : t.kind ≠ .rightParen := fun same => apart (same ▸ start)
    obtain ⟨first, others, whole, room, head, behind⟩ :=
      spelt_entries (listed ▸ spelt_ref.mp spelt)
    have sizes := congrArg List.length whole
    rw [List.length_append] at sizes
    have count : others.length ≤ others.flatten.length := length_le_flatten fun us member => by
      obtain ⟨t, vs, rfl, -⟩ := behind us member
      simp
    have later : ∀ us ∈ others, ∃ t vs, us = t :: vs ∧ t.kind = .comma ∧ Reads item opens vs := by
      intro us member
      obtain ⟨t, vs, rfl, comma, spelt⟩ := behind us member
      have within := length_le_of_mem member
      rw [List.length_cons] at within
      exact ⟨t, vs, rfl, comma, items vs (by omega) spelt⟩
    have ends : Ends (.comma :: opens) (close :: rest) := .cons (by simp [stop, closed])
    obtain ⟨as, gives⟩ : ∃ as, Gives (entries tooMany item budget 0) _ as _ :=
      entries_gives comma later ends first 0 budget (items first (by omega) head) (by omega)
        (by omega)
    rw [← List.append_assoc, ← whole] at gives
    exact ⟨as, fun f b rest' after => (Gives.nextIs_not other).bind (gives.bind after)⟩

theorem arguments_gives (inner : Complete nested .assignment assignmentOpens size)
    (enough : size ≤ budget) {us : List Token} (short : us.length ≤ size)
    (spelt : Spelt (.optional (.ref .arguments)) us) {close : Token}
    (stop : close.kind = .rightParen) (rest : List Token) :
    ∃ args, Gives (arguments budget nested) (us ++ close :: rest) (args, close.pos) rest := by
  obtain ⟨args, gives⟩ := listed_gives rfl rfl (by decide) (by decide) (by decide) spelt
    (fun vs fewer => inner vs (Nat.le_trans fewer short)) (Nat.le_trans short enough)
    .tooManyArguments stop rest
  exact ⟨args, gives _ _ _ ((Gives.expect stop).bind .pure)⟩

/-- What can stand behind the callee of a call. -/
def suffix : Rule := .choice [
  .sequence [.token .leftParen, .optional (.ref .arguments), .token .rightParen],
  .sequence [.token .dot, .token .identifier]]

theorem suffix_step (inner : Complete nested .assignment assignmentOpens size)
    (enough : size ≤ budget) {us : List Token} (short : us.length ≤ size + 1)
    (spelt : Spelt suffix us) (m : Nat) (e : RawExpr) (rest : List Token) :
    ∃ e', suffixes budget nested (m + 1) e (us ++ rest) = suffixes budget nested m e' rest := by
  obtain ⟨part, some, inside⟩ := spelt_choice.mp spelt
  simp only [List.mem_cons, List.not_mem_nil, or_false] at some
  rcases some with rfl | rfl
  · obtain ⟨t, vs, rfl, start, behind⟩ := spelt_token_cons.mp inside
    obtain ⟨us, vs, rfl, middle, behind⟩ := spelt_cons.mp behind
    obtain ⟨close, rfl, stop⟩ := spelt_token.mp (spelt_single.mp behind)
    simp only [List.length_cons, List.length_append] at short
    obtain ⟨args, gives⟩ := arguments_gives inner enough (by omega) middle stop rest
    refine ⟨.call e close.pos args, ?_⟩
    rw [List.cons_append, List.append_assoc]
    simp only [suffixes, start]
    exact gives.bind_eq
  · obtain ⟨t, vs, rfl, start, behind⟩ := spelt_token_cons.mp inside
    obtain ⟨name, rfl, identifier⟩ := spelt_token.mp (spelt_single.mp behind)
    refine ⟨.member e ⟨name.lexeme, name.pos⟩, ?_⟩
    simp only [List.cons_append, List.nil_append, suffixes, start]
    exact (Gives.expectName identifier).bind_eq

theorem suffixes_through (inner : Complete nested .assignment assignmentOpens size)
    (enough : size ≤ budget) {list : List (List Token)}
    (pieces : ∀ us ∈ list, us.length ≤ size + 1 ∧ Spelt suffix us) (rest : List Token) (m : Nat) :
    ∀ e, ∃ e', suffixes budget nested (list.length + m) e (list.flatten ++ rest) =
      suffixes budget nested m e' rest := by
  induction list with
  | nil =>
      intro e
      exact ⟨e, by rw [List.length_nil, Nat.zero_add, List.flatten_nil, List.nil_append]⟩
  | cons us list ih =>
      intro e
      obtain ⟨⟨short, spelt⟩, tail⟩ := List.forall_mem_cons.mp pieces
      obtain ⟨e', step⟩ := suffix_step inner enough short spelt (list.length + m) e
        (list.flatten ++ rest)
      obtain ⟨e'', others⟩ := ih tail e'
      refine ⟨e'', ?_⟩
      rw [List.length_cons, Nat.succ_add, List.flatten_cons, List.append_assoc]
      exact step.trans others

theorem suffixes_stop {rest : List Token} (ends : Ends callOpens rest) (m : Nat) (e : RawExpr) :
    Gives (suffixes budget nested m e) rest e rest := by
  cases m with
  | zero => exact .pure
  | succ m =>
      cases rest with
      | nil => rfl
      | cons t rest =>
          have other := ends t rfl
          simp only [callOpens, List.mem_cons, List.not_mem_nil, or_false, not_or] at other
          simp only [Gives, suffixes]
          split
          case h_1 same => exact absurd same other.1
          case h_2 same => exact absurd same other.2
          case h_3 => rfl

theorem callLevel_complete (inner : Complete nested .assignment assignmentOpens size)
    (enough : size + 1 ≤ budget) : Complete (callLevel budget nested) .call callOpens (size + 1) := by
  intro ts short spelt rest ends
  obtain ⟨us, vs, rfl, head, tail⟩ := spelt_cons.mp (spelt_ref.mp spelt)
  obtain ⟨list, rfl, all⟩ := spelt_many (spelt_single.mp tail)
  rw [List.length_append] at short
  have pieces : ∀ us ∈ list, us.length ≤ size + 1 ∧ Spelt suffix us := fun us member =>
    ⟨Nat.le_trans (length_le_of_mem member) (by omega), all us member⟩
  have count : list.length ≤ list.flatten.length := length_le_flatten fun us member =>
    fun none => (all us member).ne_nil rfl (by rw [none]; rfl)
  have room : size ≤ budget := by omega
  obtain ⟨e, first⟩ := primary_complete inner room us (by omega) head (list.flatten ++ rest)
    fun _ _ => List.not_mem_nil
  obtain ⟨e', through⟩ := suffixes_through inner room pieces rest (budget - list.length) e
  rw [Nat.add_sub_cancel' (by omega)] at through
  refine ⟨e', ?_⟩
  rw [List.append_assoc]
  exact first.bind (through.trans (suffixes_stop ends _ e'))

/-- What can stand before the equals sign of an assignment. -/
def Assignable (e : RawExpr) : Prop := (∃ n, e = .var n ()) ∨ ∃ object n, e = .member object n

/-- A name, by itself or behind a call and a dot, is read as something that can be assigned. -/
theorem callLevel_target (inner : Complete nested .assignment assignmentOpens size)
    (enough : size + 1 ≤ budget) {ts : List Token} (short : ts.length ≤ size)
    (spelt : Spelt (.optional (.sequence [.ref .call, .token .dot])) ts) {name : Token}
    (identifier : name.kind = .identifier) {rest : List Token} (ends : Ends callOpens rest) :
    ∃ e, Gives (callLevel budget nested) (ts ++ name :: rest) e rest ∧ Assignable e := by
  rcases spelt_optional.mp spelt with rfl | spelt
  · exact ⟨_, (primary_name identifier rest).bind (suffixes_stop ends _ _), .inl ⟨_, rfl⟩⟩
  · obtain ⟨us, vs, rfl, call, behind⟩ := spelt_cons.mp spelt
    obtain ⟨dot, rfl, same⟩ := spelt_token.mp (spelt_single.mp behind)
    obtain ⟨us, vs, rfl, head, tail⟩ := spelt_cons.mp (spelt_ref.mp call)
    obtain ⟨list, rfl, all⟩ := spelt_many (spelt_single.mp tail)
    simp only [List.length_append, List.length_singleton] at short
    have pieces : ∀ us ∈ list, us.length ≤ size + 1 ∧ Spelt suffix us := fun us member =>
      ⟨Nat.le_trans (length_le_of_mem member) (by omega), all us member⟩
    have count : list.length ≤ list.flatten.length := length_le_flatten fun us member =>
      fun none => (all us member).ne_nil rfl (by rw [none]; rfl)
    have room : size ≤ budget := by omega
    obtain ⟨e, first⟩ := primary_complete inner room us (by omega) head
      (list.flatten ++ dot :: name :: rest) fun _ _ => List.not_mem_nil
    obtain ⟨e', through⟩ := suffixes_through inner room pieces (dot :: name :: rest)
      (budget - list.length - 1 + 1) e
    rw [show list.length + (budget - list.length - 1 + 1) = budget by omega] at through
    have last : suffixes budget nested (budget - list.length - 1 + 1) e' (dot :: name :: rest) =
        suffixes budget nested (budget - list.length - 1) (.member e' ⟨name.lexeme, name.pos⟩)
          rest := by
      simp only [suffixes, same]
      exact (Gives.expectName identifier).bind_eq
    refine ⟨.member e' ⟨name.lexeme, name.pos⟩, ?_, .inr ⟨e', _, rfl⟩⟩
    simp only [List.append_assoc, List.singleton_append]
    exact first.bind (through.trans (last.trans (suffixes_stop ends _ _)))

end

/-! From prefix operators to assignments. -/

theorem unaryOp_agrees (k : Kind) : (unaryOp? k).isSome = true ↔ k ∈ [Kind.bang, .minus] := by
  cases k <;> decide

section
variable {nested : Reading RawExpr} {budget size : Nat} {ts rest : List Token} {e : RawExpr}

/-- A call is read as such where a prefix operator could stand. -/
theorem unaryLevel_call (gives : Gives (callLevel budget nested) ts e rest)
    (other : Ends [.bang, .minus] ts) (m : Nat) :
    Gives (unaryLevel budget nested (m + 1)) ts e rest := by
  refine (Gives.acceptWith_none fun t head => ?_).bind gives
  rw [← Option.not_isSome_iff_eq_none, unaryOp_agrees]
  exact other t head

theorem call_ends {us : List Token} (spelt : Spelt (.ref .call) us) (rest : List Token) :
    Ends [.bang, .minus] (us ++ rest) := by
  obtain ⟨t, vs, rfl, start⟩ := spelt.starts rfl
  exact .cons fun prefixed => absurd start (by
    simp only [List.mem_cons, List.not_mem_nil, or_false] at prefixed
    rcases prefixed with same | same <;> rw [same] <;> decide)

theorem unaryLevel_complete (inner : Complete nested .assignment assignmentOpens size)
    (enough : size + 1 ≤ budget) (m : Nat) : ∀ s, s ≤ m → s ≤ size + 1 →
      Complete (unaryLevel budget nested m) .unary callOpens s := by
  induction m with
  | zero =>
      intro s le _ ts short spelt
      obtain ⟨t, vs, rfl, -⟩ := spelt.starts rfl
      rw [List.length_cons] at short
      omega
  | succ m ih =>
      intro s le small ts short spelt rest ends
      obtain ⟨part, some, inside⟩ := spelt_choice.mp (spelt_ref.mp spelt)
      simp only [List.mem_cons, List.not_mem_nil, or_false] at some
      rcases some with rfl | rfl
      · obtain ⟨us, vs, rfl, operator, behind⟩ := spelt_cons.mp inside
        obtain ⟨part, some, word⟩ := spelt_choice.mp operator
        have prefixed : ∃ t, us = [t] ∧ t.kind ∈ [Kind.bang, .minus] := by
          simp only [List.mem_cons, List.not_mem_nil, or_false] at some
          rcases some with rfl | rfl <;> obtain ⟨t, rfl, same⟩ := spelt_token.mp word <;>
            exact ⟨t, rfl, by rw [same]; decide⟩
        obtain ⟨t, rfl, known⟩ := prefixed
        obtain ⟨op, found⟩ := Option.isSome_iff_exists.mp ((unaryOp_agrees t.kind).mpr known)
        rw [List.singleton_append, List.length_cons] at short
        obtain ⟨operand, gives⟩ := ih (s - 1) (by omega) (by omega) vs (by omega)
          (spelt_single.mp behind) rest ends
        exact ⟨.unary op t.pos operand, (Gives.acceptWith found).bind (gives.bind .pure)⟩
      · obtain ⟨e, gives⟩ := callLevel_complete inner enough ts (by omega) inside rest ends
        exact ⟨e, unaryLevel_call gives (call_ends inside rest) m⟩

/-- A call is read as such where a disjunction could stand. -/
theorem disjunction_call (gives : Gives (callLevel budget nested) ts e rest)
    (other : Ends [.bang, .minus] ts) (ends : Ends orOpens rest) (some : 0 < budget) :
    Gives (disjunction budget nested) ts e rest := by
  obtain ⟨m, rfl⟩ := Nat.exists_eq_succ_of_ne_zero (Nat.ne_of_gt some)
  have unary := unaryLevel_call gives other m
  have factor : Gives (factor (m + 1) nested) ts e rest :=
    leftNested_operand factorOp_agrees unary (ends.sub (by decide))
  have term : Gives (term (m + 1) nested) ts e rest :=
    leftNested_operand termOp_agrees factor (ends.sub (by decide))
  have comparison : Gives (comparison (m + 1) nested) ts e rest :=
    leftNested_operand comparisonOp_agrees term (ends.sub (by decide))
  have equality : Gives (equality (m + 1) nested) ts e rest :=
    leftNested_operand equalityOp_agrees comparison (ends.sub (by decide))
  have conjunction : Gives (conjunction (m + 1) nested) ts e rest :=
    leftNested_operand andOp_agrees equality (ends.sub (by decide))
  exact leftNested_operand orOp_agrees conjunction (ends.sub (by decide))

theorem disjunction_complete (inner : Complete nested .assignment assignmentOpens size)
    (enough : size + 1 ≤ budget) :
    Complete (disjunction budget nested) .logicOr orOpens (size + 1) := by
  have unary := unaryLevel_complete inner enough budget (size + 1) enough (Nat.le_refl _)
  have factor : Complete (factor budget nested) .factor factorOpens (size + 1) :=
    leftNested_complete rfl factorOp_agrees (by decide) unary enough
  have term : Complete (term budget nested) .term termOpens (size + 1) :=
    leftNested_complete rfl termOp_agrees (by decide) factor enough
  have comparison : Complete (comparison budget nested) .comparison comparisonOpens (size + 1) :=
    leftNested_complete rfl comparisonOp_agrees (by decide) term enough
  have equality : Complete (equality budget nested) .equality equalityOpens (size + 1) :=
    leftNested_complete rfl equalityOp_agrees (by decide) comparison enough
  have conjunction : Complete (conjunction budget nested) .logicAnd andOpens (size + 1) :=
    leftNested_complete rfl andOp_agrees (by decide) equality enough
  exact leftNested_complete rfl orOp_agrees (by decide) conjunction enough

/-- A call is read as such where a conditional could stand. -/
theorem conditional_call (gives : Gives (callLevel budget nested) ts e rest)
    (other : Ends [.bang, .minus] ts) (ends : Ends conditionalOpens rest) (some : 0 < budget)
    (m : Nat) : Gives (conditional budget nested (m + 1)) ts e rest :=
  (disjunction_call gives other (ends.sub fun _ => List.mem_cons_of_mem _) some).bind
    ((Gives.accept_none (ends.ne List.mem_cons_self)).bind .pure)

theorem conditional_complete (inner : Complete nested .assignment assignmentOpens size)
    (enough : size + 1 ≤ budget) (m : Nat) : ∀ s, s ≤ m → s ≤ size + 1 →
      Complete (conditional budget nested m) .conditional conditionalOpens s := by
  induction m with
  | zero =>
      intro s le _ ts short spelt
      obtain ⟨t, vs, rfl, -⟩ := spelt.starts rfl
      rw [List.length_cons] at short
      omega
  | succ m ih =>
      intro s le small ts short spelt rest ends
      obtain ⟨us, vs, rfl, head, behind⟩ := spelt_cons.mp (spelt_ref.mp spelt)
      have condition := disjunction_complete inner enough
      rw [List.length_append] at short
      rcases spelt_optional.mp (spelt_single.mp behind) with rfl | tail
      · obtain ⟨c, gives⟩ := condition us (by omega) head rest
          (ends.sub fun k => List.mem_cons_of_mem _)
        rw [List.append_nil]
        exact ⟨c, gives.bind ((Gives.accept_none (ends.ne List.mem_cons_self)).bind .pure)⟩
      · obtain ⟨question, vs, rfl, mark, tail⟩ := spelt_token_cons.mp tail
        obtain ⟨ws, vs, rfl, middle, tail⟩ := spelt_cons.mp tail
        obtain ⟨colon, vs, rfl, same, tail⟩ := spelt_token_cons.mp tail
        obtain ⟨t, _, rfl, -⟩ := head.starts rfl
        simp only [List.length_cons, List.length_append] at short
        obtain ⟨c, first⟩ := condition _ (by simp only [List.length_cons]; omega) head
          (question :: (ws ++ (colon :: (vs ++ rest)))) (.cons (by rw [mark]; decide))
        obtain ⟨a, second⟩ := inner ws (by omega) middle (colon :: (vs ++ rest))
          (.cons (by rw [same]; decide))
        obtain ⟨b, third⟩ := ih (s - 1) (by omega) (by omega) vs (by omega) (spelt_single.mp tail)
          rest ends
        refine ⟨.conditional c a b, ?_⟩
        simp only [List.append_assoc, List.cons_append] at first ⊢
        exact first.bind ((Gives.accept mark).bind (second.bind ((Gives.expect same).bind
          (third.bind .pure))))

end

theorem assignTo_gives {target : RawExpr} (assignable : Assignable target) (equals : Token)
    (value : RawExpr) (rest : List Token) :
    ∃ e, Gives (assignTo target equals value) rest e rest := by
  rcases assignable with ⟨n, rfl⟩ | ⟨object, n, rfl⟩
  · exact ⟨_, .pure⟩
  · exact ⟨_, .pure⟩

/-- Assignments are read in full. -/
theorem assignment_complete (n : Nat) : Complete (assignment n) .assignment assignmentOpens n := by
  induction n with
  | zero =>
      intro ts short spelt
      obtain ⟨t, vs, rfl, -⟩ := spelt.starts rfl
      cases short
  | succ n ih =>
      intro ts short spelt rest ends
      have room := Nat.le_refl (n + 1)
      have left := conditional_complete ih room (n + 1) (n + 1) room room
      obtain ⟨part, some, inside⟩ := spelt_choice.mp (spelt_ref.mp spelt)
      simp only [List.mem_cons, List.not_mem_nil, or_false] at some
      rcases some with rfl | rfl
      · obtain ⟨us, vs, rfl, target, behind⟩ := spelt_cons.mp inside
        obtain ⟨name, vs, rfl, identifier, behind⟩ := spelt_token_cons.mp behind
        obtain ⟨equals, vs, rfl, same, behind⟩ := spelt_token_cons.mp behind
        simp only [List.length_append, List.length_cons] at short
        have stop : Ends conditionalOpens (equals :: (vs ++ rest)) := .cons (by rw [same]; decide)
        obtain ⟨e, gives, assignable⟩ :=
          callLevel_target ih room (by omega) target identifier (stop.sub (by decide))
        have begins : Ends [.bang, .minus] (us ++ name :: equals :: (vs ++ rest)) := by
          rcases spelt_optional.mp target with rfl | object
          · exact .cons (by rw [identifier]; decide)
          · obtain ⟨cs, ds, rfl, call, -⟩ := spelt_cons.mp object
            rw [List.append_assoc]
            exact call_ends call _
        have first := conditional_call gives begins stop (Nat.succ_pos n) n
        obtain ⟨value, second⟩ := ih vs (by omega) (spelt_single.mp behind) rest ends
        obtain ⟨a, last⟩ := assignTo_gives assignable equals value rest
        refine ⟨a, ?_⟩
        simp only [List.append_assoc, List.cons_append]
        exact first.bind ((Gives.accept same).bind (second.bind last))
      · obtain ⟨e, gives⟩ := left ts short inside rest (ends.sub fun k => List.mem_cons_of_mem _)
        exact ⟨e, gives.bind ((Gives.accept_none (ends.ne List.mem_cons_self)).bind .pure)⟩

/-- Expressions are read in full. -/
theorem expression_complete (n : Nat) : Complete (expression n) .expression expressionOpens n :=
  leftNested_complete rfl commaOp_agrees (by decide) (assignment_complete n) (Nat.le_refl n)

end Reading
end LoxLang
