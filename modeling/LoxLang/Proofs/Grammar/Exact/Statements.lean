import LoxLang.Proofs.Grammar.Exact.Expressions
import LoxLang.Proofs.Grammar.Nearest
import LoxLang.Proofs.Grammar.Statements
/-! Statements and declarations are read in full, an `else` with the nearest `if`, and with them
every program that the grammar has. -/
namespace LoxLang
namespace Reading

section
variable {budget : Nat} {us : List Token} {t : Token}

theorem expression_gives (spelt : Spelt (.ref .expression) us) (short : us.length ≤ budget)
    (outside : t.kind ∉ expressionOpens) (rest : List Token) :
    ∃ e, Gives (expression budget) (us ++ t :: rest) e (t :: rest) :=
  expression_complete budget us short spelt (t :: rest) (.cons outside)

theorem optionalExpression_gives {stop : Kind} (spelt : Spelt (.optional (.ref .expression)) us)
    (short : us.length ≤ budget) (same : t.kind = stop) (outside : stop ∉ expressionOpens)
    (apart : stop ∉ expressionStarts) (rest : List Token) :
    ∃ e, Gives (optionalExpression budget stop) (us ++ t :: rest) e (t :: rest) := by
  rcases spelt_optional.mp spelt with rfl | spelt
  · exact ⟨none, (Gives.nextIs same).bind .pure⟩
  · obtain ⟨u, vs, rfl, start⟩ := spelt.starts rfl
    have other : u.kind ≠ stop := fun same => apart (same ▸ start)
    obtain ⟨e, gives⟩ := expression_gives spelt short (same ▸ outside) rest
    exact ⟨some e, (Gives.nextIs_not other).bind gives.map⟩

/-- An expression and the semicolon behind it, before what `f` makes of it. -/
theorem ended_gives (spelt : Spelt (.sequence [.ref .expression, .token .semicolon]) us)
    (short : us.length ≤ budget) (rest : List Token) :
    ∃ e, ∀ (cause : SyntaxError) (f : RawExpr → RawStmt), Gives (do
      let value ← expression budget
      let _ ← expect .semicolon cause
      pure (f value)) (us ++ rest) (f e) rest := by
  obtain ⟨vs, ws, rfl, value, behind⟩ := spelt_cons.mp spelt
  obtain ⟨t, rfl, same⟩ := spelt_token.mp (spelt_single.mp behind)
  rw [List.length_append] at short
  have room : vs.length ≤ budget := by omega
  obtain ⟨e, gives⟩ := expression_gives value room (by rw [same]; decide) rest
  refine ⟨e, fun cause f => ?_⟩
  rw [List.append_assoc]
  exact gives.bind ((Gives.expect same).bind .pure)

theorem expressionStatement_gives (spelt : Spelt (.ref .exprStmt) us) (short : us.length ≤ budget)
    (rest : List Token) : ∃ s, Gives (expressionStatement budget) (us ++ rest) s rest := by
  obtain ⟨e, gives⟩ := ended_gives (spelt_ref.mp spelt) short rest
  exact ⟨.expression e, gives _ _⟩

theorem printStatement_gives (spelt : Spelt (.ref .printStmt) us) (short : us.length ≤ budget)
    (rest : List Token) : ∃ t vs, us = t :: vs ∧ t.kind = .printWord ∧
      ∀ line, ∃ s, Gives (printStatement budget line) (vs ++ rest) s rest := by
  obtain ⟨t, vs, rfl, start, behind⟩ := spelt_token_cons.mp (spelt_ref.mp spelt)
  obtain ⟨e, gives⟩ := ended_gives behind (Nat.le_of_succ_le short) rest
  exact ⟨t, vs, rfl, start, fun line => ⟨.print line e, gives _ _⟩⟩

theorem returnStatement_gives (spelt : Spelt (.ref .returnStmt) us) (short : us.length ≤ budget)
    (rest : List Token) : ∃ t vs, us = t :: vs ∧ t.kind = .returnWord ∧
      ∀ pos, ∃ s, Gives (returnStatement budget pos) (vs ++ rest) s rest := by
  obtain ⟨t, vs, rfl, start, behind⟩ := spelt_token_cons.mp (spelt_ref.mp spelt)
  obtain ⟨vs, ws, rfl, value, behind⟩ := spelt_cons.mp behind
  obtain ⟨close, rfl, same⟩ := spelt_token.mp (spelt_single.mp behind)
  simp only [List.length_cons, List.length_append] at short
  have room : vs.length ≤ budget := by omega
  obtain ⟨e, gives⟩ := optionalExpression_gives value room same (by decide) (by decide) rest
  refine ⟨t, _, rfl, start, fun pos => ⟨.ret pos e, ?_⟩⟩
  rw [List.append_assoc]
  exact gives.bind ((Gives.expect same).bind .pure)

theorem variableDeclaration_gives (spelt : Spelt (.ref .varDecl) us) (short : us.length ≤ budget)
    (rest : List Token) : ∃ t vs, us = t :: vs ∧ t.kind = .varWord ∧
      ∃ s, Gives (variableDeclaration budget) (vs ++ rest) s rest := by
  obtain ⟨t, vs, rfl, start, behind⟩ := spelt_token_cons.mp (spelt_ref.mp spelt)
  obtain ⟨name, vs, rfl, identifier, behind⟩ := spelt_token_cons.mp behind
  obtain ⟨vs, ws, rfl, initializer, behind⟩ := spelt_cons.mp behind
  obtain ⟨close, rfl, same⟩ := spelt_token.mp (spelt_single.mp behind)
  refine ⟨t, _, rfl, start, ?_⟩
  rcases spelt_optional.mp initializer with rfl | initializer
  · have none : Gives (accept? .equal) (close :: rest) none (close :: rest) :=
      .accept_none fun _ head => by cases head; rw [same]; decide
    exact ⟨.var ⟨name.lexeme, name.pos⟩ .none, (Gives.expectName identifier).bind
      (none.bind ((Gives.expect same).bind .pure))⟩
  · obtain ⟨equals, vs, rfl, sign, value⟩ := spelt_token_cons.mp initializer
    simp only [List.length_cons, List.length_append] at short
    have room : vs.length ≤ budget := by omega
    obtain ⟨e, gives⟩ := expression_gives (spelt_single.mp value) room (by rw [same]; decide) rest
    refine ⟨.var ⟨name.lexeme, name.pos⟩ (some e), ?_⟩
    simp only [List.cons_append, List.append_assoc]
    exact (Gives.expectName identifier).bind ((Gives.accept sign).bind (gives.bind
      ((Gives.expect same).bind .pure)))

end

section
variable {budget size : Nat} {declaration : Reading (Option RawStmt)} {us : List Token}

theorem block_gives (inner : Complete declaration .declaration [.elseWord] size)
    (spelt : Spelt (.ref .block) us) (short : us.length ≤ size + 1) (enough : size ≤ budget)
    (rest : List Token) : ∃ t vs, us = t :: vs ∧ t.kind = .leftBrace ∧
      ∃ body, Gives (block budget declaration) (vs ++ rest) body rest := by
  obtain ⟨t, vs, rfl, start, behind⟩ := spelt_token_cons.mp (spelt_ref.mp spelt)
  obtain ⟨vs, ws, rfl, body, behind⟩ := spelt_cons.mp behind
  obtain ⟨close, rfl, same⟩ := spelt_token.mp (spelt_single.mp behind)
  obtain ⟨list, rfl, all⟩ := spelt_many body
  simp only [List.length_cons, List.length_append] at short
  have items : ∀ us ∈ list, Reads declaration [.elseWord] us ∧
      ∃ t vs, us = t :: vs ∧ t.kind ≠ .rightBrace ∧ t.kind ∉ [Kind.elseWord] := by
    intro us member
    have within := length_le_of_mem member
    obtain ⟨t, vs, rfl, first⟩ := (all us member).starts rfl
    refine ⟨inner _ (by omega) (all _ member), t, vs, rfl, ?_, ?_⟩
    · exact fun same => absurd (same ▸ first) (by decide)
    · exact fun same => absurd (List.mem_singleton.mp same ▸ first) (by decide)
  have count : list.length ≤ list.flatten.length := length_le_flatten fun us member => by
    obtain ⟨-, t, vs, rfl, -⟩ := items us member
    simp
  obtain ⟨found, gives⟩ := untilBrace_gives items same (by rw [same]; decide) rest budget (by omega)
  refine ⟨t, _, rfl, start, found.filterMap id, ?_⟩
  rw [List.append_assoc]
  exact gives.bind ((Gives.expect same).bind .pure)

theorem routine_gives (inner : Complete declaration .declaration [.elseWord] size)
    (spelt : Spelt (.ref .function) us) (short : us.length ≤ size + 1) (enough : size ≤ budget)
    (kind : RoutineKind) (rest : List Token) :
    ∃ r, Gives (routine budget declaration kind) (us ++ rest) r rest := by
  obtain ⟨name, vs, rfl, identifier, behind⟩ := spelt_token_cons.mp (spelt_ref.mp spelt)
  obtain ⟨paren, vs, rfl, start, behind⟩ := spelt_token_cons.mp behind
  obtain ⟨vs, ws, rfl, list, behind⟩ := spelt_cons.mp behind
  obtain ⟨close, ws, rfl, stop, behind⟩ := spelt_token_cons.mp behind
  simp only [List.length_cons, List.length_append] at short
  have room : ws.length ≤ size + 1 := by omega
  obtain ⟨brace, ws, rfl, open', body, block⟩ := block_gives inner (spelt_single.mp behind) room
    enough rest
  have within : vs.length ≤ budget := by omega
  have parameter (us : List Token) (spelt : Spelt (.token .identifier) us) :
      Reads (expectName .parameterName) [] us := by
    obtain ⟨t, rfl, same⟩ := spelt_token.mp spelt
    exact fun rest _ => ⟨_, .expectName same⟩
  obtain ⟨params, gives⟩ := listed_gives rfl rfl (by decide) (by decide) (by decide) list
    (fun us _ => parameter us) within .tooManyParameters stop (brace :: (ws ++ rest))
  refine ⟨.mk ⟨name.lexeme, name.pos⟩ params body, ?_⟩
  simp only [List.cons_append, List.append_assoc]
  exact (Gives.expectName identifier).bind ((Gives.expect start).bind (gives _ _ _
    ((Gives.expect stop).bind ((Gives.expect open').bind (block.bind .pure)))))

theorem superclass_gives
    (spelt : Spelt (.optional (.sequence [.token .less, .token .identifier])) us) {t : Token}
    (other : t.kind ≠ .less) (rest : List Token) :
    ∃ parent, Gives superclass (us ++ t :: rest) parent (t :: rest) := by
  rcases spelt_optional.mp spelt with rfl | spelt
  · have stop : ∀ u, (t :: rest).head? = some u → u.kind ≠ .less := by
      rintro _ ⟨⟩
      exact other
    exact ⟨none, (Gives.accept_none stop).bind .pure⟩
  · obtain ⟨less, vs, rfl, sign, behind⟩ := spelt_token_cons.mp spelt
    obtain ⟨name, rfl, identifier⟩ := spelt_token.mp (spelt_single.mp behind)
    exact ⟨_, (Gives.accept sign).bind ((Gives.expectName identifier).bind .pure)⟩

theorem classDeclaration_gives (inner : Complete declaration .declaration [.elseWord] size)
    (spelt : Spelt (.ref .classDecl) us) (short : us.length ≤ size + 1) (enough : size ≤ budget)
    (rest : List Token) : ∃ t vs, us = t :: vs ∧ t.kind = .classWord ∧
      ∃ s, Gives (classDeclaration budget declaration) (vs ++ rest) s rest := by
  obtain ⟨t, vs, rfl, start, behind⟩ := spelt_token_cons.mp (spelt_ref.mp spelt)
  obtain ⟨name, vs, rfl, identifier, behind⟩ := spelt_token_cons.mp behind
  obtain ⟨vs, ws, rfl, above, behind⟩ := spelt_cons.mp behind
  obtain ⟨brace, ws, rfl, open', behind⟩ := spelt_token_cons.mp behind
  obtain ⟨ws, xs, rfl, body, behind⟩ := spelt_cons.mp behind
  obtain ⟨close, rfl, same⟩ := spelt_token.mp (spelt_single.mp behind)
  obtain ⟨list, rfl, all⟩ := spelt_many body
  simp only [List.length_cons, List.length_append] at short
  have items : ∀ us ∈ list, Reads (routine budget declaration .method) [] us ∧
      ∃ t vs, us = t :: vs ∧ t.kind ≠ .rightBrace ∧ t.kind ∉ ([] : List Kind) := by
    intro us member
    have within := length_le_of_mem member
    obtain ⟨t, vs, rfl, first⟩ := (all us member).starts rfl
    refine ⟨fun rest _ => routine_gives inner (all _ member) (by omega) enough .method rest,
      t, vs, rfl, fun same => absurd (same ▸ first) (by decide), List.not_mem_nil⟩
  have count : list.length ≤ list.flatten.length := length_le_flatten fun us member => by
    obtain ⟨-, t, vs, rfl, -⟩ := items us member
    simp
  obtain ⟨methods, gives⟩ := untilBrace_gives items same List.not_mem_nil rest budget (by omega)
  obtain ⟨parent, parents⟩ := superclass_gives above (by rw [open']; decide)
    (list.flatten ++ close :: rest)
  refine ⟨t, _, rfl, start, .classDecl ⟨name.lexeme, name.pos⟩ parent methods, ?_⟩
  simp only [List.cons_append, List.append_assoc, List.nil_append]
  exact (Gives.expectName identifier).bind (parents.bind ((Gives.expect open').bind
    (gives.bind ((Gives.expect same).bind .pure))))

end

/-! Headers, and the statements behind them. -/

section
variable {budget : Nat} {statement : Reading RawStmt} {hs ts rest : List Token} {s : RawStmt}

theorem forInitializer_gives {us : List Token}
    (spelt : Spelt (.choice [.ref .varDecl, .ref .exprStmt, .token .semicolon]) us)
    (short : us.length ≤ budget) (rest : List Token) :
    ∃ i, Gives (forInitializer budget) (us ++ rest) i rest := by
  obtain ⟨part, some, inside⟩ := spelt_choice.mp spelt
  simp only [List.mem_cons, List.not_mem_nil, or_false] at some
  rcases some with rfl | rfl | rfl
  · obtain ⟨t, vs, rfl, same, s, gives⟩ := variableDeclaration_gives inside short rest
    have other : ∀ u, (t :: (vs ++ rest)).head? = .some u → u.kind ≠ .semicolon := by
      rintro _ ⟨⟩
      rw [same]
      decide
    exact ⟨.some s, (Gives.accept_none other).bind ((Gives.accept same).bind gives.map)⟩
  · obtain ⟨s, gives⟩ := expressionStatement_gives inside short rest
    obtain ⟨t, vs, rfl, start⟩ := inside.starts rfl
    have other {kind : Kind} (apart : kind ∉ expressionStarts) :
        ∀ u, (t :: (vs ++ rest)).head? = .some u → u.kind ≠ kind := by
      rintro _ ⟨⟩ same
      exact apart (same ▸ start)
    exact ⟨.some s, (Gives.accept_none (other (by decide))).bind
      ((Gives.accept_none (other (by decide))).bind gives.map)⟩
  · obtain ⟨t, rfl, same⟩ := spelt_token.mp inside
    exact ⟨none, (Gives.accept same).bind .pure⟩

theorem forLoop_gives (spelt : Spelt (.sequence forHeader) hs) (short : hs.length ≤ budget)
    (body : Gives statement ts s rest) : ∃ t vs, hs = t :: vs ∧ t.kind = .forWord ∧
      ∀ line, ∃ s, Gives (forLoop budget statement line) (vs ++ ts) s rest := by
  obtain ⟨t, vs, rfl, start, behind⟩ := spelt_token_cons.mp spelt
  obtain ⟨paren, vs, rfl, open', behind⟩ := spelt_token_cons.mp behind
  obtain ⟨us, vs, rfl, first, behind⟩ := spelt_cons.mp behind
  obtain ⟨vs, ws, rfl, second, behind⟩ := spelt_cons.mp behind
  obtain ⟨semicolon, ws, rfl, same, behind⟩ := spelt_token_cons.mp behind
  obtain ⟨ws, xs, rfl, third, behind⟩ := spelt_cons.mp behind
  obtain ⟨close, rfl, stop⟩ := spelt_token.mp (spelt_single.mp behind)
  simp only [List.length_cons, List.length_append] at short
  have roomᵤ : us.length ≤ budget := by omega
  have roomᵥ : vs.length ≤ budget := by omega
  have room : ws.length ≤ budget := by omega
  obtain ⟨i, initializer⟩ := forInitializer_gives first roomᵤ
    (vs ++ semicolon :: (ws ++ close :: ts))
  obtain ⟨c, condition⟩ := optionalExpression_gives second roomᵥ same (by decide) (by decide)
    (ws ++ close :: ts)
  obtain ⟨e, increment⟩ := optionalExpression_gives third room stop (by decide) (by decide) ts
  refine ⟨t, _, rfl, start, fun line => ⟨forStatement line i c e s, ?_⟩⟩
  simp only [List.cons_append, List.append_assoc, List.nil_append]
  exact (Gives.expect open').bind (initializer.bind (condition.bind ((Gives.expect same).bind
    (increment.bind ((Gives.expect stop).bind (body.bind .pure))))))

/-- A condition in parentheses behind the word of its statement, before what `f` reads. -/
theorem condition_gives {word : Kind}
    (spelt : Spelt (.sequence [.token word, .token .leftParen, .ref .expression, .token .rightParen]) hs)
    (short : hs.length ≤ budget) (ts : List Token) : ∃ t vs c, hs = t :: vs ∧ t.kind = word ∧
      ∀ (start stop : SyntaxError) (f : RawExpr → Reading RawStmt) (s rest), Gives (f c) ts s rest →
        Gives (do
          let _ ← expect .leftParen start
          let condition ← expression budget
          let _ ← expect .rightParen stop
          f condition) (vs ++ ts) s rest := by
  obtain ⟨t, vs, rfl, start, behind⟩ := spelt_token_cons.mp spelt
  obtain ⟨paren, vs, rfl, open', behind⟩ := spelt_token_cons.mp behind
  obtain ⟨us, vs, rfl, condition, behind⟩ := spelt_cons.mp behind
  obtain ⟨close, rfl, stop⟩ := spelt_token.mp (spelt_single.mp behind)
  simp only [List.length_cons, List.length_append] at short
  have room : us.length ≤ budget := by omega
  obtain ⟨c, gives⟩ := expression_gives condition room (by rw [stop]; decide) ts
  refine ⟨t, _, c, rfl, start, fun _ _ f s rest behind => ?_⟩
  simp only [List.cons_append, List.append_assoc, List.nil_append]
  exact (Gives.expect open').bind (gives.bind ((Gives.expect stop).bind behind))

theorem whileStatement_gives (spelt : Spelt (.sequence whileHeader) hs) (short : hs.length ≤ budget)
    (body : Gives statement ts s rest) : ∃ t vs, hs = t :: vs ∧ t.kind = .whileWord ∧
      ∀ line, ∃ s, Gives (whileStatement budget statement line) (vs ++ ts) s rest := by
  obtain ⟨t, vs, c, rfl, start, gives⟩ := condition_gives spelt short ts
  exact ⟨t, vs, rfl, start, fun line => ⟨.loop line c s, gives _ _ _ _ _ (body.bind .pure)⟩⟩

theorem ifStatement_gives (spelt : Spelt (.sequence ifHeader) hs) (short : hs.length ≤ budget)
    (ends : Ends [.elseWord] rest) (branch : Gives statement ts s rest) :
    ∃ t vs, hs = t :: vs ∧ t.kind = .ifWord ∧
      ∀ line, ∃ s, Gives (ifStatement budget statement line) (vs ++ ts) s rest := by
  obtain ⟨t, vs, c, rfl, start, gives⟩ := condition_gives spelt short ts
  have alone : Gives (accept? .elseWord) rest none rest :=
    .accept_none (ends.ne List.mem_cons_self)
  exact ⟨t, vs, rfl, start, fun line => ⟨.ifThen line c s,
    gives _ _ _ _ _ (branch.bind (alone.bind .pure))⟩⟩

theorem ifElseStatement_gives {us : List Token} {t : Token} {s' : RawStmt}
    (spelt : Spelt (.sequence ifHeader) hs) (short : hs.length ≤ budget)
    (same : t.kind = .elseWord) (first : Gives statement ts s (t :: us))
    (second : Gives statement us s' rest) : ∃ t vs, hs = t :: vs ∧ t.kind = .ifWord ∧
      ∀ line, ∃ s, Gives (ifStatement budget statement line) (vs ++ ts) s rest := by
  obtain ⟨t, vs, c, rfl, start, gives⟩ := condition_gives spelt short ts
  exact ⟨t, vs, rfl, start, fun line => ⟨.ifElse line c s s',
    gives _ _ _ _ _ (first.bind ((Gives.accept same).bind (second.bind .pure)))⟩⟩

end

/-! Statements and declarations inside each other. -/

section
variable {budget : Nat} {statement : Reading RawStmt} {declaration : Reading (Option RawStmt)}
  {t : Token}

theorem statementLevel_expression (start : t.kind ∈ expressionStarts) (ts : List Token) :
    statementLevel budget statement declaration (t :: ts) =
      expressionStatement budget (t :: ts) := by
  simp only [statementLevel]
  split
  case h_7 => rfl
  all_goals
    next same =>
      rw [same] at start
      exact absurd start (by decide)

theorem declarationLevel_statement (start : t.kind ∈ statementStarts) (ts : List Token) :
    declarationLevel budget statement declaration (t :: ts) =
      statementLevel budget statement declaration (t :: ts) := by
  simp only [declarationLevel]
  split
  case h_4 => rfl
  all_goals
    next same =>
      rw [same] at start
      exact absurd start (by decide)

end

/-- A statement is read whole, unless an `else` goes on with it. -/
def ReadsNearest (x : Reading RawStmt) (size : Nat) : Prop :=
  ∀ shut ts, Nearest shut ts → ts.length ≤ size →
    ∀ rest, (shut = false → Ends [.elseWord] rest) → ∃ s, Gives x (ts ++ rest) s rest

theorem statementLevel_nearest {statement : Reading RawStmt}
    {declaration : Reading (Option RawStmt)} {n : Nat} (statements : ReadsNearest statement n)
    (declarations : Complete declaration .declaration [.elseWord] n) :
    ReadsNearest (statementLevel (n + 1) statement declaration) (n + 1) := by
  intro shut ts nearest short rest ends
  have room := Nat.le_succ n
  cases nearest with
  | simple known spelt =>
      simp only [List.mem_cons, List.not_mem_nil, or_false] at known
      rcases known with rfl | rfl | rfl | rfl
      · obtain ⟨s, gives⟩ := expressionStatement_gives spelt short rest
        obtain ⟨t, vs, rfl, start⟩ := spelt.starts rfl
        exact ⟨s, (statementLevel_expression start _).trans gives⟩
      · obtain ⟨t, vs, rfl, same, gives⟩ := printStatement_gives spelt short rest
        obtain ⟨s, gives⟩ := gives t.pos.line
        exact ⟨s, by simpa only [Gives, List.cons_append, statementLevel, same] using gives⟩
      · obtain ⟨t, vs, rfl, same, gives⟩ := returnStatement_gives spelt short rest
        obtain ⟨s, gives⟩ := gives t.pos
        exact ⟨s, by simpa only [Gives, List.cons_append, statementLevel, same] using gives⟩
      · obtain ⟨t, vs, rfl, same, body, gives⟩ := block_gives declarations spelt short room rest
        have gives : Gives (Stmt.block t.pos.line <$> block (n + 1) declaration) _ _ rest := gives.map
        exact ⟨_, by simpa only [Gives, List.cons_append, statementLevel, same] using gives⟩
  | @loop _ header hs ts known spelt body =>
      rw [List.length_append] at short
      simp only [List.mem_cons, List.not_mem_nil, or_false] at known
      have some := List.length_pos_iff.mpr body.ne_nil
      have taken : 0 < hs.length := List.length_pos_iff.mpr fun none => by
        rcases known with rfl | rfl <;> exact spelt.ne_nil rfl (by rw [none]; rfl)
      obtain ⟨s, inner⟩ := statements shut ts body (by omega) rest ends
      have within : hs.length ≤ n + 1 := by omega
      rw [List.append_assoc]
      rcases known with rfl | rfl
      · obtain ⟨t, vs, rfl, same, gives⟩ := whileStatement_gives spelt within inner
        obtain ⟨s, gives⟩ := gives t.pos.line
        exact ⟨s, by simpa only [Gives, List.cons_append, statementLevel, same] using gives⟩
      · obtain ⟨t, vs, rfl, same, gives⟩ := forLoop_gives spelt within inner
        obtain ⟨s, gives⟩ := gives t.pos.line
        exact ⟨s, by simpa only [Gives, List.cons_append, statementLevel, same] using gives⟩
  | @ifThen inner hs ts spelt branch =>
      rw [List.length_append] at short
      have some := List.length_pos_iff.mpr branch.ne_nil
      have taken : 0 < hs.length := List.length_pos_iff.mpr fun none =>
        spelt.ne_nil rfl (by rw [none]; rfl)
      obtain ⟨s, first⟩ := statements inner ts branch (by omega) rest fun _ => ends rfl
      have within : hs.length ≤ n + 1 := by omega
      rw [List.append_assoc]
      obtain ⟨t, vs, rfl, same, gives⟩ := ifStatement_gives spelt within (ends rfl) first
      obtain ⟨s, gives⟩ := gives t.pos.line
      exact ⟨s, by simpa only [Gives, List.cons_append, statementLevel, same] using gives⟩
  | @ifElse _ hs ts us t spelt branch word other =>
      simp only [List.length_append, List.length_cons] at short
      have taken : 0 < hs.length := List.length_pos_iff.mpr fun none =>
        spelt.ne_nil rfl (by rw [none]; rfl)
      obtain ⟨s, first⟩ := statements true ts branch (by omega) (t :: (us ++ rest)) (by simp)
      obtain ⟨s', second⟩ := statements shut us other (by omega) rest ends
      have within : hs.length ≤ n + 1 := by omega
      simp only [List.append_assoc, List.cons_append]
      obtain ⟨t, vs, rfl, same, gives⟩ := ifElseStatement_gives spelt within word first second
      obtain ⟨s, gives⟩ := gives t.pos.line
      exact ⟨s, by simpa only [Gives, List.cons_append, statementLevel, same] using gives⟩

theorem declarationLevel_complete {statement : Reading RawStmt}
    {declaration : Reading (Option RawStmt)} {n : Nat}
    (statements : ReadsNearest (statementLevel (n + 1) statement declaration) (n + 1))
    (declarations : Complete declaration .declaration [.elseWord] n) :
    Complete (declarationLevel (n + 1) statement declaration) .declaration [.elseWord] (n + 1) := by
  intro ts short spelt rest ends
  have room := Nat.le_succ n
  obtain ⟨part, some, inside⟩ := spelt_choice.mp (spelt_ref.mp spelt)
  simp only [List.mem_cons, List.not_mem_nil, or_false] at some
  rcases some with rfl | rfl | rfl | rfl
  · obtain ⟨t, vs, rfl, same, s, gives⟩ := classDeclaration_gives declarations inside short room rest
    exact ⟨s, by simpa only [Gives, List.cons_append, declarationLevel, same] using gives⟩
  · obtain ⟨t, vs, rfl, same, behind⟩ := spelt_token_cons.mp (spelt_ref.mp inside)
    rw [List.length_cons] at short
    obtain ⟨r, gives⟩ := routine_gives declarations (spelt_single.mp behind) (by omega) room .function
      rest
    have gives : Gives (Stmt.function <$> routine (n + 1) declaration .function) _ _ rest := gives.map
    exact ⟨_, by simpa only [Gives, List.cons_append, declarationLevel, same] using gives⟩
  · obtain ⟨t, vs, rfl, same, s, gives⟩ := variableDeclaration_gives inside short rest
    exact ⟨s, by simpa only [Gives, List.cons_append, declarationLevel, same] using gives⟩
  · obtain ⟨shut, nearest⟩ := nearest_of_spelt inside
    obtain ⟨s, gives⟩ := statements shut ts nearest short rest fun _ => ends
    obtain ⟨t, vs, rfl, start⟩ := inside.starts rfl
    exact ⟨s, (declarationLevel_statement start _).trans gives⟩

theorem statement_declaration_complete (n : Nat) : ReadsNearest (statement n) n ∧
    Complete (declaration n) .declaration [.elseWord] n := by
  induction n with
  | zero =>
      constructor
      · intro shut ts nearest short
        exact absurd (List.eq_nil_of_length_eq_zero (Nat.le_zero.mp short)) nearest.ne_nil
      · intro ts short spelt
        obtain ⟨t, vs, rfl, -⟩ := spelt.starts rfl
        cases short
  | succ n ih =>
      have statements := statementLevel_nearest ih.1 ih.2
      refine ⟨statements, fun ts short spelt rest ends => ?_⟩
      obtain ⟨s, gives⟩ := declarationLevel_complete statements ih.2 ts short spelt rest ends
      exact ⟨some s, gives.recover⟩

end Reading

/-- What the grammar has as a program is read without issues. -/
theorem parse_complete {tokens : List Token} (spelt : Spelt (.ref .program) tokens) :
    (parse tokens).issues = [] := by
  obtain ⟨list, rfl, all⟩ := spelt_many (spelt_ref.mp spelt)
  have items : ∀ us ∈ list, Reading.Reads (Reading.declaration list.flatten.length) [.elseWord] us ∧
      ∃ t vs, us = t :: vs ∧ t.kind ∉ [Kind.elseWord] := by
    intro us member
    obtain ⟨t, vs, rfl, start⟩ := (all us member).starts rfl
    refine ⟨(Reading.statement_declaration_complete _).2 _ (Reading.length_le_of_mem member)
      (all _ member), t, vs, rfl, fun same => ?_⟩
    exact absurd (List.mem_singleton.mp same ▸ start) (by decide)
  have count : list.length ≤ list.flatten.length := Reading.length_le_flatten fun us member => by
    obtain ⟨-, t, vs, rfl, -⟩ := items us member
    simp
  obtain ⟨found, gives⟩ := Reading.untilEnd_gives items _ count
  have whole : Reading.Gives (Reading.program list.flatten.length) list.flatten
    (found.filterMap id) [] := gives.bind .pure
  rw [parse, whole]

/-- The tokens are read without issues exactly if they derive from the grammar with no more
parameters and arguments in any list than are allowed. -/
theorem parse_quiet_iff (tokens : List Token) : (parse tokens).issues = [] ↔
    Derives (· ≤ maxEntries) (.ref .program) (tokens.map Token.kind) :=
  ⟨fun quiet => (parse_sound quiet).1, parse_complete⟩

end LoxLang
