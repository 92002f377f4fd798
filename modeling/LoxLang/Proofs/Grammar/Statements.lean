import LoxLang.Proofs.Grammar.Expressions
/-! Statements and programs that are read without issues derive from the grammar. Their trees
declare and assign only ordinary names, and govern no declaration by a condition or a loop. -/
namespace LoxLang

/-- The tokens derive from the nonterminal, and the tree made of them is plain. -/
structure Forms (n : Nonterminal) (s : RawStmt) (used : List Token) : Prop where
  derives : Phrase n (kinds used)
  plain : Named used → s.Plain

/-- A statement that is no declaration. -/
structure Acts (n : Nonterminal) (s : RawStmt) (used : List Token) : Prop extends Forms n s used where
  binds : s.binds = none

theorem Derives.alternative {allowed : Nat → Prop} {n m : Nonterminal} {parts : List Rule}
    {ks : List Kind} (rule : n.rule = .choice parts) (member : Rule.ref m ∈ parts)
    (derives : Derives allowed (.ref m) ks) : Derives allowed (.ref n) ks := by
  refine .ref ?_
  rw [rule]
  exact .choice member derives

theorem Acts.statement {n : Nonterminal} {s : RawStmt} {used : List Token} (acts : Acts n s used)
    (member : Rule.ref n ∈ [Rule.ref .exprStmt, .ref .forStmt, .ref .ifStmt, .ref .printStmt,
      .ref .returnStmt, .ref .whileStmt, .ref .block]) : Acts .statement s used :=
  ⟨⟨acts.derives.alternative rfl member, acts.plain⟩, acts.binds⟩

theorem Forms.declaration {n : Nonterminal} {s : RawStmt} {used : List Token}
    (forms : Forms n s used) (member : Rule.ref n ∈ [Rule.ref .classDecl, .ref .funDecl,
      .ref .varDecl, .ref .statement]) : Forms .declaration s used :=
  ⟨forms.derives.alternative rfl member, forms.plain⟩

/-- A keyword, and what is read behind it. -/
theorem Forms.behind {n : Nonterminal} {s : RawStmt} {t : Token} {kind : Kind} {used : List Token}
    (same : t.kind = kind) (derives : Phrase n (kind :: kinds used))
    (plain : Named used → s.Plain) : Forms n s (t :: used) :=
  ⟨by rwa [kinds_cons, same], fun named => plain (named_cons.mp named).2⟩

theorem Acts.behind {n : Nonterminal} {s : RawStmt} {t : Token} {kind : Kind} {used : List Token}
    (same : t.kind = kind)
    (formed : Phrase n (kind :: kinds used) ∧ (Named used → s.Plain) ∧ s.binds = none) :
    Acts n s (t :: used) :=
  ⟨.behind same formed.1 formed.2.1, formed.2.2⟩

/-- A part that may be missing, with the tokens before what follows it. -/
def Maybe (n : Nonterminal) (used : List Token) : Prop :=
  Derives (· ≤ maxEntries) (.optional (.ref n)) (kinds used)

/-- An expression that may be missing is plain where it stands. -/
def OptionPlain (e : Option RawExpr) : Prop := ∀ v, e = some v → v.Plain

namespace Reading
variable {budget : Nat} {statement : Reading RawStmt} {declaration : Reading (Option RawStmt)}

theorem takes_variableDeclaration : Takes (variableDeclaration budget) fun s used =>
    Phrase .varDecl (.varWord :: kinds used) ∧ (Named used → s.Plain) := by
  refine Takes.expectName.bind fun name used spelled => Takes.accept?.bind fun o more found => ?_
  cases o with
  | none =>
      subst found
      refine Takes.expect.bind ?_
      rintro stop _ ⟨rfl, ended⟩
      refine .pure ⟨.ref ?_, fun named => spelled.2 (named_append.mp named).1⟩
      exact (Derives.sequence (.token _) (.sequence (.token _) (.sequence .absent
        (.sequence (.token _) .empty)))).cast (by simp [spelled.1, ended])
  | some equals =>
      obtain ⟨rfl, same⟩ := found
      refine (takes_expression budget).bind fun value more spells => Takes.expect.bind ?_
      rintro stop _ ⟨rfl, ended⟩
      refine .pure ⟨.ref ?_, fun named => ?_⟩
      · exact (Derives.sequence (.token _) (.sequence (.token _) (.sequence (.present
          (.sequence (.token _) (.sequence spells.derives .empty))) (.sequence (.token _)
            .empty)))).cast (by simp [spelled.1, same, ended])
      · simp only [List.append_nil, named_append, named_cons] at named
        exact ⟨spelled.2 named.1, spells.plain named.2.2.1⟩

theorem takes_expressionStatement : Takes (expressionStatement budget) (Acts .exprStmt) := by
  refine (takes_expression budget).bind fun value used spells => Takes.expect.bind ?_
  rintro stop _ ⟨rfl, ended⟩
  refine .pure ⟨⟨.ref ?_, fun named => spells.plain (named_append.mp named).1⟩, rfl⟩
  exact (Derives.sequence spells.derives (.sequence (.token _) .empty)).cast (by simp [ended])

theorem takes_printStatement (line : Nat) : Takes (printStatement budget line) fun s used =>
    Phrase .printStmt (.printWord :: kinds used) ∧ (Named used → s.Plain) ∧ s.binds = none := by
  refine (takes_expression budget).bind fun value used spells => Takes.expect.bind ?_
  rintro stop _ ⟨rfl, ended⟩
  refine .pure ⟨.ref ?_, fun named => spells.plain (named_append.mp named).1, rfl⟩
  exact (Derives.sequence (.token _) (.sequence spells.derives (.sequence (.token _)
    .empty))).cast (by simp [ended])

theorem takes_optionalExpression (stop : Kind) : Takes (optionalExpression budget stop)
    fun e used => Maybe .expression used ∧ (Named used → OptionPlain e) := by
  refine (Takes.nextIs (E := fun _ used => used = []) fun _ => rfl).bind fun next _ none => ?_
  subst none
  cases next with
  | true => exact .pure ⟨.absent, fun _ => by simp [OptionPlain]⟩
  | false =>
      refine Takes.map ((takes_expression budget).imp fun e used spells => ⟨?_, fun named => ?_⟩)
      · exact .present spells.derives
      · rintro _ ⟨⟩
        exact spells.plain named

theorem takes_returnStatement (pos : Pos) : Takes (returnStatement budget pos) fun s used =>
    Phrase .returnStmt (.returnWord :: kinds used) ∧ (Named used → s.Plain) ∧ s.binds = none := by
  refine (takes_optionalExpression .semicolon).bind fun value used spelled => Takes.expect.bind ?_
  rintro stop _ ⟨rfl, ended⟩
  refine .pure ⟨.ref ?_, fun named => ?_, rfl⟩
  · exact (Derives.sequence (.token _) (.sequence spelled.1 (.sequence (.token _) .empty))).cast
      (by simp [ended])
  · have plain := spelled.2 (named_append.mp named).1
    cases value with
    | none => trivial
    | some e => exact plain e rfl

/-- The condition of an `if` or `while`, in its parentheses. -/
theorem takes_whileStatement (takes : Takes statement (Acts .statement)) (line : Nat) :
    Takes (whileStatement budget statement line) fun s used =>
      Phrase .whileStmt (.whileWord :: kinds used) ∧ (Named used → s.Plain) ∧ s.binds = none := by
  refine Takes.expect.bind ?_
  rintro begin _ ⟨rfl, opened⟩
  refine (takes_expression budget).bind fun c used spells => Takes.expect.bind ?_
  rintro stop _ ⟨rfl, closed⟩
  refine takes.bind fun body more acts => .pure ⟨.ref ?_, fun named => ?_, rfl⟩
  · exact (Derives.sequence (.token _) (.sequence (.token _) (.sequence spells.derives
      (.sequence (.token _) (.sequence acts.derives .empty))))).cast (by simp [opened, closed])
  · simp only [List.append_nil, List.singleton_append, named_append, named_cons] at named
    exact ⟨spells.plain named.2.1, acts.binds, acts.plain named.2.2.2⟩

theorem takes_ifStatement (takes : Takes statement (Acts .statement)) (line : Nat) :
    Takes (ifStatement budget statement line) fun s used =>
      Phrase .ifStmt (.ifWord :: kinds used) ∧ (Named used → s.Plain) ∧ s.binds = none := by
  refine Takes.expect.bind ?_
  rintro begin _ ⟨rfl, opened⟩
  refine (takes_expression budget).bind fun c used spells => Takes.expect.bind ?_
  rintro stop _ ⟨rfl, closed⟩
  refine takes.bind fun first more acts => Takes.accept?.bind fun o others found => ?_
  cases o with
  | none =>
      subst found
      refine .pure ⟨.ref ?_, fun named => ?_, rfl⟩
      · exact (Derives.sequence (.token _) (.sequence (.token _) (.sequence spells.derives
          (.sequence (.token _) (.sequence acts.derives (.sequence .absent .empty)))))).cast
            (by simp [opened, closed])
      · simp only [List.append_nil, List.singleton_append, named_append, named_cons] at named
        exact ⟨spells.plain named.2.1, acts.binds, acts.plain named.2.2.2⟩
  | some word =>
      obtain ⟨rfl, same⟩ := found
      refine takes.bind fun second others acts' => .pure ⟨.ref ?_, fun named => ?_, rfl⟩
      · exact (Derives.sequence (.token _) (.sequence (.token _) (.sequence spells.derives
          (.sequence (.token _) (.sequence acts.derives (.sequence (.present (.sequence (.token _)
            (.sequence acts'.derives .empty))) .empty)))))).cast (by simp [opened, closed, same])
      · simp only [List.append_nil, List.singleton_append, named_append, named_cons] at named
        exact ⟨spells.plain named.2.1, ⟨acts.binds, acts.plain named.2.2.2.1⟩, acts'.binds,
          acts'.plain named.2.2.2.2.2⟩

theorem takes_forInitializer : Takes (forInitializer budget) fun o used =>
    Derives (· ≤ maxEntries) (.choice [.ref .varDecl, .ref .exprStmt, .token .semicolon])
      (kinds used) ∧ (Named used → ∀ s, o = some s → s.Plain) := by
  refine Takes.accept?.bind fun o used found => ?_
  cases o with
  | some stop =>
      obtain ⟨rfl, ended⟩ := found
      refine .pure ⟨.choice (p := .token .semicolon) (by simp) ?_, fun _ => by simp⟩
      exact (Derives.token .semicolon).cast (by simp [ended])
  | none =>
      subst found
      refine Takes.accept?.bind fun o used found => ?_
      cases o with
      | some word =>
          obtain ⟨rfl, same⟩ := found
          refine Takes.map (takes_variableDeclaration.imp fun s more spelled => ⟨?_, ?_⟩)
          · exact .choice (p := .ref .varDecl) (by simp) (spelled.1.cast (by simp [same]))
          · rintro named _ ⟨⟩
            exact spelled.2 (named_cons.mp (named_append.mp named).2).2
      | none =>
          subst found
          refine Takes.map (takes_expressionStatement.imp fun s more acts => ⟨?_, ?_⟩)
          · exact .choice (p := .ref .exprStmt) (by simp) acts.derives
          · rintro named _ ⟨⟩
            exact acts.plain named

/-- What a `for` stands for is plain if its parts are. -/
theorem forStatement_plain {line : Nat} {initializer : Option RawStmt}
    {condition increment : Option RawExpr} {body : RawStmt}
    (first : ∀ s, initializer = some s → s.Plain) (second : OptionPlain condition)
    (third : OptionPlain increment) (binds : body.binds = none) (last : body.Plain) :
    (forStatement line initializer condition increment body).Plain := by
  have test : (condition.getD (.literal line (.bool true))).Plain := by
    cases condition with
    | none => trivial
    | some c => exact second c rfl
  cases initializer <;> cases increment <;>
    simp_all [forStatement, Stmt.Plain, plainBody, OptionPlain, Stmt.binds]

theorem forStatement_binds (line : Nat) (initializer : Option RawStmt)
    (condition increment : Option RawExpr) (body : RawStmt) :
    (forStatement line initializer condition increment body).binds = none := by
  cases initializer <;> rfl

theorem takes_forLoop (takes : Takes statement (Acts .statement)) (line : Nat) :
    Takes (forLoop budget statement line) fun s used =>
      Phrase .forStmt (.forWord :: kinds used) ∧ (Named used → s.Plain) ∧ s.binds = none := by
  refine Takes.expect.bind ?_
  rintro begin _ ⟨rfl, opened⟩
  refine takes_forInitializer.bind fun initializer used₁ first => ?_
  refine (takes_optionalExpression .semicolon).bind fun c used₂ second => Takes.expect.bind ?_
  rintro stop _ ⟨rfl, ended⟩
  refine (takes_optionalExpression .rightParen).bind fun i used₃ third => Takes.expect.bind ?_
  rintro close _ ⟨rfl, closed⟩
  refine takes.bind fun body used₄ acts => .pure
    ⟨.ref ?_, fun named => ?_, forStatement_binds _ _ _ _ _⟩
  · exact (Derives.sequence (.token _) (.sequence (.token _) (.sequence first.1
      (.sequence second.1 (.sequence (.token _) (.sequence third.1 (.sequence (.token _)
        (.sequence acts.derives .empty)))))))).cast (by simp [opened, ended, closed])
  · simp only [List.append_nil, List.singleton_append, named_append, named_cons] at named
    exact forStatement_plain (first.2 named.2.1) (second.2 named.2.2.1) (third.2 named.2.2.2.2.1)
      acts.binds (acts.plain named.2.2.2.2.2.2)

/-- Declarations one after another. -/
def Sequel (found : List (Option RawStmt)) (used : List Token) : Prop :=
  Derives (· ≤ maxEntries) (.many (.ref .declaration)) (kinds used) ∧
    (Named used → plainBody (found.filterMap id))

/-- What a declaration is read as. -/
def Declared (o : Option RawStmt) (used : List Token) : Prop :=
  ∃ s, o = some s ∧ Forms .declaration s used

theorem Sequel.nil : Sequel [] [] := ⟨.none, fun _ => trivial⟩

theorem Sequel.cons {o : Option RawStmt} {os : List (Option RawStmt)} {used more : List Token}
    (declared : Declared o used) (sequel : Sequel os more) : Sequel (o :: os) (used ++ more) := by
  obtain ⟨s, rfl, forms⟩ := declared
  refine ⟨(Derives.more forms.derives sequel.1).cast (by simp), fun named => ?_⟩
  obtain ⟨named₁, named₂⟩ := named_append.mp named
  exact ⟨forms.plain named₁, sequel.2 named₂⟩

theorem takes_block (takes : Takes declaration Declared) : Takes (block budget declaration)
    fun body used => Phrase .block (.leftBrace :: kinds used) ∧ (Named used → plainBody body) := by
  refine (Takes.untilBrace takes Sequel.nil (fun _ _ _ _ => Sequel.cons) budget).bind ?_
  intro found used sequel
  refine Takes.expect.bind ?_
  rintro stop _ ⟨rfl, closed⟩
  refine .pure ⟨.ref ?_, fun named => sequel.2 (named_append.mp named).1⟩
  exact (Derives.sequence (.token _) (.sequence sequel.1 (.sequence (.token _) .empty))).cast
    (by simp [closed])

theorem takes_routine (takes : Takes declaration Declared) (kind : RoutineKind) :
    Takes (routine budget declaration kind) fun r used =>
      Phrase .function (kinds used) ∧ (Named used → r.name.Ordinary ∧ r.Plain) := by
  have list : Takes (entries .tooManyParameters (expectName .parameterName) budget 0)
      fun params used => Maybe .parameters used ∧ (Named used → ∀ p ∈ params, p.Ordinary) := by
    refine (Takes.expectName.entries budget 0).imp ?_
    rintro _ used ⟨parts, some, room, rfl, spelled, all, named⟩
    constructor
    · rw [Maybe, spelled]
      refine .present (.ref (.entries (by simpa using some) (by simpa using room) ?_))
      intro ks member
      obtain ⟨part, member', rfl⟩ := List.mem_map.mp member
      exact (Derives.token .identifier).cast (all part member').1
    · intro whole p member
      obtain ⟨part, member', rfl⟩ := List.mem_map.mp member
      exact (all part member').2 (named whole part member')
  refine Takes.expectName.bind fun name used₁ spelled => Takes.expect.bind ?_
  rintro begin _ ⟨rfl, opened⟩
  have rest {x : Reading (List Name)} (inner : Takes x fun params used =>
      Maybe .parameters used ∧ (Named used → ∀ p ∈ params, p.Ordinary)) :
      Takes (do
        let params ← x
        let _ ← expect .rightParen .parametersEnd
        let _ ← expect .leftBrace (.routineBodyStart kind)
        let body ← block budget declaration
        Pure.pure (Routine.mk name params body)) fun r more =>
          Phrase .function (kinds (used₁ ++ (begin :: more))) ∧
            (Named (used₁ ++ (begin :: more)) → r.name.Ordinary ∧ r.Plain) := by
    refine inner.bind fun params used₂ first => Takes.expect.bind ?_
    rintro stop _ ⟨rfl, closed⟩
    refine Takes.expect.bind ?_
    rintro brace _ ⟨rfl, braced⟩
    refine (takes_block takes).bind fun body used₃ second => .pure ⟨.ref ?_, fun named => ?_⟩
    · exact (Derives.sequence (.token _) (.sequence (.token _) (.sequence first.1
        (.sequence (.token _) (.sequence second.1 .empty))))).cast
          (by simp [spelled.1, opened, closed, braced])
    · simp only [List.append_nil, List.singleton_append, named_append, named_cons] at named
      exact ⟨spelled.2 named.1, first.2 named.2.2.1, second.2 named.2.2.2.2.2⟩
  refine (Takes.nextIs (E := fun _ used => used = []) fun _ => rfl).bind fun next _ none => ?_
  subst none
  cases next with
  | true => exact rest (.pure ⟨.absent, fun _ => by simp⟩)
  | false => exact rest list

/-- Methods one after another. -/
theorem takes_methods (takes : Takes declaration Declared) (n : Nat) :
    Takes (untilBrace (routine budget declaration .method) n) fun methods used =>
      Derives (· ≤ maxEntries) (.many (.ref .function)) (kinds used) ∧
        (Named used → plainMethods methods) := by
  refine Takes.untilBrace (takes_routine takes .method) ⟨.none, fun _ => trivial⟩ ?_ n
  intro r rs used more first others
  refine ⟨(Derives.more first.1 others.1).cast (by simp), fun named => ?_⟩
  obtain ⟨named₁, named₂⟩ := named_append.mp named
  exact ⟨(first.2 named₁).2, others.2 named₂⟩

theorem takes_superclass : Takes superclass fun _ used =>
    Derives (· ≤ maxEntries) (.optional (.sequence [.token .less, .token .identifier]))
      (kinds used) := by
  refine Takes.accept?.bind fun o used found => ?_
  cases o with
  | none =>
      subst found
      exact .pure .absent
  | some less =>
      obtain ⟨rfl, same⟩ := found
      refine Takes.expectName.bind fun name more spelled => .pure (.present ?_)
      exact (Derives.sequence (.token _) (.sequence (.token _) .empty)).cast
        (by simp [same, spelled.1])

theorem takes_classDeclaration (takes : Takes declaration Declared) :
    Takes (classDeclaration budget declaration) fun s used =>
      Phrase .classDecl (.classWord :: kinds used) ∧ (Named used → s.Plain) := by
  refine Takes.expectName.bind fun name used₁ spelled => ?_
  refine takes_superclass.bind fun parent used₂ above => Takes.expect.bind ?_
  rintro begin _ ⟨rfl, opened⟩
  refine (takes_methods takes budget).bind fun methods used₃ inner => Takes.expect.bind ?_
  rintro stop _ ⟨rfl, closed⟩
  refine .pure ⟨.ref ?_, fun named => ?_⟩
  · exact (Derives.sequence (.token _) (.sequence (.token _) (.sequence above (.sequence (.token _)
      (.sequence inner.1 (.sequence (.token _) .empty)))))).cast
        (by simp [spelled.1, opened, closed])
  · simp only [List.append_nil, List.singleton_append, named_append, named_cons] at named
    exact ⟨spelled.2 named.1, inner.2 named.2.2.2.1⟩

theorem takes_statementLevel (statements : Takes statement (Acts .statement))
    (declarations : Takes declaration Declared) :
    Takes (statementLevel budget statement declaration) (Acts .statement) := by
  intro ts
  have simple : Takes (expressionStatement budget) (Acts .statement) :=
    takes_expressionStatement.imp fun s used acts => acts.statement (by simp)
  cases ts with
  | nil => exact simple []
  | cons t ts =>
      simp only [statementLevel]
      split
      case h_1 same =>
        refine .cons ((takes_forLoop statements t.pos.line).imp ?_ ts)
        exact fun s used formed => (Acts.behind same formed).statement (by simp)
      case h_2 same =>
        refine .cons ((takes_ifStatement statements t.pos.line).imp ?_ ts)
        exact fun s used formed => (Acts.behind same formed).statement (by simp)
      case h_3 same =>
        refine .cons ((takes_printStatement t.pos.line).imp ?_ ts)
        exact fun s used formed => (Acts.behind same formed).statement (by simp)
      case h_4 same =>
        refine .cons ((takes_returnStatement t.pos).imp ?_ ts)
        exact fun s used formed => (Acts.behind same formed).statement (by simp)
      case h_5 same =>
        refine .cons ((takes_whileStatement statements t.pos.line).imp ?_ ts)
        exact fun s used formed => (Acts.behind same formed).statement (by simp)
      case h_6 same =>
        refine .cons (Takes.map ((takes_block declarations).imp ?_) ts)
        intro body used formed
        have acts : Acts .block (.block t.pos.line body) (t :: used) :=
          .behind same ⟨formed.1, formed.2, rfl⟩
        exact acts.statement (by simp)
      case h_7 => exact simple (t :: ts)

theorem takes_declarationLevel (statements : Takes statement (Acts .statement))
    (declarations : Takes declaration Declared) :
    Takes (declarationLevel budget statement declaration) (Forms .declaration) := by
  intro ts
  have simple : Takes (statementLevel budget statement declaration) (Forms .declaration) :=
    (takes_statementLevel statements declarations).imp fun s used acts =>
      acts.toForms.declaration (by simp)
  cases ts with
  | nil => exact simple []
  | cons t ts =>
      simp only [declarationLevel]
      split
      case h_1 same =>
        refine .cons ((takes_classDeclaration declarations).imp ?_ ts)
        exact fun s used formed => (Forms.behind same formed.1 formed.2).declaration (by simp)
      case h_2 same =>
        refine .cons (Takes.map ((takes_routine declarations .function).imp ?_) ts)
        intro r used formed
        have derives : Phrase .funDecl (.funWord :: kinds used) :=
          .ref ((Derives.sequence (.token _) (.sequence formed.1 .empty)).cast (by simp))
        have forms : Forms .funDecl (.function r) (t :: used) := .behind same derives formed.2
        exact forms.declaration (by simp)
      case h_3 same =>
        refine .cons (takes_variableDeclaration.imp ?_ ts)
        exact fun s used formed => (Forms.behind same formed.1 formed.2).declaration (by simp)
      case h_4 => exact simple (t :: ts)

theorem takes_statement_declaration (n : Nat) :
    Takes (Reading.statement n) (Acts .statement) ∧ Takes (Reading.declaration n) Declared := by
  induction n with
  | zero => exact ⟨.fail, Takes.fail.recover⟩
  | succ n ih =>
      constructor
      · exact takes_statementLevel ih.1 ih.2
      · exact (takes_declarationLevel ih.1 ih.2).recover

/-- Items that take tokens leave none behind. -/
theorem untilEnd_rest {α : Type} {item : Reading α} {D : α → List Token → Prop}
    (takes : Takes item D) (solid : ∀ a used, D a used → used ≠ []) (n : Nat) :
    ∀ ts : List Token, ts.length ≤ n → (untilEnd item n ts).issues = [] →
      (untilEnd item n ts).rest = [] := by
  induction n with
  | zero =>
      intro ts short _
      exact List.eq_nil_of_length_eq_zero (Nat.le_zero.mp short)
  | succ n ih =>
      intro ts short quiet
      by_cases none : ts.isEmpty = true
      · have empty := List.isEmpty_iff.mp none
        subst empty
        simp [untilEnd]
      · simp only [untilEnd, if_neg none] at quiet ⊢
        cases value : (item ts).value? with
        | none =>
            simp only [bind, value] at quiet
            obtain ⟨a, _, some, -⟩ := takes ts quiet
            rw [value] at some
            cases some
        | some a =>
            rw [bind_run item _ ts value, bind_pure_run] at quiet ⊢
            obtain ⟨quiet₁, quiet₂⟩ := List.append_eq_nil_iff.mp quiet
            obtain ⟨a', used, value', split, d⟩ := takes ts quiet₁
            have taken := List.length_pos_iff.mpr (solid a' used d)
            have whole := congrArg List.length split
            rw [List.length_append] at whole
            exact ih (item ts).rest (by omega) quiet₂

end Reading

/-- A declaration takes some tokens. -/
theorem Reading.Declared.some {o : Option RawStmt} {used : List Token}
    (declared : Reading.Declared o used) : used ≠ [] := by
  obtain ⟨s, -, forms⟩ := declared
  rintro rfl
  exact forms.derives.ne_nil rfl rfl

/-- Where no issues are found, the declarations of a program take all tokens. -/
theorem parse_took {D : Option RawStmt → List Token → Prop}
    {E : List (Option RawStmt) → List Token → Prop}
    (takes : ∀ n, Reading.Takes (Reading.declaration n) D) (solid : ∀ o used, D o used → used ≠ [])
    (nil : E [] []) (cons : ∀ o os used more, D o used → E os more → E (o :: os) (used ++ more))
    {tokens : List Token} (quiet : (parse tokens).issues = []) :
    ∃ found, (parse tokens).program = found.filterMap id ∧ E found tokens := by
  have items : (Reading.untilEnd (Reading.declaration tokens.length) tokens.length
      tokens).issues = [] := by
    simpa only [parse, Reading.program, Reading.bind_pure_run] using quiet
  have rest := Reading.untilEnd_rest (takes tokens.length) solid tokens.length tokens
    (Nat.le_refl _) items
  obtain ⟨found, used, value, split, e⟩ :=
    Reading.Takes.untilEnd (takes tokens.length) nil cons tokens.length tokens items
  rw [rest, List.append_nil] at split
  subst split
  refine ⟨found, ?_, e⟩
  simp only [parse, Reading.program, Reading.bind_pure_run, value, Option.map_some,
    Option.getD_some]

/-- Tokens that are read without issues derive from the grammar, all of them. -/
theorem parse_sound {tokens : List Token} (quiet : (parse tokens).issues = []) :
    Phrase .program (kinds tokens) ∧ (Named tokens → plainBody (parse tokens).program) := by
  obtain ⟨found, whole, sequel⟩ := parse_took
    (fun n => (Reading.takes_statement_declaration n).2) (fun _ _ declared => declared.some)
    Reading.Sequel.nil (fun _ _ _ _ => Reading.Sequel.cons) quiet
  rw [whole]
  exact ⟨.ref sequel.1, sequel.2⟩

end LoxLang
