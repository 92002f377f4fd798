import LoxLang.Proofs.Grammar.Exact
import LoxLang.Proofs.Grammar.Statements
import LoxLang.Proofs.Writing.Taking
/-! Statements that are read without issues are written by the tokens that the reading takes, unless
there is a `for` among these. A reading never stops in front of an `else` that it could take. -/
namespace LoxLang
namespace Reading

section
variable {α β : Type} {x : Reading α} {f : α → Reading β} {M : α → List Token → Prop}
  {L : β → List Token → Prop}

namespace Leaves

theorem bind_of (first : Leaves x M)
    (second : ∀ a ts, M a ts → ∀ b, (f a ts).value? = some b → L b (f a ts).rest) :
    Leaves (x >>= f) L := by
  intro ts b some
  cases value : (x ts).value? with
  | none =>
      simp only [Bind.bind, value] at some
      cases some
  | some a =>
      rw [bind_run x f ts value] at some ⊢
      exact second a _ (first ts a value) b some

/-- What is left in the end is left by the last reading. -/
theorem bind (second : ∀ a, Leaves (f a) L) : Leaves (x >>= f) L :=
  bind_of (M := fun _ _ => True) (fun _ _ _ => trivial) fun a ts _ => second a ts

theorem pure {b : β} (l : ∀ ts, L b ts) : Leaves (Pure.pure b : Reading β) L := by
  rintro ts _ ⟨⟩
  exact l ts

theorem map {g : α → β} (first : Leaves x M) (imp : ∀ a ts, M a ts → L (g a) ts) :
    Leaves (x >>= fun a => Pure.pure (g a)) L :=
  first.bind_of fun a ts m b some => by
    cases some
    exact imp a ts m

theorem fail {cause : SyntaxError} : Leaves (Reading.fail cause : Reading β) L := by
  rintro ts b ⟨⟩

/-- A token of the kind that is not taken does not stand there. -/
theorem accept? {kind : Kind} :
    Leaves (Reading.accept? kind) fun o ts => o = none → Ends [kind] ts := by
  intro ts o some
  cases ts with
  | nil => exact fun _ => Ends.nil
  | cons t ts =>
      by_cases same : t.kind = kind
      · simp only [Reading.accept?, if_pos same] at some ⊢
        cases some
        rintro ⟨⟩
      · simp only [Reading.accept?, if_neg same] at some ⊢
        exact fun _ => .cons (by simpa using same)

end Leaves
end

/-- Behind a statement that could take an `else` there is none. -/
def Trails (s : RawStmt) (ts : List Token) : Prop := s.takesElse = true → Ends [.elseWord] ts

theorem Trails.shut {s : RawStmt} (shut : s.takesElse = false) (ts : List Token) : Trails s ts :=
  fun takes => absurd takes (by rw [shut]; decide)

section
variable {budget : Nat} {statement : Reading RawStmt} {declaration : Reading (Option RawStmt)}

theorem forStatement_takesElse {line : Nat} {initializer : Option RawStmt}
    {condition increment : Option RawExpr} {body : RawStmt}
    (takes : (forStatement line initializer condition increment body).takesElse = true) :
    body.takesElse = true := by
  cases initializer <;> cases increment <;> simp_all [forStatement, Stmt.takesElse]

theorem ifStatement_trails (trails : Leaves statement Trails) (line : Nat) :
    Leaves (ifStatement budget statement line) Trails := by
  refine .bind fun _ => .bind fun c => .bind fun _ => .bind fun s => ?_
  refine Leaves.accept?.bind_of fun o ts stops b some => ?_
  cases o with
  | none =>
      cases some
      exact fun _ => stops rfl
  | some word =>
      exact trails.map (g := Stmt.ifElse line c s) (fun _ _ trails => trails) ts b some

theorem statementLevel_trails (trails : Leaves statement Trails) :
    Leaves (statementLevel budget statement declaration) Trails := by
  intro ts
  have simple : Leaves (expressionStatement budget) Trails :=
    .bind fun _ => .bind fun _ => .pure (Trails.shut rfl)
  cases ts with
  | nil => exact simple []
  | cons t ts =>
      simp only [statementLevel]
      split
      case h_1 same =>
        have loop : Leaves (forLoop budget statement t.pos.line) Trails :=
          .bind fun _ => .bind fun _ => .bind fun _ => .bind fun _ => .bind fun _ =>
            .bind fun _ => trails.map fun _ _ trails takes => trails (forStatement_takesElse takes)
        exact loop ts
      case h_2 same => exact ifStatement_trails trails t.pos.line ts
      case h_3 same =>
        have print : Leaves (printStatement budget t.pos.line) Trails :=
          .bind fun _ => .bind fun _ => .pure (Trails.shut rfl)
        exact print ts
      case h_4 same =>
        have ret : Leaves (returnStatement budget t.pos) Trails :=
          .bind fun _ => .bind fun _ => .pure (Trails.shut rfl)
        exact ret ts
      case h_5 same =>
        have loop : Leaves (whileStatement budget statement t.pos.line) Trails :=
          .bind fun _ => .bind fun _ => .bind fun _ => trails.map fun _ _ trails => trails
        exact loop ts
      case h_6 same =>
        have block : Leaves (Stmt.block t.pos.line <$> block budget declaration) Trails :=
          .bind fun _ => .pure (Trails.shut rfl)
        exact block ts
      case h_7 => exact simple (t :: ts)

end

theorem statement_trails (n : Nat) : Leaves (statement n) Trails := by
  induction n with
  | zero => exact .fail
  | succ n ih => exact statementLevel_trails ih

end Reading

/-- There is no `for` among the tokens. -/
def Forless (us : List Token) : Prop := ∀ t ∈ us, t.kind ≠ .forWord

@[simp] theorem forless_append {us vs : List Token} :
    Forless (us ++ vs) ↔ Forless us ∧ Forless vs := List.forall_mem_append

@[simp] theorem forless_cons {t : Token} {us : List Token} :
    Forless (t :: us) ↔ t.kind ≠ .forWord ∧ Forless us := List.forall_mem_cons

theorem Forless.part {list : List (List Token)} (whole : Forless list.flatten) :
    ∀ us ∈ list, Forless us :=
  fun us member t inside => whole t (List.mem_flatten.mpr ⟨us, member, inside⟩)

/-- The tokens write the declaration, unless there is a `for` among them. -/
def WritesDecl (s : RawStmt) (us : List Token) : Prop := Forless us → WrittenStmt s us

/-- The tokens write the statement, which is no declaration. -/
def WritesStmt (s : RawStmt) (us : List Token) : Prop :=
  Forless us → WrittenStmt s us ∧ s.binds = none

theorem WritesStmt.declaration {s : RawStmt} {us : List Token} (writes : WritesStmt s us) :
    WritesDecl s us := fun whole => (writes whole).1

namespace Reading
variable {budget : Nat} {statement : Reading RawStmt} {declaration : Reading (Option RawStmt)}

/-- Names with one token each. -/
theorem names_of_parts {parts : List (Name × List Token)}
    (all : ∀ part ∈ parts, ∃ t, part.2 = [t] ∧ t.kind = .identifier ∧ part.1 = t.name) :
    ∃ ts : List Token, parts.map Prod.snd = ts.map (fun t => [t]) ∧
      parts.map Prod.fst = ts.map Token.name ∧ ∀ t ∈ ts, t.kind = .identifier := by
  induction parts with
  | nil => exact ⟨[], rfl, rfl, by simp⟩
  | cons part parts ih =>
      obtain ⟨⟨t, single, same, named⟩, later⟩ := List.forall_mem_cons.mp all
      obtain ⟨ts, pieces, names, kinds⟩ := ih later
      refine ⟨t :: ts, ?_, ?_, List.forall_mem_cons.mpr ⟨same, kinds⟩⟩
      · rw [List.map_cons, List.map_cons, single, pieces]
      · rw [List.map_cons, List.map_cons, named, names]

theorem written_variableDeclaration {word : Token} (same : word.kind = .varWord) :
    Takes (variableDeclaration budget) fun s used => WritesDecl s (word :: used) := by
  refine Takes.name.bind fun _ _ named => Takes.accept?.bind fun o more found => ?_
  obtain ⟨name, rfl, identifier, rfl⟩ := named
  cases o with
  | none =>
      subst found
      refine Takes.expect.bind ?_
      rintro stop _ ⟨rfl, ended⟩
      exact .pure fun _ => .declare same identifier ended
  | some equals =>
      obtain ⟨rfl, sign⟩ := found
      refine (written_expression budget).bind fun value more stands => Takes.expect.bind ?_
      rintro stop _ ⟨rfl, ended⟩
      exact .pure fun _ => by
        simpa using WrittenStmt.define same identifier sign stands.written ended

theorem written_expressionStatement :
    Takes (expressionStatement budget) WritesStmt := by
  refine (written_expression budget).bind fun value used stands => Takes.expect.bind ?_
  rintro stop _ ⟨rfl, ended⟩
  exact .pure fun _ => ⟨by simpa using WrittenStmt.expression stands.written ended, rfl⟩

theorem written_printStatement {word : Token} (same : word.kind = .printWord) :
    Takes (printStatement budget word.pos.line) fun s used =>
      WritesStmt s (word :: used) := by
  refine (written_expression budget).bind fun value used stands => Takes.expect.bind ?_
  rintro stop _ ⟨rfl, ended⟩
  exact .pure fun _ => ⟨by simpa using WrittenStmt.print same stands.written ended, rfl⟩

theorem written_returnStatement {word : Token} (same : word.kind = .returnWord) :
    Takes (returnStatement budget word.pos) fun s used =>
      WritesStmt s (word :: used) := by
  have value : Takes (optionalExpression budget .semicolon) fun o used =>
      (o = none ∧ used = []) ∨ ∃ e, o = some e ∧ Written e used := by
    refine (Takes.nextIs (E := fun _ used => used = []) fun _ => rfl).bind fun next _ none => ?_
    subst none
    cases next with
    | true => exact .pure (.inl ⟨rfl, rfl⟩)
    | false => exact Takes.map ((written_expression budget).imp fun e used stands =>
        .inr ⟨e, rfl, stands.written⟩)
  refine value.bind fun o used found => Takes.expect.bind ?_
  rintro stop _ ⟨rfl, ended⟩
  refine .pure fun _ => ⟨?_, rfl⟩
  rcases found with ⟨rfl, rfl⟩ | ⟨e, rfl, written⟩
  · exact .exit same ended
  · simpa using WrittenStmt.ret same written ended

theorem written_whileStatement (takes : Takes statement WritesStmt) {word : Token}
    (same : word.kind = .whileWord) :
    Takes (whileStatement budget statement word.pos.line) fun s used =>
      WritesStmt s (word :: used) := by
  refine Takes.expect.bind ?_
  rintro start _ ⟨rfl, opened⟩
  refine (written_expression budget).bind fun c used stands => Takes.expect.bind ?_
  rintro stop _ ⟨rfl, closed⟩
  refine takes.bind fun body more writes => .pure fun whole => ⟨?_, rfl⟩
  simp only [List.append_nil, List.singleton_append, forless_append, forless_cons] at whole
  obtain ⟨written, binds⟩ := writes whole.2.2.2.2
  simpa using WrittenStmt.loop same opened stands.written closed written binds

theorem written_ifStatement (takes : Takes statement WritesStmt)
    (trails : Leaves statement Trails) {word : Token} (same : word.kind = .ifWord) :
    Takes (ifStatement budget statement word.pos.line) fun s used =>
      WritesStmt s (word :: used) := by
  refine Takes.expect.bind ?_
  rintro start _ ⟨rfl, opened⟩
  refine (written_expression budget).bind fun c used stands => Takes.expect.bind ?_
  rintro stop _ ⟨rfl, closed⟩
  refine takes.bind_leaves trails fun s more ts writes stops => ?_
  have without (more' : List Token) (none : more' = []) : WritesStmt (.ifThen word.pos.line c s)
      (word :: ([start] ++ (used ++ ([stop] ++ (more ++ more'))))) := fun whole => by
    subst none
    simp only [List.append_nil, List.singleton_append, forless_append, forless_cons] at whole
    obtain ⟨written, binds⟩ := writes whole.2.2.2.2
    exact ⟨by simpa using WrittenStmt.ifThen same opened stands.written closed written binds, rfl⟩
  cases shut : s.takesElse with
  | true =>
      -- an `else` would have been taken with the branch
      rw [(Gives.accept_none ((stops shut).ne List.mem_cons_self)).bind_eq]
      exact Takes.pure (without [] rfl) ts
  | false =>
      refine Takes.accept?.bind (fun o others found => ?_) ts
      cases o with
      | none => exact .pure (by simpa using without others found)
      | some other =>
          obtain ⟨rfl, elsewise⟩ := found
          refine takes.bind fun s' others writes' => .pure fun whole => ⟨?_, rfl⟩
          simp only [List.append_nil, List.singleton_append, forless_append, forless_cons] at whole
          obtain ⟨written, binds⟩ := writes whole.2.2.2.2.1
          obtain ⟨written', binds'⟩ := writes' whole.2.2.2.2.2.2
          simpa using WrittenStmt.ifElse same opened stands.written closed written binds shut
            elsewise written' binds'

/-- What a declaration is read as. -/
def WritesSome (o : Option RawStmt) (us : List Token) : Prop := ∃ s, o = some s ∧ WritesDecl s us

/-- Declarations one after another, each with its tokens. -/
def WritesAll (found : List (Option RawStmt)) (us : List Token) : Prop :=
  ∃ parts : List (RawStmt × List Token), found.filterMap id = parts.map Prod.fst ∧
    us = (parts.map Prod.snd).flatten ∧ ∀ part ∈ parts, WritesDecl part.1 part.2

theorem WritesAll.nil : WritesAll [] [] := ⟨[], rfl, rfl, by simp⟩

theorem WritesAll.cons {o : Option RawStmt} {os : List (Option RawStmt)} {us vs : List Token}
    (here : WritesSome o us) (later : WritesAll os vs) : WritesAll (o :: os) (us ++ vs) := by
  obtain ⟨s, rfl, writes⟩ := here
  obtain ⟨parts, whole, rfl, all⟩ := later
  exact ⟨(s, us) :: parts, congrArg (s :: ·) whole, rfl, List.forall_mem_cons.mpr ⟨writes, all⟩⟩

theorem written_block (takes : Takes declaration WritesSome) :
    Takes (block budget declaration) fun body used =>
      ∃ (parts : List (RawStmt × List Token)) (stop : Token), body = parts.map Prod.fst ∧
        used = (parts.map Prod.snd).flatten ++ [stop] ∧ stop.kind = .rightBrace ∧
        ∀ part ∈ parts, WritesDecl part.1 part.2 := by
  refine (Takes.untilBrace takes WritesAll.nil (fun _ _ _ _ => WritesAll.cons) budget).bind ?_
  rintro found _ ⟨parts, whole, rfl, all⟩
  refine Takes.expect.bind ?_
  rintro stop _ ⟨rfl, closed⟩
  exact .pure ⟨parts, stop, whole, by simp, closed, all⟩

theorem written_routine (takes : Takes declaration WritesSome) (kind : RoutineKind) :
    Takes (routine budget declaration kind) fun r used => ∃ text : RoutineText,
      r = text.routine ∧ used = text.tokens ∧ text.Formed ∧
        ∀ part ∈ text.parts, WritesDecl part.1 part.2 := by
  refine Takes.name.bind fun _ _ named => Takes.expect.bind ?_
  obtain ⟨name, rfl, identifier, rfl⟩ := named
  rintro opening _ ⟨rfl, opened⟩
  have rest {x : Reading (List Name)} (inner : Takes x fun params used =>
      ∃ ts : List Token, params = ts.map Token.name ∧ Joined (ts.map fun t => [t]) used ∧
        ts.length ≤ maxEntries ∧ ∀ t ∈ ts, t.kind = .identifier) :
      Takes (do
        let params ← x
        let _ ← expect .rightParen .parametersEnd
        let _ ← expect .leftBrace (.routineBodyStart kind)
        let body ← block budget declaration
        Pure.pure (Routine.mk name.name params body)) fun r used => ∃ text : RoutineText,
          r = text.routine ∧ [name] ++ ([opening] ++ used) = text.tokens ∧ text.Formed ∧
            ∀ part ∈ text.parts, WritesDecl part.1 part.2 := by
    refine inner.bind fun params list found => Takes.expect.bind ?_
    obtain ⟨ts, rfl, joined, room, kinds⟩ := found
    rintro closing _ ⟨rfl, closed⟩
    refine Takes.expect.bind ?_
    rintro start _ ⟨rfl, braced⟩
    refine (written_block takes).bind fun body used found => .pure ?_
    obtain ⟨parts, stop, rfl, rfl, stopped, all⟩ := found
    refine ⟨⟨name, opening, ts, list, closing, start, parts, stop⟩, rfl,
      by simp [RoutineText.tokens], ?_, all⟩
    exact ⟨identifier, opened, kinds, room, joined, closed, braced, stopped⟩
  refine (Takes.nextIs (E := fun _ used => used = []) fun _ => rfl).bind fun next _ none => ?_
  subst none
  cases next with
  | true => exact rest (.pure ⟨[], rfl, .none, Nat.zero_le _, by simp⟩)
  | false =>
      refine rest ((Takes.name.entriesJoined budget 0).imp ?_)
      rintro _ used ⟨parts, -, room, rfl, joined, all⟩
      obtain ⟨ts, pieces, names, kinds⟩ := names_of_parts all
      refine ⟨ts, names, pieces ▸ joined, ?_, kinds⟩
      have sizes := congrArg List.length names
      simp only [List.length_map] at sizes
      omega

theorem written_superclass : Takes superclass WrittenAbove := by
  refine Takes.accept?.bind fun o used found => ?_
  cases o with
  | none =>
      subst found
      exact .pure .none
  | some less =>
      obtain ⟨rfl, sign⟩ := found
      refine Takes.name.bind fun _ _ named => .pure ?_
      obtain ⟨name, rfl, identifier, rfl⟩ := named
      exact .some sign identifier

theorem written_classDeclaration (takes : Takes declaration WritesSome) {word : Token}
    (same : word.kind = .classWord) :
    Takes (classDeclaration budget declaration) fun s used => WritesDecl s (word :: used) := by
  have methods : Takes (untilBrace (routine budget declaration .method) budget)
      fun methods used => ∃ texts : List RoutineText, methods = texts.map RoutineText.routine ∧
        used = (texts.map RoutineText.tokens).flatten ∧
        ∀ r ∈ texts, r.Formed ∧ ∀ part ∈ r.parts, WritesDecl part.1 part.2 := by
    refine (written_routine takes .method).untilBrace ⟨[], rfl, rfl, by simp⟩ ?_ budget
    rintro _ _ _ _ ⟨text, rfl, rfl, formed, all⟩ ⟨texts, rfl, rfl, later⟩
    exact ⟨text :: texts, rfl, rfl, List.forall_mem_cons.mpr ⟨⟨formed, all⟩, later⟩⟩
  refine Takes.name.bind fun _ _ named => written_superclass.bind fun parent above inherits => ?_
  obtain ⟨name, rfl, identifier, rfl⟩ := named
  refine Takes.expect.bind ?_
  rintro start _ ⟨rfl, opened⟩
  refine methods.bind fun _ used found => Takes.expect.bind ?_
  obtain ⟨texts, rfl, rfl, all⟩ := found
  rintro stop _ ⟨rfl, closed⟩
  refine .pure fun whole => ?_
  simp only [List.append_nil, List.singleton_append, forless_append, forless_cons] at whole
  have written : ∀ r ∈ texts, ∀ part ∈ r.parts, WrittenStmt part.1 part.2 := by
    intro r member part inside
    refine (all r member).2 part inside fun t found => ?_
    refine whole.2.2.2.2.1.part _ (List.mem_map_of_mem member) t ?_
    have body : t ∈ (r.parts.map Prod.snd).flatten :=
      List.mem_flatten.mpr ⟨_, List.mem_map_of_mem inside, found⟩
    simp [RoutineText.tokens, body]
  simpa using WrittenStmt.classDecl same identifier inherits opened
    (fun r member => (all r member).1) written closed

/-- A `for` is among the tokens that it is read from. -/
theorem written_forLoop (takes : Takes statement WritesStmt) {word : Token}
    (same : word.kind = .forWord) (line : Nat) :
    Takes (forLoop budget statement line) fun s used => WritesStmt s (word :: used) := by
  have loop : ∀ s used, WritesStmt s (word :: used) := fun s used whole =>
    absurd same (forless_cons.mp whole).1
  exact Takes.expect.bind fun _ _ _ => takes_forInitializer.bind fun _ _ _ =>
    (takes_optionalExpression .semicolon).bind fun _ _ _ => Takes.expect.bind fun _ _ _ =>
    (takes_optionalExpression .rightParen).bind fun _ _ _ => Takes.expect.bind fun _ _ _ =>
    takes.bind fun _ _ _ => .pure (loop _ _)

theorem written_statementLevel (statements : Takes statement WritesStmt)
    (trails : Leaves statement Trails) (declarations : Takes declaration WritesSome) :
    Takes (statementLevel budget statement declaration) WritesStmt := by
  intro ts
  cases ts with
  | nil => exact written_expressionStatement []
  | cons t ts =>
      simp only [statementLevel]
      split
      case h_1 same => exact .cons (written_forLoop statements same t.pos.line ts)
      case h_2 same => exact .cons (written_ifStatement statements trails same ts)
      case h_3 same => exact .cons (written_printStatement same ts)
      case h_4 same => exact .cons (written_returnStatement same ts)
      case h_5 same => exact .cons (written_whileStatement statements same ts)
      case h_6 same =>
        refine .cons (Takes.map ((written_block declarations).imp ?_) ts)
        rintro _ _ ⟨parts, stop, rfl, rfl, closed, all⟩ whole
        refine ⟨.block same (fun part member => all part member ?_) closed, rfl⟩
        exact (forless_append.mp (forless_cons.mp whole).2).1.part _ (List.mem_map_of_mem member)
      case h_7 => exact written_expressionStatement (t :: ts)

theorem written_declarationLevel (statements : Takes statement WritesStmt)
    (trails : Leaves statement Trails) (declarations : Takes declaration WritesSome) :
    Takes (declarationLevel budget statement declaration) WritesDecl := by
  intro ts
  have simple : Takes (statementLevel budget statement declaration) WritesDecl :=
    (written_statementLevel statements trails declarations).imp fun s used => WritesStmt.declaration
  cases ts with
  | nil => exact simple []
  | cons t ts =>
      simp only [declarationLevel]
      split
      case h_1 same => exact .cons (written_classDeclaration declarations same ts)
      case h_2 same =>
        refine .cons (Takes.map ((written_routine declarations .function).imp ?_) ts)
        rintro _ _ ⟨text, rfl, rfl, formed, all⟩ whole
        refine .function same formed fun part member => all part member fun v found => ?_
        have body : v ∈ (text.parts.map Prod.snd).flatten :=
          List.mem_flatten.mpr ⟨_, List.mem_map_of_mem member, found⟩
        exact whole v (by simp [RoutineText.tokens, body])
      case h_3 same => exact .cons (written_variableDeclaration same ts)
      case h_4 => exact simple (t :: ts)

theorem written_statement_declaration (n : Nat) :
    Takes (Reading.statement n) WritesStmt ∧ Takes (Reading.declaration n) WritesSome := by
  induction n with
  | zero => exact ⟨.fail, Takes.fail.recover⟩
  | succ n ih =>
      constructor
      · exact written_statementLevel ih.1 (statement_trails n) ih.2
      · exact (written_declarationLevel ih.1 (statement_trails n) ih.2).recover

end Reading

/-- A program that is read without issues, and without a `for`, is written by its tokens, statement
by statement. -/
theorem parse_written {tokens : List Token} (quiet : (parse tokens).issues = [])
    (forless : Forless tokens) : ∃ parts : List (RawStmt × List Token),
      (parse tokens).program = parts.map Prod.fst ∧ tokens = (parts.map Prod.snd).flatten ∧
        ∀ part ∈ parts, WrittenStmt part.1 part.2 := by
  have solid : ∀ o used, Reading.WritesSome o used → used ≠ [] := by
    rintro _ _ ⟨s, rfl, writes⟩ rfl
    obtain ⟨_, _, none, -⟩ := (writes (by simp [Forless])).starts
    cases none
  obtain ⟨found, whole, parts, program, rfl, all⟩ := parse_took
    (fun n => (Reading.written_statement_declaration n).2) solid Reading.WritesAll.nil
    (fun _ _ _ _ => Reading.WritesAll.cons) quiet
  refine ⟨parts, whole.trans program, rfl, fun part member => all part member ?_⟩
  exact forless.part _ (List.mem_map_of_mem member)

end LoxLang
