import LoxLang.Proofs.Grammar.Statements
import LoxLang.Proofs.Writing.Taking
/-! Where trees come from. All that a tree keeps of its source, but for lines, is a token of the
source or a constant that one of its tokens stands for. -/
namespace LoxLang

/-- What a tree keeps: a token, or a constant. -/
inductive Part where
  | token (t : Token)
  | constant (v : Literal)

/-- The part comes from the tokens. Of a `for` without a condition the constant has no token. -/
def Part.From (S : Token → Prop) : Part → Prop
  | token t => S t
  | constant v => v = .bool true ∨ ∃ t, S t ∧ Reading.constant? t = some v

section
variable {δ : Type}

mutual

def Expr.parts : Expr δ → List Part
  | .literal _ value => [.constant value]
  | .grouping _ inner => inner.parts
  | .var name _ => [.token name.token]
  | .assign name value _ => .token name.token :: value.parts
  | .unary op pos operand => .token (op.token pos) :: operand.parts
  | .binary left op pos right => .token (op.token pos) :: (left.parts ++ right.parts)
  | .logical left op pos right => .token (op.token pos) :: (left.parts ++ right.parts)
  | .conditional condition thenBranch elseBranch =>
    condition.parts ++ (thenBranch.parts ++ elseBranch.parts)
  | .call callee close arguments =>
    .token ⟨.rightParen, ")", close⟩ :: (callee.parts ++ partsOfAll arguments)
  | .member object name => .token name.token :: object.parts
  | .assignMember object name value => .token name.token :: (object.parts ++ value.parts)
  | .receiver pos _ => [.token (receiverToken pos)]
  | .inherited pos method _ => [.token (inheritedToken pos), .token method.token]

def partsOfAll : List (Expr δ) → List Part
  | [] => []
  | e :: rest => e.parts ++ partsOfAll rest

end

/-- The name of a superclass. -/
def Superclass.parts (parent : Option (Superclass δ)) : List Part :=
  match parent with
  | none => []
  | some parent => [.token parent.name.token]

mutual

def Stmt.parts : Stmt δ → List Part
  | .expression value | .print _ value => value.parts
  | .var name none => [.token name.token]
  | .var name (some value) => .token name.token :: value.parts
  | .block _ body => partsOfBody body
  | .ifThen _ condition thenBranch => condition.parts ++ thenBranch.parts
  | .ifElse _ condition thenBranch elseBranch =>
    condition.parts ++ (thenBranch.parts ++ elseBranch.parts)
  | .loop _ condition body => condition.parts ++ body.parts
  | .function declaration => declaration.parts
  | .classDecl name parent methods =>
    .token name.token :: (Superclass.parts parent ++ partsOfMethods methods)
  | .ret pos none => [.token (returnToken pos)]
  | .ret pos (some value) => .token (returnToken pos) :: value.parts

def Routine.parts : Routine δ → List Part
  | .mk name params body =>
    .token name.token :: (params.map (fun p => .token p.token) ++ partsOfBody body)

def partsOfBody : List (Stmt δ) → List Part
  | [] => []
  | s :: rest => s.parts ++ partsOfBody rest

def partsOfMethods : List (Routine δ) → List Part
  | [] => []
  | r :: rest => r.parts ++ partsOfMethods rest

end

end

theorem partsOfAll_eq {δ : Type} (es : List (Expr δ)) : partsOfAll es = es.flatMap Expr.parts := by
  induction es with
  | nil => rfl
  | cons e rest ih => rw [partsOfAll, ih, List.flatMap_cons]

variable {S : Token → Prop} {used more : List Token} {ps qs : List Part}

/-- The tokens are among those of the source. -/
def Given (S : Token → Prop) (used : List Token) : Prop := ∀ t ∈ used, S t

/-- All parts come from the tokens. -/
def Stem (S : Token → Prop) (ps : List Part) : Prop := ∀ p ∈ ps, p.From S

@[simp] theorem given_nil : Given S [] := fun _ member => absurd member List.not_mem_nil

@[simp] theorem given_append : Given S (used ++ more) ↔ Given S used ∧ Given S more :=
  List.forall_mem_append

@[simp] theorem given_cons {t : Token} : Given S (t :: used) ↔ S t ∧ Given S used :=
  List.forall_mem_cons

@[simp] theorem stem_nil : Stem S [] := fun _ member => absurd member List.not_mem_nil

@[simp] theorem stem_append : Stem S (ps ++ qs) ↔ Stem S ps ∧ Stem S qs := List.forall_mem_append

@[simp] theorem stem_token {t : Token} : Stem S (.token t :: ps) ↔ S t ∧ Stem S ps :=
  List.forall_mem_cons

/-- A token whose kind has one lexeme is known by its kind and its place. -/
theorem Token.Spelled.eq {t : Token} {k : Kind} {lexeme : String} (spelled : t.Spelled)
    (kind : t.kind = k) (fixed : k.spelling? = some lexeme) : t = ⟨k, lexeme, t.pos⟩ := by
  have same := spelled lexeme (kind ▸ fixed)
  cases t
  cases kind
  cases same
  rfl

theorem Token.token_name {t : Token} (kind : t.kind = .identifier) : t.name.token = t := by
  cases t
  cases kind
  rfl

theorem Reading.unaryOp?_spelled {t : Token} {op : UnaryOp} (spelled : t.Spelled)
    (found : unaryOp? t.kind = some op) : op.token t.pos = t := by
  have kind : t.kind = op.kind := by
    revert found
    cases t.kind <;> simp only [unaryOp?, Option.some.injEq, reduceCtorEq, false_implies]
    · rintro rfl
      rfl
    · rintro rfl
      rfl
  exact (spelled.eq kind (by cases op <;> decide)).symm

/-- An operation keeps its operator. -/
theorem Operator.parts_join (o : Operator) {left right : RawExpr} {t : Token} (spelled : t.Spelled)
    (kind : t.kind = o.kind) :
    (o.join left t.pos right).parts = .token t :: (left.parts ++ right.parts) := by
  cases o with
  | binary op =>
      have same : op.token t.pos = t := (spelled.eq kind (by cases op <;> decide)).symm
      rw [Operator.join, Expr.parts, same]
  | logical op =>
      have same : op.token t.pos = t := (spelled.eq kind (by cases op <;> decide)).symm
      rw [Operator.join, Expr.parts, same]

/-- Entries between commas come from tokens if each does. -/
theorem Joined.given {list : List (List Token)} (joined : Joined list used) (given : Given S used) :
    ∀ us ∈ list, Given S us := fun us member t inside => given t (joined.mem us member t inside)

/-- An expression comes from the tokens by which it is written. -/
theorem Written.stem (spelled : ∀ t, S t → t.Spelled) {e : RawExpr} (written : Written e used)
    (given : Given S used) : Stem S e.parts := by
  induction written with
  | @constant t value found =>
      exact List.forall_mem_singleton.mpr (.inr ⟨t, given t (List.mem_singleton_self t), found⟩)
  | var kind =>
      rw [Expr.parts, Token.token_name kind]
      simpa using given
  | @receiver t kind =>
      have here : S t := given t (List.mem_singleton_self t)
      have same : receiverToken t.pos = t := ((spelled t here).eq kind (by decide)).symm
      rw [Expr.parts, same]
      simpa using here
  | @inherited word dot name kind _ kind' =>
      simp only [given_cons] at given
      have same : inheritedToken word.pos = word := ((spelled word given.1).eq kind (by decide)).symm
      rw [Expr.parts, same, Token.token_name kind']
      simpa using ⟨given.1, given.2.2.1⟩
  | grouping _ _ _ ih =>
      simp only [given_cons, given_append] at given
      exact ih given.2.1
  | @call callee start stop us vs parts _ _ _ _ _ _ joined kind ih all =>
      simp only [given_cons, given_append] at given
      obtain ⟨inner, -, listed, closed, -⟩ := given
      have same : (⟨.rightParen, ")", stop.pos⟩ : Token) = stop :=
        ((spelled stop closed).eq kind (by decide)).symm
      rw [Expr.parts, same, stem_token, stem_append, partsOfAll_eq]
      refine ⟨closed, ih inner, fun p member => ?_⟩
      obtain ⟨e, there, inside⟩ := List.mem_flatMap.mp member
      obtain ⟨part, listed', rfl⟩ := List.mem_map.mp there
      exact all part listed' (joined.given listed _ (List.mem_map_of_mem listed')) p inside
  | member _ _ _ kind ih =>
      simp only [given_cons, given_append] at given
      rw [Expr.parts, Token.token_name kind, stem_token]
      exact ⟨given.2.2.1, ih given.1⟩
  | @unary op t e us found _ _ ih =>
      simp only [given_cons] at given
      rw [Expr.parts, Reading.unaryOp?_spelled (spelled t given.1) found, stem_token]
      exact ⟨given.1, ih given.2⟩
  | @operation o l r t us vs _ _ kind _ _ left right =>
      simp only [given_cons, given_append] at given
      rw [o.parts_join (spelled t given.2.1) kind, stem_token, stem_append]
      exact ⟨given.2.1, left given.1, right given.2.2⟩
  | conditional _ _ _ _ _ _ _ _ first second third =>
      simp only [given_cons, given_append] at given
      rw [Expr.parts, stem_append, stem_append]
      exact ⟨first given.1, second given.2.2.1, third given.2.2.2.2⟩
  | assign kind _ _ _ ih =>
      simp only [given_cons] at given
      rw [Expr.parts, Token.token_name kind, stem_token]
      exact ⟨given.1, ih given.2.2⟩
  | assignMember _ _ _ kind _ _ _ first second =>
      simp only [given_cons, given_append] at given
      rw [Expr.parts, Token.token_name kind, stem_token, stem_append]
      exact ⟨given.2.2.1, first given.1, second given.2.2.2.2⟩

/-- From the tokens that it takes come the parts of what is read. -/
def Springs {α : Type} (S : Token → Prop) (parts : α → List Part) (a : α) (used : List Token) :
    Prop :=
  Given S used → Stem S (parts a)

theorem Springs.behind {α : Type} {parts : α → List Part} {a : α} {used : List Token}
    (springs : Springs S parts a used) (t : Token) : Springs S parts a (t :: used) :=
  fun given => springs (given_cons.mp given).2

/-- What is read springs also from the tokens with the one before them. -/
theorem springs_behind {α : Type} {parts : α → List Part} {x : Reading α}
    (takes : Reading.Takes x (Springs S parts)) (t : Token) (ts : List Token) :
    (x ts).Took (t :: ts) (Springs S parts) :=
  .cons ((takes ts).imp fun _ _ springs => springs.behind t)

/-- The parts of what may be missing. -/
def partsOfOption {α : Type} (parts : α → List Part) : Option α → List Part
  | none => []
  | some a => parts a

theorem partsOfBody_filterMap (found : List (Option RawStmt)) :
    partsOfBody (found.filterMap id) = found.flatMap (partsOfOption Stmt.parts) := by
  induction found with
  | nil => rfl
  | cons o rest ih =>
      cases o with
      | none => exact ih
      | some s => exact congrArg (s.parts ++ ·) ih

/-- What a `for` stands for has the parts of its clauses and of its body. -/
theorem forStatement_stem {line : Nat} {initializer : Option RawStmt}
    {condition increment : Option RawExpr} {body : RawStmt}
    (first : Stem S (partsOfOption Stmt.parts initializer))
    (second : Stem S (partsOfOption Expr.parts condition))
    (third : Stem S (partsOfOption Expr.parts increment)) (last : Stem S body.parts) :
    Stem S (forStatement line initializer condition increment body).parts := by
  have test : Stem S (condition.getD (.literal line (.bool true))).parts := by
    cases condition with
    | none => exact List.forall_mem_singleton.mpr (.inl rfl)
    | some c => exact second
  cases initializer <;> cases increment <;>
    simp_all [forStatement, Stmt.parts, partsOfBody, partsOfOption]

/-- A name is one token. -/
def Name.parts (n : Name) : List Part := [.token n.token]

namespace Reading
variable {budget : Nat} {statement : Reading RawStmt} {declaration : Reading (Option RawStmt)}

/-- What is taken is so in two ways. -/
theorem Takes.and {α : Type} {x : Reading α} {D E : α → List Token → Prop} (first : Takes x D)
    (second : Takes x E) : Takes x fun a used => D a used ∧ E a used := by
  intro ts quiet
  obtain ⟨a, used, value, split, d⟩ := first ts quiet
  obtain ⟨a', used', value', split', e⟩ := second ts quiet
  cases value.symm.trans value'
  cases List.append_cancel_right (split.symm.trans split')
  exact ⟨a, used, value, split, d, e⟩

theorem springs_name {cause : SyntaxError} :
    Takes (expectName cause) (Springs S Name.parts) := by
  refine Takes.name.imp ?_
  rintro _ _ ⟨t, rfl, kind, rfl⟩ given
  rw [Name.parts, Token.token_name kind]
  simpa using given

section
variable (spelled : ∀ t, S t → t.Spelled)
include spelled

theorem springs_expression : Takes (expression budget) (Springs S Expr.parts) :=
  (written_expression budget).imp fun _ _ stands given => stands.written.stem spelled given

theorem springs_variableDeclaration : Takes (variableDeclaration budget) (Springs S Stmt.parts) := by
  refine (springs_name (S := S)).bind fun name used first => Takes.accept?.bind fun o more found => ?_
  cases o with
  | none =>
      subst found
      refine Takes.expect.bind ?_
      rintro stop _ ⟨rfl, -⟩
      exact .pure fun given => first (given_append.mp given).1
  | some equals =>
      obtain ⟨rfl, -⟩ := found
      refine (springs_expression spelled).bind fun value more second => Takes.expect.bind ?_
      rintro stop _ ⟨rfl, -⟩
      refine .pure fun given => ?_
      simp only [List.append_nil, given_append, given_cons] at given
      exact stem_append.mpr ⟨first given.1, second given.2.2.1⟩

theorem springs_expressionStatement : Takes (expressionStatement budget) (Springs S Stmt.parts) := by
  refine (springs_expression spelled).bind fun value used springs => Takes.expect.bind ?_
  rintro stop _ ⟨rfl, -⟩
  exact .pure fun given => springs (given_append.mp given).1

theorem springs_printStatement (line : Nat) :
    Takes (printStatement budget line) (Springs S Stmt.parts) := by
  refine (springs_expression spelled).bind fun value used springs => Takes.expect.bind ?_
  rintro stop _ ⟨rfl, -⟩
  exact .pure fun given => springs (given_append.mp given).1

theorem springs_optionalExpression (stop : Kind) :
    Takes (optionalExpression budget stop) (Springs S (partsOfOption Expr.parts)) := by
  refine (Takes.nextIs (E := fun _ used => used = []) fun _ => rfl).bind fun next _ none => ?_
  subst none
  cases next with
  | true => exact .pure fun _ => stem_nil
  | false => exact .map (springs_expression spelled)

theorem springs_returnStatement (t : Token) (kind : t.kind = .returnWord) :
    Takes (returnStatement budget t.pos) fun s used => Springs S Stmt.parts s (t :: used) := by
  refine (springs_optionalExpression spelled .semicolon).bind fun value used springs =>
    Takes.expect.bind ?_
  rintro stop _ ⟨rfl, -⟩
  refine .pure fun given => ?_
  simp only [given_append, given_cons] at given
  have same : returnToken t.pos = t := ((spelled t given.1).eq kind (by decide)).symm
  have inner := springs given.2.1
  cases value with
  | none =>
      rw [Stmt.parts, same, stem_token]
      exact ⟨given.1, stem_nil⟩
  | some e =>
      rw [Stmt.parts, same, stem_token]
      exact ⟨given.1, inner⟩

theorem springs_whileStatement (takes : Takes statement (Springs S Stmt.parts)) (line : Nat) :
    Takes (whileStatement budget statement line) (Springs S Stmt.parts) := by
  refine Takes.expect.bind ?_
  rintro begin _ ⟨rfl, -⟩
  refine (springs_expression spelled).bind fun c used first => Takes.expect.bind ?_
  rintro stop _ ⟨rfl, -⟩
  refine takes.bind fun body more second => .pure fun given => ?_
  simp only [List.append_nil, given_append, given_cons] at given
  exact stem_append.mpr ⟨first given.2.1, second given.2.2.2⟩

theorem springs_ifStatement (takes : Takes statement (Springs S Stmt.parts)) (line : Nat) :
    Takes (ifStatement budget statement line) (Springs S Stmt.parts) := by
  refine Takes.expect.bind ?_
  rintro begin _ ⟨rfl, -⟩
  refine (springs_expression spelled).bind fun c used first => Takes.expect.bind ?_
  rintro stop _ ⟨rfl, -⟩
  refine takes.bind fun body more second => Takes.accept?.bind fun o others found => ?_
  cases o with
  | none =>
      subst found
      refine .pure fun given => ?_
      simp only [List.append_nil, given_append, given_cons] at given
      exact stem_append.mpr ⟨first given.2.1, second given.2.2.2⟩
  | some word =>
      obtain ⟨rfl, -⟩ := found
      refine takes.bind fun other others third => .pure fun given => ?_
      simp only [List.append_nil, given_append, given_cons] at given
      exact stem_append.mpr ⟨first given.2.1,
        stem_append.mpr ⟨second given.2.2.2.1, third given.2.2.2.2.2⟩⟩

theorem springs_forInitializer :
    Takes (forInitializer budget) (Springs S (partsOfOption Stmt.parts)) := by
  refine Takes.accept?.bind fun o used found => ?_
  cases o with
  | some stop => exact .pure fun _ => stem_nil
  | none =>
      subst found
      refine Takes.accept?.bind fun o used found => ?_
      cases o with
      | some word =>
          exact .map ((springs_variableDeclaration spelled).imp fun s more springs given =>
            springs (given_append.mp (given_append.mp given).2).2)
      | none =>
          subst found
          exact .map (springs_expressionStatement spelled)

theorem springs_forLoop (takes : Takes statement (Springs S Stmt.parts)) (line : Nat) :
    Takes (forLoop budget statement line) (Springs S Stmt.parts) := by
  refine Takes.expect.bind ?_
  rintro begin _ ⟨rfl, -⟩
  refine (springs_forInitializer spelled).bind fun initializer used₁ first => ?_
  refine (springs_optionalExpression spelled .semicolon).bind fun c used₂ second =>
    Takes.expect.bind ?_
  rintro stop _ ⟨rfl, -⟩
  refine (springs_optionalExpression spelled .rightParen).bind fun i used₃ third =>
    Takes.expect.bind ?_
  rintro close _ ⟨rfl, -⟩
  refine takes.bind fun body used₄ last => .pure fun given => ?_
  simp only [List.append_nil, given_append, given_cons] at given
  exact forStatement_stem (first given.2.1) (second given.2.2.1) (third given.2.2.2.2.1)
    (last given.2.2.2.2.2.2)

end

theorem springs_block (takes : Takes declaration (Springs S (partsOfOption Stmt.parts))) :
    Takes (block budget declaration) (Springs S partsOfBody) := by
  refine (Takes.untilBrace (E := Springs S (List.flatMap (partsOfOption Stmt.parts))) takes
    (fun _ => stem_nil) ?_ budget).bind ?_
  · intro o os used more first others given
    rw [List.flatMap_cons, stem_append]
    obtain ⟨given₁, given₂⟩ := given_append.mp given
    exact ⟨first given₁, others given₂⟩
  · intro found used springs
    refine Takes.expect.bind ?_
    rintro stop _ ⟨rfl, -⟩
    refine .pure fun given => ?_
    rw [partsOfBody_filterMap]
    exact springs (given_append.mp given).1

theorem springs_routine (takes : Takes declaration (Springs S (partsOfOption Stmt.parts)))
    (kind : RoutineKind) : Takes (routine budget declaration kind) (Springs S Routine.parts) := by
  have list : Takes (entries .tooManyParameters (expectName .parameterName) budget 0)
      (Springs S (List.map fun p : Name => .token p.token)) := by
    refine ((springs_name (S := S)).entriesJoined budget 0).imp ?_
    rintro _ used ⟨parts, -, -, rfl, joined, all⟩ given p member
    obtain ⟨n, there, rfl⟩ := List.mem_map.mp member
    obtain ⟨part, listed, rfl⟩ := List.mem_map.mp there
    exact all part listed (joined.given given _ (List.mem_map_of_mem listed)) _
      (List.mem_singleton_self _)
  refine (springs_name (S := S)).bind fun name used₁ first => Takes.expect.bind ?_
  rintro begin _ ⟨rfl, -⟩
  have rest {x : Reading (List Name)}
      (inner : Takes x (Springs S (List.map fun p : Name => .token p.token))) :
      Takes (do
        let params ← x
        let _ ← expect .rightParen .parametersEnd
        let _ ← expect .leftBrace (.routineBodyStart kind)
        let body ← block budget declaration
        Pure.pure (Routine.mk name params body)) fun r more =>
          Springs S Routine.parts r (used₁ ++ (begin :: more)) := by
    refine inner.bind fun params used₂ second => Takes.expect.bind ?_
    rintro stop _ ⟨rfl, -⟩
    refine Takes.expect.bind ?_
    rintro brace _ ⟨rfl, -⟩
    refine (springs_block takes).bind fun body used₃ third => .pure fun given => ?_
    simp only [List.append_nil, List.singleton_append, given_append, given_cons] at given
    exact stem_append.mpr ⟨first given.1,
      stem_append.mpr ⟨second given.2.2.1, third given.2.2.2.2.2⟩⟩
  refine (Takes.nextIs (E := fun _ used => used = []) fun _ => rfl).bind fun next _ none => ?_
  subst none
  cases next with
  | true => exact rest (.pure fun _ => stem_nil)
  | false => exact rest list

theorem springs_superclass : Takes superclass (Springs S Superclass.parts) := by
  refine Takes.accept?.bind fun o used found => ?_
  cases o with
  | none => exact .pure fun _ => stem_nil
  | some less =>
      exact springs_name.bind fun name more springs => .pure fun given =>
        springs (given_append.mp (given_append.mp given).2).1

theorem springs_classDeclaration (takes : Takes declaration (Springs S (partsOfOption Stmt.parts))) :
    Takes (classDeclaration budget declaration) (Springs S Stmt.parts) := by
  refine (springs_name (S := S)).bind fun name used₁ first => ?_
  refine (springs_superclass (S := S)).bind fun parent used₂ second => Takes.expect.bind ?_
  rintro begin _ ⟨rfl, -⟩
  have methods : Takes (untilBrace (routine budget declaration .method) budget)
      (Springs S partsOfMethods) := by
    refine Takes.untilBrace (springs_routine takes .method) (fun _ => stem_nil) ?_ budget
    intro r rs used more here others given
    obtain ⟨given₁, given₂⟩ := given_append.mp given
    exact stem_append.mpr ⟨here given₁, others given₂⟩
  refine methods.bind fun methods used₃ third => Takes.expect.bind ?_
  rintro stop _ ⟨rfl, -⟩
  refine .pure fun given => ?_
  simp only [List.append_nil, List.singleton_append, given_append, given_cons] at given
  exact stem_append.mpr ⟨first given.1, stem_append.mpr ⟨second given.2.1, third given.2.2.2.1⟩⟩

section
variable (spelled : ∀ t, S t → t.Spelled)
include spelled

theorem springs_statementLevel (statements : Takes statement (Springs S Stmt.parts))
    (declarations : Takes declaration (Springs S (partsOfOption Stmt.parts))) :
    Takes (statementLevel budget statement declaration) (Springs S Stmt.parts) := by
  intro ts
  cases ts with
  | nil => exact springs_expressionStatement spelled []
  | cons t ts =>
      simp only [statementLevel]
      split
      case h_1 => exact springs_behind (springs_forLoop spelled statements _) t ts
      case h_2 => exact springs_behind (springs_ifStatement spelled statements _) t ts
      case h_3 => exact springs_behind (springs_printStatement spelled _) t ts
      case h_4 kind => exact .cons (springs_returnStatement spelled t kind ts)
      case h_5 => exact springs_behind (springs_whileStatement spelled statements _) t ts
      case h_6 =>
        exact .cons (Takes.map ((springs_block declarations).imp fun _ _ springs =>
          springs.behind t) ts)
      case h_7 => exact springs_expressionStatement spelled (t :: ts)

theorem springs_declarationLevel (statements : Takes statement (Springs S Stmt.parts))
    (declarations : Takes declaration (Springs S (partsOfOption Stmt.parts))) :
    Takes (declarationLevel budget statement declaration) (Springs S Stmt.parts) := by
  intro ts
  cases ts with
  | nil => exact springs_statementLevel spelled statements declarations []
  | cons t ts =>
      simp only [declarationLevel]
      split
      case h_1 => exact springs_behind (springs_classDeclaration declarations) t ts
      case h_2 =>
        exact .cons (Takes.map ((springs_routine declarations _).imp fun _ _ springs =>
          springs.behind t) ts)
      case h_3 => exact springs_behind (springs_variableDeclaration spelled) t ts
      case h_4 => exact springs_statementLevel spelled statements declarations (t :: ts)

theorem springs_statement_declaration (n : Nat) :
    Takes (Reading.statement n) (Springs S Stmt.parts) ∧
      Takes (Reading.declaration n) (Springs S (partsOfOption Stmt.parts)) := by
  have recovered {x : Reading RawStmt} (takes : Takes x (Springs S Stmt.parts)) :
      Takes (recover x) (Springs S (partsOfOption Stmt.parts)) := by
    refine takes.recover.imp ?_
    rintro _ used ⟨s, rfl, springs⟩
    exact springs
  induction n with
  | zero => exact ⟨.fail, recovered .fail⟩
  | succ n ih =>
      exact ⟨springs_statementLevel spelled ih.1 ih.2,
        recovered (springs_declarationLevel spelled ih.1 ih.2)⟩

end

end Reading

/-- A program that is read without issues comes from its tokens. -/
theorem parse_stem (spelled : ∀ t, S t → t.Spelled) {tokens : List Token} (given : Given S tokens)
    (quiet : (parse tokens).issues = []) : Stem S (partsOfBody (parse tokens).program) := by
  obtain ⟨found, whole, stem⟩ := parse_took
    (D := fun o used => Reading.Declared o used ∧ Springs S (partsOfOption Stmt.parts) o used)
    (E := Springs S (List.flatMap (partsOfOption Stmt.parts)))
    (fun n => (Reading.takes_statement_declaration n).2.and
      (Reading.springs_statement_declaration spelled n).2)
    (fun _ _ both => both.1.some) (fun _ => stem_nil) (fun o os used more both others given => by
      rw [List.flatMap_cons, stem_append]
      obtain ⟨given₁, given₂⟩ := given_append.mp given
      exact ⟨both.2 given₁, others given₂⟩) quiet
  rw [whole, partsOfBody_filterMap]
  exact stem given

end LoxLang
