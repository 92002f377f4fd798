import LoxLang.Proofs.Naming
import LoxLang.Scoping
/-! Trees with other names. A respelling gives each name, by its text and its place, another text,
and moves every place within its line. -/
namespace LoxLang

structure Respelling where
  text : Name → String
  pos : Pos → Pos
  line_pos : ∀ p, (pos p).line = p.line

attribute [simp] Respelling.line_pos

/-- The respelling that leaves everything as it is. -/
def Respelling.same : Respelling := ⟨Name.text, id, fun _ => rfl⟩

def Name.respell (τ : Respelling) (n : Name) : Name := ⟨τ.text n, τ.pos n.pos⟩

/-- Only identifiers have another text. -/
def Token.respell (τ : Respelling) (t : Token) : Token :=
  if t.kind = .identifier then (Name.respell τ ⟨t.lexeme, t.pos⟩).token
  else { t with pos := τ.pos t.pos }

section
variable {δ : Type}

mutual

def Expr.respell (τ : Respelling) : Expr δ → Expr δ
  | .literal line value => .literal line value
  | .grouping line inner => .grouping line (inner.respell τ)
  | .var name address => .var (name.respell τ) address
  | .assign name value address => .assign (name.respell τ) (value.respell τ) address
  | .unary op pos operand => .unary op (τ.pos pos) (operand.respell τ)
  | .binary left op pos right => .binary (left.respell τ) op (τ.pos pos) (right.respell τ)
  | .logical left op pos right => .logical (left.respell τ) op (τ.pos pos) (right.respell τ)
  | .conditional condition thenBranch elseBranch =>
    .conditional (condition.respell τ) (thenBranch.respell τ) (elseBranch.respell τ)
  | .call callee close arguments => .call (callee.respell τ) (τ.pos close) (respellAll τ arguments)
  | .member object name => .member (object.respell τ) (name.respell τ)
  | .assignMember object name value =>
    .assignMember (object.respell τ) (name.respell τ) (value.respell τ)
  | .receiver pos address => .receiver (τ.pos pos) address
  | .inherited pos method address => .inherited (τ.pos pos) (method.respell τ) address

def respellAll (τ : Respelling) : List (Expr δ) → List (Expr δ)
  | [] => []
  | e :: rest => e.respell τ :: respellAll τ rest

end

def Superclass.respell (τ : Respelling) (p : Superclass δ) : Superclass δ :=
  { p with name := p.name.respell τ }

mutual

def Stmt.respell (τ : Respelling) : Stmt δ → Stmt δ
  | .expression value => .expression (value.respell τ)
  | .print line value => .print line (value.respell τ)
  | .var name initializer => .var (name.respell τ) (initializer.map (Expr.respell τ))
  | .block line body => .block line (respellBody τ body)
  | .ifThen line condition thenBranch =>
    .ifThen line (condition.respell τ) (thenBranch.respell τ)
  | .ifElse line condition thenBranch elseBranch =>
    .ifElse line (condition.respell τ) (thenBranch.respell τ) (elseBranch.respell τ)
  | .loop line condition body => .loop line (condition.respell τ) (body.respell τ)
  | .function declaration => .function (declaration.respell τ)
  | .classDecl name parent methods =>
    .classDecl (name.respell τ) (parent.map (Superclass.respell τ)) (respellMethods τ methods)
  | .ret pos value => .ret (τ.pos pos) (value.map (Expr.respell τ))

def respellBody (τ : Respelling) : List (Stmt δ) → List (Stmt δ)
  | [] => []
  | s :: rest => s.respell τ :: respellBody τ rest

def Routine.respell (τ : Respelling) : Routine δ → Routine δ
  | .mk name params body => .mk (name.respell τ) (params.map (Name.respell τ)) (respellBody τ body)

def respellMethods (τ : Respelling) : List (Routine δ) → List (Routine δ)
  | [] => []
  | r :: rest => r.respell τ :: respellMethods τ rest

end

variable {τ : Respelling}

@[simp] theorem Name.text_respell (n : Name) : (n.respell τ).text = τ.text n := rfl

@[simp] theorem Name.pos_respell (n : Name) : (n.respell τ).pos = τ.pos n.pos := rfl

@[simp] theorem Token.kind_respell (t : Token) : (t.respell τ).kind = t.kind := by
  unfold respell
  split
  · next same => exact same.symm
  · rfl

@[simp] theorem Token.pos_respell (t : Token) : (t.respell τ).pos = τ.pos t.pos := by
  unfold respell
  split <;> rfl

@[simp] theorem Name.token_respell (n : Name) : n.token.respell τ = (n.respell τ).token := rfl

theorem Token.respell_identifier {t : Token} (same : t.kind = .identifier) :
    t.respell τ = (Name.respell τ ⟨t.lexeme, t.pos⟩).token := if_pos same

theorem Token.lexeme_respell {t : Token} (other : t.kind ≠ .identifier) :
    (t.respell τ).lexeme = t.lexeme := by
  rw [respell, if_neg other]

@[simp] theorem Routine.name_respell (r : Routine δ) : (r.respell τ).name = r.name.respell τ := by
  cases r
  rfl

@[simp] theorem Routine.params_respell (r : Routine δ) :
    (r.respell τ).params = r.params.map (Name.respell τ) := by
  cases r
  rfl

@[simp] theorem Routine.body_respell (r : Routine δ) : (r.respell τ).body = respellBody τ r.body := by
  cases r
  rfl

theorem respellBody_eq_map (ss : List (Stmt δ)) : respellBody τ ss = ss.map (Stmt.respell τ) := by
  induction ss with
  | nil => rfl
  | cons s rest ih => exact congrArg (s.respell τ :: ·) ih

theorem respellMethods_eq_map (rs : List (Routine δ)) :
    respellMethods τ rs = rs.map (Routine.respell τ) := by
  induction rs with
  | nil => rfl
  | cons r rest ih => exact congrArg (r.respell τ :: ·) ih

theorem respellAll_eq_map (es : List (Expr δ)) : respellAll τ es = es.map (Expr.respell τ) := by
  induction es with
  | nil => rfl
  | cons e rest ih => exact congrArg (e.respell τ :: ·) ih

/-! Nothing respelled. -/

@[simp] theorem Name.respell_same (n : Name) : n.respell .same = n := rfl

@[simp] theorem Superclass.respell_same (p : Superclass δ) : p.respell .same = p := rfl

@[simp] theorem Respelling.pos_same (p : Pos) : Respelling.same.pos p = p := rfl

@[simp] theorem Token.respell_same (t : Token) : t.respell .same = t := by
  unfold respell
  split
  · next same => simp [Name.token, ← same]
  · rfl

mutual

theorem Expr.respell_same : ∀ e : Expr δ, e.respell .same = e
  | .literal _ _ | .var _ _ | .receiver _ _ | .inherited _ _ _ => rfl
  | .grouping _ inner => congrArg (Expr.grouping _) inner.respell_same
  | .assign _ value _ => congrArg (Expr.assign _ · _) value.respell_same
  | .unary _ _ operand => congrArg (Expr.unary _ _) operand.respell_same
  | .binary left _ _ right => by
      simp only [Expr.respell, left.respell_same, right.respell_same, Respelling.pos_same]
  | .logical left _ _ right => by
      simp only [Expr.respell, left.respell_same, right.respell_same, Respelling.pos_same]
  | .conditional condition thenBranch elseBranch => by
      simp only [Expr.respell, condition.respell_same, thenBranch.respell_same,
        elseBranch.respell_same]
  | .call callee _ arguments => by
      simp only [Expr.respell, callee.respell_same, respellAll_same arguments, Respelling.pos_same]
  | .member object _ => congrArg (Expr.member · _) object.respell_same
  | .assignMember object _ value => by
      simp only [Expr.respell, object.respell_same, value.respell_same, Name.respell_same]

theorem respellAll_same : ∀ es : List (Expr δ), respellAll .same es = es
  | [] => rfl
  | e :: rest => by simp only [respellAll, e.respell_same, respellAll_same rest]

end

mutual

theorem Stmt.respell_same : ∀ s : Stmt δ, s.respell .same = s
  | .expression value => congrArg Stmt.expression value.respell_same
  | .print _ value => congrArg (Stmt.print _) value.respell_same
  | .var _ initializer => by
      simp only [Stmt.respell, funext Expr.respell_same, Option.map_id', Name.respell_same]
  | .block _ body => congrArg (Stmt.block _) (respellBody_same body)
  | .ifThen _ condition thenBranch => by
      simp only [Stmt.respell, condition.respell_same, thenBranch.respell_same]
  | .ifElse _ condition thenBranch elseBranch => by
      simp only [Stmt.respell, condition.respell_same, thenBranch.respell_same,
        elseBranch.respell_same]
  | .loop _ condition body => by
      simp only [Stmt.respell, condition.respell_same, body.respell_same]
  | .function declaration => congrArg Stmt.function declaration.respell_same
  | .classDecl _ parent methods => by
      simp only [Stmt.respell, funext Superclass.respell_same, Option.map_id',
        respellMethods_same methods, Name.respell_same]
  | .ret _ value => by
      simp only [Stmt.respell, funext Expr.respell_same, Option.map_id', Respelling.pos_same]

theorem respellBody_same : ∀ ss : List (Stmt δ), respellBody .same ss = ss
  | [] => rfl
  | s :: rest => by simp only [respellBody, s.respell_same, respellBody_same rest]

theorem Routine.respell_same : ∀ r : Routine δ, r.respell .same = r
  | .mk name params body => by
      simp only [Routine.respell, respellBody_same body, Name.respell_same,
        List.map_id'' Name.respell_same]

theorem respellMethods_same : ∀ rs : List (Routine δ), respellMethods .same rs = rs
  | [] => rfl
  | r :: rest => by simp only [respellMethods, r.respell_same, respellMethods_same rest]

end

end
end LoxLang
