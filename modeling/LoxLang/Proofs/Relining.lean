import LoxLang.Scoping
import LoxLang.Tree.Statement
/-! Trees on other lines. A text that stands behind another one has the tokens and trees that it
has alone, further down. -/
namespace LoxLang

def Pos.reline (f : Nat → Nat) (p : Pos) : Pos := { p with line := f p.line }

def Token.reline (f : Nat → Nat) (t : Token) : Token := { t with pos := t.pos.reline f }

def Name.reline (f : Nat → Nat) (n : Name) : Name := { n with pos := n.pos.reline f }

section
variable {δ : Type}

mutual

def Expr.reline (f : Nat → Nat) : Expr δ → Expr δ
  | .literal line value => .literal (f line) value
  | .grouping line inner => .grouping (f line) (inner.reline f)
  | .var name address => .var (name.reline f) address
  | .assign name value address => .assign (name.reline f) (value.reline f) address
  | .unary op pos operand => .unary op (pos.reline f) (operand.reline f)
  | .binary left op pos right => .binary (left.reline f) op (pos.reline f) (right.reline f)
  | .logical left op pos right => .logical (left.reline f) op (pos.reline f) (right.reline f)
  | .conditional condition thenBranch elseBranch =>
    .conditional (condition.reline f) (thenBranch.reline f) (elseBranch.reline f)
  | .call callee close arguments => .call (callee.reline f) (close.reline f) (relineAll f arguments)
  | .member object name => .member (object.reline f) (name.reline f)
  | .assignMember object name value =>
    .assignMember (object.reline f) (name.reline f) (value.reline f)
  | .receiver pos address => .receiver (pos.reline f) address
  | .inherited pos method address => .inherited (pos.reline f) (method.reline f) address

def relineAll (f : Nat → Nat) : List (Expr δ) → List (Expr δ)
  | [] => []
  | e :: rest => e.reline f :: relineAll f rest

end

def Superclass.reline (f : Nat → Nat) (p : Superclass δ) : Superclass δ :=
  { p with name := p.name.reline f }

mutual

def Stmt.reline (f : Nat → Nat) : Stmt δ → Stmt δ
  | .expression value => .expression (value.reline f)
  | .print line value => .print (f line) (value.reline f)
  | .var name initializer => .var (name.reline f) (initializer.map (Expr.reline f))
  | .block line body => .block (f line) (relineBody f body)
  | .ifThen line condition thenBranch =>
    .ifThen (f line) (condition.reline f) (thenBranch.reline f)
  | .ifElse line condition thenBranch elseBranch =>
    .ifElse (f line) (condition.reline f) (thenBranch.reline f) (elseBranch.reline f)
  | .loop line condition body => .loop (f line) (condition.reline f) (body.reline f)
  | .function declaration => .function (declaration.reline f)
  | .classDecl name parent methods =>
    .classDecl (name.reline f) (parent.map (Superclass.reline f)) (relineMethods f methods)
  | .ret pos value => .ret (pos.reline f) (value.map (Expr.reline f))

def relineBody (f : Nat → Nat) : List (Stmt δ) → List (Stmt δ)
  | [] => []
  | s :: rest => s.reline f :: relineBody f rest

def Routine.reline (f : Nat → Nat) : Routine δ → Routine δ
  | .mk name params body => .mk (name.reline f) (params.map (Name.reline f)) (relineBody f body)

def relineMethods (f : Nat → Nat) : List (Routine δ) → List (Routine δ)
  | [] => []
  | r :: rest => r.reline f :: relineMethods f rest

end

variable {f g : Nat → Nat}

@[simp] theorem Name.text_reline (n : Name) : (n.reline f).text = n.text := rfl

@[simp] theorem Token.kind_reline (t : Token) : (t.reline f).kind = t.kind := rfl

@[simp] theorem Pos.line_reline (p : Pos) : (p.reline f).line = f p.line := rfl

@[simp] theorem Token.pos_reline (t : Token) : (t.reline f).pos = t.pos.reline f := rfl

@[simp] theorem Token.lexeme_reline (t : Token) : (t.reline f).lexeme = t.lexeme := rfl

@[simp] theorem Name.token_reline (n : Name) : (n.reline f).token = n.token.reline f := rfl

@[simp] theorem Routine.name_reline (r : Routine δ) : (r.reline f).name = r.name.reline f := by
  cases r
  rfl

@[simp] theorem Routine.params_reline (r : Routine δ) :
    (r.reline f).params = r.params.map (Name.reline f) := by
  cases r
  rfl

@[simp] theorem Routine.body_reline (r : Routine δ) : (r.reline f).body = relineBody f r.body := by
  cases r
  rfl

theorem relineAll_eq_map (es : List (Expr δ)) : relineAll f es = es.map (Expr.reline f) := by
  induction es with
  | nil => rfl
  | cons e rest ih => exact congrArg (e.reline f :: ·) ih

theorem relineBody_eq_map (ss : List (Stmt δ)) : relineBody f ss = ss.map (Stmt.reline f) := by
  induction ss with
  | nil => rfl
  | cons s rest ih => exact congrArg (s.reline f :: ·) ih

theorem relineMethods_eq_map (rs : List (Routine δ)) :
    relineMethods f rs = rs.map (Routine.reline f) := by
  induction rs with
  | nil => rfl
  | cons r rest ih => exact congrArg (r.reline f :: ·) ih

/-! Lines that stay, and lines moved twice. -/

@[simp] theorem Pos.reline_id (p : Pos) : p.reline id = p := rfl

@[simp] theorem Token.reline_id (t : Token) : t.reline id = t := rfl

@[simp] theorem Name.reline_id (n : Name) : n.reline id = n := rfl

@[simp] theorem Superclass.reline_id (p : Superclass δ) : p.reline id = p := rfl

@[simp] theorem Pos.reline_reline (p : Pos) : (p.reline f).reline g = p.reline (g ∘ f) := rfl

@[simp] theorem Name.reline_reline (n : Name) : (n.reline f).reline g = n.reline (g ∘ f) := rfl

@[simp] theorem Superclass.reline_reline (p : Superclass δ) :
    (p.reline f).reline g = p.reline (g ∘ f) := rfl

mutual

theorem Expr.reline_id : ∀ e : Expr δ, e.reline id = e
  | .literal _ _ | .var _ _ | .receiver _ _ | .inherited _ _ _ => rfl
  | .grouping _ inner => congrArg (Expr.grouping _) inner.reline_id
  | .assign _ value _ => congrArg (Expr.assign _ · _) value.reline_id
  | .unary _ _ operand => congrArg (Expr.unary _ _) operand.reline_id
  | .binary left _ _ right => by
      simp only [Expr.reline, left.reline_id, right.reline_id, Pos.reline_id]
  | .logical left _ _ right => by
      simp only [Expr.reline, left.reline_id, right.reline_id, Pos.reline_id]
  | .conditional condition thenBranch elseBranch => by
      simp only [Expr.reline, condition.reline_id, thenBranch.reline_id, elseBranch.reline_id]
  | .call callee _ arguments => by
      simp only [Expr.reline, callee.reline_id, relineAll_id arguments, Pos.reline_id]
  | .member object _ => congrArg (Expr.member · _) object.reline_id
  | .assignMember object _ value => by
      simp only [Expr.reline, object.reline_id, value.reline_id, Name.reline_id]

theorem relineAll_id : ∀ es : List (Expr δ), relineAll id es = es
  | [] => rfl
  | e :: rest => by simp only [relineAll, e.reline_id, relineAll_id rest]

end

mutual

theorem Expr.reline_reline : ∀ e : Expr δ, (e.reline f).reline g = e.reline (g ∘ f)
  | .literal _ _ | .var _ _ | .receiver _ _ | .inherited _ _ _ => rfl
  | .grouping _ inner => congrArg (Expr.grouping _) inner.reline_reline
  | .assign _ value _ => congrArg (Expr.assign _ · _) value.reline_reline
  | .unary _ _ operand => congrArg (Expr.unary _ _) operand.reline_reline
  | .binary left _ _ right => by
      simp only [Expr.reline, left.reline_reline, right.reline_reline, Pos.reline_reline]
  | .logical left _ _ right => by
      simp only [Expr.reline, left.reline_reline, right.reline_reline, Pos.reline_reline]
  | .conditional condition thenBranch elseBranch => by
      simp only [Expr.reline, condition.reline_reline, thenBranch.reline_reline,
        elseBranch.reline_reline]
  | .call callee _ arguments => by
      simp only [Expr.reline, callee.reline_reline, relineAll_relineAll arguments,
        Pos.reline_reline]
  | .member object _ => congrArg (Expr.member · _) object.reline_reline
  | .assignMember object _ value => by
      simp only [Expr.reline, object.reline_reline, value.reline_reline, Name.reline_reline]

theorem relineAll_relineAll : ∀ es : List (Expr δ),
    relineAll g (relineAll f es) = relineAll (g ∘ f) es
  | [] => rfl
  | e :: rest => by simp only [relineAll, e.reline_reline, relineAll_relineAll rest]

end

/-- A law of entries is one of what may be missing. -/
theorem map_id_of_eq {α : Type} {h : α → α} (same : ∀ a, h a = a) (o : Option α) : o.map h = o := by
  rw [funext same, Option.map_id']

theorem map_map_of_eq {α : Type} {h k l : α → α} (same : ∀ a, k (h a) = l a) (o : Option α) :
    (o.map h).map k = o.map l := by
  rw [Option.map_map, ← funext same, Function.comp_def]

mutual

theorem Stmt.reline_id : ∀ s : Stmt δ, s.reline id = s
  | .expression value => congrArg Stmt.expression value.reline_id
  | .print _ value => congrArg (Stmt.print _) value.reline_id
  | .var _ initializer => congrArg (Stmt.var _) (map_id_of_eq Expr.reline_id initializer)
  | .block _ body => congrArg (Stmt.block _) (relineBody_id body)
  | .ifThen _ condition thenBranch => by
      simp only [Stmt.reline, condition.reline_id, thenBranch.reline_id, id]
  | .ifElse _ condition thenBranch elseBranch => by
      simp only [Stmt.reline, condition.reline_id, thenBranch.reline_id, elseBranch.reline_id, id]
  | .loop _ condition body => by
      simp only [Stmt.reline, condition.reline_id, body.reline_id, id]
  | .function declaration => congrArg Stmt.function declaration.reline_id
  | .classDecl _ parent methods => by
      simp only [Stmt.reline, map_id_of_eq Superclass.reline_id, relineMethods_id methods,
        Name.reline_id]
  | .ret _ value => congrArg (Stmt.ret _) (map_id_of_eq Expr.reline_id value)

theorem relineBody_id : ∀ ss : List (Stmt δ), relineBody id ss = ss
  | [] => rfl
  | s :: rest => by simp only [relineBody, s.reline_id, relineBody_id rest]

theorem Routine.reline_id : ∀ r : Routine δ, r.reline id = r
  | .mk name params body => by
      simp only [Routine.reline, relineBody_id body, Name.reline_id, List.map_id'' Name.reline_id]

theorem relineMethods_id : ∀ rs : List (Routine δ), relineMethods id rs = rs
  | [] => rfl
  | r :: rest => by simp only [relineMethods, r.reline_id, relineMethods_id rest]

end

mutual

theorem Stmt.reline_reline : ∀ s : Stmt δ, (s.reline f).reline g = s.reline (g ∘ f)
  | .expression value => congrArg Stmt.expression value.reline_reline
  | .print _ value => congrArg (Stmt.print _) value.reline_reline
  | .var _ initializer => congrArg (Stmt.var _) (map_map_of_eq Expr.reline_reline initializer)
  | .block _ body => congrArg (Stmt.block _) (relineBody_relineBody body)
  | .ifThen _ condition thenBranch => by
      simp only [Stmt.reline, condition.reline_reline, thenBranch.reline_reline, Function.comp]
  | .ifElse _ condition thenBranch elseBranch => by
      simp only [Stmt.reline, condition.reline_reline, thenBranch.reline_reline,
        elseBranch.reline_reline, Function.comp]
  | .loop _ condition body => by
      simp only [Stmt.reline, condition.reline_reline, body.reline_reline, Function.comp]
  | .function declaration => congrArg Stmt.function declaration.reline_reline
  | .classDecl _ parent methods => by
      simp only [Stmt.reline, map_map_of_eq Superclass.reline_reline,
        relineMethods_relineMethods methods, Name.reline_reline]
  | .ret _ value => congrArg (Stmt.ret _) (map_map_of_eq Expr.reline_reline value)

theorem relineBody_relineBody : ∀ ss : List (Stmt δ),
    relineBody g (relineBody f ss) = relineBody (g ∘ f) ss
  | [] => rfl
  | s :: rest => by simp only [relineBody, s.reline_reline, relineBody_relineBody rest]

theorem Routine.reline_reline : ∀ r : Routine δ, (r.reline f).reline g = r.reline (g ∘ f)
  | .mk name params body => by
      simp only [Routine.reline, relineBody_relineBody body, Name.reline_reline, List.map_map]
      rfl

theorem relineMethods_relineMethods : ∀ rs : List (Routine δ),
    relineMethods g (relineMethods f rs) = relineMethods (g ∘ f) rs
  | [] => rfl
  | r :: rest => by simp only [relineMethods, r.reline_reline, relineMethods_relineMethods rest]

end

end
end LoxLang
