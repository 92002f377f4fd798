import LoxLang.Scoping
/-! The references of a program in the order in which they are written down. -/
namespace LoxLang

inductive Occurrence.Role where
  | access | assignment | receiver | inherited
deriving DecidableEq

/-- A reference: its role, its token, and its address. -/
structure Occurrence where
  role : Occurrence.Role
  token : Token
  address : Address
deriving DecidableEq

namespace Occurrence

mutual

def ofExpr : Expr Address → List Occurrence
  | .literal _ _ => []
  | .grouping _ inner => ofExpr inner
  | .var name address => [⟨.access, name.token, address⟩]
  | .assign name value address => ⟨.assignment, name.token, address⟩ :: ofExpr value
  | .unary _ _ operand => ofExpr operand
  | .binary left _ _ right => ofExpr left ++ ofExpr right
  | .logical left _ _ right => ofExpr left ++ ofExpr right
  | .conditional condition thenBranch elseBranch =>
    ofExpr condition ++ ofExpr thenBranch ++ ofExpr elseBranch
  | .call callee _ arguments => ofExpr callee ++ ofExprs arguments
  | .member object _ => ofExpr object
  | .assignMember object _ value => ofExpr object ++ ofExpr value
  | .receiver pos address => [⟨.receiver, receiverToken pos, address⟩]
  | .inherited pos _ address => [⟨.inherited, inheritedToken pos, address⟩]

def ofExprs : List (Expr Address) → List Occurrence
  | [] => []
  | e :: rest => ofExpr e ++ ofExprs rest

end

def ofSuperclass (parent : Superclass Address) : Occurrence :=
  ⟨.access, parent.name.token, parent.address⟩

mutual

def ofStmt : Stmt Address → List Occurrence
  | .expression value | .print _ value => ofExpr value
  | .var _ none => []
  | .var _ (some value) => ofExpr value
  | .block _ body => ofStmts body
  | .ifThen _ condition thenBranch => ofExpr condition ++ ofStmt thenBranch
  | .ifElse _ condition thenBranch elseBranch =>
    ofExpr condition ++ ofStmt thenBranch ++ ofStmt elseBranch
  | .loop _ condition body => ofExpr condition ++ ofStmt body
  | .function declaration => ofRoutine declaration
  | .classDecl _ none methods => ofRoutines methods
  | .classDecl _ (some parent) methods => ofSuperclass parent :: ofRoutines methods
  | .ret _ none => []
  | .ret _ (some value) => ofExpr value

def ofStmts : List (Stmt Address) → List Occurrence
  | [] => []
  | s :: rest => ofStmt s ++ ofStmts rest

def ofRoutine : Routine Address → List Occurrence
  | .mk _ _ body => ofStmts body

def ofRoutines : List (Routine Address) → List Occurrence
  | [] => []
  | r :: rest => ofRoutine r ++ ofRoutines rest

end

end Occurrence
end LoxLang
