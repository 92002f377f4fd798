import LoxLang.Proofs.Numbers.Display
import LoxLang.Proofs.Provenance
import LoxLang.Proofs.Writing
import LoxLang.Tree.Outline
/-! Outlines read back as trees. The head of a list and the number of its parts tell the kind of a
node, and a word tells a constant from a name; what is read is the tree up to its places. -/
namespace LoxLang.Outline

/-! ### Expressions -/

/-- What a word stands for: a constant, `this` or a name. -/
def atom (cs : List Char) : RawExpr :=
  if cs = "nil".toList then .literal Pos.start.line .nil
  else if cs = "true".toList then .literal Pos.start.line (.bool true)
  else if cs = "false".toList then .literal Pos.start.line (.bool false)
  else if cs = "this".toList then .receiver .start ()
  else match Numeral.float? cs with
    | some x => .literal Pos.start.line (.number x)
    | none => .var ⟨String.ofList cs, .start⟩ ()

def unaryOp? (cs : List Char) : Option UnaryOp :=
  [UnaryOp.negate, .not].find? fun op => op.lexeme.toList = cs

def binaryOp? (cs : List Char) : Option BinaryOp :=
  [BinaryOp.comma, .equal, .notEqual, .greater, .greaterEqual, .less, .lessEqual, .add, .subtract,
    .multiply, .divide].find? fun op => op.lexeme.toList = cs

def logicalOp? (cs : List Char) : Option LogicalOp :=
  [LogicalOp.and, .or].find? fun op => op.lexeme.toList = cs

/-- A node with one operand. -/
def single? (head : List Char) (operand : RawExpr) : Option RawExpr :=
  if head = "group".toList then some (.grouping Pos.start.line operand)
  else if head = "super".toList then
    match operand with
    | .var method _ => some (.inherited .start method ())
    | _ => none
  else (unaryOp? head).map fun op => .unary op .start operand

/-- A node with two operands, the second of which may stand for a name. -/
def double? (head : List Char) (left right : RawExpr) : Option RawExpr :=
  if head = "=".toList then
    match left with
    | .var name _ => some (.assign name right ())
    | .member object name => some (.assignMember object name right)
    | _ => none
  else if head = ".".toList then
    match right with
    | .var name _ => some (.member left name)
    | _ => none
  else match binaryOp? head, logicalOp? head with
    | some op, _ => some (.binary left op .start right)
    | none, some op => some (.logical left op .start right)
    | none, none => none

/-- The node with a head and operands. -/
def node? (head : List Char) (operands : List RawExpr) : Option RawExpr :=
  if head = "call".toList then
    match operands with
    | callee :: arguments => some (.call callee .start arguments)
    | [] => none
  else match operands with
    | [operand] => single? head operand
    | [left, right] => double? head left right
    | [condition, thenBranch, elseBranch] =>
      if head = "?:".toList then some (.conditional condition thenBranch elseBranch) else none
    | _ => none

mutual

def expr? : Outline → Option RawExpr
  | word cs => some (atom cs)
  | list (word head :: parts) => (exprs? parts).bind (node? head)
  | list _ => none

def exprs? : List Outline → Option (List RawExpr)
  | [] => some []
  | part :: rest => part.expr?.bind fun e => (exprs? rest).map (e :: ·)

end

end LoxLang.Outline

namespace LoxLang

/-! ### What can be told apart in print -/

/-- A constant that is neither a string nor an infinite number. -/
def Literal.Printable : Literal → Prop
  | nil | bool _ => True
  | number x => ∃ m, Parts.ofFloat x = .finite false m
  | text _ => False

/-- A name is spelled like one, and a constant can be printed. -/
def Part.Printable : Part → Prop
  | token t => t.kind = .identifier → Lexeme .identifier t.lexeme.toList
  | constant v => v.Printable

def Printable (ps : List Part) : Prop := ∀ p ∈ ps, p.Printable

variable {ps qs : List Part}

@[simp] theorem printable_nil : Printable [] := fun _ member => absurd member List.not_mem_nil

@[simp] theorem printable_append : Printable (ps ++ qs) ↔ Printable ps ∧ Printable qs :=
  List.forall_mem_append

@[simp] theorem printable_token {t : Token} : Printable (.token t :: ps) ↔
    (t.kind = .identifier → Lexeme .identifier t.lexeme.toList) ∧ Printable ps := List.forall_mem_cons

/-- The name is an identifier. -/
def Name.Identifier (n : Name) : Prop := Lexeme .identifier n.text.toList

@[simp] theorem printable_name {n : Name} : Printable (.token n.token :: ps) ↔
    n.Identifier ∧ Printable ps := by
  simp [Name.token, Name.Identifier]

namespace Outline

/-- A word that starts with no letter is none of the constants. -/
theorem atom_number {c : Char} {cs : List Char} {x : Float} (digit : Digit c)
    (number : Numeral.float? (c :: cs) = some x) :
    atom (c :: cs) = .literal Pos.start.line (.number x) := by
  have other {d : Char} {ds : List Char} (letter : Letter d) : c :: cs ≠ d :: ds := by
    intro same
    exact digit.not_letter ((List.cons.inj same).1 ▸ letter)
  have nil : c :: cs ≠ "nil".toList := other (by decide)
  have true_ : c :: cs ≠ "true".toList := other (by decide)
  have false_ : c :: cs ≠ "false".toList := other (by decide)
  have this_ : c :: cs ≠ "this".toList := other (by decide)
  simp only [atom, nil, true_, false_, this_, if_false, number]

theorem float?_letter {c : Char} {cs : List Char} (letter : Letter c) :
    Numeral.float? (c :: cs) = none := by
  have minus : c ≠ '-' := by
    rintro rfl
    exact absurd letter (by decide)
  have digit : c.isDigit = false := by
    rw [← Bool.not_eq_true, isDigit_iff]
    exact fun digit => digit.not_letter letter
  simp [Numeral.float?, Numeral.read?, Numeral.unsigned?, minus, digit]

theorem symbols_identifier (cs : List Char) : (cs, Kind.identifier) ∉ Kind.symbols := by
  intro entry
  exact absurd rfl ((by decide : ∀ entry ∈ Kind.symbols, entry.2 ≠ .identifier) _ entry)

theorem keywords_identifier (word : String) : (word, Kind.identifier) ∉ Kind.keywords := by
  intro entry
  exact absurd rfl ((by decide : ∀ entry ∈ Kind.keywords, entry.2 ≠ .identifier) _ entry)

theorem atom_name {n : Name} (identifier : n.Identifier) : atom n.text.toList = .var n.unplaced () := by
  unfold Name.Identifier at identifier
  generalize whole : n.text.toList = cs at identifier
  have text : String.ofList cs = n.text := by rw [← whole, String.ofList_toList]
  cases identifier with
  | symbol entry => exact absurd entry (symbols_identifier cs)
  | keyword entry => exact absurd entry (keywords_identifier _)
  | @identifier c cs letter parts reserved =>
    have other {word : String} {kind : Kind} (entry : (word, kind) ∈ Kind.keywords) :
        c :: cs ≠ word.toList := by
      intro same
      rw [same, String.ofList_toList] at reserved
      exact reserved kind entry
    have nil : c :: cs ≠ "nil".toList := @other "nil" .nilWord (by decide)
    have true_ : c :: cs ≠ "true".toList := @other "true" .trueWord (by decide)
    have false_ : c :: cs ≠ "false".toList := @other "false" .falseWord (by decide)
    have this_ : c :: cs ≠ "this".toList := @other "this" .thisWord (by decide)
    simp only [atom, nil, true_, false_, this_, if_false, float?_letter letter, text]
    rfl

theorem atom_literal {v : Literal} (printable : v.Printable) :
    atom v.display = .literal Pos.start.line v := by
  cases v with
  | nil => rfl
  | bool b => cases b <;> rfl
  | number x =>
    obtain ⟨m, finite⟩ := printable
    obtain ⟨cs, display, writes, -⟩ := Parts.display_text false m
    have number := Numeral.float?_signed finite writes
    obtain ⟨c, tail, rfl, digit⟩ := writes.head
    rw [Literal.display, finite, display]
    exact atom_number digit number
  | text s => exact printable.elim

/-- No operator is a head of another kind of node. -/
theorem node?_unary (op : UnaryOp) (operand : RawExpr) :
    node? op.lexeme.toList [operand] = some (.unary op .start operand) := by
  cases op <;> rfl

theorem node?_binary (op : BinaryOp) (left right : RawExpr) :
    node? op.lexeme.toList [left, right] = some (.binary left op .start right) := by
  cases op <;> rfl

theorem node?_logical (op : LogicalOp) (left right : RawExpr) :
    node? op.lexeme.toList [left, right] = some (.logical left op .start right) := by
  cases op <;> rfl

end Outline

open Outline

theorem expr?_name {n : Name} (identifier : n.Identifier) :
    (ofText n.text).expr? = some (.var n.unplaced ()) := congrArg some (atom_name identifier)

theorem expr?_list (head : String) (parts : List Outline) :
    (list (ofText head :: parts)).expr? = (exprs? parts).bind (node? head.toList) := rfl

mutual

/-- The outline of an expression is read back as the expression but for its places. -/
theorem Expr.expr?_outline : ∀ e : RawExpr, Printable e.parts → e.outline.expr? = some e.unplaced
  | .literal _ _, printable => congrArg some (atom_literal (printable _ List.mem_cons_self))
  | .grouping _ inner, printable => by
      simp only [Expr.outline, expr?_list, exprs?, inner.expr?_outline printable]
      rfl
  | .var _ (), printable => expr?_name (printable_name.mp printable).1
  | .assign name value (), printable => by
      obtain ⟨identifier, rest⟩ := printable_name.mp printable
      simp only [Expr.outline, expr?_list, exprs?, value.expr?_outline rest, expr?_name identifier]
      rfl
  | .unary op _ operand, printable => by
      simp only [Expr.outline, expr?_list, exprs?, operand.expr?_outline (printable_token.mp printable).2]
      exact node?_unary op _
  | .binary left op _ right, printable => by
      obtain ⟨first, second⟩ := printable_append.mp (printable_token.mp printable).2
      simp only [Expr.outline, expr?_list, exprs?, left.expr?_outline first,
        right.expr?_outline second]
      exact node?_binary op _ _
  | .logical left op _ right, printable => by
      obtain ⟨first, second⟩ := printable_append.mp (printable_token.mp printable).2
      simp only [Expr.outline, expr?_list, exprs?, left.expr?_outline first,
        right.expr?_outline second]
      exact node?_logical op _ _
  | .conditional condition thenBranch elseBranch, printable => by
      obtain ⟨first, branches⟩ := printable_append.mp printable
      obtain ⟨second, third⟩ := printable_append.mp branches
      simp only [Expr.outline, expr?_list, exprs?, condition.expr?_outline first,
        thenBranch.expr?_outline second, elseBranch.expr?_outline third]
      rfl
  | .call callee _ arguments, printable => by
      obtain ⟨first, second⟩ := printable_append.mp (printable_token.mp printable).2
      simp only [Expr.outline, expr?_list, exprs?, callee.expr?_outline first,
        exprs?_outline arguments second]
      rfl
  | .member object name, printable => by
      obtain ⟨identifier, rest⟩ := printable_name.mp printable
      simp only [Expr.outline, expr?_list, exprs?, object.expr?_outline rest, expr?_name identifier]
      rfl
  | .assignMember object name value, printable => by
      obtain ⟨identifier, rest⟩ := printable_name.mp printable
      obtain ⟨first, second⟩ := printable_append.mp rest
      simp only [Expr.outline, expr?_list, exprs?, object.expr?_outline first,
        value.expr?_outline second, expr?_name identifier]
      rfl
  | .receiver _ (), _ => rfl
  | .inherited _ method (), printable => by
      obtain ⟨identifier, -⟩ := printable_name.mp (printable_token.mp printable).2
      simp only [Expr.outline, expr?_list, exprs?, expr?_name identifier]
      rfl

theorem exprs?_outline : ∀ es : List RawExpr, Printable (partsOfAll es) →
    exprs? (outlineArguments es) = some (unplacedAll es)
  | [], _ => rfl
  | e :: rest, printable => by
      obtain ⟨first, later⟩ := printable_append.mp printable
      simp only [outlineArguments, exprs?, e.expr?_outline first, exprs?_outline rest later]
      rfl

end

end LoxLang
