import LoxLang.Proofs.Addressing
/-! Code around which scopes are left out. It means the same if its addresses count only the scopes
that are kept. Marks run from the innermost scope outward; a scope marked `false` is left out. -/
namespace LoxLang

/-- Two distances lead to the same scope, which is kept; the second counts only kept scopes. -/
inductive Skips : List Bool → Nat → Nat → Prop
  | beyond (d : Nat) : Skips [] d d
  | here (ks : List Bool) : Skips (true :: ks) 0 0
  | kept {ks : List Bool} {d e : Nat} : Skips ks d e → Skips (true :: ks) (d + 1) (e + 1)
  | left {ks : List Bool} {d e : Nat} : Skips ks d e → Skips (false :: ks) (d + 1) e

/-- No scope is left out. -/
def AllKept (ks : List Bool) : Prop := ∀ k ∈ ks, k = true

theorem AllKept.cons {ks : List Bool} (all : AllKept ks) : AllKept (true :: ks) :=
  List.forall_mem_cons.mpr ⟨rfl, all⟩

namespace Skips
variable {ks : List Bool} {d e f : Nat}

theorem refl (all : AllKept ks) : Skips ks d d := by
  induction ks generalizing d with
  | nil => exact .beyond d
  | cons k ks ih =>
      obtain ⟨rfl, others⟩ := List.forall_mem_cons.mp all
      cases d with
      | zero => exact .here ks
      | succ d => exact .kept (ih others)

/-- Every scope that is kept is reached. -/
theorem of_kept (kept : ks[d]? ≠ some false) : ∃ e, Skips ks d e := by
  induction ks generalizing d with
  | nil => exact ⟨d, .beyond d⟩
  | cons k ks ih =>
      cases d with
      | zero =>
          cases k with
          | false => exact absurd rfl kept
          | true => exact ⟨0, .here ks⟩
      | succ d =>
          obtain ⟨e, skips⟩ := ih kept
          cases k with
          | false => exact ⟨e, .left skips⟩
          | true => exact ⟨e + 1, .kept skips⟩

theorem zero (skips : Skips ks 0 e) : e = 0 := by
  cases skips <;> rfl

/-- Neighbours that are kept stay neighbours. -/
theorem next (first : Skips ks d e) (second : Skips ks (d + 1) f) : f = e + 1 := by
  induction first generalizing f with
  | beyond d =>
      cases second
      rfl
  | here ks =>
      cases second with
      | kept rest => rw [rest.zero]
  | kept _ ih =>
      cases second with
      | kept rest => rw [ih rest]
  | left _ ih =>
      cases second with
      | left rest => exact ih rest

/-- Among the scopes that have a counterpart, the shortened distance leads to the counterpart of
where the distance leads. -/
theorem reach {α : Type} {w : α → Option α} {ts : List α}
    (skips : Skips (ts.map fun t => (w t).isSome) d e) :
    ts[d]? = none ∧ (ts.filterMap w)[e]? = none ∨
      ∃ t u, ts[d]? = some t ∧ w t = some u ∧ (ts.filterMap w)[e]? = some u := by
  induction ts generalizing d e with
  | nil => exact .inl ⟨rfl, rfl⟩
  | cons t ts ih =>
      rw [List.map_cons] at skips
      cases paired : w t with
      | none =>
          rw [paired] at skips
          cases skips with
          | left rest =>
              simpa only [List.getElem?_cons_succ, List.filterMap_cons_none paired] using ih rest
      | some u =>
          rw [paired] at skips
          cases skips with
          | here => exact .inr ⟨t, u, rfl, paired, by rw [List.filterMap_cons_some paired]; rfl⟩
          | kept rest =>
              simpa only [List.getElem?_cons_succ, List.filterMap_cons_some paired] using ih rest

end Skips

/-- Two addresses of the same variable. -/
abbrev Address.Shortens (ks : List Bool) : Address → Address → Prop :=
  Option.Rel (Skips ks)

namespace Address.Shortens
variable {ks : List Bool} {a a' : Address}

theorem refl (all : AllKept ks) (a : Address) : Address.Shortens ks a a := by
  cases a with
  | none => exact .none
  | some d => exact .some (.refl all)

theorem kept (shortens : Address.Shortens ks a a') :
    Address.Shortens (true :: ks) (a.map (· + 1)) (a'.map (· + 1)) := by
  cases shortens with
  | none => exact .none
  | some skips => exact .some (.kept skips)

theorem left (shortens : Address.Shortens ks a a') :
    Address.Shortens (false :: ks) (a.map (· + 1)) a' := by
  cases shortens with
  | none => exact .none
  | some skips => exact .some (.left skips)

end Address.Shortens

mutual

/-- The second expression is the first one with its addresses shortened. Next to `super` the scope
of `this` is kept too. -/
inductive Expr.Shortens (ks : List Bool) : Expr Address → Expr Address → Prop
  | literal (line : Nat) (value : Literal) :
    Expr.Shortens ks (.literal line value) (.literal line value)
  | grouping {line : Nat} {e e' : Expr Address} : Expr.Shortens ks e e' →
    Expr.Shortens ks (.grouping line e) (.grouping line e')
  | var {name : Name} {a a' : Address} : Address.Shortens ks a a' →
    Expr.Shortens ks (.var name a) (.var name a')
  | assign {name : Name} {e e' : Expr Address} {a a' : Address} : Expr.Shortens ks e e' →
    Address.Shortens ks a a' → Expr.Shortens ks (.assign name e a) (.assign name e' a')
  | unary {op : UnaryOp} {pos : Pos} {e e' : Expr Address} : Expr.Shortens ks e e' →
    Expr.Shortens ks (.unary op pos e) (.unary op pos e')
  | binary {l l' r r' : Expr Address} {op : BinaryOp} {pos : Pos} : Expr.Shortens ks l l' →
    Expr.Shortens ks r r' → Expr.Shortens ks (.binary l op pos r) (.binary l' op pos r')
  | logical {l l' r r' : Expr Address} {op : LogicalOp} {pos : Pos} : Expr.Shortens ks l l' →
    Expr.Shortens ks r r' → Expr.Shortens ks (.logical l op pos r) (.logical l' op pos r')
  | conditional {c c' t t' e e' : Expr Address} : Expr.Shortens ks c c' →
    Expr.Shortens ks t t' → Expr.Shortens ks e e' →
    Expr.Shortens ks (.conditional c t e) (.conditional c' t' e')
  | call {f f' : Expr Address} {close : Pos} {es es' : List (Expr Address)} :
    Expr.Shortens ks f f' → ShortensAll ks es es' →
    Expr.Shortens ks (.call f close es) (.call f' close es')
  | member {o o' : Expr Address} {name : Name} : Expr.Shortens ks o o' →
    Expr.Shortens ks (.member o name) (.member o' name)
  | assignMember {o o' e e' : Expr Address} {name : Name} : Expr.Shortens ks o o' →
    Expr.Shortens ks e e' → Expr.Shortens ks (.assignMember o name e) (.assignMember o' name e')
  | receiver {pos : Pos} {a a' : Address} : Address.Shortens ks a a' →
    Expr.Shortens ks (.receiver pos a) (.receiver pos a')
  | inherited {pos : Pos} {method : Name} {a a' : Address} :
    Option.Rel (fun d d' => Skips ks d d' ∧ Skips ks (d - 1) (d' - 1)) a a' →
    Expr.Shortens ks (.inherited pos method a) (.inherited pos method a')

inductive ShortensAll (ks : List Bool) : List (Expr Address) → List (Expr Address) → Prop
  | nil : ShortensAll ks [] []
  | cons {e e' : Expr Address} {es es' : List (Expr Address)} : Expr.Shortens ks e e' →
    ShortensAll ks es es' → ShortensAll ks (e :: es) (e' :: es')

end

mutual

/-- The second statement is the first one with its addresses shortened. What it declares goes to a
scope that is kept. -/
inductive Stmt.Shortens : List Bool → Stmt Address → Stmt Address → Prop
  | expression {ks : List Bool} {e e' : Expr Address} : e.Shortens ks e' →
    Stmt.Shortens ks (.expression e) (.expression e')
  | print {ks : List Bool} {line : Nat} {e e' : Expr Address} : e.Shortens ks e' →
    Stmt.Shortens ks (.print line e) (.print line e')
  | declare {ks : List Bool} (name : Name) : Skips ks 0 0 →
    Stmt.Shortens ks (.var name none) (.var name none)
  | define {ks : List Bool} {name : Name} {e e' : Expr Address} : Skips ks 0 0 →
    e.Shortens ks e' → Stmt.Shortens ks (.var name (some e)) (.var name (some e'))
  | block {ks : List Bool} {line : Nat} {body body' : List (Stmt Address)} :
    ShortensBody (true :: ks) body body' → Stmt.Shortens ks (.block line body) (.block line body')
  | ifThen {ks : List Bool} {line : Nat} {c c' : Expr Address} {s s' : Stmt Address} :
    c.Shortens ks c' → Stmt.Shortens ks s s' →
    Stmt.Shortens ks (.ifThen line c s) (.ifThen line c' s')
  | ifElse {ks : List Bool} {line : Nat} {c c' : Expr Address} {s s' t t' : Stmt Address} :
    c.Shortens ks c' → Stmt.Shortens ks s s' → Stmt.Shortens ks t t' →
    Stmt.Shortens ks (.ifElse line c s t) (.ifElse line c' s' t')
  | loop {ks : List Bool} {line : Nat} {c c' : Expr Address} {s s' : Stmt Address} :
    c.Shortens ks c' → Stmt.Shortens ks s s' →
    Stmt.Shortens ks (.loop line c s) (.loop line c' s')
  | function {ks : List Bool} {r r' : Routine Address} : Skips ks 0 0 →
    Routine.Shortens ks r r' → Stmt.Shortens ks (.function r) (.function r')
  | classDecl {ks : List Bool} {name : Name} {ms ms' : List (Routine Address)} :
    Skips ks 0 0 → ShortensMethods (true :: ks) ms ms' →
    Stmt.Shortens ks (.classDecl name none ms) (.classDecl name none ms')
  | subclass {ks : List Bool} {name parent : Name} {a a' : Address}
    {ms ms' : List (Routine Address)} : Skips ks 0 0 → Address.Shortens ks a a' →
    ShortensMethods (true :: true :: ks) ms ms' →
    Stmt.Shortens ks (.classDecl name (some ⟨parent, a⟩) ms)
      (.classDecl name (some ⟨parent, a'⟩) ms')
  | leave {ks : List Bool} (pos : Pos) : Stmt.Shortens ks (.ret pos none) (.ret pos none)
  | give {ks : List Bool} {pos : Pos} {e e' : Expr Address} : e.Shortens ks e' →
    Stmt.Shortens ks (.ret pos (some e)) (.ret pos (some e'))

inductive ShortensBody : List Bool → List (Stmt Address) → List (Stmt Address) → Prop
  | nil {ks : List Bool} : ShortensBody ks [] []
  | cons {ks : List Bool} {s s' : Stmt Address} {ss ss' : List (Stmt Address)} :
    Stmt.Shortens ks s s' → ShortensBody ks ss ss' → ShortensBody ks (s :: ss) (s' :: ss')

/-- Parameters and body share one scope, which is kept. -/
inductive Routine.Shortens : List Bool → Routine Address → Routine Address → Prop
  | mk {ks : List Bool} (name : Name) (params : List Name) {body body' : List (Stmt Address)} :
    ShortensBody (true :: ks) body body' →
    Routine.Shortens ks (.mk name params body) (.mk name params body')

inductive ShortensMethods : List Bool → List (Routine Address) → List (Routine Address) → Prop
  | nil {ks : List Bool} : ShortensMethods ks [] []
  | cons {ks : List Bool} {r r' : Routine Address} {rs rs' : List (Routine Address)} :
    Routine.Shortens ks r r' → ShortensMethods ks rs rs' →
    ShortensMethods ks (r :: rs) (r' :: rs')

end

/-! Where no scope is left out, code is as it was. -/

mutual

theorem Expr.Shortens.refl {ks : List Bool} (all : AllKept ks) :
    ∀ e : Expr Address, e.Shortens ks e
  | .literal line value => .literal line value
  | .grouping _ inner => .grouping (.refl all inner)
  | .var _ a => .var (.refl all a)
  | .assign _ value a => .assign (.refl all value) (.refl all a)
  | .unary _ _ operand => .unary (.refl all operand)
  | .binary left _ _ right => .binary (.refl all left) (.refl all right)
  | .logical left _ _ right => .logical (.refl all left) (.refl all right)
  | .conditional c t e => .conditional (.refl all c) (.refl all t) (.refl all e)
  | .call callee _ arguments => .call (.refl all callee) (ShortensAll.refl all arguments)
  | .member object _ => .member (.refl all object)
  | .assignMember object _ value => .assignMember (.refl all object) (.refl all value)
  | .receiver _ a => .receiver (.refl all a)
  | .inherited _ _ none => .inherited .none
  | .inherited _ _ (some _) => .inherited (.some ⟨.refl all, .refl all⟩)

theorem ShortensAll.refl {ks : List Bool} (all : AllKept ks) :
    ∀ es : List (Expr Address), ShortensAll ks es es
  | [] => .nil
  | e :: es => .cons (Expr.Shortens.refl all e) (ShortensAll.refl all es)

end

mutual

theorem Stmt.Shortens.refl {ks : List Bool} (all : AllKept ks) :
    ∀ s : Stmt Address, s.Shortens ks s
  | .expression value => .expression (.refl all value)
  | .print _ value => .print (.refl all value)
  | .var name none => .declare name (.refl all)
  | .var _ (some value) => .define (.refl all) (.refl all value)
  | .block _ body => .block (ShortensBody.refl all.cons body)
  | .ifThen _ c s => .ifThen (.refl all c) (Stmt.Shortens.refl all s)
  | .ifElse _ c s t => .ifElse (.refl all c) (Stmt.Shortens.refl all s) (Stmt.Shortens.refl all t)
  | .loop _ c s => .loop (.refl all c) (Stmt.Shortens.refl all s)
  | .function declaration => .function (.refl all) (Routine.Shortens.refl all declaration)
  | .classDecl _ none methods => .classDecl (.refl all) (ShortensMethods.refl all.cons methods)
  | .classDecl _ (some ⟨_, a⟩) methods =>
      .subclass (.refl all) (.refl all a) (ShortensMethods.refl all.cons.cons methods)
  | .ret pos none => .leave pos
  | .ret _ (some value) => .give (.refl all value)

theorem ShortensBody.refl {ks : List Bool} (all : AllKept ks) :
    ∀ ss : List (Stmt Address), ShortensBody ks ss ss
  | [] => .nil
  | s :: ss => .cons (Stmt.Shortens.refl all s) (ShortensBody.refl all ss)

theorem Routine.Shortens.refl {ks : List Bool} (all : AllKept ks) :
    ∀ r : Routine Address, r.Shortens ks r
  | .mk name params body => .mk name params (ShortensBody.refl all.cons body)

theorem ShortensMethods.refl {ks : List Bool} (all : AllKept ks) :
    ∀ rs : List (Routine Address), ShortensMethods ks rs rs
  | [] => .nil
  | r :: rs => .cons (Routine.Shortens.refl all r) (ShortensMethods.refl all rs)

end

namespace Routine.Shortens
variable {ks : List Bool} {r r' : Routine Address}

theorem name (shortens : r.Shortens ks r') : r'.name = r.name := by
  cases shortens
  rfl

theorem params (shortens : r.Shortens ks r') : r'.params = r.params := by
  cases shortens
  rfl

theorem body (shortens : r.Shortens ks r') : ShortensBody (true :: ks) r.body r'.body := by
  cases shortens with
  | mk _ _ body => exact body

end Routine.Shortens
end LoxLang
