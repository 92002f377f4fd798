import LoxLang.Execution
import LoxLang.Proofs.Grammar.Statements
/-! The `for` loop as a statement of its own: its clauses as they are read, the walk over them and
what they do, without a tree made of other statements. -/
namespace LoxLang

/-- What a loop repeats. -/
structure Rounds (δ : Type) where
  condition : Option (Expr δ)
  increment : Option (Expr δ)
  body : Stmt δ

/-- The clauses and the body of a `for`. -/
structure ForLoop (δ : Type) extends Rounds δ where
  initializer : Option (Stmt δ)

namespace Rounds

/-- What the tree of a loop has as its body. -/
def round (line : Nat) (r : Rounds Unit) : RawStmt :=
  match r.increment with
  | none => r.body
  | some e => .block line [r.body, .expression e]

/-- The tree of a loop. -/
def repeated (line : Nat) (r : Rounds Unit) : RawStmt :=
  .loop line (r.condition.getD (.literal line (.bool true))) (r.round line)

end Rounds

/-- The statement that a `for` is read as. -/
def ForLoop.desugared (line : Nat) (l : ForLoop Unit) : RawStmt :=
  forStatement line l.initializer l.condition l.increment l.body

theorem ForLoop.desugared_none (line : Nat) (r : Rounds Unit) :
    ForLoop.desugared line ⟨r, none⟩ = r.repeated line := rfl

theorem ForLoop.desugared_some (line : Nat) (r : Rounds Unit) (s : RawStmt) :
    ForLoop.desugared line ⟨r, some s⟩ = .block line [s, r.repeated line] := rfl

namespace Reading
variable {budget : Nat} {statement : Reading RawStmt}

theorem bind_assoc_run {α β γ : Type} (x : Reading α) (f : α → Reading β) (g : β → Reading γ)
    (ts : List Token) : (x >>= f >>= g) ts = (x >>= fun a => f a >>= g) ts := by
  simp only [bind]
  cases (x ts).value? with
  | none => rfl
  | some a =>
      dsimp only
      cases (f a (x ts).rest).value? with
      | none => rfl
      | some b => simp only [List.append_assoc]

instance : LawfulMonad Reading :=
  .mk' Reading (fun x => funext fun ts => (bind_pure_run x id ts).trans (by simp))
    (fun _ _ => rfl) fun x f g => funext (bind_assoc_run x f g)

/-- The clauses of a `for`, from its opening parenthesis on. -/
def forClauses (budget : Nat) (statement : Reading RawStmt) : Reading (ForLoop Unit) := do
  let _ ← expect .leftParen .forStart
  let initializer ← forInitializer budget
  let condition ← optionalExpression budget .semicolon
  let _ ← expect .semicolon .loopConditionEnd
  let increment ← optionalExpression budget .rightParen
  let _ ← expect .rightParen .forClausesEnd
  let body ← statement
  pure ⟨⟨condition, increment, body⟩, initializer⟩

/-- A `for` is read as the tree that stands for its clauses. -/
theorem forLoop_eq (line : Nat) : forLoop budget statement line =
    ForLoop.desugared line <$> forClauses budget statement := by
  simp [forLoop, forClauses, ForLoop.desugared]

/-- The body of a `for` is no declaration. -/
theorem takes_forClauses (takes : Takes statement (Acts .statement)) :
    Takes (forClauses budget statement) fun l used =>
      l.body.binds = none ∧ (Named used → l.body.Plain) := by
  refine Takes.expect.bind fun _ used _ => takes_forInitializer.bind fun _ used₁ _ => ?_
  refine (takes_optionalExpression .semicolon).bind fun _ used₂ _ => Takes.expect.bind ?_
  refine fun _ used₃ _ => (takes_optionalExpression .rightParen).bind fun _ used₄ _ =>
    Takes.expect.bind fun _ used₅ _ => takes.bind fun body more acts => .pure ⟨acts.binds, ?_⟩
  intro named
  simp only [List.append_nil, named_append] at named
  exact acts.plain named.2.2.2.2.2.2

end Reading

namespace Walk

/-- The addresses of what a loop repeats. The body is walked last: no clause sees what is declared
there. -/
def rounds (r : Rounds Unit) : Walk (Rounds Address) := do
  let condition ← optionalExpr r.condition
  let increment ← optionalExpr r.increment
  let body ← stmt r.body
  pure ⟨condition, increment, body⟩

/-- The addresses of a loop, which has one scope if it has an initializer. -/
def forLoop (l : ForLoop Unit) : Walk (ForLoop Address) := do
  match l.initializer with
  | none =>
    let r ← rounds l.toRounds
    pure ⟨r, none⟩
  | some s =>
    openScope Table.empty
    let s ← stmt s
    let r ← rounds l.toRounds
    closeScope
    pure ⟨r, some s⟩

end Walk

namespace Run

/-- Whether a condition holds; no condition always does. -/
def holds (call : Caller) : Option (Expr Address) → Run Bool
  | none => pure true
  | some e => do
    let v ← evaluate call e
    pure v.isTruthy

/-- The body and, if it ends normally, the increment. -/
def turn (limit : Nat) (call : Caller) (r : Rounds Address) : Run Unit := do
  execute limit call r.body
  match r.increment with
  | none => pure ()
  | some e =>
    let _ ← evaluate call e
    pure ()

/-- The rounds of a loop, in the scope that is active. One round is a turn if the condition holds;
the loop stops where it does not. -/
def rounds (limit : Nat) (call : Caller) (r : Rounds Address) : Nat → Run Unit
  | 0 => throw .endless
  | n + 1 => do
    if ← holds call r.condition then
      turn limit call r
      rounds limit call r n

section
variable {limit n : Nat} {call : Caller} {r : Rounds Address} {m m' : Machine}

/-- So many whole turns lead from one machine to the other, the condition holding before each. -/
inductive Turns (limit : Nat) (call : Caller) (r : Rounds Address) : Nat → Machine → Machine → Prop
  | none (m : Machine) : Turns limit call r 0 m m
  | one {k : Nat} {m m₁ m₂ m' : Machine} : holds call r.condition m = .ok true m₁ →
    turn limit call r m₁ = .ok () m₂ → Turns limit call r k m₂ m' → Turns limit call r (k + 1) m m'

theorem rounds_succ : rounds limit call r (n + 1) m =
    match holds call r.condition m with
    | .ok true m₁ =>
      match turn limit call r m₁ with
      | .ok _ m₂ => rounds limit call r n m₂
      | .error e m₂ => .error e m₂
    | .ok false m₁ => .ok () m₁
    | .error e m₁ => .error e m₁ := by
  change EStateM.bind _ _ _ = _
  unfold EStateM.bind
  cases holds call r.condition m with
  | error e m₁ => rfl
  | ok again m₁ =>
      cases again with
      | false => rfl
      | true =>
          change EStateM.bind _ _ _ = _
          unfold EStateM.bind
          dsimp only
          cases turn limit call r m₁ <;> rfl

/-- A loop ends where its condition does not hold, after some whole turns. -/
theorem rounds_ok_iff : rounds limit call r n m = .ok () m' ↔ ∃ k < n, ∃ m₁,
    Turns limit call r k m m₁ ∧ holds call r.condition m₁ = .ok false m' := by
  induction n generalizing m with
  | zero => exact iff_of_false (fun done => by cases done) fun ⟨_, less, _⟩ => nomatch less
  | succ n ih =>
      rw [rounds_succ]
      constructor
      · intro done
        split at done
        case h_1 m₁ again =>
          split at done
          case h_1 m₂ turned =>
            obtain ⟨k, less, m₃, turns, stops⟩ := ih.mp done
            exact ⟨k + 1, Nat.succ_lt_succ less, m₃, .one again turned turns, stops⟩
          case h_2 => cases done
        case h_2 m₁ stops =>
          cases done
          exact ⟨0, Nat.succ_pos n, _, .none _, stops⟩
        case h_3 => cases done
      · rintro ⟨k, less, m₁, turns, stops⟩
        cases turns with
        | none => simp only [stops]
        | one again turned turns =>
            simp only [again, turned]
            exact ih.mpr ⟨_, Nat.lt_of_succ_lt_succ less, m₁, turns, stops⟩

/-- A loop breaks off, after some whole turns, where its condition or the next turn does, or else
where it has taken all the turns it may. -/
theorem rounds_error_iff {e : Exit} : rounds limit call r n m = .error e m' ↔
    (e = .endless ∧ Turns limit call r n m m') ∨ ∃ k < n, ∃ m₁, Turns limit call r k m m₁ ∧
      (holds call r.condition m₁ = .error e m' ∨
        ∃ m₂, holds call r.condition m₁ = .ok true m₂ ∧ turn limit call r m₂ = .error e m') := by
  induction n generalizing m with
  | zero =>
      constructor
      · intro failed
        cases failed
        exact .inl ⟨rfl, .none _⟩
      · rintro (⟨rfl, turns⟩ | ⟨_, less, _⟩)
        · cases turns
          rfl
        · cases less
  | succ n ih =>
      rw [rounds_succ]
      constructor
      · intro failed
        split at failed
        case h_1 m₁ again =>
          split at failed
          case h_1 m₂ turned =>
            rcases ih.mp failed with ⟨rfl, turns⟩ | ⟨k, less, m₃, turns, stops⟩
            · exact .inl ⟨rfl, .one again turned turns⟩
            · exact .inr ⟨k + 1, Nat.succ_lt_succ less, m₃, .one again turned turns, stops⟩
          case h_2 broken =>
            cases failed
            exact .inr ⟨0, Nat.succ_pos n, _, .none _, .inr ⟨m₁, again, broken⟩⟩
        case h_2 => cases failed
        case h_3 broken =>
          cases failed
          exact .inr ⟨0, Nat.succ_pos n, _, .none _, .inl broken⟩
      · rintro (⟨rfl, turns⟩ | ⟨k, less, m₁, turns, stops⟩)
        · cases turns with
          | one again turned turns =>
              simp only [again, turned]
              exact ih.mpr (.inl ⟨rfl, turns⟩)
        · cases turns with
          | none =>
              rcases stops with broken | ⟨m₂, again, broken⟩
              · simp only [broken]
              · simp only [again, broken]
          | one again turned turns =>
              simp only [again, turned]
              exact ih.mpr (.inr ⟨_, Nat.lt_of_succ_lt_succ less, m₁, turns, stops⟩)

/-- The interpreter's own repetition takes the same rounds. -/
theorem rounds_eq_repeatWhile : rounds limit call r n = repeatWhile (do
    if ← holds call r.condition then
      turn limit call r
      pure true
    else pure false) n := by
  induction n with
  | zero => rfl
  | succ n ih =>
      simp only [rounds, repeatWhile, ih, bind_assoc]
      refine bind_congr fun again => ?_
      cases again <;> simp

end

/-- A whole loop. Its initializer, if there is one, and all its rounds share one new scope. -/
def forLoop (limit : Nat) (call : Caller) (l : ForLoop Address) : Run Unit := do
  match l.initializer with
  | none => rounds limit call l.toRounds limit
  | some s =>
    let scope ← change (·.newScope (some (← active)))
    within scope (do
      execute limit call s
      rounds limit call l.toRounds limit)

end Run
end LoxLang
