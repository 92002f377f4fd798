import LoxLang.Proofs.Loops
import LoxLang.Proofs.Thinning.Runs
import LoxLang.Proofs.Thinning.Walking
/-! A `for` against the tree it is read as. The tree has one scope more in each round, around the
body and the increment; it holds no names, so the loop without it does the same. -/
namespace LoxLang
namespace Run
open Twin (Equals)
variable {call : Caller} {limit : Nat} {ks : List Bool} {T : Twin} {Θ : Scopes} {b : Bool}
  {c : Walk.Context}

theorem executeAll_one (s : Stmt Address) : executeAll limit call [s] = execute limit call s :=
  bind_pure _

/-- No condition is a condition that is true. -/
theorem holds_thins (calls : call.Thins) (all : AllKept ks) (line : Nat)
    (condition : Option (Expr Unit)) (view : T.View ks) :
    Thins Equals
      (do
        let v ← evaluate call (Walk.expr (condition.getD (.literal line (.bool true))) c).value
        pure v.isTruthy)
      (holds call (Walk.optionalExpr condition c).value) T := by
  cases condition with
  | none => exact .pure view.toThins rfl
  | some e =>
      refine (evaluate_thins calls (.refl all (Walk.expr e c).value) T view).bind ?_
      rintro v _ T₁ - thins₁ rfl
      exact .pure thins₁ rfl

/-- The body and the increment do in the loop's scope what they do in a scope of their own. -/
theorem turn_thins (calls : call.Thins) (all : AllKept ks) {line : Nat} {body : Stmt Unit}
    {e : Expr Unit} (binds : body.binds = none) (plain : body.Plain)
    (lawful : ∀ σ ∈ (Walk.stmt (.block line [body, .expression e]) c).value.sites Θ b, σ.Lawful)
    {condition : Option (Expr Address)} (view : T.View ks) :
    Thins Equals (execute limit call (Walk.stmt (.block line [body, .expression e]) c).value)
      (turn limit call ⟨condition, some (Walk.expr e c).value,
        (Walk.stmt body (Walk.expr e c).context).value⟩) T := by
  obtain ⟨-, inside⟩ := List.forall_mem_cons.mp lawful
  obtain ⟨first, others⟩ := List.forall_mem_append.mp inside
  obtain ⟨second, -⟩ := List.forall_mem_append.mp others
  obtain ⟨-, second⟩ := List.forall_mem_cons.mp second
  have hollow : Scopes.Hollow (false :: ks) (Table.empty :: Θ) :=
    (Scopes.Hollow.of_allKept all).left
  let d : Walk.Context := { c with scopes := Table.empty :: c.scopes }
  have entered : Walk.Thins (false :: ks) d (Walk.expr e c).context := by
    refine ⟨.left ?_, (Walk.expr_keeps e c).surrounding⟩
    rw [Walk.expr_scopes]
    exact .same all
  have behind : Walk.Thins (false :: ks) (Walk.stmt body d).context c := by
    have keeps := Walk.stmt_keeps body d plain
    rw [Scopes.extend_of_binds_none binds] at keeps
    exact ⟨keeps.scopes ▸ .left (.same all), keeps.surrounding.symm⟩
  obtain ⟨shortens, -⟩ := Walk.stmt_shortens body (false :: ks) (Table.empty :: Θ) b d _ hollow
    entered (by simp [binds]) first
  have increment := Walk.expr_shortens (hollow.extend (Walk.stmt body d).value (by simp [binds])) e
    _ c behind (Walk.lawful_nodes second)
  refine .enterLeft view fun T' view' => ?_
  refine (execute_thins calls shortens T' view').bind ?_
  rintro _ _ T₁ later thins₁ -
  refine executeAll_one _ ▸ (evaluate_thins calls increment T₁ (later.view view' thins₁)).bind ?_
  rintro _ _ T₂ - thins₂ -
  exact .pure thins₂ rfl

/-- What is repeated does the same in each round. -/
theorem round_thins (calls : call.Thins) (all : AllKept ks) {line : Nat} {r : Rounds Unit}
    (binds : r.body.binds = none) (plain : r.body.Plain)
    (lawful : ∀ σ ∈ (Walk.stmt (r.round line) (Walk.optionalExpr r.condition c).context).value.sites
      Θ b, σ.Lawful) (view : T.View ks) :
    Thins Equals
      (execute limit call (Walk.stmt (r.round line) (Walk.optionalExpr r.condition c).context).value)
      (turn limit call (Walk.rounds r c).value) T := by
  obtain ⟨condition, increment, body⟩ := r
  cases increment with
  | none =>
      have alone : turn limit call (Walk.rounds ⟨condition, none, body⟩ c).value =
          execute limit call (Walk.stmt body (Walk.optionalExpr condition c).context).value :=
        bind_pure _
      rw [alone]
      exact execute_thins calls (.refl all _) T view
  | some e => exact turn_thins calls all binds plain lawful view

/-- All rounds come to the same. -/
theorem rounds_thins (calls : call.Thins) (all : AllKept ks) {line : Nat} {r : Rounds Unit}
    (binds : r.body.binds = none) (plain : r.body.Plain)
    (lawful : ∀ σ ∈ (Walk.stmt (r.repeated line) c).value.sites Θ b, σ.Lawful)
    (view : T.View ks) :
    Thins Equals (execute limit call (Walk.stmt (r.repeated line) c).value)
      (rounds limit call (Walk.rounds r c).value limit) T := by
  have walked : (Walk.expr (r.condition.getD (.literal line (.bool true))) c).context =
      (Walk.optionalExpr r.condition c).context := by cases r.condition <;> rfl
  obtain ⟨-, inside⟩ := List.forall_mem_cons.mp lawful
  obtain ⟨-, inside⟩ := List.forall_mem_append.mp inside
  have tree : (Walk.stmt (r.repeated line) c).value = .loop line
      (Walk.expr (r.condition.getD (.literal line (.bool true))) c).value
      (Walk.stmt (r.round line) (Walk.optionalExpr r.condition c).context).value := by
    rw [← walked]
    rfl
  rw [walked] at inside
  rw [tree, rounds_eq_repeatWhile]
  refine .repeatWhile (fun T view => ?_) limit T view
  have run : Thins Equals
      (do
        let again ← (do
          let v ← evaluate call (Walk.expr (r.condition.getD (.literal line (.bool true))) c).value
          pure v.isTruthy)
        if again then
          execute limit call
            (Walk.stmt (r.round line) (Walk.optionalExpr r.condition c).context).value
          pure true
        else pure false)
      (do
        if ← holds call (Walk.optionalExpr r.condition c).value then
          turn limit call (Walk.rounds r c).value
          pure true
        else pure false) T := by
    refine (holds_thins calls all line r.condition view).bind ?_
    rintro again _ T₁ later thins₁ rfl
    cases again with
    | false => exact .pure thins₁ rfl
    | true =>
        refine (round_thins calls all binds plain inside (later.view view thins₁)).bind ?_
        rintro _ _ T₂ - thins₂ -
        exact .pure thins₂ rfl
  simp only [bind_assoc, pure_bind] at run
  exact run

/-- A loop does what the tree does that it is read as. -/
theorem forLoop_thins (calls : call.Thins) (all : AllKept ks) {line : Nat} {l : ForLoop Unit}
    (binds : l.body.binds = none) (plain : l.body.Plain)
    (lawful : ∀ σ ∈ (Walk.stmt (l.desugared line) c).value.sites Θ b, σ.Lawful)
    (view : T.View ks) :
    Thins Equals (execute limit call (Walk.stmt (l.desugared line) c).value)
      (forLoop limit call (Walk.forLoop l c).value) T := by
  obtain ⟨r, initializer⟩ := l
  cases initializer with
  | none =>
      rw [ForLoop.desugared_none] at lawful ⊢
      exact rounds_thins calls all binds plain lawful view
  | some s =>
      rw [ForLoop.desugared_some] at lawful ⊢
      obtain ⟨-, inside⟩ := List.forall_mem_cons.mp lawful
      obtain ⟨first, others⟩ := List.forall_mem_append.mp inside
      obtain ⟨second, -⟩ := List.forall_mem_append.mp others
      refine .enter view fun T' view' => ?_
      refine (execute_thins calls (.refl all.cons _) T' view').bind ?_
      rintro _ _ T₁ later thins₁ -
      exact executeAll_one _ ▸ rounds_thins calls all.cons binds plain second (later.view view' thins₁)

end Run
end LoxLang
