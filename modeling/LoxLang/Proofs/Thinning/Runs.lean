import LoxLang.Proofs.Thinning.Running
/-! Whole runs of code with shorter addresses, on a machine without the scopes left out. -/
namespace LoxLang

/-- Calls come to the same on both machines. -/
def Caller.Thins (call : Caller) : Prop :=
  ∀ c arguments (T : Twin), T.Thins → Run.Thins Twin.Equals (call c arguments) (call c arguments) T

namespace Run
open Twin (Equals Stays)
variable {call : Caller} {rounds : Nat} {ks : List Bool} {T : Twin}

namespace Thins

/-- Both look up how many arguments something takes. -/
theorem arity (thins : T.Thins) (c : Callable) :
    Thins (Stays T) (do Run.follow ((← Run.heap).arity? c)) (do Run.follow ((← Run.heap).arity? c))
      T :=
  read (follow_same thins (thins.heap.arity? c))

theorem callValue (calls : call.Thins) (thins : T.Thins) (close : Pos) (callee : Value)
    (arguments : List Value) :
    Thins Equals (Run.callValue call close callee arguments)
      (Run.callValue call close callee arguments) T := by
  cases callee with
  | nil | bool _ | number _ | text _ | object _ => exact fault thins _ _
  | callable c =>
      refine (arity thins c).bind ?_
      rintro n _ _ - - ⟨rfl, rfl⟩
      split
      · exact calls c arguments T thins
      · exact fault thins _ _

end Thins

mutual

/-- An expression has the same value with shorter addresses. -/
theorem evaluate_thins (calls : call.Thins) : ∀ {e e' : Expr Address}, e.Shortens ks e' →
    ∀ T : Twin, T.View ks → Thins Equals (evaluate call e) (evaluate call e') T
  | _, _, .literal _ _, T, view => .pure view.toThins rfl
  | _, _, .grouping inner, T, view => evaluate_thins calls inner T view
  | _, _, .var address, T, view => .equal (.lookUp view address)
  | _, _, .assign value address, T, view => by
      refine (evaluate_thins calls value T view).bind ?_
      rintro v _ T₁ later thins₁ rfl
      refine (Thins.assign (later.view view thins₁) address v).bind ?_
      intro _ _ T₂ _ thins₂ _
      exact .pure thins₂ rfl
  | _, _, .unary operand, T, view => by
      refine (evaluate_thins calls operand T view).bind ?_
      rintro v _ T₁ - thins₁ rfl
      exact .equal (.lift thins₁ _ _)
  | _, _, .binary left right, T, view => by
      refine (evaluate_thins calls left T view).bind ?_
      rintro a _ T₁ later thins₁ rfl
      refine (evaluate_thins calls right T₁ (later.view view thins₁)).bind ?_
      rintro b _ T₂ - thins₂ rfl
      exact .equal (.lift thins₂ _ _)
  | _, _, @Expr.Shortens.logical _ _ _ _ _ op _ left right, T, view => by
      refine (evaluate_thins calls left T view).bind ?_
      rintro a _ T₁ later thins₁ rfl
      have rest := evaluate_thins calls right T₁ (later.view view thins₁)
      cases op <;> simp only [shortCircuit] <;> split
      · exact rest
      · exact .pure thins₁ rfl
      · exact .pure thins₁ rfl
      · exact rest
  | _, _, .conditional condition thenBranch elseBranch, T, view => by
      refine (evaluate_thins calls condition T view).bind ?_
      rintro c _ T₁ later thins₁ rfl
      have view₁ := later.view view thins₁
      split
      · exact evaluate_thins calls thenBranch T₁ view₁
      · exact evaluate_thins calls elseBranch T₁ view₁
  | _, _, .call callee arguments, T, view => by
      refine (evaluate_thins calls callee T view).bind ?_
      rintro f _ T₁ later thins₁ rfl
      refine (evaluateAll_thins calls arguments T₁ (later.view view thins₁)).bind ?_
      rintro vs _ T₂ - thins₂ rfl
      exact .callValue calls thins₂ _ f vs
  | _, _, .member object, T, view => by
      refine (evaluate_thins calls object T view).bind ?_
      rintro v _ T₁ - thins₁ rfl
      cases v with
      | object i => exact .property thins₁ i _
      | nil | bool _ | number _ | text _ | callable _ => exact .fault thins₁ _ _
  | _, _, .assignMember object value, T, view => by
      refine (evaluate_thins calls object T view).bind ?_
      rintro v _ T₁ later thins₁ rfl
      cases v with
      | object i =>
          refine (evaluate_thins calls value T₁ (later.view view thins₁)).bind ?_
          rintro v _ T₂ - thins₂ rfl
          refine (Thins.setField thins₂ i _ v).bind ?_
          intro _ _ T₃ _ thins₃ _
          exact .pure thins₃ rfl
      | nil | bool _ | number _ | text _ | callable _ => exact .fault thins₁ _ _
  | _, _, .receiver address, T, view => .equal (.lookUp view address)
  | _, _, .inherited addresses, T, view => .inheritedMethod view addresses

theorem evaluateAll_thins (calls : call.Thins) : ∀ {es es' : List (Expr Address)},
    ShortensAll ks es es' →
    ∀ T : Twin, T.View ks → Thins Equals (evaluateAll call es) (evaluateAll call es') T
  | _, _, .nil, T, view => .pure view.toThins rfl
  | _, _, .cons first others, T, view => by
      refine (evaluate_thins calls first T view).bind ?_
      rintro v _ T₁ later thins₁ rfl
      refine (evaluateAll_thins calls others T₁ (later.view view thins₁)).bind ?_
      rintro vs _ T₂ - thins₂ rfl
      exact .pure thins₂ rfl

end

mutual

/-- A statement has the same effects with shorter addresses. -/
theorem execute_thins (calls : call.Thins) : ∀ {ks : List Bool} {s s' : Stmt Address},
    s.Shortens ks s' →
    ∀ T : Twin, T.View ks → Thins Equals (execute rounds call s) (execute rounds call s') T
  | _, _, _, .expression value, T, view => by
      refine (evaluate_thins calls value T view).bind ?_
      intro _ _ T₁ _ thins₁ _
      exact .pure thins₁ rfl
  | _, _, _, .print value, T, view => by
      refine (evaluate_thins calls value T view).bind ?_
      rintro v _ T₁ - thins₁ rfl
      exact .display thins₁ v
  | _, _, _, .declare name inner, T, view => .define view inner name.text none
  | _, _, _, .define inner value, T, view => by
      refine (evaluate_thins calls value T view).bind ?_
      rintro v _ T₁ later thins₁ rfl
      exact .define (later.view view thins₁) inner _ (some v)
  | _, _, _, .block body, T, view => .enter view (executeAll_thins calls body)
  | _, _, _, .ifThen condition thenBranch, T, view => by
      refine (evaluate_thins calls condition T view).bind ?_
      rintro c _ T₁ later thins₁ rfl
      split
      · exact execute_thins calls thenBranch T₁ (later.view view thins₁)
      · exact .pure thins₁ rfl
  | _, _, _, .ifElse condition thenBranch elseBranch, T, view => by
      refine (evaluate_thins calls condition T view).bind ?_
      rintro c _ T₁ later thins₁ rfl
      have view₁ := later.view view thins₁
      split
      · exact execute_thins calls thenBranch T₁ view₁
      · exact execute_thins calls elseBranch T₁ view₁
  | _, _, _, .loop condition body, T, view => by
      refine .repeatWhile (fun T view => ?_) rounds T view
      refine (evaluate_thins calls condition T view).bind ?_
      rintro c _ T₁ later thins₁ rfl
      split
      · refine (execute_thins calls body T₁ (later.view view thins₁)).bind ?_
        intro _ _ T₂ _ thins₂ _
        exact .pure thins₂ rfl
      · exact .pure thins₁ rfl
  | _, _, _, .function inner declaration, T, view => .declareFunction view inner declaration
  | _, _, _, .classDecl inner methods, T, view => by
      simp only [execute, Recorded.declareClass_none]
      exact .bindClass none view inner methods
  | _, _, _, .subclass inner above methods, T, view => by
      simp only [execute, Recorded.declareClass_some]
      refine (Thins.superclass view above).bind ?_
      rintro c _ T₁ later thins₁ rfl
      exact .bindClass (some c) (later.view view thins₁) inner methods
  | _, _, _, .leave pos, T, view => .stop view.toThins (.same _)
  | _, _, _, .give value, T, view => by
      refine (evaluate_thins calls value T view).bind ?_
      rintro v _ T₁ - thins₁ rfl
      exact .stop thins₁ (.same _)

theorem executeAll_thins (calls : call.Thins) : ∀ {ks : List Bool} {ss ss' : List (Stmt Address)},
    ShortensBody ks ss ss' →
    ∀ T : Twin, T.View ks → Thins Equals (executeAll rounds call ss) (executeAll rounds call ss') T
  | _, _, _, .nil, T, view => .pure view.toThins rfl
  | _, _, _, .cons first others, T, view => by
      refine (execute_thins calls first T view).bind ?_
      intro _ _ T₁ later thins₁ _
      exact executeAll_thins calls others T₁ (later.view view thins₁)

end

/-- A routine is run in the scope of its activation. -/
theorem activate_eq (k : Closure) (arguments : List Value) :
    activate rounds call k arguments = (do
      let s ← Recorded.openActivation k arguments
      let v ← bodyValue (within s (executeAll rounds call k.declaration.body))
      yielded k v) := by
  simp [activate, Recorded.openActivation]

/-- A routine is run with shorter addresses. -/
theorem activate_thins (calls : call.Thins) {k k' : Closure} (arguments : List Value)
    (thins : T.Thins) (same : k.Thins T.pairing T.left.heap T.right.heap [] k') :
    Thins Equals (activate rounds call k arguments) (activate rounds call k' arguments) T := by
  rw [activate_eq, activate_eq]
  refine (Thins.openActivation arguments thins same).bind ?_
  intro s s' T₁ later thins₁ inside
  refine (Thins.bodyValue (.within (executeAll_thins calls same.code.body _ inside))).bind ?_
  rintro v _ T₂ later₂ thins₂ rfl
  exact .yielded thins₂ ((same.grow later.grown later.grown' later.pairing).grow later₂.grown
    later₂.grown' later₂.pairing) v

theorem instantiate_thins (calls : call.Thins) (c : ClassId) (arguments : List Value)
    (thins : T.Thins) :
    Thins Equals (instantiate rounds call c arguments) (instantiate rounds call c arguments) T := by
  have created : Thins Equals (Run.change (·.newInstance c)) (Run.change (·.newInstance c)) T :=
    .change thins (T.left.heap.extends_newInstance c) (T.right.heap.extends_newInstance c)
      (Pairing.grows_refl _ _) (thins.heap.newInstance c).2 (thins.heap.newInstance c).1.symm
  refine created.bind ?_
  rintro i _ T₁ - thins₁ rfl
  refine .read ?_
  have found := thins₁.heap.findMethod c "init"
  generalize T₁.left.heap.findMethod c "init" = o, T₁.right.heap.findMethod c "init" = o' at found
  cases found with
  | none => exact .pure thins₁ rfl
  | some same =>
      refine (Thins.bindReceiver thins₁ same i).bind ?_
      intro k k' T₂ _ thins₂ same₂
      refine (activate_thins calls arguments thins₂ same₂).bind ?_
      intro _ _ T₃ _ thins₃ _
      exact .pure thins₃ rfl

/-- A program of the host sees no scopes. -/
theorem host_thins (calls : call.Thins) (p : Host) :
    ∀ T : Twin, T.Thins → Thins Equals (host call p) (host call p) T := by
  induction p with
  | done v => exact fun T thins => .pure thins rfl
  | raise message => exact fun T thins => .fault thins _ none
  | call callee arguments next ih =>
      intro T thins
      refine (calls callee arguments T thins).bind ?_
      rintro v _ T₁ - thins₁ rfl
      exact ih v T₁ thins₁
  | arity callee next ih =>
      intro T thins
      refine (Thins.arity thins callee).bind ?_
      rintro n _ _ - - ⟨rfl, rfl⟩
      exact ih n T thins
  | display v next ih =>
      intro T thins
      refine .read ?_
      rw [thins.heap.display]
      exact ih _ T thins
  | time next ih =>
      intro T thins
      refine (Thins.time thins).bind ?_
      rintro now _ T₁ - thins₁ rfl
      exact ih now T₁ thins₁

/-- Calls come to the same, however deep they nest. -/
theorem invoke_thins (rounds depth : Nat) : (invoke rounds depth).Thins := by
  induction depth with
  | zero => exact fun c arguments T thins => .stop thins (.same _)
  | succ depth ih =>
      intro c arguments T thins
      cases c with
      | function f =>
          refine .read ((Thins.follow thins (thins.heap.functions f)).bind ?_)
          rintro k k' _ - - ⟨rfl, same⟩
          exact activate_thins ih arguments thins same
      | ofClass c => exact instantiate_thins ih c arguments thins
      | native n =>
          have same : T.right.heap.native? n = T.left.heap.native? n := by
            rw [Heap.native?, Heap.native?, thins.heap.natives]
          refine .read ((Thins.follow_same thins same).bind ?_)
          rintro r _ _ - - ⟨rfl, rfl⟩
          exact host_thins ih _ T thins

end Run
end LoxLang
