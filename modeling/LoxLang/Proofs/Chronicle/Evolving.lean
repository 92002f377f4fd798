import LoxLang.Proofs.Chronicle.Building
/-! Any code lets the heap evolve, from every scene at which the machine stands. -/
namespace LoxLang
namespace Chronicled
variable {a : Scene}

/-- Calls that let the heap evolve. -/
def BuildingCalls (call : Calls) : Prop :=
  ∀ callee arguments (a : Scene), a.Stands → a.machine.heap.Leads callee →
    (∀ v ∈ arguments, a.machine.heap.Valid v) →
    Builds (call callee arguments) a fun v h => h.Valid v

/-! Changes of the heap. -/

theorem updateDefine_builds (stands : a.Stands) (s : ScopeId) (x : String) {v : Option Value}
    (valid : ∀ w, v = some w → a.machine.heap.Valid w) :
    Builds (silent (Run.update (·.define s x v))) a fun _ _ => True :=
  .update stands (.one (.binding s x valid))

theorem define_builds (stands : a.Stands) (x : String) {v : Option Value}
    (valid : ∀ w, v = some w → a.machine.heap.Valid w) :
    Builds (silent (Run.define x v)) a fun _ _ => True :=
  .silently (z := Run.update (·.define a.machine.active x v)) rfl
    (updateDefine_builds stands _ x valid)

theorem assignFrom_builds (stands : a.Stands) (s : ScopeId) (name : Name) {v : Value}
    (valid : a.machine.heap.Valid v) :
    Builds (silent (Run.assignFrom s name v)) a fun _ _ => True := by
  rcases Run.assignFrom_cases s name v a.machine with ⟨t, same⟩ | ⟨e, same, other⟩
  · exact .silently same (updateDefine_builds stands t _ fun w same => Option.some.inj same ▸ valid)
  · exact .silently same (.throw stands (.other other))

theorem assign_builds (stands : a.Stands) (name : Name) (address : Address) {v : Value}
    (valid : a.machine.heap.Valid v) :
    Builds (silent (Run.assign name address v)) a fun _ _ => True := by
  rcases Run.assign_cases name address v a.machine with ⟨t, same⟩ | ⟨e, same, other⟩
  · exact .silently same (updateDefine_builds stands t _ fun w same => Option.some.inj same ▸ valid)
  · exact .silently same (.throw stands (.other other))

/-- A name without a value refers to nothing. -/
theorem defineNone_builds (stands : a.Stands) (x : String) :
    Builds (silent (Run.define x none)) a fun _ _ => True :=
  define_builds stands x (by rintro w ⟨⟩)

/-- A method gets a receiver in a scope of its own. -/
theorem bindReceiver_builds {α : Type} {Q : α → Heap → Prop} {f : Closure → Chronicled α}
    (stands : a.Stands) {method : Closure} {i : InstanceId}
    (alive : a.machine.heap.Alive method.scope) (valid : a.machine.heap.Valid (.object i))
    (rest : ∀ k b, a.Onward b → b.machine.heap.Alive k.scope → Builds (f k) b Q) :
    Builds (silent (Run.change (·.bindReceiver method i)) >>= f) a Q := by
  obtain ⟨evolves, bound⟩ := Heap.evolves_newScopeWith alive "this" valid
  exact .change stands evolves fun b onward same => rest _ b onward (same ▸ bound)

theorem bound_builds (stands : a.Stands) {method : Closure} (d : ClassId) {i : InstanceId}
    (alive : a.machine.heap.Alive method.scope) (valid : a.machine.heap.Valid (.object i)) :
    Builds (bound method d i) a fun v h => h.Valid v := by
  refine .inner fun Γ => bindReceiver_builds stands alive valid fun k b onward living => ?_
  exact (Builds.newFunction onward.stands living).bind fun f c onward' leads =>
    .pure onward'.stands leads

theorem methodFrom_builds (stands : a.Stands) (c : ClassId) (name : Name) {i : InstanceId}
    (valid : a.machine.heap.Valid (.object i)) :
    Builds (methodFrom a.machine.heap c name i) a fun v h => h.Valid v := by
  unfold methodFrom
  split
  · next d method found => exact bound_builds stands d (stands.linked.methodAlive found) valid
  · exact .fault stands _ _

theorem property_builds (stands : a.Stands) {i : InstanceId} (name : Name)
    (valid : a.machine.heap.Valid (.object i)) :
    Builds (property i name) a fun v h => h.Valid v := by
  refine .heap (.follow stands fun o here => ?_)
  split
  · next v field => exact .pure stands (stands.linked.typed.fields i o name.text v here field)
  · exact methodFrom_builds stands _ name valid

theorem inheritedMethod_builds (stands : a.Stands) (pos : Pos) (method : Name)
    (address : Address) : Builds (inheritedMethod pos method address) a fun v h => h.Valid v := by
  refine .heap (.follow stands fun depth _ => .read stands (Run.lookUp_reads _ _) fun v _ => ?_)
  refine .active ?_
  split
  · next c i here _ =>
      exact methodFrom_builds stands c method (Run.getAt_valid stands.linked.typed here)
  · exact .throw stands trivial
  · exact .throw stands trivial

/-! Expressions. -/

section
variable {call : Calls}

theorem lookUp_builds (stands : a.Stands) (token : Token) (address : Address) :
    Builds (silent (Run.lookUp token address)) a fun v h => h.Valid v :=
  .reads stands (Run.lookUp_reads token address) fun _ valid => valid stands.linked.typed

theorem callValue_builds (calls : BuildingCalls call) (stands : a.Stands) (close : Pos)
    {callee : Value} {arguments : List Value} (valid : a.machine.heap.Valid callee)
    (all : ∀ v ∈ arguments, a.machine.heap.Valid v) :
    Builds (callValue call close callee arguments) a fun v h => h.Valid v := by
  cases callee with
  | callable c =>
      exact .heap (.follow stands fun n _ => .ite (calls c arguments a stands valid all)
        (.fault stands _ _))
  | _ => exact .fault stands _ _

mutual

theorem evaluate_builds (calls : BuildingCalls call) : ∀ (e : Expr Address) (a : Scene),
    a.Stands → Builds (evaluate call e) a fun v h => h.Valid v
  | .literal _ value, a, stands => by
      refine .mark stands fun b onward _ => .pure onward.stands ?_
      cases value <;> trivial
  | .grouping _ inner, a, stands =>
      .mark stands fun b onward _ => evaluate_builds calls inner b onward.stands
  | .var _ _, a, stands => .mark stands fun b onward _ => lookUp_builds onward.stands _ _
  | .assign name value address, a, stands => by
      refine .mark stands fun b onward _ => ?_
      refine (evaluate_builds calls value b onward.stands).bind fun v c onward' valid => ?_
      refine (assign_builds onward'.stands name address valid).bind fun _ d onward'' _ => ?_
      exact .pure onward''.stands (valid.grow onward''.grown)
  | .unary _ _ operand, a, stands => by
      refine .mark stands fun b onward _ => ?_
      refine (evaluate_builds calls operand b onward.stands).bind fun v c onward' _ => ?_
      exact .reads onward'.stands (Run.lift_reads fun w done => UnaryOp.apply_valid done)
        fun _ => id
  | .binary left _ _ right, a, stands => by
      refine .mark stands fun b onward _ => ?_
      refine (evaluate_builds calls left b onward.stands).bind fun v c onward' _ => ?_
      refine (evaluate_builds calls right c onward'.stands).bind fun w d onward'' valid => ?_
      exact .reads onward''.stands
        (Run.lift_reads fun _ done => BinaryOp.apply_valid valid done) fun _ => id
  | .logical left op _ right, a, stands => by
      refine .mark stands fun b onward _ => ?_
      refine (evaluate_builds calls left b onward.stands).bind fun v c onward' valid => ?_
      have rest := evaluate_builds calls right c onward'.stands
      cases op with
      | and => exact .ite rest (.pure onward'.stands valid)
      | or => exact .ite (.pure onward'.stands valid) rest
  | .conditional condition thenBranch elseBranch, a, stands => by
      refine .mark stands fun b onward _ => ?_
      refine (evaluate_builds calls condition b onward.stands).bind fun v c onward' _ => ?_
      exact .ite (evaluate_builds calls thenBranch c onward'.stands)
        (evaluate_builds calls elseBranch c onward'.stands)
  | .call callee close arguments, a, stands => by
      refine .mark stands fun b onward _ => ?_
      refine (evaluate_builds calls callee b onward.stands).bind fun f c onward' valid => ?_
      refine (evaluateAll_builds calls arguments c onward'.stands).bind fun vs d onward'' all => ?_
      exact callValue_builds calls onward''.stands close (valid.grow onward''.grown) all
  | .member object name, a, stands => by
      refine .mark stands fun b onward _ => ?_
      refine (evaluate_builds calls object b onward.stands).bind fun v c onward' valid => ?_
      cases v with
      | object i => exact property_builds onward'.stands name valid
      | _ => exact .fault onward'.stands _ _
  | .assignMember object name value, a, stands => by
      refine .mark stands fun b onward _ => ?_
      refine (evaluate_builds calls object b onward.stands).bind fun v c onward' _ => ?_
      cases v with
      | object i =>
          refine (evaluate_builds calls value c onward'.stands).bind fun w d onward'' valid => ?_
          refine (Builds.update onward''.stands (.one (.field i name.text valid))).bind ?_
          exact fun _ e onward₃ _ => .pure onward₃.stands (valid.grow onward₃.grown)
      | _ => exact .fault onward'.stands _ _
  | .receiver _ _, a, stands => .mark stands fun b onward _ => lookUp_builds onward.stands _ _
  | .inherited pos method address, a, stands =>
      .mark stands fun b onward _ => inheritedMethod_builds onward.stands pos method address

theorem evaluateAll_builds (calls : BuildingCalls call) : ∀ (es : List (Expr Address)) (a : Scene),
    a.Stands → Builds (evaluateAll call es) a fun vs h => ∀ v ∈ vs, h.Valid v
  | [], a, stands => .pure stands fun _ member => absurd member List.not_mem_nil
  | e :: rest, a, stands => by
      refine (evaluate_builds calls e a stands).bind fun v b onward valid => ?_
      refine (evaluateAll_builds calls rest b onward.stands).bind fun vs c onward' all => ?_
      exact .pure onward'.stands (List.forall_mem_cons.mpr ⟨valid.grow onward'.grown, all⟩)

end

end

/-! Statements. -/

/-- The scope of the methods of a class is made where the class is declared. -/
theorem methodScope_builds {f : ScopeId → Chronicled Unit} (stands : a.Stands)
    {above : Option ClassId} (leads : ∀ p, above = some p → a.machine.heap.Leads (.ofClass p))
    (rest : ∀ s b, a.Onward b → b.machine.heap.Alive s → Builds (f s) b fun _ _ => True) :
    Builds (silent (Recorded.methodScope a.machine.active above) >>= f) a fun _ _ => True := by
  cases above with
  | none =>
      exact .read stands (.pure rfl) fun s same =>
        same ▸ rest _ a (.refl stands) stands.machine.active
  | some p =>
      have valid : a.machine.heap.Valid (.callable (.ofClass p)) := leads p rfl
      obtain ⟨evolves, alive⟩ := Heap.evolves_newScopeWith stands.machine.active "super" valid
      let made := a.machine.heap.newScope (some a.machine.active)
      let h := made.2.define made.1 "super" (some (.callable (.ofClass p)))
      have onward : a.Onward ⟨{ a.machine with heap := h }, a.register, a.moments⟩ :=
        .step stands rfl evolves
      exact .after onward rfl (rest made.1 _ onward alive)

theorem bindClass_builds {o : ClassOrigin} (stands : a.Stands)
    (leads : ∀ p, o.above = some p → a.machine.heap.Leads (.ofClass p)) :
    Builds (bindClass o) a fun _ _ => True := by
  refine (defineNone_builds stands o.name.text).bind fun _ b onward _ => ?_
  have leads' (p : ClassId) (above : o.above = some p) : b.machine.heap.Leads (.ofClass p) :=
    (leads p above).grow onward.grown
  refine .active (methodScope_builds onward.stands leads' fun s c onward' alive => ?_)
  refine (Builds.newClass onward'.stands alive fun p above =>
    (leads' p above).grow onward'.grown).bind fun k d onward'' found => ?_
  exact assignFrom_builds onward''.stands _ o.name found

section
variable {call : Calls} {rounds : Nat}

mutual

theorem execute_builds (calls : BuildingCalls call) : ∀ (s : Stmt Address) (st : Setting)
    (a : Scene), a.Stands → Builds (execute rounds call st s) a fun _ _ => True
  | .expression value, st, a, stands => by
      refine .mark stands fun b onward _ => ?_
      refine (evaluate_builds calls value b onward.stands).bind fun _ c onward' _ => ?_
      exact .pure onward'.stands trivial
  | .print _ value, st, a, stands => by
      refine .mark stands fun b onward _ => ?_
      refine (evaluate_builds calls value b onward.stands).bind fun v c onward' _ => ?_
      exact .print onward'.stands
  | .var name none, st, a, stands =>
      .mark stands fun b onward _ => defineNone_builds onward.stands name.text
  | .var name (some value), st, a, stands => by
      refine .mark stands fun b onward _ => ?_
      refine (evaluate_builds calls value b onward.stands).bind fun v c onward' valid => ?_
      exact define_builds onward'.stands _ fun w same => Option.some.inj same ▸ valid
  | .block line body, st, a, stands => by
      refine .mark stands fun b onward _ => .active (.next fun n => ?_)
      refine .openRegion onward.stands onward.stands.machine.active fun s c onward' alive => ?_
      exact .within onward'.stands
        (executeAll_builds calls body _ _ (onward'.stands.activate alive))
  | .ifThen _ condition thenBranch, st, a, stands => by
      refine .mark stands fun b onward _ => ?_
      refine (evaluate_builds calls condition b onward.stands).bind fun v c onward' _ => ?_
      exact .ite (execute_builds calls thenBranch st c onward'.stands)
        (.pure onward'.stands trivial)
  | .ifElse _ condition thenBranch elseBranch, st, a, stands => by
      refine .mark stands fun b onward _ => ?_
      refine (evaluate_builds calls condition b onward.stands).bind fun v c onward' _ => ?_
      exact .ite (execute_builds calls thenBranch st c onward'.stands)
        (execute_builds calls elseBranch st c onward'.stands)
  | .loop _ condition body, st, a, stands => by
      refine .mark stands fun b onward _ => .repeatWhile (fun c onward' => ?_) rounds onward.stands
      refine (evaluate_builds calls condition c onward'.stands).bind fun v d onward'' _ => ?_
      refine .ite ?_ (.pure onward''.stands trivial)
      exact (execute_builds calls body st d onward''.stands).bind
        fun _ e onward₃ _ => .pure onward₃.stands trivial
  | .function declaration, st, a, stands => by
      refine .mark stands fun b onward _ => .active ?_
      refine (Builds.newFunction onward.stands onward.stands.machine.active).bind ?_
      exact fun f c onward' leads => define_builds onward'.stands _ fun w same =>
        Option.some.inj same ▸ leads
  | .classDecl name none methods, st, _, stands =>
      .mark stands fun b onward _ => bindClass_builds onward.stands (by rintro p ⟨⟩)
  | .classDecl name (some parent) methods, st, a, stands => by
      refine .mark stands fun b onward _ => .read onward.stands (Run.superclass_reads parent) ?_
      intro c valid
      refine bindClass_builds onward.stands fun p same => ?_
      cases same
      exact valid onward.stands.linked.typed
  | .ret _ none, st, a, stands => .mark stands fun b onward _ => .throw onward.stands trivial
  | .ret _ (some value), st, a, stands => by
      refine .mark stands fun b onward _ => ?_
      refine (evaluate_builds calls value b onward.stands).bind fun v c onward' valid => ?_
      exact .throw onward'.stands valid

theorem executeAll_builds (calls : BuildingCalls call) : ∀ (ss : List (Stmt Address))
    (st : Setting) (a : Scene), a.Stands → Builds (executeAll rounds call st ss) a fun _ _ => True
  | [], _, _, stands => .pure stands trivial
  | s :: rest, st, a, stands => (execute_builds calls s st a stands).bind fun _ b onward _ =>
      executeAll_builds calls rest (st.behind s) b onward.stands

end

/-! Calls. -/

theorem activate_builds (calls : BuildingCalls call) (stands : a.Stands)
    (callee : Option FunctionId) (o : Origin) {k : Closure} {arguments : List Value}
    (alive : a.machine.heap.Alive k.scope) (valid : ∀ v ∈ arguments, a.machine.heap.Valid v) :
    Builds (activate rounds call callee o k arguments) a fun v h => h.Valid v := by
  refine .next fun n => .openRegion stands alive fun s b onward inside => ?_
  have binds := Heap.evolves_bindParameters s k.declaration.params fun v member =>
    (valid v member).grow onward.grown
  refine (Builds.update onward.stands binds).bind fun _ c onward' _ => ?_
  refine (Builds.bodyValue (.within onward'.stands (executeAll_builds calls k.declaration.body _ _
    (onward'.stands.activate (onward'.grown.alive inside))))).bind fun v d onward'' found => ?_
  exact .reads onward''.stands (Run.yielded_reads (fun _ : True => onward''.stands.linked.typed)
    fun _ => found) fun _ known => known.1 trivial

theorem instantiate_builds (calls : BuildingCalls call) (stands : a.Stands) {c : ClassId}
    {arguments : List Value} (leads : a.machine.heap.Leads (.ofClass c))
    (valid : ∀ v ∈ arguments, a.machine.heap.Valid v) :
    Builds (instantiate rounds call c arguments) a fun v h => h.Valid v := by
  refine .change stands (.one (.object leads)) fun b onward same => .heap ?_
  have object : b.machine.heap.Valid (.object (a.machine.heap.newInstance c).1) :=
    same ▸ valid_newInstance a.machine.heap c
  dsimp only
  cases found : b.machine.heap.findDeclared c "init" with
  | none => exact .pure onward.stands object
  | some declared =>
      obtain ⟨d, method⟩ := declared
      refine .inner fun Γ => bindReceiver_builds onward.stands
        (onward.stands.linked.methodAlive found) object fun k e onward' alive => ?_
      refine (activate_builds calls onward'.stands none _ alive fun v member =>
        ((valid v member).grow onward.grown).grow onward'.grown).bind fun _ f onward'' _ => ?_
      exact .pure onward''.stands ((object.grow onward'.grown).grow onward''.grown)

/-- A program of the host lets the heap evolve, since its calls do. -/
theorem host_builds (calls : BuildingCalls call) (p : Host) : ∀ a : Scene, a.Stands →
    p.Sane a.machine.heap → Builds (host call p) a fun v h => h.Valid v := by
  induction p with
  | done v => exact fun a stands sane => .pure stands sane
  | raise message => exact fun a stands _ => .fault stands _ _
  | call callee arguments next ih =>
      intro a stands sane
      refine (calls callee arguments a stands sane.1 sane.2.1).bind fun v b onward valid => ?_
      exact ih v b onward.stands (sane.2.2 v _ onward.grown onward.stands.linked.typed valid)
  | arity callee next ih =>
      exact fun a stands sane => .heap (.follow stands fun n taken =>
        ih n a stands (sane.2 n taken))
  | display v next ih => exact fun a stands sane => .heap (ih _ a stands sane)
  | time next ih =>
      exact fun a stands sane => .time stands fun now b onward same =>
        ih now b onward.stands (same ▸ sane now)

theorem invoke_builds (rounds depth : Nat) : BuildingCalls (invoke rounds depth) := by
  -- The code that is called makes calls of its own with one level of depth less.
  induction depth with
  | zero => exact fun _ _ a stands _ _ => .throw stands trivial
  | succ depth ih =>
      intro callee arguments a stands leads valid
      refine .mark stands fun b onward same => ?_
      rw [← same] at leads valid
      have linked := onward.stands.linked
      cases callee with
      | function f =>
          refine .origin fun o => .heap (.follow onward.stands fun k found => ?_)
          exact activate_builds ih onward.stands _ o (linked.present _ _ (.closure found)) valid
      | ofClass c => exact instantiate_builds ih onward.stands leads valid
      | native n =>
          refine .heap (.follow onward.stands fun r found => ?_)
          exact host_builds ih _ b onward.stands
            (linked.natives n r found _ _ linked.typed valid)

end

theorem topStatement_builds (limits : Limits) (st : Setting) (s : Stmt Address) (stands : a.Stands) :
    Builds (topStatement limits st s) a fun _ _ => True := by
  have calls : BuildingCalls (invoke limits.rounds limits.depth) := invoke_builds _ _
  cases s with
  | expression value =>
      exact .map ((evaluate_builds calls value a stands).weaken fun _ _ _ _ => trivial)
  | _ => exact (execute_builds calls _ st a stands).bind fun _ b onward _ =>
      .pure onward.stands trivial

theorem program_builds (limits : Limits) (ss : List (Stmt Address)) (stands : a.Stands) :
    Builds (program limits ss) a fun _ _ => True := by
  suffices run : ∀ (st : Setting) (last : Option Value) (a : Scene), a.Stands →
      Builds (topLevel limits st last ss) a fun _ _ => True from run .top none a stands
  induction ss with
  | nil => exact fun st last a stands => .pure stands trivial
  | cons s rest ih =>
      exact fun st last a stands => (topStatement_builds limits st s stands).bind
        fun last' b onward _ => ih (st.behind s) last' b onward.stands

end Chronicled
end LoxLang
