import LoxLang.Proofs.Chronicle.Steps
import LoxLang.Proofs.Running.Calls
/-! Chronicled runs of known code mind the register. -/
namespace LoxLang

namespace Scopes
variable {δ : Type}

theorem length_enter (Γ : Scopes) (x : String) (b : Bool) : (Γ.enter x b).length = Γ.length := by
  cases Γ <;> rfl

theorem length_declare (Γ : Scopes) (x : String) : (Γ.declare x).length = Γ.length := by
  rw [declare, length_enter, length_enter]

theorem length_extend (Γ : Scopes) (s : Stmt δ) : (Γ.extend s).length = Γ.length := by
  unfold extend
  split
  · rfl
  · exact Γ.length_declare _

theorem length_parameters (Γ : Scopes) (ps : List Name) :
    (Γ.parameters ps).length = Γ.length + 1 := by
  suffices each : ∀ Δ : Scopes, (ps.foldl (fun Δ p => Δ.declare p.text) Δ).length = Δ.length from
    each (Table.empty :: Γ)
  induction ps with
  | nil => exact fun _ => rfl
  | cons p ps ih => exact fun Δ => (ih (Δ.declare p.text)).trans (Δ.length_declare p.text)

end Scopes

/-- Names do not matter, only the number of scopes. -/
theorem Setting.Around.relabel {l : Register} {h : Heap} {st st' : Setting} {Γ Δ : Scopes}
    {s : ScopeId} (around : st.Around l h Γ s) (activation : st'.activation = st.activation)
    (region : st'.region = st.region) (same : Δ.length = Γ.length) : st'.Around l h Δ s := by
  refine ⟨around.alive, same ▸ around.depth, ?_⟩
  rw [activation, region]
  exact around.inside

theorem Scene.At.behind {R : Regime} {a : Scene} {st : Setting} (here : a.At R st)
    (s : Stmt Address) : a.At R (st.behind s) :=
  ⟨here.sound, here.around.relabel rfl rfl (Scopes.length_extend _ s)⟩

/-- A scope in front of another one is around by as much more. -/
theorem Setting.Around.front {l : Register} {h h' : Heap} {st : Setting} {g : Table Bool}
    {Γ : Scopes} {s t : ScopeId} (around : st.Around l h Γ s) (alive : h'.Alive t)
    (chain : h'.chain t = t :: h.chain s) : st.Around l h' (g :: Γ) t := by
  refine ⟨alive, ?_, fun n within => ?_⟩
  · rw [chain, List.length_cons, around.depth, List.length_cons]
  · obtain ⟨r, found, member⟩ := around.inside n within
    exact ⟨r, found, chain ▸ List.mem_cons_of_mem _ member⟩

/-- A method of a class with its receiver bound, made as the register says of the class. -/
theorem ClassOrigin.Made.bindReceiver {R : Regime} {l : Register} {h : Heap} {o : ClassOrigin}
    {c : Class} {d : ClassId} {x : String} {method : Closure} (made : o.Made R l h c)
    (full : h.Alive Machine.globals) (found : h.class? d = some c)
    (named : c.methods.find? x = some method) (i : InstanceId) :
    h.Alive method.scope ∧ (Origin.mk (.bound method d i) o.inner).Made R l
      (h.bindReceiver method i).2 (h.bindReceiver method i).1 := by
  obtain ⟨s, table, around⟩ := made.methods
  obtain ⟨rfl, member⟩ := methodTable_find (table ▸ named)
  let fresh := h.newScope (some method.scope)
  have steady := h.steady_newScopeWith (some method.scope) "this" (some (.object i))
  have shows := Heap.shows_newScopeWith full (some method.scope) "this" (.object i)
  have chain : (h.bindReceiver method i).2.chain fresh.1 = fresh.1 :: h.chain method.scope := by
    rw [Heap.bindReceiver, Heap.chain_define]
    exact h.chain_newScope_self method.scope
  have kept : (h.bindReceiver method i).2.chain method.scope = h.chain method.scope :=
    steady.keeps.grown.chain around.alive
  refine ⟨around.alive, made.known method.declaration member, shows.alive, ?_, rfl, ?_, shows, c, x,
    found, named⟩
  · have depth := around.depth
    rw [show (h.bindReceiver method i).1.scope = fresh.1 from rfl, chain]
    simp only [List.length_cons, depth, ClassOrigin.inner]
  · rw [show (h.bindReceiver method i).1.scope = fresh.1 from rfl, chain, kept]

/-- The scope that is made for a receiver is that of no copy of a method before. -/
theorem Register.Sound.bindReceiver_fresh {R : Regime} {l : Register} {h : Heap}
    (sound : l.Sound R h) (method : Closure) (i : InstanceId) (c : FunctionId ⊕ Nat) :
    ¬l.Copied (h.bindReceiver method i).2 c (h.bindReceiver method i).1.scope := fun copied =>
  h.not_alive_new ((copied.same_functions (h := h) rfl).alive sound)

namespace Chronicled
variable {R : Regime} {a : Scene}

/-- What a call yields that began on the first heap. A new instance is one of the called class and
was not there; an initializer that is bound yields its receiver. -/
def Answers (h h' : Heap) (v : Value) : Callable → Prop
  | .function f => ∀ k i, h.function? f = some k → k.isInitializer = true →
      h.Shows k.scope "this" (.object i) → v = .object i
  | .ofClass c => ∃ i o, v = .object i ∧ h.instance? i = none ∧ h'.instance? i = some o ∧
      o.ofClass = c
  | .native _ => True

/-- Calls that mind the register. -/
def MindingCalls (R : Regime) (call : Calls) : Prop :=
  ∀ callee arguments (a : Scene), a.Sound R → (R.typed → a.machine.heap.Leads callee) →
    (R.typed → ∀ v ∈ arguments, a.machine.heap.Valid v) →
    Minds R (call callee arguments) a fun v h =>
      Yields R v h ∧ Answers a.machine.heap h v callee

/-! Changes of the heap. -/

theorem updateDefine_minds (sound : a.Sound R) (s : ScopeId) {name : Name} {v : Option Value}
    (ordinary : name.Ordinary) (valid : ∀ w, v = some w → Yields R w a.machine.heap) :
    Minds R (silent (Run.update (·.define s name.text v))) a fun _ _ => True :=
  (Minds.update sound (Heap.calm_define s v ordinary.not_reserved) fun t =>
    (sound.typed t).define fun w same => valid w same t).weaken fun _ _ _ _ => trivial

theorem define_minds (sound : a.Sound R) {name : Name} {v : Option Value} (ordinary : name.Ordinary)
    (valid : ∀ w, v = some w → Yields R w a.machine.heap) :
    Minds R (silent (Run.define name.text v)) a fun _ _ => True :=
  .silently (z := Run.update (·.define a.machine.active name.text v)) rfl
    (updateDefine_minds sound _ ordinary valid)

theorem assignFrom_minds (sound : a.Sound R) (s : ScopeId) {name : Name} {v : Value}
    (ordinary : name.Ordinary) (valid : Yields R v a.machine.heap) :
    Minds R (silent (Run.assignFrom s name v)) a fun _ _ => True := by
  rcases Run.assignFrom_cases s name v a.machine with ⟨t, same⟩ | ⟨e, same, other⟩
  · exact .silently same
      (updateDefine_minds sound t ordinary fun w same => Option.some.inj same ▸ valid)
  · exact .silently same (.throw sound (.other other))

theorem assign_minds (sound : a.Sound R) {name : Name} (address : Address) {v : Value}
    (ordinary : name.Ordinary) (valid : Yields R v a.machine.heap) :
    Minds R (silent (Run.assign name address v)) a fun _ _ => True := by
  rcases Run.assign_cases name address v a.machine with ⟨t, same⟩ | ⟨e, same, other⟩
  · exact .silently same
      (updateDefine_minds sound t ordinary fun w same => Option.some.inj same ▸ valid)
  · exact .silently same (.throw sound (.other other))

theorem setField_minds (sound : a.Sound R) (i : InstanceId) (x : String) {v : Value}
    (valid : Yields R v a.machine.heap) :
    Minds R (silent (Run.update (·.setField i x v))) a fun _ _ => True :=
  (Minds.update sound (a.machine.heap.calm_setField i x v) fun t =>
    (sound.typed t).setField (valid t)).weaken fun _ _ _ _ => trivial

/-- A method gets a receiver. The copy is made as the register says of its class, and no copy before
has its scope. -/
theorem bindReceiver_minds {α : Type} {Q : α → Heap → Prop} {f : Scopes → Closure → Chronicled α}
    (sound : a.Sound R) {method : Closure} {d : ClassId} {c : Class} {x : String} {i : InstanceId}
    (found : a.machine.heap.class? d = some c) (named : c.methods.find? x = some method)
    (valid : Yields R (.object i) a.machine.heap)
    (rest : ∀ Γ k b, a.Later R b →
      (Origin.mk (.bound method d i) Γ).Made R b.register b.machine.heap k →
      (∀ c, ¬b.register.Copied b.machine.heap c k.scope) → Minds R (f Γ k) b Q) :
    Minds R (inner d >>= fun Γ => silent (Run.change (·.bindReceiver method i)) >>= f Γ) a Q := by
  obtain ⟨o, entered, made⟩ := sound.register.enteredClass found
  obtain ⟨alive, born⟩ := made.bindReceiver sound.register.globals found named i
  refine .inner entered (.change sound (Heap.calm_newScopeWith alive "this" _)
    (fun t => (sound.typed t).bindReceiver method (valid t)) fun b later heap register => ?_)
  rw [← heap, ← register] at born
  refine rest o.inner _ b later born fun c => ?_
  rw [heap, register]
  exact sound.register.bindReceiver_fresh method i c

/-- A method is bound as the register says of its class. -/
theorem bound_minds (sound : a.Sound R) {method : Closure} {d : ClassId} {c : Class} {x : String}
    {i : InstanceId} (found : a.machine.heap.class? d = some c)
    (named : c.methods.find? x = some method) (valid : Yields R (.object i) a.machine.heap) :
    Minds R (bound method d i) a (Yields R) := by
  refine bindReceiver_minds sound found named valid fun Γ k b later born fresh => ?_
  exact (Minds.newFunction later.sound born fun _ _ _ _ => fresh).bind fun f c later' leads =>
    .pure later'.sound fun _ => leads

theorem findDeclared_class {h : Heap} {c d : ClassId} {x : String} {method : Closure}
    (found : h.findDeclared c x = some (d, method)) :
    ∃ k, h.class? d = some k ∧ k.methods.find? x = some method := by
  obtain ⟨d', -, same⟩ := List.exists_of_findSome?_eq_some found
  obtain ⟨method', named, same⟩ := Option.map_eq_some_iff.mp same
  cases same
  exact Option.bind_eq_some_iff.mp named

theorem methodFrom_minds (sound : a.Sound R) (c : ClassId) (name : Name) {i : InstanceId}
    (valid : Yields R (.object i) a.machine.heap) :
    Minds R (methodFrom a.machine.heap c name i) a (Yields R) := by
  unfold methodFrom
  split
  · next d method found =>
      obtain ⟨k, here, named⟩ := findDeclared_class found
      exact bound_minds sound here named valid
  · exact .fault sound _ _

theorem property_minds (sound : a.Sound R) {i : InstanceId} (name : Name)
    (valid : Yields R (.object i) a.machine.heap) : Minds R (property i name) a (Yields R) := by
  refine .heap (.follow sound fun o here => ?_)
  split
  · next v field => exact .pure sound fun t => (sound.typed t).fields i o name.text v here field
  · exact methodFrom_minds sound _ _ valid

theorem inheritedMethod_minds (sound : a.Sound R) (pos : Pos) (method : Name) (address : Address) :
    Minds R (inheritedMethod pos method address) a (Yields R) := by
  refine .heap (.follow sound fun depth _ => .read sound (Run.lookUp_reads _ _) fun v _ => ?_)
  refine .active ?_
  split
  · next c i here _ =>
      exact methodFrom_minds sound c method fun t => Run.getAt_valid (sound.typed t) here
  · exact .throw sound trivial
  · exact .throw sound trivial

/-! Expressions. -/

section
variable {call : Calls} {Γ : Scopes} {inside : Bool} {i : Option Name}

theorem callValue_minds (calls : MindingCalls R call) (sound : a.Sound R) (close : Pos)
    {callee : Value} {arguments : List Value} (valid : Yields R callee a.machine.heap)
    (all : R.typed → ∀ v ∈ arguments, a.machine.heap.Valid v) :
    Minds R (callValue call close callee arguments) a (Yields R) := by
  cases callee with
  | callable c =>
      refine .heap (.follow sound fun n _ => .ite ?_ (.fault sound _ _))
      exact (calls c arguments a sound valid all).weaken fun v b _ done => done.1
  | _ => exact .fault sound _ _

mutual

theorem evaluate_minds (calls : MindingCalls R call) : ∀ (e : Expr Address) (a : Scene),
    a.Sound R → (∀ n ∈ e.nodes, R.sites ⟨Γ, inside, i, n⟩) →
    Minds R (evaluate call e) a (Yields R)
  | .literal _ value, a, sound, _ => by
      refine .mark sound fun b later _ _ => .pure later.sound fun _ => ?_
      cases value <;> trivial
  | .grouping _ inner, a, sound, known =>
      .mark sound fun b later _ _ =>
        evaluate_minds calls inner b later.sound (List.forall_mem_cons.mp known).2
  | .var _ _, a, sound, _ =>
      .mark sound fun b later _ _ => .reads later.sound (Run.lookUp_reads _ _) fun _ valid t =>
        valid (later.typed t)
  | .assign name value address, a, sound, known => by
      obtain ⟨-, inner, last⟩ := known_pair known
      have store : Site.Lawful ⟨Γ, inside, i, .store name address⟩ :=
        R.lawful _ (last _ (List.mem_singleton_self _))
      refine .mark sound fun b later _ _ => ?_
      refine (evaluate_minds calls value b later.sound inner).bind fun v c later' valid => ?_
      refine (assign_minds later'.sound address store.1 valid).bind fun _ d later'' _ => ?_
      exact .pure later''.sound fun t => (valid t).grow later''.keeps.grown
  | .unary _ _ operand, a, sound, known => by
      obtain ⟨-, inner⟩ := List.forall_mem_cons.mp known
      refine .mark sound fun b later _ _ => ?_
      refine (evaluate_minds calls operand b later.sound inner).bind fun v c later' _ => ?_
      exact .reads later'.sound (Run.lift_reads fun w done => UnaryOp.apply_valid done)
        fun _ valid _ => valid
  | .binary left _ _ right, a, sound, known => by
      obtain ⟨-, first, second⟩ := known_pair known
      refine .mark sound fun b later _ _ => ?_
      refine (evaluate_minds calls left b later.sound first).bind fun v c later' _ => ?_
      refine (evaluate_minds calls right c later'.sound second).bind fun w d later'' valid => ?_
      exact .reads later''.sound
        (Run.lift_reads fun _ done t => BinaryOp.apply_valid (valid t) done) fun _ => id
  | .logical left op _ right, a, sound, known => by
      obtain ⟨-, first, second⟩ := known_pair known
      refine .mark sound fun b later _ _ => ?_
      refine (evaluate_minds calls left b later.sound first).bind fun v c later' valid => ?_
      have rest := evaluate_minds calls right c later'.sound second
      cases op with
      | and => exact .ite rest (.pure later'.sound valid)
      | or => exact .ite (.pure later'.sound valid) rest
  | .conditional condition thenBranch elseBranch, a, sound, known => by
      obtain ⟨-, first, branches⟩ := known_pair known
      obtain ⟨second, third⟩ := List.forall_mem_append.mp branches
      refine .mark sound fun b later _ _ => ?_
      refine (evaluate_minds calls condition b later.sound first).bind fun v c later' _ => ?_
      exact .ite (evaluate_minds calls thenBranch c later'.sound second)
        (evaluate_minds calls elseBranch c later'.sound third)
  | .call callee close arguments, a, sound, known => by
      obtain ⟨-, first, second⟩ := known_pair known
      refine .mark sound fun b later _ _ => ?_
      refine (evaluate_minds calls callee b later.sound first).bind fun f c later' valid => ?_
      refine (evaluateAll_minds calls arguments c later'.sound second).bind ?_
      exact fun vs d later'' all => callValue_minds calls later''.sound close
        (fun t => (valid t).grow later''.keeps.grown) all
  | .member object name, a, sound, known => by
      obtain ⟨-, inner⟩ := List.forall_mem_cons.mp known
      refine .mark sound fun b later _ _ => ?_
      refine (evaluate_minds calls object b later.sound inner).bind fun v c later' valid => ?_
      cases v with
      | object j => exact property_minds later'.sound name valid
      | _ => exact .fault later'.sound _ _
  | .assignMember object name value, a, sound, known => by
      obtain ⟨-, second, first⟩ := known_pair known
      refine .mark sound fun b later _ _ => ?_
      refine (evaluate_minds calls object b later.sound first).bind fun v c later' _ => ?_
      cases v with
      | object j =>
          refine (evaluate_minds calls value c later'.sound second).bind fun w d later'' valid => ?_
          refine (setField_minds later''.sound j name.text valid).bind fun _ e later₃ _ => ?_
          exact .pure later₃.sound fun t => (valid t).grow later₃.keeps.grown
      | _ => exact .fault later'.sound _ _
  | .receiver _ _, a, sound, _ =>
      .mark sound fun b later _ _ => .reads later.sound (Run.lookUp_reads _ _) fun _ valid t =>
        valid (later.typed t)
  | .inherited pos method address, a, sound, _ =>
      .mark sound fun b later _ _ => inheritedMethod_minds later.sound pos method address

theorem evaluateAll_minds (calls : MindingCalls R call) : ∀ (es : List (Expr Address)) (a : Scene),
    a.Sound R → (∀ n ∈ nodesOfAll es, R.sites ⟨Γ, inside, i, n⟩) →
    Minds R (evaluateAll call es) a fun vs h => R.typed → ∀ v ∈ vs, h.Valid v
  | [], a, sound, _ => .pure sound fun _ v member => absurd member List.not_mem_nil
  | e :: rest, a, sound, known => by
      obtain ⟨first, second⟩ := List.forall_mem_append.mp known
      refine (evaluate_minds calls e a sound first).bind fun v b later valid => ?_
      refine (evaluateAll_minds calls rest b later.sound second).bind fun vs c later' all => ?_
      exact .pure later'.sound fun t =>
        List.forall_mem_cons.mpr ⟨(valid t).grow later'.keeps.grown, all t⟩

end

end

/-! Statements. -/

/-- The scope of the methods of a class is made where the class is declared. -/
theorem methodScope_minds {st : Setting} {Γ : Scopes} {f : ScopeId → Chronicled Unit}
    (sound : a.Sound R) (around : st.Around a.register a.machine.heap Γ a.machine.active)
    {above : Option ClassId} (leads : R.typed → ∀ p, above = some p →
      a.machine.heap.Leads (.ofClass p))
    (rest : ∀ s b, a.Later R b → st.Around b.register b.machine.heap (Γ.above above) s →
      Minds R (f s) b fun _ _ => True) :
    Minds R (silent (Recorded.methodScope a.machine.active above) >>= f) a fun _ _ => True := by
  cases above with
  | none => exact .read sound (.pure rfl) fun s same => same ▸ rest _ a (.refl sound) around
  | some p =>
      let made := a.machine.heap.newScope (some a.machine.active)
      let v : Value := .callable (.ofClass p)
      let h := made.2.define made.1 "super" (some v)
      have calm : a.machine.heap.Calm h := Heap.calm_newScopeWith around.alive "super" (some v)
      have typed (t : R.typed) : h.Typed := by
        refine ((sound.typed t).newScope _).define fun w same => ?_
        cases same
        exact (leads t p rfl).grow (a.machine.heap.extends_newScope _)
      have later : a.Later R ⟨{ a.machine with heap := h }, a.register, a.moments⟩ :=
        .step sound rfl calm.steady.keeps (.refl _) (sound.register.calm calm typed)
      have chain : h.chain made.1 = made.1 :: a.machine.heap.chain a.machine.active := by
        rw [Heap.chain_define]
        exact a.machine.heap.chain_newScope_self a.machine.active
      have alive : h.Alive made.1 :=
        Heap.alive_define.mpr (Heap.alive_newScope_iff.mpr (.inl rfl))
      exact .after later rfl (rest made.1 _ later (around.front alive chain))

theorem bindClass_minds {o : ClassOrigin} (here : a.At R o.setting) (site : R.sites o.site)
    (parent : o.parent.isSome = o.above.isSome) (known : ∀ r ∈ o.methods, r.Known R o.inner)
    (leads : R.typed → ∀ p, o.above = some p → a.machine.heap.Leads (.ofClass p)) :
    Minds R (bindClass o) a fun _ _ => True := by
  have lawful : o.site.Lawful := R.lawful _ site
  have absent : ∀ w, (none : Option Value) = some w → Yields R w a.machine.heap :=
    fun _ same => nomatch same
  refine (define_minds here.sound lawful.1 absent).bind fun _ b later _ => .active ?_
  have leads' (t : R.typed) (p : ClassId) (above : o.above = some p) :
      b.machine.heap.Leads (.ofClass p) := (leads t p above).grow later.keeps.grown
  have around : o.setting.Around b.register b.machine.heap (o.setting.scopes.declare o.name.text)
      b.machine.active := (here.later later).around.relabel rfl rfl (Scopes.length_declare _ _)
  refine methodScope_minds later.sound around leads' fun s c later' around' => ?_
  refine (Minds.newClass later'.sound site parent known around' fun t p above =>
    (leads' t p above).grow later'.keeps.grown).bind fun k d later'' found => ?_
  exact assignFrom_minds later''.sound _ lawful.1 fun _ => found

section
variable {call : Calls} {rounds : Nat}

/-- The expression of a statement. -/
theorem value_minds {st : Setting} {e : Expr Address} {Γ : Scopes} {inside : Bool}
    {i : Option Name} (calls : MindingCalls R call) (here : a.At R st)
    (known : ∀ σ ∈ e.sites Γ inside i, R.sites σ) :
    Minds R (evaluate call e) a (Yields R) :=
  evaluate_minds calls e a here.sound (known_nodes known)

mutual

theorem execute_minds (calls : MindingCalls R call) : ∀ (s : Stmt Address) (st : Setting)
    (a : Scene), a.At R st → (∀ σ ∈ s.sites st.scopes st.activation.isSome, R.sites σ) →
    Minds R (execute rounds call st s) a fun _ _ => True
  | .expression value, st, a, here, known => by
      obtain ⟨-, inner⟩ := List.forall_mem_cons.mp known
      refine .mark_at here fun b here' => ?_
      refine (value_minds calls here' inner).bind fun _ c later _ => ?_
      exact .pure later.sound trivial
  | .print _ value, st, a, here, known => by
      obtain ⟨-, inner⟩ := List.forall_mem_cons.mp known
      refine .mark_at here fun b here' => ?_
      refine (value_minds calls here' inner).bind fun v c later _ => ?_
      exact .print later.sound
  | .var name none, st, a, here, known =>
      .mark_at here fun b here' => define_minds here'.sound
        (R.lawful _ (known _ List.mem_cons_self) : Site.Lawful ⟨_, _, none, .stmt (.var name none)⟩)
        fun _ same => nomatch same
  | .var name (some value), st, a, here, known => by
      obtain ⟨site, inner⟩ := List.forall_mem_cons.mp known
      have ordinary : Site.Lawful ⟨st.scopes, st.activation.isSome, none,
        .stmt (.var name (some value))⟩ := R.lawful _ site
      refine .mark_at here fun b here' => ?_
      refine (value_minds calls here' inner).bind ?_
      exact fun v c later valid => define_minds later.sound ordinary fun w same =>
        Option.some.inj same ▸ valid
  | .block line body, st, a, here, known => by
      obtain ⟨site, inner⟩ := List.forall_mem_cons.mp known
      refine .mark_at here fun b here' => .active (.next ?_)
      have around' := here'.around
      refine .openRegion (Γ := st.scopes) (g := Table.empty) here'.sound around'.alive around'.depth
        ⟨site, around'.depth, line, body, rfl⟩ (fun _ _ same => nomatch same)
        (fun n active => .inr (around'.inside n (.inl active))) fun s c later around => ?_
      exact .within (executeAll_minds calls body ⟨st.activation, _, Table.empty :: st.scopes⟩ _
        ⟨later.sound.activate s, around⟩ inner)
  | .ifThen _ condition thenBranch, st, a, here, known => by
      obtain ⟨-, inner⟩ := List.forall_mem_cons.mp known
      obtain ⟨first, second⟩ := List.forall_mem_append.mp inner
      refine .mark_at here fun b here' => ?_
      refine (value_minds calls here' first).bind fun v c later _ => ?_
      exact .ite (execute_minds calls thenBranch st c (here'.later later) second)
        (.pure later.sound trivial)
  | .ifElse _ condition thenBranch elseBranch, st, a, here, known => by
      obtain ⟨-, inner⟩ := List.forall_mem_cons.mp known
      obtain ⟨first, branches⟩ := List.forall_mem_append.mp inner
      obtain ⟨second, third⟩ := List.forall_mem_append.mp branches
      refine .mark_at here fun b here' => ?_
      refine (value_minds calls here' first).bind fun v c later _ => ?_
      exact .ite (execute_minds calls thenBranch st c (here'.later later) second)
        (execute_minds calls elseBranch st c (here'.later later) third)
  | .loop _ condition body, st, a, here, known => by
      obtain ⟨-, inner⟩ := List.forall_mem_cons.mp known
      obtain ⟨first, second⟩ := List.forall_mem_append.mp inner
      refine .mark_at here fun b here' => .repeatWhile (fun c later => ?_) rounds here'.sound
      refine (value_minds calls (here'.later later) first).bind fun v d later' _ => ?_
      refine .ite ?_ (.pure later'.sound trivial)
      exact (execute_minds calls body st d ((here'.later later).later later') second).bind
        fun _ e later'' _ => .pure later''.sound trivial
  | .function declaration, st, a, here, known => by
      obtain ⟨site, inner⟩ := List.forall_mem_cons.mp known
      have lawful : Site.Lawful ⟨st.scopes, st.activation.isSome, none,
        .stmt (.function declaration)⟩ := R.lawful _ site
      refine .mark_at here fun b here' => .active ?_
      have around : st.Around b.register b.machine.heap (st.scopes.declare declaration.name.text)
          b.machine.active := here'.around.relabel rfl rfl (Scopes.length_declare _ _)
      have made : (Origin.mk (.declared st) (st.scopes.declare declaration.name.text)).Made R
          b.register b.machine.heap ⟨declaration, b.machine.active, false⟩ :=
        ⟨⟨inner, lawful.2⟩, around.alive, around.depth, rfl, around⟩
      refine (Minds.newFunction here'.sound made fun _ _ _ same => nomatch same).bind ?_
      exact fun f c later leads => define_minds later.sound lawful.1 fun w same =>
        Option.some.inj same ▸ fun _ => leads
  | .classDecl name none methods, st, a, here, known => by
      obtain ⟨site, inner⟩ := List.forall_mem_cons.mp known
      have lawful : Site.Lawful ⟨st.scopes, st.activation.isSome, none,
        .stmt (.classDecl name none methods)⟩ := R.lawful _ site
      exact .mark_at here fun b here' =>
        bindClass_minds (o := ⟨st, name, none, methods, none⟩) here' site rfl
          (.of_methods inner lawful.2) fun _ _ same => nomatch same
  | .classDecl name (some parent) methods, st, a, here, known => by
      obtain ⟨site, others⟩ := List.forall_mem_cons.mp known
      obtain ⟨-, inner⟩ := List.forall_mem_cons.mp others
      have lawful : Site.Lawful ⟨st.scopes, st.activation.isSome, none,
        .stmt (.classDecl name (some parent) methods)⟩ := R.lawful _ site
      refine .mark_at here fun b here' => .read here'.sound (Run.superclass_reads parent) ?_
      intro c valid
      refine bindClass_minds (o := ⟨st, name, some parent, methods, some c⟩) here' site rfl
        (.of_methods inner lawful.2) fun t p same => ?_
      cases same
      exact valid (here'.sound.typed t)
  | .ret _ none, st, a, here, _ =>
      .mark_at here fun b here' => .throw here'.sound fun _ => trivial
  | .ret _ (some value), st, a, here, known => by
      obtain ⟨-, inner⟩ := List.forall_mem_cons.mp known
      refine .mark_at here fun b here' => ?_
      refine (value_minds calls here' inner).bind fun v c later valid => ?_
      exact .throw later.sound valid

theorem executeAll_minds (calls : MindingCalls R call) : ∀ (ss : List (Stmt Address)) (st : Setting)
    (a : Scene), a.At R st → (∀ σ ∈ sitesOfAll st.scopes st.activation.isSome ss, R.sites σ) →
    Minds R (executeAll rounds call st ss) a fun _ _ => True
  | [], _, a, here, _ => .pure here.sound trivial
  | s :: rest, st, a, here, known => by
      obtain ⟨first, others⟩ := List.forall_mem_append.mp known
      refine (execute_minds calls s st a here first).bind fun _ b later _ => ?_
      exact executeAll_minds calls rest (st.behind s) b ((here.later later).behind s) others

end

/-! Calls. -/

/-- A function that is called minds the register if it was made as it is called. -/
theorem activate_minds (calls : MindingCalls R call) (sound : a.Sound R) {o : Origin} {k : Closure}
    {callee : Option FunctionId} {arguments : List Value}
    (made : o.Made R a.register a.machine.heap k)
    (entered : ∀ f, callee = some f → a.machine.heap.function? f = some k ∧
      ∃ Γ, a.register.functions[f.index]? = some ⟨o.birth, Γ⟩)
    (fresh : callee = none → ∀ c, ¬a.register.Copied a.machine.heap c k.scope)
    (valid : R.typed → ∀ v ∈ arguments, a.machine.heap.Valid v) :
    Minds R (activate rounds call callee o k arguments) a fun v h => Yields R v h ∧
      ∀ i, k.isInitializer = true → a.machine.heap.Shows k.scope "this" (.object i) →
        v = .object i := by
  refine .next (.openRegion (Γ := o.scopes) (g := Table.empty) sound made.alive made.depth
    ⟨rfl, rfl, entered, o.scopes, made.birth⟩
    (fun k' b same => by cases same; exact fresh rfl) (fun n own => .inl (Option.some.inj own).symm)
    fun s b later around => ?_)
  have binds : Minds R (silent (Run.update (Run.bindParameters s k.declaration.params arguments))) b
      fun _ _ => True := by
    refine (Minds.update later.sound (Heap.calm_bindParameters s arguments made.known.params)
      fun t => ?_).weaken fun _ _ _ _ => trivial
    exact (later.typed t).bindParameters fun v member => (valid t v member).grow later.keeps.grown
  refine binds.bind fun _ c later' _ => ?_
  let st : Setting := ⟨some a.register.regions.size, some a.register.regions.size,
    o.scopes.parameters k.declaration.params⟩
  have inner : st.Around c.register c.machine.heap st.scopes s :=
    (around.later later'.keeps later'.prolongs).relabel rfl rfl (Scopes.length_parameters _ _)
  have body : ∀ σ ∈ sitesOfAll st.scopes true k.declaration.body, R.sites σ := by
    rw [← Routine.sites_eq]
    exact made.known.code
  have whole : Minds R (executeAll rounds call st k.declaration.body)
      ⟨{ c.machine with active := s }, c.register, c.moments⟩ fun _ _ => True :=
    executeAll_minds calls _ st _ ⟨later'.sound.activate s, inner⟩ body
  refine (Minds.bodyValue (.within whole)).bind fun v d later'' valid' => ?_
  refine .reads later''.sound (Run.yielded_reads later''.typed valid') fun w found => ⟨found.1, ?_⟩
  exact fun i initializer shows => found.2 i initializer
    (((shows.keep .this later.keeps).keep .this later'.keeps).keep .this later''.keeps)

/-- A new instance is one of the called class, whatever its initializer does. -/
theorem instantiate_minds (calls : MindingCalls R call) (sound : a.Sound R) {c : ClassId}
    {arguments : List Value} (leads : R.typed → a.machine.heap.Leads (.ofClass c))
    (valid : R.typed → ∀ v ∈ arguments, a.machine.heap.Valid v) :
    Minds R (instantiate rounds call c arguments) a fun v h =>
      Yields R v h ∧ Answers a.machine.heap h v (.ofClass c) := by
  refine .change sound (a.machine.heap.calm_newInstance c)
    (fun t => (sound.typed t).newInstance (leads t)) fun b later heap _ => .heap ?_
  let i := (a.machine.heap.newInstance c).1
  -- The class of the instance is settled before any code of an initializer runs, and stays.
  have missing : a.machine.heap.instance? i = none := Array.getElem?_size
  have object : b.machine.heap.instance? i = some ⟨c, Table.empty⟩ := by
    rw [heap]
    exact (instance?_newInstance _ c i).trans (if_pos rfl)
  have done {d : Scene} (after : b.Later R d) :
      Minds R (pure (.object i) : Chronicled Value) d fun v h =>
        Yields R v h ∧ Answers a.machine.heap h v (.ofClass c) := by
    obtain ⟨o, there, grown⟩ := after.keeps.grown.instances i _ object
    exact .pure after.sound ⟨fun _ => Option.isSome_iff_exists.mpr ⟨o, there⟩, i, o, rfl, missing,
      there, grown.ofClass⟩
  dsimp only
  cases found : b.machine.heap.findDeclared c "init" with
  | none => exact done (.refl later.sound)
  | some declared =>
      obtain ⟨d, method⟩ := declared
      obtain ⟨k, here, named⟩ := findDeclared_class found
      have valid' : b.machine.heap.Valid (.object i) := Option.isSome_iff_exists.mpr ⟨_, object⟩
      refine bindReceiver_minds later.sound here named (fun _ => valid') fun Γ k' e later' born fresh =>
        ?_
      have nameless (f : FunctionId) (same : (none : Option FunctionId) = some f) :
          e.machine.heap.function? f = some k' ∧
            ∃ Γ, e.register.functions[f.index]? = some ⟨.bound method d i, Γ⟩ := nomatch same
      refine (activate_minds calls later'.sound born nameless (fun _ => fresh) fun t v member =>
        ((valid t v member).grow later.keeps.grown).grow later'.keeps.grown).bind ?_
      exact fun _ f later'' _ => done (later'.trans later'')

/-- A program of the host minds the register, since its calls do. -/
theorem host_minds (calls : MindingCalls R call) (p : Host) : ∀ a : Scene, a.Sound R →
    (R.typed → p.Sane a.machine.heap) → Minds R (host call p) a (Yields R) := by
  induction p with
  | done v => exact fun a sound sane => .pure sound sane
  | raise message => exact fun a sound _ => .fault sound _ _
  | call callee arguments next ih =>
      intro a sound sane
      refine (calls callee arguments a sound (fun t => (sane t).1) fun t => (sane t).2.1).bind ?_
      exact fun v b later done => ih v b later.sound fun t =>
        (sane t).2.2 v _ later.keeps.grown (later.typed t) (done.1 t)
  | arity callee next ih =>
      exact fun a sound sane => .heap (.follow sound fun n taken => ih n a sound fun t =>
        (sane t).2 n taken)
  | display v next ih => exact fun a sound sane => .heap (ih _ a sound sane)
  | time next ih =>
      exact fun a sound sane => .time sound fun now b later same =>
        ih now b later.sound fun t => same ▸ sane t now

theorem invoke_minds (rounds depth : Nat) : MindingCalls R (invoke rounds depth) := by
  -- The code that is called makes calls of its own with one level of depth less.
  induction depth with
  | zero => exact fun _ _ a sound _ _ => .throw sound trivial
  | succ depth ih =>
      intro callee arguments a sound leads valid
      refine .mark sound fun b later same _ => ?_
      rw [← same] at leads valid ⊢
      cases callee with
      | function f =>
          refine .origin (.heap (.follow later.sound fun k found => ?_))
          obtain ⟨o, entry, made⟩ := later.sound.register.entered found
          rw [entry]
          have named (g : FunctionId) (same : some f = some g) :
              b.machine.heap.function? g = some k ∧
                ∃ Γ, b.register.functions[g.index]? = some ⟨o.birth, Γ⟩ := by
            cases same
            exact ⟨found, o.scopes, entry⟩
          refine (activate_minds ih later.sound made named (fun same => nomatch same)
            valid).weaken fun v c _ done => ⟨done.1, fun k' i found' initializer shows => ?_⟩
          cases found.symm.trans found'
          exact done.2 i initializer shows
      | ofClass c => exact instantiate_minds ih later.sound leads valid
      | native n =>
          refine .heap (.follow later.sound fun r found => ?_)
          refine (host_minds ih _ b later.sound fun t => ?_).weaken fun v c _ yields =>
            ⟨yields, trivial⟩
          exact (later.sound.register.typed t).2.2 n r found _ _ (later.typed t) (valid t)

end

theorem topStatement_minds (limits : Limits) {st : Setting} (s : Stmt Address) (here : a.At R st)
    (known : ∀ σ ∈ s.sites st.scopes st.activation.isSome, R.sites σ) :
    Minds R (topStatement limits st s) a fun _ _ => True := by
  have calls : MindingCalls R (invoke limits.rounds limits.depth) := invoke_minds _ _
  cases s with
  | expression value =>
      obtain ⟨-, inner⟩ := List.forall_mem_cons.mp known
      exact .map ((evaluate_minds calls value a here.sound (known_nodes inner)).weaken
        fun _ _ _ _ => trivial)
  | _ => exact (execute_minds calls _ st a here known).bind fun _ b later _ =>
      .pure later.sound trivial

theorem topLevel_minds (limits : Limits) (ss : List (Stmt Address)) :
    ∀ (st : Setting) (last : Option Value) (a : Scene), a.At R st →
      (∀ σ ∈ sitesOfAll st.scopes st.activation.isSome ss, R.sites σ) →
      Minds R (topLevel limits st last ss) a fun _ _ => True := by
  induction ss with
  | nil => exact fun st last a here _ => .pure here.sound trivial
  | cons s rest ih =>
      intro st last a here known
      obtain ⟨first, others⟩ := List.forall_mem_append.mp known
      refine (topStatement_minds limits s here first).bind fun last' b later _ => ?_
      exact ih (st.behind s) last' b ((here.later later).behind s) others

/-- A program of known code minds the register on every machine at the global scope. -/
theorem program_minds (limits : Limits) {ss : List (Stmt Address)} (sound : a.Sound R)
    (active : a.machine.active = Machine.globals)
    (known : ∀ σ ∈ sitesOfAll [] false ss, R.sites σ) :
    Minds R (program limits ss) a fun _ _ => True := by
  have around : Setting.top.Around a.register a.machine.heap [] a.machine.active := by
    rw [active]
    refine ⟨sound.register.globals, by rw [sound.register.outermost]; rfl, fun n within => ?_⟩
    rcases within with none | none <;> cases none
  exact topLevel_minds limits ss .top none a ⟨sound, around⟩ known

end Chronicled
end LoxLang
