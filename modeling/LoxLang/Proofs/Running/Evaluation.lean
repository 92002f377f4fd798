import LoxLang.Proofs.Addressing.Lawful
import LoxLang.Proofs.Running
/-! Expressions of known code are in order. -/
namespace LoxLang

/-! What is read from a heap. -/

theorem Heap.read_ok {x : String} {b : Option Value} {v : Value} (found : Heap.read x b = .ok v) :
    b = some v := by
  cases b with
  | none => cases found
  | some w =>
      cases found
      rfl

theorem Heap.read_error {x : String} {b : Option Value} {cause : Fault.Cause}
    (failed : Heap.read x b = .error cause) : b = none ∧ cause = .uninitializedVariable x := by
  cases b with
  | none =>
      cases failed
      exact ⟨rfl, rfl⟩
  | some w => cases failed

theorem Heap.get_ok {h : Heap} {s : ScopeId} {x : String} {v : Value} (found : h.get s x = .ok v) :
    ∃ t, h.binding? t x = some (some v) := by
  unfold Heap.get at found
  split at found
  · next b bound =>
      obtain ⟨t, -, here⟩ := List.exists_of_findSome?_eq_some bound
      exact ⟨t, by rw [here, Heap.read_ok found]⟩
  · cases found

theorem Heap.get_error {h : Heap} {s : ScopeId} {x : String} {cause : Fault.Cause}
    (failed : h.get s x = .error cause) :
    cause = .undefinedVariable x ∨ cause = .uninitializedVariable x := by
  unfold Heap.get at failed
  split at failed
  · exact .inr (Heap.read_error failed).2
  · cases failed
    exact .inl rfl

theorem Heap.getAt_ok {h : Heap} {s : ScopeId} {d : Int} {x : String} {v : Value}
    (found : h.getAt s d x = .ok v) : ∃ t, h.binding? t x = some (some v) := by
  unfold Heap.getAt at found
  split at found
  · cases found
  · next t _ =>
      split at found
      · cases found
      · next b bound =>
          cases b with
          | none => cases found
          | some w =>
              cases found
              exact ⟨t, bound⟩

/-- At a distance only a binding without a value makes a fault. -/
theorem Heap.getAt_fault {h : Heap} {s : ScopeId} {d : Int} {x : String} {cause : Fault.Cause}
    (failed : h.getAt s d x = .error (.fault cause)) :
    cause = .uninitializedVariable x ∧ ∃ t, h.binding? t x = some none := by
  unfold Heap.getAt at failed
  split at failed
  · cases failed
  · next t _ =>
      split at failed
      · cases failed
      · next b bound =>
          cases b with
          | none =>
              cases failed
              exact ⟨rfl, t, bound⟩
          | some w => cases failed

theorem Heap.getAt_of_bound {h : Heap} {s t : ScopeId} {n : Int} {d : Nat} {x : String}
    {b : Option Value} (distance : n.toNat = d) (reached : (h.chain s)[d]? = some t)
    (bound : h.binding? t x = some b) : h.getAt s n x = (Heap.read x b).mapError .fault := by
  simp only [Heap.getAt, Heap.ancestor, distance, reached, bound]

theorem Heap.arity?_of_leads {h : Heap} {c : Callable} (leads : h.Leads c) :
    (h.arity? c).isSome = true := by
  cases c <;> simpa [Heap.arity?, Heap.Leads] using leads

theorem Heap.binderAt_of_bound {h : Heap} {s t : ScopeId} {d : Nat} {x : String}
    (reached : (h.chain s)[d]? = some t) (bound : (h.binding? t x).isSome = true) :
    h.binderAt s d x = .ok t := by
  simp only [Heap.binderAt, Heap.ancestor, Int.toNat_natCast, reached, bound, if_true]

theorem Heap.binderAt_of_missing {h : Heap} {s t : ScopeId} {d : Nat} {x : String}
    (reached : (h.chain s)[d]? = some t) (missing : h.binding? t x = none) :
    h.binderAt s d x = .error (.notBound x d) := by
  simp only [Heap.binderAt, Heap.ancestor, Int.toNat_natCast, reached, missing, Option.isSome_none,
    Bool.false_eq_true, if_false]

theorem UnaryOp.apply_valid {h : Heap} {op : UnaryOp} {a v : Value} (found : op.apply a = .ok v) :
    h.Valid v := by
  unfold UnaryOp.apply at found
  split at found <;> cases found <;> trivial

/-- An operator yields a constant, or its right operand. -/
theorem BinaryOp.apply_valid {h : Heap} {op : BinaryOp} {a b v : Value} (valid : h.Valid b)
    (found : op.apply a b = .ok v) : h.Valid v := by
  unfold BinaryOp.apply at found
  split at found
  case h_1 =>
    cases found
    exact valid
  case h_4 =>
    unfold addValues at found
    split at found <;> cases found <;> trivial
  case h_11 =>
    split at found <;> cases found
    trivial
  all_goals cases found <;> trivial

/-- Whoever calls with as many arguments as are taken is served in order. -/
def Serves (R : Regime) (call : Recorded.Calls) : Prop :=
  ∀ c arguments m, Sound R m.heap → m.heap.arity? c = some arguments.length →
    (R.typed → ∀ v ∈ arguments, m.heap.Valid v) →
    Meets R false (call c arguments) m (Yields R)

/-- The address of a name leads to a binding of it. -/
def Reaches (m : Machine) (address : Address) (x : String) : Prop :=
  ∀ d, address = some d → ∃ t, (m.heap.chain m.active)[d]? = some t ∧ t ≠ Machine.globals ∧
    (m.heap.binding? t x).isSome = true

theorem Scopes.Finds.reaches {Γ : Scopes} {x : String} {address : Address} {m : Machine}
    (finds : Γ.Finds x address) (mirrors : Mirrors m.heap (m.heap.chain m.active) Γ) :
    Reaches m address x := fun d hd => mirrors.holds (finds.2 d hd)

variable {R : Regime} {b : Bool} {m : Machine} {Γ : Scopes}

namespace Meets

theorem fail {α : Type} {Q : α → Heap → Prop} (sound : Sound R m.heap) (cause : Fault.Cause)
    (token : Option Token) : Meets R b (Recorded.silent (Run.fault cause token)) m Q :=
  silent_error rfl (.refl sound) trivial

theorem lift {token : Token} {r : Except Fault.Cause Value} (sound : Sound R m.heap)
    (valid : ∀ v, r = .ok v → Yields R v m.heap) :
    Meets R b (Recorded.silent (Run.lift token r)) m (Yields R) := by
  cases r with
  | error cause => exact fail sound cause (some token)
  | ok v => exact pure sound (valid v rfl)

/-- What an address leads to is read. -/
theorem lookUp {token : Token} {address : Address} (sound : Sound R m.heap)
    (reaches : Reaches m address token.lexeme) :
    Meets R b (Recorded.silent (Run.lookUp token address)) m (Yields R) := by
  cases address with
  | none =>
      refine silent_congr (y := Run.lift token (m.heap.get Machine.globals token.lexeme)) rfl ?_
      refine lift sound fun v found t => ?_
      obtain ⟨s, bound⟩ := Heap.get_ok found
      exact (sound.typed t).bindings s _ v bound
  | some d =>
      obtain ⟨t, reached, -, bound⟩ := reaches d rfl
      obtain ⟨c, here⟩ := Option.isSome_iff_exists.mp bound
      have got := Heap.getAt_of_bound (Int.toNat_natCast d) reached here
      cases c with
      | none =>
          refine silent_error (n := m)
            (e := .fault ⟨.uninitializedVariable token.lexeme, some token⟩) ?_ (.refl sound) trivial
          simp only [Run.lookUp, Bind.bind, EStateM.bind, Run.heap, Run.active, got]
          rfl
      | some v =>
          refine silent_ok (n := m) (a := v) ?_ (.refl sound) fun t => ?_
          · simp only [Run.lookUp, Bind.bind, EStateM.bind, Run.heap, Run.active, got]
            rfl
          · exact (sound.typed t).bindings _ _ v here

/-- A method with its receiver bound is a function of known code. -/
theorem bound {k : Closure} {i : InstanceId} (sound : Sound R m.heap)
    (method : k.KnownMethod R m.heap) (valid : Yields R (.object i) m.heap) :
    Meets R b (Recorded.silent (Run.bound k i)) m (Yields R) := by
  obtain ⟨inner, known⟩ := sound.bindReceiver method valid
  let h := (m.heap.bindReceiver k i).2
  let made := h.newFunction (m.heap.bindReceiver k i).1
  refine silent_ok (n := ⟨made.2, m.active, m.world⟩) (a := .callable (.function made.1)) rfl
    ⟨(m.heap.extends_bindReceiver k i).trans (h.extends_newFunction _), rfl,
      inner.newFunction known⟩ fun _ => leads_newFunction h _

theorem property {i : InstanceId} {name : Name} (sound : Sound R m.heap)
    (valid : Yields R (.object i) m.heap) :
    Meets R b (Recorded.silent (Run.property i name)) m (Yields R) := by
  cases here : m.heap.instance? i with
  | none =>
      refine silent_error (n := m) (e := .illFormed) ?_ (.refl sound) fun t => ?_
      · simp only [Run.property, Bind.bind, EStateM.bind, Run.heap, here]
        rfl
      · have found := valid t
        simp [Heap.Valid, here] at found
  | some o =>
      cases field : o.fields.find? name.text with
      | some v =>
          refine silent_ok (n := m) (a := v) ?_ (.refl sound) fun t => ?_
          · simp only [Run.property, Bind.bind, EStateM.bind, Run.heap, Run.follow, here, Pure.pure,
              EStateM.pure, field]
          · exact (sound.typed t).fields i o name.text v here field
      | none =>
          cases method : m.heap.findMethod o.ofClass name.text with
          | none =>
              refine silent_error (n := m)
                (e := .fault ⟨.undefinedProperty name.text, some name.token⟩) ?_ (.refl sound) trivial
              simp only [Run.property, Bind.bind, EStateM.bind, Run.heap, Run.follow, here, Pure.pure,
                EStateM.pure, field, method]
              rfl
          | some k =>
              refine silent_congr (y := Run.bound k i) ?_
                (bound sound (sound.inScope.findMethod method) valid)
              simp only [Run.property, Bind.bind, EStateM.bind, Run.heap, Run.follow, here, Pure.pure,
                EStateM.pure, field, method]

/-- The method of a class above is found where the scopes hold `super` and, one further in,
`this`. -/
theorem inheritedMethod {pos : Pos} {method : Name} {address : Address} {d : Nat}
    (sound : Sound R m.heap) (at_super : address = some (d + 1))
    (super_bound : Reaches m address "super") (this_bound : Reaches m (some d) "this") :
    Meets R b (Recorded.silent (Run.inheritedMethod pos method address)) m (Yields R) := by
  obtain ⟨s, reached, inner, bound_super⟩ := super_bound (d + 1) at_super
  obtain ⟨t, reached', inner', bound_this⟩ := this_bound d rfl
  obtain ⟨_, above⟩ := Option.isSome_iff_exists.mp bound_super
  obtain ⟨_, this⟩ := Option.isSome_iff_exists.mp bound_this
  obtain ⟨c, rfl⟩ := (sound.inScope.reserved s "super" _ (absurd · inner) above).2 rfl
  obtain ⟨i, rfl⟩ := (sound.inScope.reserved t "this" _ (absurd · inner') this).1 rfl
  have got_super := Heap.getAt_of_bound (Int.toNat_natCast (d + 1)) reached above
  have got_this : m.heap.getAt m.active ((d + 1 : Nat) - 1) "this" = .ok (.object i) :=
    Heap.getAt_of_bound (by omega) reached' this
  have parent : Run.lookUp (inheritedToken pos) address m = .ok (.callable (.ofClass c)) m := by
    simp only [Run.lookUp, at_super, Bind.bind, EStateM.bind, Run.heap, Run.active, inheritedToken,
      got_super]
    rfl
  cases found : m.heap.findMethod c method.text with
  | some k =>
      refine silent_congr (y := Run.bound k i) ?_
        (bound sound (sound.inScope.findMethod found) fun t => ?_)
      · subst at_super
        simp only [Run.inheritedMethod, Bind.bind, EStateM.bind, Run.heap, Run.active, Run.follow,
          Pure.pure, EStateM.pure, parent, got_this, found]
      · exact (sound.typed t).bindings _ _ _ this
  | none =>
      refine silent_congr
        (y := Run.fault (.undefinedProperty method.text) (some method.token)) ?_ (fail sound _ _)
      subst at_super
      simp only [Run.inheritedMethod, Bind.bind, EStateM.bind, Run.heap, Run.active, Run.follow,
        Pure.pure, EStateM.pure, parent, got_this, found]

theorem write {s : ScopeId} {name : Name} {v : Value} (sound : Sound R m.heap)
    (ordinary : name.Ordinary) (valid : Yields R v m.heap) :
    Meets R b (Recorded.silent (Run.update (·.define s name.text (some v)))) m fun _ _ => True := by
  have changed : Sound R (m.heap.define s name.text (some v)) :=
    sound.define (fun _ => ordinary.fits _) fun t w same => Option.some.inj same ▸ valid t
  exact (update (m.heap.extends_define s name.text (some v)) changed).weaken fun _ _ _ => trivial

theorem assignFrom {s : ScopeId} {name : Name} {v : Value} (sound : Sound R m.heap)
    (ordinary : name.Ordinary) (valid : Yields R v m.heap) :
    Meets R b (Recorded.silent (Run.assignFrom s name v)) m fun _ _ => True := by
  cases found : m.heap.binder? s name.text with
  | some t =>
      refine silent_congr ?_ (write (s := t) sound ordinary valid)
      simp only [Run.assignFrom, Bind.bind, EStateM.bind, Run.heap, found]
  | none =>
      refine silent_congr
        (y := Run.fault (.undefinedVariable name.text) (some name.token)) ?_ (fail sound _ _)
      simp only [Run.assignFrom, Bind.bind, EStateM.bind, Run.heap, found]

/-- A store finds the binding it is to change, unless it stands in the initializer of a variable
that its scope does not hold yet. -/
theorem store {σ : Site} {name : Name} {address : Address} {v : Value} (sound : Sound R m.heap)
    (known : R.sites σ) (node : σ.node = .store name address)
    (mirrors : Mirrors m.heap (m.heap.chain m.active) σ.scopes) (valid : Yields R v m.heap) :
    Meets R b (do
      Recorded.visit (.store name address)
      Recorded.silent (Run.assign name address v)
      Pure.pure v) m (Yields R) := by
  have here : Visit.InOrder R ⟨.store name address, m⟩ := node ▸ .of_mirrors sound known mirrors
  have lawful := R.lawful σ known
  rw [Site.Lawful, node] at lawful
  obtain ⟨ordinary, nearest, finished⟩ := lawful
  have stored (done : Meets R b (Recorded.silent (Run.assign name address v)) m fun _ _ => True) :
      Meets R b (do
        Recorded.silent (Run.assign name address v)
        Pure.pure v) m (Yields R) :=
    done.bind fun _ m' after _ => pure after.sound fun ty => (valid ty).grow after.grown
  cases address with
  | none => exact visit here (stored (assignFrom sound ordinary valid))
  | some d =>
      have bounded : d < σ.scopes.length := by
        obtain ⟨g, _, found, -⟩ := Scopes.locate_eq_some nearest.symm
        exact (List.getElem?_eq_some_iff.mp found).1
      obtain ⟨t, reached, -, -⟩ := mirrors.inner bounded
      cases bound : m.heap.binding? t name.text with
      | some c =>
          have found := Heap.binderAt_of_bound reached (x := name.text) (by rw [bound]; rfl)
          refine visit here (stored (silent_congr ?_ (write (s := t) sound ordinary valid)))
          simp only [Run.assign, Run.assignAt, Bind.bind, EStateM.bind, Run.heap, Run.active, found]
      | none =>
          have missing := Heap.binderAt_of_missing reached bound
          rcases finished d rfl with held | itself
          · obtain ⟨t', reached', -, bound'⟩ := mirrors.holds held
            cases reached.symm.trans reached'
            rw [bound] at bound'
            cases bound'
          · have itself' := itself
            obtain ⟨-, -, name', node', -⟩ := itself'
            cases node.symm.trans node'
            cases reached
            refine visit_stop (e := .unbound (.notBound name.text 0)) here ?_ ?_
            · simp only [Run.assign, Run.assignAt, Bind.bind, EStateM.bind, Run.heap, Run.active,
                missing, Recorded.silent]
              rfl
            · exact ⟨_, name.text, rfl, ⟨⟨σ, known, node, mirrors.around, itself⟩, bound⟩, rfl⟩

theorem callValue {call : Recorded.Calls} {close : Pos} {callee : Value} {arguments : List Value}
    (serves : Serves R call) (sound : Sound R m.heap) (valid : Yields R callee m.heap)
    (all : R.typed → ∀ v ∈ arguments, m.heap.Valid v) :
    Meets R b (Recorded.callValue call close callee arguments) m (Yields R) := by
  cases callee with
  | callable c =>
      refine (follow (f := fun h => h.arity? c) sound
        fun ty => Heap.arity?_of_leads (valid ty)).bind fun n m' after ⟨_, taken⟩ => ?_
      by_cases same : arguments.length = n
      · rw [if_pos same]
        refine (serves c arguments m' after.sound (by rw [taken, same]) ?_).inside
        exact fun ty v member => (all ty v member).grow after.grown
      · rw [if_neg same]
        exact fail after.sound _ _
  | _ => exact fail sound _ _

end Meets

/-- A machine at a place of known code with the local scopes `Γ`. -/
structure Begins (R : Regime) (Γ : Scopes) (m : Machine) : Prop where
  sound : Sound R m.heap
  mirrors : Mirrors m.heap (m.heap.chain m.active) Γ

namespace Begins
variable {m' : Machine} {inside : Bool} {i : Option Name} {n : Node}

theorem later (begins : Begins R Γ m) (after : After R m m') : Begins R Γ m' :=
  ⟨after.sound, after.mirrors begins.mirrors⟩

theorem inOrder (begins : Begins R Γ m) (known : R.sites ⟨Γ, inside, i, n⟩) :
    Visit.InOrder R ⟨n, m⟩ :=
  .of_mirrors begins.sound known begins.mirrors

end Begins

section
variable {call : Recorded.Calls} {inside : Bool} {i : Option Name}

theorem known_pair {n : Node} {ns ms : List Node}
    (known : ∀ k ∈ n :: (ns ++ ms), R.sites ⟨Γ, inside, i, k⟩) :
    R.sites ⟨Γ, inside, i, n⟩ ∧ (∀ k ∈ ns, R.sites ⟨Γ, inside, i, k⟩) ∧
      ∀ k ∈ ms, R.sites ⟨Γ, inside, i, k⟩ := by
  obtain ⟨head, tail⟩ := List.forall_mem_cons.mp known
  exact ⟨head, List.forall_mem_append.mp tail⟩

mutual

/-- An expression of known code is in order, and its value leads somewhere. -/
theorem evaluate_meets (serves : Serves R call) : ∀ (e : Expr Address) (m : Machine),
    Begins R Γ m → (∀ n ∈ e.nodes, R.sites ⟨Γ, inside, i, n⟩) →
    Meets R b (Recorded.evaluate call e) m (Yields R)
  | .literal _ value, m, begins, known => by
      refine .visit (begins.inOrder (known _ List.mem_cons_self)) (.pure begins.sound fun _ => ?_)
      cases value <;> trivial
  | .grouping _ body, m, begins, known => by
      obtain ⟨here, inner⟩ := List.forall_mem_cons.mp known
      exact .visit (begins.inOrder here) (evaluate_meets serves body m begins inner)
  | .var name address, m, begins, known => by
      have here := known _ List.mem_cons_self
      have lawful : Γ.Finds name.text address := R.lawful _ here
      exact .visit (begins.inOrder here) (.lookUp begins.sound (lawful.reaches begins.mirrors))
  | .assign name value address, m, begins, known => by
      obtain ⟨here, inner, others⟩ := known_pair known
      have last : R.sites ⟨Γ, inside, i, .store name address⟩ :=
        others _ (List.mem_singleton_self _)
      refine .visit (begins.inOrder here) ?_
      refine (evaluate_meets serves value m begins inner).bind fun v m' after valid => ?_
      exact .store after.sound last rfl (after.mirrors begins.mirrors) valid
  | .unary op pos operand, m, begins, known => by
      obtain ⟨here, inner⟩ := List.forall_mem_cons.mp known
      refine .visit (begins.inOrder here) ?_
      refine (evaluate_meets serves operand m begins inner).bind fun v m' after _ => ?_
      exact .lift after.sound fun w found _ => UnaryOp.apply_valid found
  | .binary left op pos right, m, begins, known => by
      obtain ⟨here, first, second⟩ := known_pair known
      refine .visit (begins.inOrder here) ?_
      refine (evaluate_meets serves left m begins first).bind fun v m' after _ => ?_
      refine (evaluate_meets serves right m' (begins.later after) second).bind ?_
      intro w m'' after' valid
      exact .lift after'.sound fun u found t => BinaryOp.apply_valid (valid t) found
  | .logical left op pos right, m, begins, known => by
      obtain ⟨here, first, second⟩ := known_pair known
      refine .visit (begins.inOrder here) ?_
      refine (evaluate_meets serves left m begins first).bind fun v m' after valid => ?_
      have rest := evaluate_meets serves right m' (begins.later after) second
      cases op with
      | and => exact .ite rest (.pure after.sound valid)
      | or => exact .ite (.pure after.sound valid) rest
  | .conditional condition thenBranch elseBranch, m, begins, known => by
      obtain ⟨here, first, branches⟩ := known_pair known
      obtain ⟨second, third⟩ := List.forall_mem_append.mp branches
      refine .visit (begins.inOrder here) ?_
      refine (evaluate_meets serves condition m begins first).bind fun v m' after _ => ?_
      exact .ite (evaluate_meets serves thenBranch m' (begins.later after) second)
        (evaluate_meets serves elseBranch m' (begins.later after) third)
  | .call callee close arguments, m, begins, known => by
      obtain ⟨here, first, second⟩ := known_pair known
      refine .visit (begins.inOrder here) ?_
      refine (evaluate_meets serves callee m begins first).bind fun f m' after valid => ?_
      refine (evaluateAll_meets serves arguments m' (begins.later after) second).bind ?_
      intro vs m'' after' all
      exact .callValue serves after'.sound (fun t => (valid t).grow after'.grown) all
  | .member object name, m, begins, known => by
      obtain ⟨here, inner⟩ := List.forall_mem_cons.mp known
      refine .visit (begins.inOrder here) ?_
      refine (evaluate_meets serves object m begins inner).bind fun v m' after valid => ?_
      cases v with
      | object j => exact .property after.sound valid
      | _ => exact .fail after.sound _ _
  | .assignMember object name value, m, begins, known => by
      obtain ⟨here, second, first⟩ := known_pair known
      refine .visit (begins.inOrder here) ?_
      refine (evaluate_meets serves object m begins first).bind fun v m' after _ => ?_
      cases v with
      | object j =>
          refine (evaluate_meets serves value m' (begins.later after) second).bind ?_
          intro w m'' after' valid
          refine (Meets.update (m''.heap.extends_setField j name.text w)
            (after'.sound.setField valid)).bind fun _ m₃ after₃ _ => ?_
          exact .pure after₃.sound fun t => (valid t).grow after₃.grown
      | _ => exact .fail after.sound _ _
  | .receiver pos address, m, begins, known => by
      have here := known _ List.mem_cons_self
      obtain ⟨d, rfl, finds⟩ := R.lawful _ here
      exact .visit (begins.inOrder here) (.lookUp begins.sound (finds.reaches begins.mirrors))
  | .inherited pos method address, m, begins, known => by
      have here := known _ List.mem_cons_self
      obtain ⟨d, rfl, above, this⟩ := R.lawful _ here
      exact .visit (begins.inOrder here) (.inheritedMethod begins.sound rfl
        (above.reaches begins.mirrors) (this.reaches begins.mirrors))

theorem evaluateAll_meets (serves : Serves R call) : ∀ (es : List (Expr Address)) (m : Machine),
    Begins R Γ m → (∀ n ∈ nodesOfAll es, R.sites ⟨Γ, inside, i, n⟩) →
    Meets R b (Recorded.evaluateAll call es) m fun vs h => R.typed → ∀ v ∈ vs, h.Valid v
  | [], m, begins, _ => .pure begins.sound fun _ v member => absurd member List.not_mem_nil
  | e :: rest, m, begins, known => by
      obtain ⟨first, second⟩ := List.forall_mem_append.mp known
      refine (evaluate_meets serves e m begins first).bind fun v m' after valid => ?_
      refine (evaluateAll_meets serves rest m' (begins.later after) second).bind ?_
      intro vs m'' after' all
      exact .pure after'.sound fun t =>
        List.forall_mem_cons.mpr ⟨(valid t).grow after'.grown, all t⟩

end

end
end LoxLang
