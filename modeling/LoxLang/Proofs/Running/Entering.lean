import LoxLang.Proofs.Heap.Steps
/-! How a call begins and ends: how many arguments it takes, with which bindings a body starts, and
what a call makes of the end of a body. -/
namespace LoxLang
variable {h : Heap} {s : ScopeId} {x : String} {v : Value}

/-- How many arguments a call takes, and of whom. -/
inductive Heap.Takes (h : Heap) : Callable → Nat → Prop
  | native {n : NativeId} {r : Native} : h.native? n = some r → Takes h (.native n) r.arity
  | function {f : FunctionId} {k : Closure} :
    h.function? f = some k → Takes h (.function f) k.declaration.params.length
  | initialized {c : ClassId} {k : Class} {initializer : Closure} :
    h.class? c = some k → h.findMethod c "init" = some initializer →
    Takes h (.ofClass c) initializer.declaration.params.length
  | plain {c : ClassId} {k : Class} :
    h.class? c = some k → h.findMethod c "init" = none → Takes h (.ofClass c) 0

theorem Heap.Takes.arity? {c : Callable} {n : Nat} (takes : h.Takes c n) : h.arity? c = some n := by
  cases takes with
  | native found => simp only [Heap.arity?, found, Option.map_some]
  | function found => simp only [Heap.arity?, found, Option.map_some]
  | initialized found named =>
      simp only [Heap.arity?, found, named, Option.map_some, Option.getD_some]
  | plain found missing =>
      simp only [Heap.arity?, found, missing, Option.map_some, Option.map_none, Option.getD_none]

/-- What leads somewhere takes some number of arguments. -/
theorem Heap.Leads.takes {c : Callable} (leads : h.Leads c) : ∃ n, h.Takes c n := by
  cases c with
  | native n =>
      obtain ⟨r, found⟩ := Option.isSome_iff_exists.mp leads
      exact ⟨_, .native found⟩
  | function f =>
      obtain ⟨k, found⟩ := Option.isSome_iff_exists.mp leads
      exact ⟨_, .function found⟩
  | ofClass c =>
      obtain ⟨k, found⟩ := Option.isSome_iff_exists.mp leads
      cases named : h.findMethod c "init" with
      | none => exact ⟨0, .plain found named⟩
      | some initializer => exact ⟨_, .initialized found named⟩

/-! The scope of an activation. -/

/-- The argument at the place of the last parameter of a name. -/
def LastArgument (params : List Name) (arguments : List Value) (x : String) (v : Value) : Prop :=
  ∃ (n : Nat) (p : Name), params[n]? = some p ∧ p.text = x ∧ arguments[n]? = some v ∧
    ∀ (n' : Nat) (q : Name), n < n' → params[n']? = some q → q.text ≠ x

theorem lastArgument_cons {p : Name} {ps : List Name} {a : Value} {vs : List Value} :
    LastArgument (p :: ps) (a :: vs) x v ↔
      LastArgument ps vs x v ∨ p.text = x ∧ a = v ∧ ∀ q ∈ ps, q.text ≠ x := by
  constructor
  · rintro ⟨n, q, found, named, given, last⟩
    cases n with
    | zero =>
        cases found
        cases given
        refine .inr ⟨named, rfl, fun q member => ?_⟩
        obtain ⟨n', found⟩ := List.mem_iff_getElem?.mp member
        exact last (n' + 1) q (Nat.succ_pos n') found
    | succ n =>
        exact .inl ⟨n, q, found, named, given, fun n' q' less found' =>
          last (n' + 1) q' (Nat.succ_lt_succ less) found'⟩
  · rintro (⟨n, q, found, named, given, last⟩ | ⟨named, rfl, others⟩)
    · refine ⟨n + 1, q, found, named, given, fun n' q' less found' => ?_⟩
      cases n' with
      | zero => exact absurd less (Nat.not_lt_zero _)
      | succ n' => exact last n' q' (Nat.lt_of_succ_lt_succ less) found'
    · refine ⟨0, p, rfl, named, rfl, fun n' q' less found' => ?_⟩
      cases n' with
      | zero => exact absurd less (Nat.lt_irrefl _)
      | succ n' => exact others q' (List.mem_of_getElem? found')

/-- Parameters are bound to the arguments at their places, and nothing else is bound. -/
theorem binding?_bindParameters (alive : h.Alive s) {ps : List Name} {vs : List Value}
    (full : vs.length = ps.length) (b : Option Value) :
    (Run.bindParameters s ps vs h).binding? s x = some b ↔
      (∃ v, b = some v ∧ LastArgument ps vs x v) ∨
        (∀ p ∈ ps, p.text ≠ x) ∧ h.binding? s x = some b := by
  induction ps generalizing vs h with
  | nil =>
      refine ⟨fun bound => .inr ⟨fun p member => absurd member List.not_mem_nil, bound⟩, ?_⟩
      rintro (⟨v, -, n, p, found, -⟩ | ⟨-, bound⟩)
      · cases found
      · exact bound
  | cons p ps ih =>
      cases vs with
      | nil => cases full
      | cons a vs =>
          have rest := ih (h := h.define s p.text (some a)) (Heap.alive_define.mpr alive)
            (Nat.succ.inj full)
          refine rest.trans ?_
          simp only [lastArgument_cons, List.forall_mem_cons]
          by_cases named : p.text = x
          · subst named
            rw [Heap.binding?_define_self _ _ alive]
            constructor
            · rintro (⟨v, same, last⟩ | ⟨others, same⟩)
              · exact .inl ⟨v, same, .inl last⟩
              · exact .inl ⟨a, (Option.some.inj same).symm, .inr ⟨rfl, rfl, others⟩⟩
            · rintro (⟨v, same, last | ⟨-, rfl, others⟩⟩ | ⟨⟨other, -⟩, -⟩)
              · exact .inl ⟨v, same, last⟩
              · exact .inr ⟨others, same ▸ rfl⟩
              · exact absurd rfl other
          · rw [Heap.binding?_define, if_neg fun both => named both.2.symm]
            constructor
            · rintro (⟨v, same, last⟩ | ⟨others, bound⟩)
              · exact .inl ⟨v, same, .inl last⟩
              · exact .inr ⟨⟨named, others⟩, bound⟩
            · rintro (⟨v, same, last | ⟨here, -⟩⟩ | ⟨⟨-, others⟩, bound⟩)
              · exact .inl ⟨v, same, last⟩
              · exact absurd here named
              · exact .inr ⟨others, bound⟩

/-- Nothing but one scope changes. -/
theorem bindParameters_local (s : ScopeId) (ps : List Name) (vs : List Value) (h : Heap) :
    (∃ scopes, Run.bindParameters s ps vs h = { h with scopes }) ∧
      (∀ t, t ≠ s → (Run.bindParameters s ps vs h).scope? t = h.scope? t) ∧
      ∀ t, (Run.bindParameters s ps vs h).chain t = h.chain t := by
  unfold Run.bindParameters
  induction ps.zip vs generalizing h with
  | nil => exact ⟨⟨h.scopes, rfl⟩, fun _ _ => rfl, fun _ => rfl⟩
  | cons pv rest ih =>
      obtain ⟨⟨scopes, rest⟩, others, chain⟩ := ih (h.define s pv.1.text (some pv.2))
      refine ⟨⟨scopes, rest⟩, fun t other => ?_, fun t => ?_⟩
      · rw [List.foldl_cons, others t other, Heap.scope?_define, if_neg other]
      · rw [List.foldl_cons, chain, Heap.chain_define]

/-- The second machine is the first one at the start of the body of a routine: in a scope that is
new, is in front of that of the closure, and has bindings for the parameters and no others. -/
structure Closure.Entered (k : Closure) (arguments : List Value) (m n : Machine) : Prop where
  fresh : ¬m.heap.Alive n.active
  opened : n.heap.Alive n.active
  enclosed : n.heap.chain n.active = n.active :: m.heap.chain k.scope
  bindings : ∀ x b, n.heap.binding? n.active x = some b ↔
    ∃ v, b = some v ∧ LastArgument k.declaration.params arguments x v
  others : ∀ t, t ≠ n.active → n.heap.scope? t = m.heap.scope? t
  rest : ∃ scopes, n.heap = { m.heap with scopes }
  world : n.world = m.world

namespace Run

/-- What a call makes of the end of a body. What was active before the call is active again. -/
def finish (k : Closure) (before : ScopeId) :
    EStateM.Result Exit Machine Unit → EStateM.Result Exit Machine Value
  | .ok _ m => yielded k .nil { m with active := before }
  | .error (.returned v) m => yielded k v { m with active := before }
  | .error e m => .error e { m with active := before }

/-- A routine that is called with as many arguments as it has parameters runs its body in a new
scope for just these. -/
theorem activate_enters (k : Closure) {arguments : List Value} (m : Machine)
    (full : arguments.length = k.declaration.params.length) :
    ∃ n, k.Entered arguments m n ∧ ∀ rounds call, activate rounds call k arguments m =
      finish k m.active (executeAll rounds call k.declaration.body n) := by
  let made := m.heap.newScope (some k.scope)
  let h := bindParameters made.1 k.declaration.params arguments made.2
  obtain ⟨⟨scopes, rest⟩, others, chain⟩ :=
    bindParameters_local made.1 k.declaration.params arguments made.2
  have alive : made.2.Alive made.1 := Heap.alive_newScope_iff.mpr (.inl rfl)
  refine ⟨⟨h, made.1, m.world⟩, ⟨m.heap.not_alive_new, ?_, ?_, fun x b => ?_, fun t other => ?_,
    ⟨scopes, rest⟩, rfl⟩, fun rounds call => ?_⟩
  · exact (Heap.extends_bindParameters _ _ _ _).alive alive
  · exact (chain made.1).trans (m.heap.chain_newScope_self k.scope)
  · have empty : made.2.binding? made.1 x = none :=
      (m.heap.binding?_newScope _ _ _).trans (if_pos rfl)
    refine (binding?_bindParameters alive full b).trans ?_
    rw [empty]
    simp only [reduceCtorEq, and_false, or_false]
  · exact (others t other).trans ((m.heap.scope?_newScope _ t).trans (if_neg other))
  · have begun : activate rounds call k arguments m =
        (bodyValue (within made.1 (executeAll rounds call k.declaration.body)) >>= yielded k)
          ⟨h, m.active, m.world⟩ := rfl
    rw [begun]
    simp only [bind, EStateM.bind, bodyValue, within]
    cases executeAll rounds call k.declaration.body ⟨h, made.1, m.world⟩ with
    | ok u m' => rfl
    | error e m' => cases e <;> rfl

/-- A class whose initializer is called with as many arguments as it has parameters runs the body of
the initializer for a new instance, which is what the call yields. -/
theorem instantiate_enters {c : ClassId} {initializer : Closure} {arguments : List Value}
    (m : Machine) (found : m.heap.findMethod c "init" = some initializer)
    (full : arguments.length = initializer.declaration.params.length) :
    let made := m.heap.newInstance c
    let bound := made.2.bindReceiver initializer made.1
    ∃ n, bound.1.Entered arguments ⟨bound.2, m.active, m.world⟩ n ∧
      ∀ rounds call, instantiate rounds call c arguments m =
        match finish bound.1 m.active (executeAll rounds call initializer.declaration.body n) with
        | .ok _ m' => .ok (.object made.1) m'
        | .error e m' => .error e m' := by
  intro made bound
  obtain ⟨n, entered, runs⟩ := activate_enters bound.1 ⟨bound.2, m.active, m.world⟩ full
  refine ⟨n, entered, fun rounds call => ?_⟩
  have same : made.2.findMethod c "init" = some initializer := found
  have begun : instantiate rounds call c arguments m =
      (activate rounds call bound.1 arguments >>= fun _ => pure (.object made.1))
        ⟨bound.2, m.active, m.world⟩ := by
    simp only [instantiate, Bind.bind, EStateM.bind, change, heap]
    rw [show (m.heap.newInstance c).2.findMethod c "init" = some initializer from same]
    rfl
  have ran : activate rounds call bound.1 arguments ⟨bound.2, m.active, m.world⟩ =
      finish bound.1 m.active (executeAll rounds call initializer.declaration.body n) :=
    runs rounds call
  rw [begun]
  simp only [Bind.bind, EStateM.bind, ran]
  cases finish bound.1 m.active (executeAll rounds call initializer.declaration.body n) <;> rfl

end Run
end LoxLang
