import LoxLang.Proofs.Sessions.Chronicles
/-! Activations throughout a session. What is declared in one activation of a function has only that
in common with what is declared in another one that is around the function; and so it is with two
executions of one block. -/
namespace LoxLang

/-- The scopes that are around both of two scopes are those around a third one. -/
def Heap.Meet (h : Heap) (t t' s : ScopeId) : Prop :=
  ∀ u, (u ∈ h.chain t ∧ u ∈ h.chain t') ↔ u ∈ h.chain s

namespace Moment

/-- The closure is a function that was declared in the setting, or a method of a class that was. -/
inductive Declared (m : Moment) (st : Setting) : Closure → Prop
  | function {f : FunctionId} {k : Closure} {Γ : Scopes} :
    m.machine.heap.function? f = some k →
    m.register.functions[f.index]? = some ⟨.declared st, Γ⟩ → Declared m st k
  | method {c : ClassId} {k : Class} {o : ClassOrigin} {x : String} {method : Closure} :
    m.machine.heap.class? c = some k → m.register.classes[c.index]? = some o → o.setting = st →
    k.methods.find? x = some method → Declared m st method

/-- The closure was made by a declaration in the code of the activated function, its blocks
included. -/
def MadeIn (m : Moment) (n : Nat) (k : Closure) : Prop :=
  ∃ st, st.activation = some n ∧ m.Declared st k

/-- The closure was made by a declaration in the region, outside of other regions in it. -/
def MadeDirectlyIn (m : Moment) (n : Nat) (k : Closure) : Prop :=
  ∃ st, st.region = some n ∧ m.Declared st k

/-- The region is the activation of a routine. -/
def Activates (m : Moment) (n : Nat) (callee : Option FunctionId) (k : Closure) (b : Birth) :
    Prop := ∃ r, m.register.regions[n]? = some r ∧ r.execution = .body callee k b

/-- The scope holds variables of the activation: parameters and variables of the body, or those of a
block in it. -/
def Owns (m : Moment) (n : Nat) (s : ScopeId) : Prop :=
  ∃ (j : Nat) (r : Region), m.register.regions[j]? = some r ∧ r.activation = some n ∧ r.scope = s

/-- How activations and executions of blocks are kept apart. -/
structure KeptApart (inputs : List Session.Input) (m : Moment) : Prop where
  activations : ∀ f n n' k k' b b' c c', n ≠ n' → m.Activates n (some f) k b →
    m.Activates n' (some f) k' b' → m.MadeIn n c → m.MadeIn n' c' →
    m.machine.heap.function? f = some k ∧ m.machine.heap.Meet c.scope c'.scope k.scope
  copies : ∀ n n' callee callee' k k' method d d' i i' c c', n ≠ n' →
    callee ≠ callee' ∨ callee = none → m.Activates n callee k (.bound method d i) →
    m.Activates n' callee' k' (.bound method d' i') → m.MadeIn n c → m.MadeIn n' c' →
    m.machine.heap.Meet c.scope c'.scope method.scope
  assignments : ∀ n n' t t' name depth v (x x' : Machine), n ≠ n' → m.Owns n t → m.Owns n' t' →
    (x.heap.chain x.active)[depth]? = some t → Run.assign name (some depth) v x = .ok () x' →
    ∀ s (d : Nat) y, (x.heap.chain s)[d]? = some t' → x'.heap.getAt s d y = x.heap.getAt s d y
  blocks : ∀ n n' r r' σ c c', n ≠ n' → m.register.regions[n]? = some r →
    m.register.regions[n']? = some r' → r.execution = .block σ → r'.execution = .block σ →
    m.MadeDirectlyIn n c → m.MadeDirectlyIn n' c' → Session.Holds inputs σ ∧
      ∀ u, (u ∈ m.machine.heap.chain c.scope ∧ u ∈ m.machine.heap.chain c'.scope) ↔
        (u ∈ m.machine.heap.chain r.around ∧ u ∈ m.machine.heap.chain r'.around)

end Moment

/-- An assignment at a distance changes one binding. -/
theorem Run.assign_local {name : Name} {depth : Nat} {v : Value} {x x' : Machine} {t : ScopeId}
    (reached : (x.heap.chain x.active)[depth]? = some t)
    (assigned : Run.assign name (some depth) v x = .ok () x') :
    x'.heap = x.heap.define t name.text (some v) := by
  cases bound : x.heap.binding? t name.text with
  | none =>
      have missing := Heap.binderAt_of_missing reached bound
      simp only [assign, assignAt, Bind.bind, EStateM.bind, active, heap, missing] at assigned
      cases assigned
  | some b =>
      have here := Heap.binderAt_of_bound reached (x := name.text) (by rw [bound]; rfl)
      simp only [assign, assignAt, Bind.bind, EStateM.bind, active, heap, here] at assigned
      cases assigned
      rfl

theorem Heap.getAt_define_other (h : Heap) {s t t' : ScopeId} {d : Nat} (x y : String)
    (v : Option Value) (reached : (h.chain s)[d]? = some t') (other : t' ≠ t) :
    (h.define t x v).getAt s d y = h.getAt s d y := by
  have same : (h.define t x v).binding? t' y = h.binding? t' y := by
    rw [binding?_define, if_neg fun both => other both.1]
  simp only [getAt, ancestor, chain_define, Int.toNat_natCast, reached, same]

namespace Register.Sound
variable {R : Regime} {m : Moment}

/-- A closure stands where it was declared. -/
theorem declared (sound : m.register.Sound R m.machine.heap) {st : Setting} {k : Closure}
    (declared : m.Declared st k) : ∃ Γ, st.Around m.register m.machine.heap Γ k.scope := by
  cases declared with
  | function found entered =>
      exact ⟨_, (sound.functions _ _ _ found entered).birth.2⟩
  | method found entered same named =>
      obtain ⟨s, table, around⟩ := (sound.classes _ _ _ found entered).methods
      obtain ⟨rfl, -⟩ := methodTable_find (table ▸ named)
      exact ⟨_, same ▸ around⟩

/-- What is made in a region stands behind the scope of that region. -/
theorem behind (sound : m.register.Sound R m.machine.heap) {st : Setting} {k : Closure}
    (declared : m.Declared st k) {n : Nat} {r : Region} (found : m.register.regions[n]? = some r)
    (within : st.activation = some n ∨ st.region = some n) :
    m.machine.heap.Alive k.scope ∧ r.scope ∈ m.machine.heap.chain k.scope := by
  obtain ⟨Γ, around⟩ := sound.declared declared
  obtain ⟨r', found', member⟩ := around.inside n within
  cases found.symm.trans found'
  exact ⟨around.alive, member⟩

/-- Different regions have different scopes; of the same depth, they have in common what is around
both. -/
theorem regions_fork (sound : m.register.Sound R m.machine.heap) {n n' : Nat} {r r' : Region}
    {st st' : Setting} {k k' : Closure} (found : m.register.regions[n]? = some r)
    (found' : m.register.regions[n']? = some r') (other : n ≠ n') (declared : m.Declared st k)
    (declared' : m.Declared st' k') (within : st.activation = some n ∨ st.region = some n)
    (within' : st'.activation = some n' ∨ st'.region = some n')
    (level : (m.machine.heap.chain r.around).length = (m.machine.heap.chain r'.around).length)
    (u : ScopeId) : (u ∈ m.machine.heap.chain k.scope ∧ u ∈ m.machine.heap.chain k'.scope) ↔
      (u ∈ m.machine.heap.chain r.around ∧ u ∈ m.machine.heap.chain r'.around) := by
  obtain ⟨alive, inside⟩ := sound.behind declared found within
  obtain ⟨alive', inside'⟩ := sound.behind declared' found' within'
  have chain := (sound.regions n r found).chain
  have chain' := (sound.regions n' r' found').chain
  have fork := sound.branching.fork alive alive' inside inside'
    (fun same => other (sound.apart n n' r r' found found' same))
    (by rw [chain, chain', List.length_cons, List.length_cons, level]) u
  rwa [chain, chain'] at fork

/-- The copy of a method that a region has run. -/
def copyOf (n : Nat) (callee : Option FunctionId) : FunctionId ⊕ Nat := callee.elim (.inr n) .inl

theorem copyOf_ne {n n' : Nat} {callee callee' : Option FunctionId} (other : n ≠ n')
    (differ : callee ≠ callee' ∨ callee = none) : copyOf n callee ≠ copyOf n' callee' := by
  intro same
  cases callee with
  | none =>
      cases callee' with
      | none => exact other (Sum.inr.inj same)
      | some f => cases same
  | some f =>
      cases callee' with
      | none => cases same
      | some f' =>
          rcases differ with differ | none
          · exact differ (congrArg some (Sum.inl.inj same))
          · cases none

section
variable {n : Nat} {callee : Option FunctionId} {k method : Closure} {d : ClassId} {i : InstanceId}
  {r : Region}

theorem copied (sound : m.register.Sound R m.machine.heap) (found : m.register.regions[n]? = some r)
    (body : r.execution = .body callee k (.bound method d i)) :
    m.register.Copied m.machine.heap (copyOf n callee) k.scope := by
  cases callee with
  | none => exact .initializer found body
  | some f =>
      have stands := (sound.regions n r found).execution
      rw [body] at stands
      obtain ⟨called, Γ, entered⟩ := stands.2.2.1 f rfl
      exact .value called entered

/-- The scope of a receiver is in front of those of its method, and around those of the region that
has run the copy. -/
theorem receiver_between (sound : m.register.Sound R m.machine.heap)
    (found : m.register.regions[n]? = some r)
    (body : r.execution = .body callee k (.bound method d i))
    {s : ScopeId} (alive : m.machine.heap.Alive s) (inside : r.scope ∈ m.machine.heap.chain s) :
    m.machine.heap.chain k.scope = k.scope :: m.machine.heap.chain method.scope ∧
      k.scope ∈ m.machine.heap.chain s := by
  have stands := sound.regions n r found
  have execution := stands.execution
  rw [body] at execution
  obtain ⟨-, around, -, Γ, made⟩ := execution
  refine ⟨made.2.1, ((sound.branching s alive r.scope inside).2).mem ?_⟩
  rw [stands.chain, around]
  exact List.mem_cons_of_mem _ (m.machine.heap.mem_chain_self _)

end

/-- Activations of one function value. -/
theorem activations_meet (sound : m.register.Sound R m.machine.heap) {f : FunctionId} {n n' : Nat}
    {k k' c c' : Closure} {b b' : Birth} (other : n ≠ n') (activated : m.Activates n (some f) k b)
    (activated' : m.Activates n' (some f) k' b') (made : m.MadeIn n c) (made' : m.MadeIn n' c') :
    m.machine.heap.function? f = some k ∧ m.machine.heap.Meet c.scope c'.scope k.scope := by
  obtain ⟨r, found, body⟩ := activated
  obtain ⟨r', found', body'⟩ := activated'
  obtain ⟨st, active, declared⟩ := made
  obtain ⟨st', active', declared'⟩ := made'
  have stands := (sound.regions n r found).execution
  have stands' := (sound.regions n' r' found').execution
  rw [body] at stands
  rw [body'] at stands'
  -- A function value has one closure for good, and both regions were opened in front of its scope.
  have called := (stands.2.2.1 f rfl).1
  cases called.symm.trans (stands'.2.2.1 f rfl).1
  refine ⟨called, fun u => ?_⟩
  have fork := sound.regions_fork found found' other declared declared' (.inl active)
    (.inl active') (by rw [stands.2.1, stands'.2.1]) u
  rwa [stands.2.1, stands'.2.1, and_self] at fork

/-- Activations of different copies of one method. -/
theorem copies_meet (sound : m.register.Sound R m.machine.heap) {n n' : Nat}
    {callee callee' : Option FunctionId} {k k' method c c' : Closure} {d d' : ClassId}
    {i i' : InstanceId} (other : n ≠ n') (differ : callee ≠ callee' ∨ callee = none)
    (activated : m.Activates n callee k (.bound method d i))
    (activated' : m.Activates n' callee' k' (.bound method d' i')) (made : m.MadeIn n c)
    (made' : m.MadeIn n' c') : m.machine.heap.Meet c.scope c'.scope method.scope := by
  obtain ⟨r, found, body⟩ := activated
  obtain ⟨r', found', body'⟩ := activated'
  obtain ⟨st, active, declared⟩ := made
  obtain ⟨st', active', declared'⟩ := made'
  intro u
  -- The chains part at the scopes of the two receivers, each right in front of that of the method.
  obtain ⟨alive, inside⟩ := sound.behind declared found (.inl active)
  obtain ⟨alive', inside'⟩ := sound.behind declared' found' (.inl active')
  obtain ⟨chain, around⟩ := sound.receiver_between found body alive inside
  obtain ⟨chain', around'⟩ := sound.receiver_between found' body' alive' inside'
  have apart : k.scope ≠ k'.scope := fun same => copyOf_ne other differ
    (sound.copies _ _ _ (sound.copied found body) (same ▸ sound.copied found' body'))
  have fork := sound.branching.fork alive alive' around around' apart
    (by rw [chain, chain', List.length_cons, List.length_cons]) u
  rwa [chain, chain', List.tail_cons, List.tail_cons, and_self] at fork

/-- Activations have no scope in common. -/
theorem owner_unique (sound : m.register.Sound R m.machine.heap) {n n' : Nat} {t : ScopeId}
    (owns : m.Owns n t) (owns' : m.Owns n' t) : n = n' := by
  obtain ⟨j, r, found, owner, rfl⟩ := owns
  obtain ⟨j', r', found', owner', same⟩ := owns'
  obtain rfl := sound.apart j j' r r' found found' same.symm
  cases found.symm.trans found'
  exact Option.some.inj (owner.symm.trans owner')

/-- Executions of one block. -/
theorem blocks_fork (sound : m.register.Sound R m.machine.heap) {n n' : Nat} {r r' : Region}
    {σ : Site} {c c' : Closure} (other : n ≠ n') (found : m.register.regions[n]? = some r)
    (found' : m.register.regions[n']? = some r') (block : r.execution = .block σ)
    (block' : r'.execution = .block σ) (made : m.MadeDirectlyIn n c)
    (made' : m.MadeDirectlyIn n' c') :
    R.sites σ ∧ ∀ u, (u ∈ m.machine.heap.chain c.scope ∧ u ∈ m.machine.heap.chain c'.scope) ↔
      (u ∈ m.machine.heap.chain r.around ∧ u ∈ m.machine.heap.chain r'.around) := by
  obtain ⟨st, region, declared⟩ := made
  obtain ⟨st', region', declared'⟩ := made'
  have stands := (sound.regions n r found).execution
  have stands' := (sound.regions n' r' found').execution
  rw [block] at stands
  rw [block'] at stands'
  exact ⟨stands.1, sound.regions_fork found found' other declared declared' (.inr region)
    (.inr region') (by rw [stands.2.1, stands'.2.1])⟩

theorem keptApart {inputs : List Session.Input} {m : Moment}
    (sound : m.register.Sound (Session.regime False inputs) m.machine.heap) :
    m.KeptApart inputs where
  activations _ _ _ _ _ _ _ _ _ := sound.activations_meet
  copies _ _ _ _ _ _ _ _ _ _ _ _ _ := sound.copies_meet
  assignments n n' t t' name depth v x x' other owns owns' reached assigned s d y reached' := by
    rw [Run.assign_local reached assigned]
    refine x.heap.getAt_define_other _ _ _ reached' ?_
    rintro rfl
    exact other (sound.owner_unique owns owns')
  blocks _ _ _ _ _ _ _ := sound.blocks_fork

end Register.Sound

namespace Session
variable (limits : Limits)

/-- Activations are independent of each other. -/
theorem activations_apart (now : Clock) (inputs : List Input) :
    let chronicle := (Chronicle.start now).feedAll limits inputs
    chronicle.session = feedAll limits (start now) inputs ∧
      ∀ m ∈ chronicle.states, m.KeptApart inputs := by
  intro chronicle
  have right : Scene.Sound (regime False inputs) _ := (Chronicle.sound limits now False.elim).noted
  exact ⟨Chronicle.feedAll_session limits _ inputs, fun m member =>
    (right.moments m member).1.keptApart⟩

/-- The two inner functions have the scope in common in which the outer one is declared. -/
example :
    let chronicle := (Chronicle.start 0).feedAll ⟨4, 4⟩
      [.source ⟨false, false⟩ "fun f() { fun g() {} } f(); f();"]
    chronicle.session.machine.heap.functions.map
      (fun k => chronicle.session.machine.heap.chain k.scope) =
      #[[⟨0⟩], [⟨1⟩, ⟨0⟩], [⟨2⟩, ⟨0⟩]] := by decide +kernel

end Session
end LoxLang
