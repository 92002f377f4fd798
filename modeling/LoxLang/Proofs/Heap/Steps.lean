import LoxLang.Proofs.Heap.Sound
/-! The changes that a run makes to a heap keep it sound. -/
namespace LoxLang
variable {R : Regime} {h : Heap} {Γ : Scopes}

theorem Name.Ordinary.fits {n : Name} (ordinary : n.Ordinary) (b : Option Value) : Fits n.text b :=
  ⟨fun same => absurd same ordinary.1, fun same => absurd same ordinary.2⟩

theorem Scoped.newScope (agreed : Scoped R h) (e : Option ScopeId) : Scoped R (h.newScope e).2 := by
  refine agreed.grow (h.extends_newScope e) ?_ (fun _ _ => .inl) (fun _ _ => .inl) (fun _ _ => .inl)
  intro s x b _ bound
  rw [Heap.binding?_newScope] at bound
  split at bound
  · cases bound
  · exact .inl bound

theorem Heap.Typed.newScope (typed : h.Typed) (e : Option ScopeId) : (h.newScope e).2.Typed := by
  refine typed.grow (h.extends_newScope e) ?_ (fun _ o _ _ found held => .inl ⟨o, found, held⟩)
    (fun i o found => .inl (typed.instances i o found)) (fun _ _ => .inl)
  intro s x v bound
  rw [Heap.binding?_newScope] at bound
  split at bound
  · cases bound
  · exact .inl bound

theorem Sound.newScope (sound : Sound R h) (e : Option ScopeId) : Sound R (h.newScope e).2 :=
  ⟨sound.inScope.newScope e, fun t => (sound.typed t).newScope e⟩

theorem Scoped.define (agreed : Scoped R h) {s : ScopeId} {x : String} {v : Option Value}
    (fits : (s = Machine.globals → R.tidy) → Fits x v) : Scoped R (h.define s x v) := by
  refine agreed.grow (h.extends_define s x v) ?_ (fun _ _ => .inl) (fun _ _ => .inl)
    (fun _ _ => .inl)
  intro t y b tidy bound
  rw [Heap.binding?_define] at bound
  split at bound
  · next here =>
      obtain ⟨rfl, rfl⟩ := here
      obtain ⟨_, -, rfl⟩ := Option.map_eq_some_iff.mp bound
      exact .inr (fits tidy)
  · exact .inl bound

theorem Heap.Typed.define (typed : h.Typed) {s : ScopeId} {x : String} {v : Option Value}
    (valid : ∀ w, v = some w → h.Valid w) : (h.define s x v).Typed := by
  refine typed.grow (h.extends_define s x v) ?_ (fun _ o _ _ found held => .inl ⟨o, found, held⟩)
    (fun i o found => .inl (typed.instances i o found)) (fun _ _ => .inl)
  intro t y w bound
  rw [Heap.binding?_define] at bound
  split at bound
  · obtain ⟨_, -, same⟩ := Option.map_eq_some_iff.mp bound
    exact .inr ((valid w same).grow (h.extends_define s x v))
  · exact .inl bound

theorem Sound.define (sound : Sound R h) {s : ScopeId} {x : String} {v : Option Value}
    (fits : (s = Machine.globals → R.tidy) → Fits x v)
    (valid : R.typed → ∀ w, v = some w → h.Valid w) :
    Sound R (h.define s x v) :=
  ⟨sound.inScope.define fits, fun t => (sound.typed t).define (valid t)⟩

theorem Scoped.bindParameters {s : ScopeId} {ps : List Name} {vs : List Value} (agreed : Scoped R h)
    (ordinary : ∀ p ∈ ps, p.Ordinary) : Scoped R (Run.bindParameters s ps vs h) := by
  induction ps generalizing h vs with
  | nil => exact agreed
  | cons p ps ih =>
      obtain ⟨first, others⟩ := List.forall_mem_cons.mp ordinary
      cases vs with
      | nil => exact agreed
      | cons v vs => exact ih (agreed.define fun _ => first.fits _) others

theorem Heap.Typed.bindParameters {s : ScopeId} {ps : List Name} {vs : List Value} (typed : h.Typed)
    (valid : ∀ v ∈ vs, h.Valid v) : (Run.bindParameters s ps vs h).Typed := by
  induction ps generalizing h vs with
  | nil => exact typed
  | cons p ps ih =>
      cases vs with
      | nil => exact typed
      | cons v vs =>
          obtain ⟨first, others⟩ := List.forall_mem_cons.mp valid
          refine ih (typed.define fun w same => ?_) fun w member =>
            (others w member).grow (h.extends_define s p.text (some v))
          cases same
          exact first

theorem Sound.bindParameters {s : ScopeId} {ps : List Name} {vs : List Value} (sound : Sound R h)
    (ordinary : ∀ p ∈ ps, p.Ordinary) (valid : R.typed → ∀ v ∈ vs, h.Valid v) :
    Sound R (Run.bindParameters s ps vs h) :=
  ⟨sound.inScope.bindParameters ordinary, fun t => (sound.typed t).bindParameters (valid t)⟩

/-! Functions. -/

theorem function?_newFunction (h : Heap) (k : Closure) (f : FunctionId) :
    (h.newFunction k).2.function? f =
      if f.index = h.functions.size then some k else h.function? f := by
  simp only [Heap.newFunction, Heap.function?, Array.getElem?_push]

theorem leads_newFunction (h : Heap) (k : Closure) :
    (h.newFunction k).2.Leads (.function (h.newFunction k).1) := by
  simp [Heap.Leads, Heap.newFunction, Heap.function?]

theorem Scoped.newFunction {k : Closure} (agreed : Scoped R h) (known : k.Known R h) :
    Scoped R (h.newFunction k).2 := by
  refine agreed.grow (h.extends_newFunction k) (fun _ _ _ _ => .inl) ?_ (fun _ _ => .inl)
    (fun _ _ => .inl)
  intro f k' found
  rw [function?_newFunction] at found
  split at found
  · cases found
    exact .inr (known.grow (h.extends_newFunction k))
  · exact .inl found

theorem Heap.Typed.newFunction (typed : h.Typed) (k : Closure) : (h.newFunction k).2.Typed :=
  typed.grow (h.extends_newFunction k) (fun _ _ _ => .inl)
    (fun _ o _ _ found held => .inl ⟨o, found, held⟩)
    (fun i o found => .inl (typed.instances i o found)) (fun _ _ => .inl)

theorem Sound.newFunction {k : Closure} (sound : Sound R h) (known : k.Known R h) :
    Sound R (h.newFunction k).2 :=
  ⟨sound.inScope.newFunction known, fun t => (sound.typed t).newFunction k⟩

/-- A function declaration. The closure is known only when its own name is bound, so binding it
and making it are looked at in the other order, which yields the same heap. -/
theorem Sound.declareFunction {s : ScopeId} {r : Routine Address} (sound : Sound R h)
    (mirrors : Mirrors h (h.chain s) Γ) (ordinary : r.name.Ordinary)
    (known : r.Known R (Γ.declare r.name.text)) :
    let made := h.newFunction ⟨r, s, false⟩
    Sound R (made.2.define s r.name.text (some (.callable (.function made.1)))) := by
  intro made
  let v : Value := .callable (.function made.1)
  have bound : Scoped R (h.define s r.name.text (some v)) :=
    sound.inScope.define fun _ => ordinary.fits _
  refine ⟨bound.newFunction ⟨Γ.declare r.name.text, known, ?_, by simp⟩, fun t => ?_⟩
  · rw [Heap.chain_define]
    exact mirrors.declare r.name.text (some v)
  · refine ((sound.typed t).newFunction _).define ?_
    rintro w ⟨⟩
    exact leads_newFunction h _

theorem Heap.Typed.bindReceiver (typed : h.Typed) (k : Closure) {i : InstanceId}
    (valid : h.Valid (.object i)) : (h.bindReceiver k i).2.Typed := by
  refine (typed.newScope (some k.scope)).define fun w same => ?_
  cases same
  exact valid.grow (h.extends_newScope _)

/-- A method with its receiver bound has code in the scopes of that method. -/
theorem Sound.bindReceiver {k : Closure} {i : InstanceId} (sound : Sound R h)
    (method : k.KnownMethod R h) (valid : R.typed → h.Valid (.object i)) :
    Sound R (h.bindReceiver k i).2 ∧ (h.bindReceiver k i).1.Known R (h.bindReceiver k i).2 := by
  obtain ⟨Γ, code, mirrors⟩ := method
  have inner := sound.newScope (some k.scope)
  constructor
  · refine inner.define (fun _ => ⟨fun _ => ⟨i, rfl⟩, fun same => ?_⟩) ?_
    · exact absurd same (by decide)
    · rintro t w ⟨⟩
      exact (valid t).grow (h.extends_newScope _)
  · exact ⟨Walk.receiverScope :: Γ, code, mirrors.newScopeWith "this" (some (.object i)),
      fun _ => ⟨Γ, rfl⟩⟩

/-! Classes and instances. -/

theorem class?_newClass (h : Heap) (name : String) (parent : Option ClassId)
    (methods : Table Closure) (c : ClassId) :
    (h.newClass name parent methods).2.class? c =
      if c.index = h.classes.size then some ⟨name, (parent.map h.lineage).getD [], methods⟩
      else h.class? c := by
  simp only [Heap.newClass, Heap.class?, Array.getElem?_push]

theorem leads_newClass (h : Heap) (name : String) (parent : Option ClassId)
    (methods : Table Closure) :
    (h.newClass name parent methods).2.Leads (.ofClass (h.newClass name parent methods).1) := by
  simp [Heap.Leads, Heap.newClass, Heap.class?]

theorem Heap.Typed.lineage (typed : h.Typed) {c : ClassId} (leads : h.Leads (.ofClass c)) :
    ∀ d ∈ h.lineage c, h.Leads (.ofClass d) := by
  obtain ⟨k, found⟩ := Option.isSome_iff_exists.mp leads
  intro d member
  rw [Heap.lineage, found] at member
  rcases List.mem_cons.mp member with rfl | above
  · exact leads
  · exact typed.ancestors c k found d above

theorem Heap.Typed.newClass (typed : h.Typed) (name : String) {parent : Option ClassId}
    (methods : Table Closure) (leads : ∀ c, parent = some c → h.Leads (.ofClass c)) :
    (h.newClass name parent methods).2.Typed := by
  have e := h.extends_newClass name parent methods
  refine typed.grow e (fun _ _ _ => .inl) (fun _ o _ _ found held => .inl ⟨o, found, held⟩)
    (fun i o found => .inl (typed.instances i o found)) ?_
  intro c k found
  rw [class?_newClass] at found
  split at found
  · cases found
    refine .inr fun d above => ?_
    cases parent with
    | none => cases above
    | some c => exact (typed.lineage (leads c rfl) d above).grow e
  · exact .inl found

theorem Sound.newClass {name : String} {parent : Option ClassId} {methods : Table Closure}
    (sound : Sound R h) (known : ∀ x m, methods.find? x = some m → m.KnownMethod R h)
    (valid : R.typed → ∀ c, parent = some c → h.Leads (.ofClass c)) :
    Sound R (h.newClass name parent methods).2 := by
  have e := h.extends_newClass name parent methods
  refine ⟨sound.inScope.grow e (fun _ _ _ _ => .inl) (fun _ _ => .inl) ?_ (fun _ _ => .inl),
    fun t => (sound.typed t).newClass name methods (valid t)⟩
  intro c k found
  rw [class?_newClass] at found
  split at found
  · cases found
    exact .inr fun x m named => (known x m named).grow e
  · exact .inl found

theorem instance?_newInstance (h : Heap) (c : ClassId) (i : InstanceId) :
    (h.newInstance c).2.instance? i =
      if i.index = h.instances.size then some ⟨c, Table.empty⟩ else h.instance? i := by
  simp only [Heap.newInstance, Heap.instance?, Array.getElem?_push]

theorem valid_newInstance (h : Heap) (c : ClassId) :
    (h.newInstance c).2.Valid (.object (h.newInstance c).1) := by
  simp [Heap.Valid, Heap.newInstance, Heap.instance?]

theorem Heap.Typed.newInstance (typed : h.Typed) {c : ClassId} (leads : h.Leads (.ofClass c)) :
    (h.newInstance c).2.Typed := by
  refine typed.grow (h.extends_newInstance c) (fun _ _ _ => .inl) ?_ ?_ (fun _ _ => .inl)
  · intro i o x v found held
    rw [instance?_newInstance] at found
    split at found
    · cases found
      cases held
    · exact .inl ⟨o, found, held⟩
  · intro i o found
    rw [instance?_newInstance] at found
    split at found
    · cases found
      exact .inl leads
    · exact .inl (typed.instances i o found)

theorem Sound.newInstance {c : ClassId} (sound : Sound R h)
    (valid : R.typed → h.Leads (.ofClass c)) : Sound R (h.newInstance c).2 :=
  ⟨sound.inScope.grow (h.extends_newInstance c) (fun _ _ _ _ => .inl) (fun _ _ => .inl)
    (fun _ _ => .inl) (fun _ _ => .inl), fun t => (sound.typed t).newInstance (valid t)⟩

theorem Heap.Typed.setField (typed : h.Typed) {i : InstanceId} {x : String} {v : Value}
    (valid : h.Valid v) : (h.setField i x v).Typed := by
  have e := h.extends_setField i x v
  refine typed.grow e (fun _ _ _ => .inl) ?_ ?_ (fun _ _ => .inl)
  · intro j o y w found held
    rw [Heap.instance?_setField] at found
    split at found
    · obtain ⟨o', found', rfl⟩ := Option.map_eq_some_iff.mp found
      rw [Table.find?_put] at held
      split at held
      · cases held
        exact .inr (valid.grow e)
      · exact .inl ⟨o', found', held⟩
    · exact .inl ⟨o, found, held⟩
  · intro j o found
    rw [Heap.instance?_setField] at found
    split at found
    · obtain ⟨o', found', rfl⟩ := Option.map_eq_some_iff.mp found
      exact .inl (typed.instances j o' found')
    · exact .inl (typed.instances j o found)

theorem Sound.setField {i : InstanceId} {x : String} {v : Value} (sound : Sound R h)
    (valid : R.typed → h.Valid v) : Sound R (h.setField i x v) :=
  ⟨sound.inScope.grow (h.extends_setField i x v) (fun _ _ _ _ => .inl) (fun _ _ => .inl)
    (fun _ _ => .inl) (fun _ _ => .inl), fun t => (sound.typed t).setField (valid t)⟩

/-! Routines of the host. -/

theorem native?_newNative (h : Heap) (r : Native) (n : NativeId) :
    (h.newNative r).2.native? n =
      if n.index = h.natives.size then some r else h.native? n := by
  simp only [Heap.newNative, Heap.native?, Array.getElem?_push]

theorem leads_newNative (h : Heap) (r : Native) :
    (h.newNative r).2.Leads (.native (h.newNative r).1) := by
  simp [Heap.Leads, Heap.newNative, Heap.native?]

theorem Heap.Typed.newNative (typed : h.Typed) (r : Native) : (h.newNative r).2.Typed :=
  typed.grow (h.extends_newNative r) (fun _ _ _ => .inl)
    (fun _ o _ _ found held => .inl ⟨o, found, held⟩)
    (fun i o found => .inl (typed.instances i o found)) (fun _ _ => .inl)

theorem Sound.newNative {r : Native} (sound : Sound R h) (proper : r.Proper R.typed) :
    Sound R (h.newNative r).2 := by
  refine ⟨sound.inScope.grow (h.extends_newNative r) (fun _ _ _ _ => .inl) (fun _ _ => .inl)
    (fun _ _ => .inl) ?_, fun t => (sound.typed t).newNative r⟩
  intro n r' found
  rw [native?_newNative] at found
  split at found
  · cases found
    exact .inr proper
  · exact .inl found

/-! What is read from a sound heap. -/

theorem Scoped.findMethod {c : ClassId} {x : String} {m : Closure} (agreed : Scoped R h)
    (found : h.findMethod c x = some m) : m.KnownMethod R h := by
  obtain ⟨d, -, named⟩ := List.exists_of_findSome?_eq_some found
  obtain ⟨k, here, held⟩ := Option.bind_eq_some_iff.mp named
  exact agreed.methods d k here x m held

end LoxLang
