import LoxLang.Proofs.Attribution.Standing
import LoxLang.Proofs.Running.Restoring
/-! Rules for attributed runs. From an account in which the ledger is right on, a computation comes
only to accounts in which it still is, whichever way the computation ends. -/
namespace LoxLang

namespace Run
variable {α β : Type}

/-- A computation that makes no functions and no classes, and leaves the reserved names alone. -/
def Steady (x : Run α) : Prop :=
  ∀ m : Machine, m.heap.Steady (x.leaves m).heap

theorem Still.steady {x : Run α} (still : Still x) : Steady x := fun m => by
  rw [still m]
  exact .refl m.heap

namespace Steady

theorem throw (e : Exit) : Steady (MonadExcept.throw e : Run α) := fun m => .refl m.heap

theorem bind {x : Run α} {f : α → Run β} (first : Steady x) (second : ∀ a, Steady (f a)) :
    Steady (x >>= f) :=
  leaves_bind (fun m m' => m.heap.Steady m'.heap) (fun one two => one.trans two) first second

theorem heap : Steady Run.heap := fun m => .refl m.heap

theorem active : Steady Run.active := fun m => .refl m.heap

theorem print (line : String) : Steady (Run.print line) := fun m => .refl m.heap

theorem time : Steady Run.time := fun m => .refl m.heap

theorem fault (cause : Fault.Cause) (token : Option Token) :
    Steady (Run.fault cause token : Run α) := fun m => .refl m.heap

theorem update {f : Heap → Heap} (steady : ∀ h : Heap, h.Steady (f h)) : Steady (Run.update f) :=
  fun m => steady m.heap

end Steady

theorem lift_steady (token : Token) (r : Except Fault.Cause Value) : Steady (lift token r) :=
  (lift_still token r).steady

theorem lookUp_steady (token : Token) (address : Address) : Steady (lookUp token address) :=
  (lookUp_still token address).steady

theorem updateDefine_steady (s : ScopeId) {name : Name} (v : Option Value)
    (ordinary : name.Ordinary) : Steady (update (·.define s name.text v)) :=
  .update fun h => h.steady_define s v (.inl ordinary.not_reserved)

theorem define_steady {name : Name} (v : Option Value) (ordinary : name.Ordinary) :
    Steady (define name.text v) :=
  Steady.active.bind fun s => updateDefine_steady s v ordinary

theorem assignFrom_steady (s : ScopeId) {name : Name} (v : Value) (ordinary : name.Ordinary) :
    Steady (assignFrom s name v) := fun m => by
  rcases assignFrom_cases s name v m with ⟨t, same⟩ | ⟨e, same, -⟩
  · have defined := updateDefine_steady t (some v) ordinary m
    rwa [leaves, ← same] at defined
  · rw [leaves, same]
    exact .refl m.heap

theorem assign_steady {name : Name} (address : Address) (v : Value) (ordinary : name.Ordinary) :
    Steady (assign name address v) := fun m => by
  rcases assign_cases name address v m with ⟨t, same⟩ | ⟨e, same, -⟩
  · have defined := updateDefine_steady t (some v) ordinary m
    rwa [leaves, ← same] at defined
  · rw [leaves, same]
    exact .refl m.heap

theorem superclass_steady (parent : Superclass Address) : Steady (superclass parent) :=
  (superclass_still parent).steady

theorem yielded_steady (k : Closure) (v : Value) : Steady (yielded k v) :=
  (yielded_still k v).steady

/-- What an inner scope shows is read at its distance. -/
theorem lookUp_shows {m : Machine} {token : Token} {d : Nat} {t : ScopeId} {v : Value}
    (reached : (m.heap.chain m.active)[d]? = some t) (shows : m.heap.Shows t token.lexeme v) :
    lookUp token (some d) m = .ok v m := by
  have got := Heap.getAt_of_bound (Int.toNat_natCast d) reached shows.2
  simp only [lookUp, Bind.bind, EStateM.bind, heap, active, got]
  rfl

/-- The method of a class above is searched from the class that is shown around the receiver. -/
theorem inheritedMethod_shows {m : Machine} {pos : Pos} {method : Name} {d : Nat} {t s : ScopeId}
    {p : ClassId} {i : InstanceId} (reached : (m.heap.chain m.active)[d]? = some t)
    (shows : m.heap.Shows t "this" (.object i))
    (reached' : (m.heap.chain m.active)[d + 1]? = some s)
    (shows' : m.heap.Shows s "super" (.callable (.ofClass p))) :
    inheritedMethod pos method (some (d + 1)) m = methodFrom m.heap p method i m := by
  have parent : lookUp (inheritedToken pos) (some (d + 1)) m = .ok (.callable (.ofClass p)) m :=
    lookUp_shows reached' shows'
  have receiver : m.heap.getAt m.active ((d + 1 : Nat) - 1) "this" = .ok (.object i) :=
    Heap.getAt_of_bound (by omega) reached shows.2
  simp only [inheritedMethod, Bind.bind, EStateM.bind, heap, active, follow, Pure.pure,
    EStateM.pure, parent, receiver]
  rfl

end Run

/-- The ledger is right about the machine. -/
def Account.Sound (a : Account) : Prop := a.ledger.Sound a.machine.heap

/-- The account with another heap. -/
def Account.on (a : Account) (h : Heap) : Account := ⟨{ a.machine with heap := h }, a.ledger⟩

/-- What holds between the accounts before and after a computation, whichever way that ends. -/
structure Account.Later (a b : Account) : Prop where
  active : b.machine.active = a.machine.active
  keeps : a.machine.heap.Keeps b.machine.heap
  prolongs : Prolongs a.ledger.above b.ledger.above
  sound : b.Sound

/-- An account at a place of accepted code, with the local scopes `Γ`, that runs for `who`. -/
structure Account.At (a : Account) (Γ : Scopes) (who : Option Standing) : Prop where
  sound : a.Sound
  means : Means a.machine.heap a.ledger.above (a.machine.heap.chain a.machine.active) Γ who

namespace Account
variable {a b c : Account} {Γ : Scopes} {who : Option Standing}

theorem Later.refl (sound : a.Sound) : a.Later a := ⟨rfl, .refl _, .refl _, sound⟩

theorem Later.trans (l : a.Later b) (l' : b.Later c) : a.Later c :=
  ⟨l'.active.trans l.active, l.keeps.trans l'.keeps, l.prolongs.trans l'.prolongs, l'.sound⟩

theorem Later.on {h : Heap} (sound : a.Sound) (steady : a.machine.heap.Steady h) :
    a.Later (a.on h) := ⟨rfl, steady.keeps, .refl _, Ledger.Sound.steady sound steady⟩

theorem At.later (here : a.At Γ who) (l : a.Later b) : b.At Γ who := by
  refine ⟨l.sound, ?_⟩
  rw [l.active]
  exact here.means.later l.keeps l.prolongs

end Account

namespace Attributed
variable {α β : Type} {a : Account} {x : Attributed α}

/-- The account that a computation leaves. -/
def leaves (x : Attributed α) (a : Account) : Account :=
  match x a with
  | .ok _ b | .error _ b => b

/-- The ledger is right also after the computation, whichever way that ends. -/
def Minds (x : Attributed α) (a : Account) : Prop := a.Later (x.leaves a)

namespace Minds

theorem pure (sound : a.Sound) (v : α) : Minds (Pure.pure v) a := .refl sound

theorem bind {f : α → Attributed β} (first : Minds x a)
    (second : ∀ v b, x a = .ok v b → a.Later b → Minds (f v) b) : Minds (x >>= f) a := by
  unfold Minds leaves at first ⊢
  simp only [Bind.bind, EStateM.bind]
  cases same : x a with
  | ok v b =>
      rw [same] at first
      exact first.trans (second v b same first)
  | error e b =>
      rw [same] at first
      exact first

theorem map {f : α → β} (minds : Minds x a) : Minds (f <$> x) a := by
  rw [map_eq_pure_bind]
  exact minds.bind fun v b _ later => pure later.sound (f v)

theorem ite {p : Prop} [Decidable p] {y : Attributed α} (whether : Minds x a)
    (otherwise : Minds y a) : Minds (if p then x else y) a := by
  split
  · exact whether
  · exact otherwise

theorem silent {y : Run α} (sound : a.Sound) (restores : y.Restores) (steady : y.Steady) :
    Minds (Attributed.silent y) a := by
  have left : (Attributed.silent y).leaves a = ⟨y.leaves a.machine, a.ledger⟩ := by
    simp only [leaves, Attributed.silent, Run.leaves]
    cases y a.machine <;> rfl
  rw [Minds, left]
  exact ⟨restores a.machine, (steady a.machine).keeps, .refl _,
    Ledger.Sound.steady sound (steady a.machine)⟩

theorem fault (sound : a.Sound) (cause : Fault.Cause) (token : Option Token) :
    Minds (Attributed.silent (Run.fault cause token) : Attributed α) a :=
  silent sound (.fault _ _) (.fault _ _)

theorem throw (sound : a.Sound) (e : Exit) :
    Minds (Attributed.silent (MonadExcept.throw e) : Attributed α) a :=
  silent sound (.throw _) (.throw _)

/-! What is known of a value goes on. -/

theorem heap {f : Heap → Attributed β} (rest : Minds (f a.machine.heap) a) :
    Minds (Attributed.silent Run.heap >>= f) a := rest

theorem active {f : ScopeId → Attributed β} (rest : Minds (f a.machine.active) a) :
    Minds (Attributed.silent Run.active >>= f) a := rest

theorem standing {g : FunctionId} {f : Option Standing → Attributed β}
    (rest : Minds (f a.ledger.functions[g.index]?.join) a) :
    Minds (Attributed.standing g >>= f) a := rest

theorem follow {o : Option β} {f : β → Attributed α} (sound : a.Sound)
    (rest : ∀ v, o = some v → Minds (f v) a) :
    Minds (Attributed.silent (Run.follow o) >>= f) a := by
  cases o with
  | none => exact .refl sound
  | some v => exact rest v rfl

theorem change {g : Heap → β × Heap} {f : β → Attributed α} (sound : a.Sound)
    (steady : a.machine.heap.Steady (g a.machine.heap).2)
    (rest : a.Later (a.on (g a.machine.heap).2) →
      Minds (f (g a.machine.heap).1) (a.on (g a.machine.heap).2)) :
    Minds (Attributed.silent (Run.change g) >>= f) a := by
  have later := Account.Later.on sound steady
  exact later.trans (rest later)

theorem within {s : ScopeId} (minds : Minds x ⟨{ a.machine with active := s }, a.ledger⟩) :
    Minds (Attributed.within s x) a := by
  have left : (Attributed.within s x).leaves a =
      ⟨{ (x.leaves ⟨{ a.machine with active := s }, a.ledger⟩).machine with
        active := a.machine.active }, (x.leaves ⟨{ a.machine with active := s }, a.ledger⟩).ledger⟩ := by
    simp only [leaves, Attributed.within]
    cases x ⟨{ a.machine with active := s }, a.ledger⟩ <;> rfl
  rw [Minds, left]
  exact ⟨rfl, minds.keeps, minds.prolongs, minds.sound⟩

theorem bodyValue {body : Attributed Unit} (minds : Minds body a) :
    Minds (Attributed.bodyValue body) a := by
  have left : (Attributed.bodyValue body).leaves a = body.leaves a := by
    simp only [leaves, Attributed.bodyValue]
    cases body a with
    | ok v b => rfl
    | error e b => cases e <;> rfl
  rw [Minds, left]
  exact minds

/-- A loop minds the ledger if each of its rounds does. -/
theorem repeatWhile {round : Attributed Bool} (step : ∀ b, a.Later b → Minds round b) (n : Nat)
    (sound : a.Sound) : Minds (Attributed.repeatWhile round n) a := by
  suffices run : ∀ b, a.Later b → Minds (Attributed.repeatWhile round n) b from run a (.refl sound)
  induction n with
  | zero => exact fun b later => throw later.sound _
  | succ n ih =>
      intro b later
      exact (step b later).bind fun again c _ later' =>
        .ite (ih c (later.trans later')) (pure later'.sound ())

end Minds

/-! The changes that the ledger notes. -/

variable {Γ : Scopes} {who : Option Standing}

theorem newFunction_minds (sound : a.Sound) {k : Closure}
    (runs : k.RunsFor a.machine.heap a.ledger.above who) : Minds (newFunction who k) a :=
  ⟨rfl, a.machine.heap.keeps_newFunction k, .refl _, Ledger.Sound.newFunction sound runs⟩

/-- A class whose methods are in a scope that is made for them. -/
theorem newClass_minds (sound : a.Sound) (name : String) {parent : Option ClassId} {s : ScopeId}
    {methods : List (Routine Address)}
    (known : ∀ r ∈ methods, r.Known lawfully (Walk.receiverScope :: Γ.above parent))
    (surrounds : Surrounds a.machine.heap a.ledger.above parent (a.machine.heap.chain s) Γ) :
    Minds (newClass name parent (Run.methodTable s methods)) a := by
  refine ⟨rfl, a.machine.heap.keeps_newClass _ _ _, prolongs_push _ _,
    Ledger.Sound.newClass sound name fun x m named => ?_⟩
  obtain ⟨rfl, member⟩ := methodTable_find named
  exact ⟨Γ, known m.declaration member, surrounds⟩

theorem bound_minds (sound : a.Sound) {method : Closure} {w : Standing}
    (declared : method.MethodOf a.machine.heap a.ledger.above w.declarer) :
    Minds (bound method w) a := by
  refine .change sound (Heap.steady_newScopeWith _ _ _ _) fun later => ?_
  exact (newFunction_minds later.sound (declared.bindReceiver sound.globals)).bind
    fun _ _ _ later' => .pure later'.sound _

/-- A method is bound as it was found, if that was some time ago. -/
theorem methodFrom_minds (sound : a.Sound) {b : Account} (later : a.Later b) (c : ClassId)
    (name : Name) (i : InstanceId) : Minds (methodFrom a.machine.heap c name i) b := by
  unfold methodFrom
  split
  · next d method found =>
      have declared := (sound.findDeclared found).later later.keeps later.prolongs
      exact bound_minds (w := ⟨i, d⟩) later.sound declared
  · exact .fault later.sound _ _

theorem property_minds (sound : a.Sound) (i : InstanceId) (name : Name) :
    Minds (property i name) a := by
  refine .heap (.follow sound fun o _ => ?_)
  split
  · exact .pure sound _
  · exact methodFrom_minds sound (.refl sound) _ _ _

theorem inheritedMethod_minds (sound : a.Sound) (pos : Pos) (method : Name) (address : Address) :
    Minds (inheritedMethod pos method address) a := by
  refine .heap (.follow sound fun depth _ => ?_)
  have parent := Minds.silent sound (Run.lookUp_restores (inheritedToken pos) address)
    (Run.lookUp_steady _ _)
  refine parent.bind fun v b same later => .active ?_
  split
  · exact methodFrom_minds sound later _ _ _
  · exact .throw later.sound _
  · exact .throw later.sound _

/-- A `this` or a `super` of accepted code is right. -/
theorem note_minds (here : a.At Γ who) {node : Expr Address} {f : Unit → Attributed α}
    (right : Sight.Right a.ledger.above ⟨who, node, a.machine⟩)
    (rest : ∀ b, b.At Γ who → Minds (f ()) b) : Minds (note who node >>= f) a := by
  let b : Account := ⟨a.machine, { a.ledger with sights := ⟨who, node, a.machine⟩ :: a.ledger.sights }⟩
  have sound : b.Sound := Ledger.Sound.note here.sound right
  have later : a.Later b := ⟨rfl, .refl _, .refl _, sound⟩
  exact later.trans (rest b (here.later later))

theorem receiver_right (here : a.At Γ who) {pos : Pos} {d : Nat} (found : Γ.locate "this" = some d) :
    Sight.Right a.ledger.above ⟨who, .receiver pos (some d), a.machine⟩ := by
  obtain ⟨w, t, for_w, reached, shows⟩ := here.means.this found
  exact ⟨w, for_w, fun _ => Run.lookUp_shows reached shows⟩

theorem inherited_right (here : a.At Γ who) {pos : Pos} {method : Name} {d : Nat}
    (found : Γ.locate "this" = some d) (around : Γ.locate "super" = some (d + 1)) :
    Sight.Right a.ledger.above ⟨who, .inherited pos method (some (d + 1)), a.machine⟩ := by
  obtain ⟨w, t, for_w, reached, shows⟩ := here.means.this found
  obtain ⟨w', p, s, for_w', below, reached', shows'⟩ := here.means.super found around
  cases for_w.symm.trans for_w'
  exact ⟨w, p, for_w, below, fun _ => Run.inheritedMethod_shows reached shows reached' shows'⟩

end Attributed
end LoxLang
