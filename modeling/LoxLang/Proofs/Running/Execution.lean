import LoxLang.Proofs.Running.Evaluation
/-! Statements and calls of known code are in order. -/
namespace LoxLang
variable {α β : Type} {R : Regime} {b : Bool} {m : Machine} {Γ : Scopes}

theorem Recorded.silent_bind (x : Run α) (f : α → Run β) :
    silent (x >>= f) = silent x >>= fun a => silent (f a) := by
  funext m
  simp only [silent, bind, EStateM.bind]
  cases x m <;> rfl

theorem known_nodes {inside : Bool} {i : Option Name} {e : Expr Address}
    (known : ∀ σ ∈ e.sites Γ inside i, R.sites σ) : ∀ n ∈ e.nodes, R.sites ⟨Γ, inside, i, n⟩ :=
  fun _ member => known _ (List.mem_map_of_mem member)

/-- What is known of a routine that is a method of a list of methods. -/
theorem Routine.Known.of_methods {methods : List (Routine Address)}
    (code : ∀ σ ∈ sitesOfMethods Γ methods, R.sites σ)
    (params : ∀ r ∈ methods, ∀ p ∈ r.params, p.Ordinary) : ∀ r ∈ methods, r.Known R Γ := by
  induction methods with
  | nil => exact fun r member => absurd member List.not_mem_nil
  | cons first rest ih =>
      obtain ⟨here, others⟩ := List.forall_mem_append.mp code
      obtain ⟨params', others'⟩ := List.forall_mem_cons.mp params
      exact List.forall_mem_cons.mpr ⟨⟨here, params'⟩, ih others others'⟩

/-- The table of a class has for each name the last of the methods of that name. -/
theorem methodTable_find? (s : ScopeId) (methods : List (Routine Address)) (x : String) :
    (Run.methodTable s methods).find? x = (methods.reverse.find? fun r => r.name.text = x).map
      fun r => ⟨r, s, r.name.text = "init"⟩ := by
  have each : ∀ (rest : List (Routine Address)) (t : Table Closure),
      (rest.foldl (fun t r => t.put r.name.text ⟨r, s, r.name.text = "init"⟩) t).find? x =
        ((rest.reverse.find? fun r => r.name.text = x).map
          fun r => ⟨r, s, r.name.text = "init"⟩).or (t.find? x) := by
    intro rest
    induction rest with
    | nil => exact fun t => rfl
    | cons r rest ih =>
        intro t
        rw [List.foldl_cons, ih, List.reverse_cons, List.find?_append, Table.find?_put]
        cases rest.reverse.find? fun r => r.name.text = x with
        | some found => rfl
        | none =>
            by_cases named : x = r.name.text
            · simp [named]
            · simp [named, Ne.symm named]
  rw [Run.methodTable, each]
  simp

theorem methodTable_find {s : ScopeId} {methods : List (Routine Address)} {x : String} {k : Closure}
    (found : (Run.methodTable s methods).find? x = some k) :
    k.scope = s ∧ k.declaration ∈ methods := by
  rw [methodTable_find?, Option.map_eq_some_iff] at found
  obtain ⟨r, last, rfl⟩ := found
  exact ⟨rfl, List.mem_reverse.mp (List.mem_of_find?_eq_some last)⟩

namespace Meets

/-- A run leaves the scopes around any place as they are. -/
theorem keeps {s : ScopeId} {x : Recorded α} (mirrors : Mirrors m.heap (m.heap.chain s) Γ)
    (meets : Meets R b x m fun _ _ => True) :
    Meets R b x m fun _ h => Mirrors h (h.chain s) Γ :=
  ⟨meets.seen, fun a m' same => ⟨(meets.ok a m' same).1,
    mirrors.later (meets.ok a m' same).1.grown⟩, meets.error⟩

/-- A statement that declares nothing leaves the scopes as they are. -/
theorem quiet {s : Stmt Address} {x : Recorded Unit} (begins : Begins R Γ m)
    (binds : s.binds = none) (meets : Meets R b x m fun _ _ => True) :
    Meets R b x m fun _ h => Mirrors h (h.chain m.active) (Γ.extend s) :=
  (meets.keeps begins.mirrors).weaken fun _ _ mirrors => mirrors.extend binds

theorem define {name : Name} {v : Option Value} (begins : Begins R Γ m) (ordinary : name.Ordinary)
    (valid : R.typed → ∀ w, v = some w → m.heap.Valid w) :
    Meets R b (Recorded.silent (Run.define name.text v)) m fun _ h =>
      Mirrors h (h.chain m.active) (Γ.declare name.text) := by
  refine silent_congr (y := Run.update (·.define m.active name.text v)) rfl
    ((update (m.heap.extends_define _ _ _)
      (begins.sound.define (fun _ => ordinary.fits _) valid)).weaken ?_)
  rintro _ h rfl
  rw [Heap.chain_define]
  exact begins.mirrors.declare name.text v

theorem print {f : Heap → String} (sound : Sound R m.heap) :
    Meets R b (Recorded.silent (do Run.print (f (← Run.heap)))) m fun _ _ => True :=
  silent_ok (n := ⟨m.heap, m.active, m.world.print (f m.heap)⟩) rfl
    ⟨.refl m.heap, rfl, sound⟩ trivial

theorem declareFunction {r : Routine Address} (begins : Begins R Γ m) (ordinary : r.name.Ordinary)
    (known : r.Known R (Γ.declare r.name.text)) :
    Meets R b (Recorded.silent (do
      let f ← Run.change (·.newFunction ⟨r, (← Run.active), false⟩)
      Run.define r.name.text (some (.callable (.function f))))) m fun _ h =>
        Mirrors h (h.chain m.active) (Γ.declare r.name.text) := by
  let made := m.heap.newFunction ⟨r, m.active, false⟩
  let v : Value := .callable (.function made.1)
  have grown := (m.heap.extends_newFunction ⟨r, m.active, false⟩).trans
    (made.2.extends_define m.active r.name.text (some v))
  refine silent_ok (a := ()) (n := ⟨made.2.define m.active r.name.text (some v), m.active,
    m.world⟩) rfl ⟨grown, rfl, begins.sound.declareFunction begins.mirrors ordinary known⟩ ?_
  have kept := begins.mirrors.later (m.heap.extends_newFunction ⟨r, m.active, false⟩)
  rw [Heap.chain_define]
  exact kept.declare r.name.text (some v)

/-- The class above is found where its name is bound, and leads somewhere. -/
theorem superclass {parent : Superclass Address} (sound : Sound R m.heap)
    (reaches : Reaches m parent.address parent.name.text) :
    Meets R b (Recorded.silent (Run.superclass parent)) m fun c h =>
      R.typed → h.Leads (.ofClass c) := by
  rw [Run.superclass, Recorded.silent_bind]
  refine (lookUp sound reaches).bind fun v m' after valid => ?_
  cases v with
  | callable c =>
      cases c with
      | ofClass c => exact pure after.sound valid
      | _ => exact fail after.sound _ _
  | _ => exact fail after.sound _ _

end Meets

/-- The scopes around the methods of a class, but for that of the receiver. -/
def Scopes.above (Γ : Scopes) (parent : Option ClassId) : Scopes :=
  match parent with
  | none => Γ
  | some _ => Walk.inheritedScope :: Γ

namespace Meets

/-- A class is made from methods whose scope is at hand. -/
theorem makeClass {name : Name} {above : Option ClassId} {methods : List (Routine Address)}
    {Δ : Scopes} {s around : ScopeId} (sound : Sound R m.heap) (ordinary : name.Ordinary)
    (known : ∀ r ∈ methods, r.Known R (Walk.receiverScope :: Δ))
    (mirrors : Mirrors m.heap (m.heap.chain s) Δ)
    (valid : R.typed → ∀ c, above = some c → m.heap.Leads (.ofClass c)) :
    Meets R b (Recorded.silent (Recorded.makeClass name above methods around s)) m
      fun _ _ => True := by
  have table : ∀ x k, (Run.methodTable s methods).find? x = some k → k.KnownMethod R m.heap := by
    intro x k found
    obtain ⟨rfl, member⟩ := methodTable_find found
    exact ⟨Δ, known k.declaration member, mirrors⟩
  rw [Recorded.makeClass, Recorded.silent_bind]
  refine (change (m.heap.extends_newClass _ _ _) (sound.newClass table valid)).bind ?_
  intro k m' after made
  refine assignFrom after.sound ordinary fun _ => ?_
  have leads := leads_newClass m.heap name.text above (Run.methodTable s methods)
  rw [made] at leads
  exact leads

/-- The scope of the methods of a class, which holds `super` if there is a class above. -/
theorem methodScope {above : Option ClassId} (begins : Begins R Γ m)
    (valid : R.typed → ∀ c, above = some c → m.heap.Leads (.ofClass c)) :
    Meets R b (Recorded.silent (Recorded.methodScope m.active above)) m fun s h =>
      Mirrors h (h.chain s) (Γ.above above) := by
  cases above with
  | none => exact pure begins.sound begins.mirrors
  | some c =>
      let v : Value := .callable (.ofClass c)
      let made := m.heap.newScope (some m.active)
      have opened : Sound R made.2 := begins.sound.newScope (some m.active)
      have bound : Sound R (made.2.define made.1 "super" (some v)) := by
        refine opened.define (fun _ => ⟨fun same => absurd same (by decide), fun _ => ⟨c, rfl⟩⟩) ?_
        rintro t w ⟨⟩
        exact (valid t c rfl).grow (m.heap.extends_newScope (some m.active))
      exact silent_ok (n := ⟨made.2.define made.1 "super" (some v), m.active, m.world⟩) rfl
        ⟨(m.heap.extends_newScope _).trans (made.2.extends_define _ _ _), rfl, bound⟩
        (begins.mirrors.newScopeWith "super" (some v))

theorem bindClass {name : Name} {above : Option ClassId} {methods : List (Routine Address)}
    (begins : Begins R Γ m) (ordinary : name.Ordinary)
    (known : ∀ r ∈ methods,
      r.Known R (Walk.receiverScope :: (Γ.declare name.text).above above))
    (valid : R.typed → ∀ c, above = some c → m.heap.Leads (.ofClass c)) :
    Meets R b (Recorded.silent (Recorded.bindClass name above methods)) m fun _ h =>
      Mirrors h (h.chain m.active) (Γ.declare name.text) := by
  rw [Recorded.bindClass, Recorded.silent_bind]
  refine (define begins ordinary (by simp)).bind fun _ m' after mirrors => ?_
  have valid' : R.typed → ∀ c, above = some c → m'.heap.Leads (.ofClass c) := fun t c same =>
    (valid t c same).grow after.grown
  rw [← after.active] at mirrors ⊢
  refine silent_congr (y := Recorded.methodScope m'.active above >>=
    Recorded.makeClass name above methods m'.active) rfl ?_
  rw [Recorded.silent_bind]
  refine keeps mirrors ((methodScope ⟨after.sound, mirrors⟩ valid').bind ?_)
  intro s m'' after' scope
  exact makeClass after'.sound ordinary known scope fun t c same =>
    (valid' t c same).grow after'.grown

end Meets

section
variable {call : Recorded.Calls} {rounds : Nat}

mutual

/-- A statement of known code is in order, and leaves the scopes for what follows. -/
theorem execute_meets (serves : Serves R call) : ∀ (s : Stmt Address) (Γ : Scopes) (inside : Bool)
    (m : Machine), Begins R Γ m → (∀ σ ∈ s.sites Γ inside, R.sites σ) →
    Meets R inside (Recorded.execute rounds call s) m fun _ h =>
      Mirrors h (h.chain m.active) (Γ.extend s)
  | .expression value, Γ, inside, m, begins, known => by
      obtain ⟨here, inner⟩ := List.forall_mem_cons.mp known
      refine .quiet begins rfl (.visit (begins.inOrder here) ?_)
      refine (evaluate_meets serves value m begins (known_nodes inner)).bind ?_
      intro _ m' after _
      exact .pure after.sound trivial
  | .print line value, Γ, inside, m, begins, known => by
      obtain ⟨here, inner⟩ := List.forall_mem_cons.mp known
      refine .quiet begins rfl (.visit (begins.inOrder here) ?_)
      refine (evaluate_meets serves value m begins (known_nodes inner)).bind ?_
      intro v m' after _
      exact .print after.sound
  | .var name none, Γ, inside, m, begins, known => by
      have here := known _ List.mem_cons_self
      exact .visit (begins.inOrder here) (.define begins (R.lawful _ here) (by simp))
  | .var name (some value), Γ, inside, m, begins, known => by
      obtain ⟨here, inner⟩ := List.forall_mem_cons.mp known
      refine .visit (begins.inOrder here) ?_
      have begun : Begins R (Γ.enter name.text false) m :=
        ⟨begins.sound, begins.mirrors.enter name.text⟩
      refine (evaluate_meets serves value m begun (known_nodes inner)).bind ?_
      intro v m' after valid
      rw [← after.active]
      refine .define (begins.later after) (R.lawful _ here) ?_
      rintro t w ⟨⟩
      exact valid t
  | .block line body, Γ, inside, m, begins, known => by
      obtain ⟨here, inner⟩ := List.forall_mem_cons.mp known
      refine .quiet begins rfl (.visit (begins.inOrder here) ?_)
      have opened : Meets R inside
          (Recorded.silent (do Run.change (·.newScope (some (← Run.active))))) m
          fun s h => m.heap.newScope (some m.active) = (s, h) :=
        .silent_congr (y := Run.change (·.newScope (some m.active))) rfl
          (.change (m.heap.extends_newScope _) (begins.sound.newScope _))
      refine opened.bind fun s m' after made => .within ?_
      have mirrors := begins.mirrors.newScope
      simp only [made] at mirrors
      exact executeAll_meets serves body (Table.empty :: Γ) inside _ ⟨after.sound, mirrors⟩ inner
  | .ifThen line condition thenBranch, Γ, inside, m, begins, known => by
      obtain ⟨here, inner⟩ := List.forall_mem_cons.mp known
      obtain ⟨first, second⟩ := List.forall_mem_append.mp inner
      refine .quiet begins rfl (.visit (begins.inOrder here) ?_)
      refine (evaluate_meets serves condition m begins (known_nodes first)).bind ?_
      intro v m' after _
      refine .ite ?_ (.pure after.sound trivial)
      exact (execute_meets serves thenBranch Γ inside m' (begins.later after) second).weaken
        fun _ _ _ => trivial
  | .ifElse line condition thenBranch elseBranch, Γ, inside, m, begins, known => by
      obtain ⟨here, inner⟩ := List.forall_mem_cons.mp known
      obtain ⟨first, branches⟩ := List.forall_mem_append.mp inner
      obtain ⟨second, third⟩ := List.forall_mem_append.mp branches
      refine .quiet begins rfl (.visit (begins.inOrder here) ?_)
      refine (evaluate_meets serves condition m begins (known_nodes first)).bind ?_
      intro v m' after _
      have begins' := begins.later after
      refine .ite ?_ ?_
      · exact (execute_meets serves thenBranch Γ inside m' begins' second).weaken
          fun _ _ _ => trivial
      · exact (execute_meets serves elseBranch Γ inside m' begins' third).weaken
          fun _ _ _ => trivial
  | .loop line condition body, Γ, inside, m, begins, known => by
      obtain ⟨here, inner⟩ := List.forall_mem_cons.mp known
      obtain ⟨first, second⟩ := List.forall_mem_append.mp inner
      have binds : body.binds = none := R.lawful _ here
      refine .quiet begins rfl (.visit (begins.inOrder here) ?_)
      refine (Meets.repeatWhile (s := m.active)
        (I := fun h => Mirrors h (h.chain m.active) Γ) ?_ rounds m rfl begins.sound
        begins.mirrors).weaken fun _ _ _ => trivial
      intro m' active sound mirrors
      rw [← active] at mirrors ⊢
      have begun : Begins R Γ m' := ⟨sound, mirrors⟩
      refine (evaluate_meets serves condition m' begun (known_nodes first)).bind ?_
      intro v m'' after _
      rw [← after.active]
      have begun' := begun.later after
      refine .ite ?_ (.pure after.sound begun'.mirrors)
      refine (execute_meets serves body Γ inside m'' begun' second).bind ?_
      intro _ m₃ after' _
      exact .pure after'.sound (begun'.mirrors.later after'.grown)
  | .function declaration, Γ, inside, m, begins, known => by
      obtain ⟨here, inner⟩ := List.forall_mem_cons.mp known
      obtain ⟨ordinary, params⟩ := R.lawful _ here
      exact .visit (begins.inOrder here) (.declareFunction begins ordinary ⟨inner, params⟩)
  | .classDecl name none methods, Γ, inside, m, begins, known => by
      obtain ⟨here, inner⟩ := List.forall_mem_cons.mp known
      obtain ⟨ordinary, params⟩ := R.lawful _ here
      exact .visit (begins.inOrder here)
        (.bindClass begins ordinary (.of_methods inner params) (by simp))
  | .classDecl name (some parent) methods, Γ, inside, m, begins, known => by
      obtain ⟨here, others⟩ := List.forall_mem_cons.mp known
      obtain ⟨above, inner⟩ := List.forall_mem_cons.mp others
      obtain ⟨ordinary, params⟩ := R.lawful _ here
      obtain ⟨other, -, finished⟩ := R.lawful _ above
      have reaches : Reaches m parent.address parent.name.text := fun d hd =>
        begins.mirrors.holds ((finished d hd).of_declare fun both => other both.2)
      refine .visit (begins.inOrder here) (.visit
        ⟨begins.sound, _, above, rfl, begins.mirrors.around_superclass⟩ ?_)
      refine (Meets.superclass begins.sound reaches).bind fun c m' after leads => ?_
      rw [← after.active]
      refine .bindClass (begins.later after) ordinary (.of_methods inner params) ?_
      rintro t _ ⟨⟩
      exact leads t
  | .ret pos none, Γ, inside, m, begins, known => by
      have here := known _ List.mem_cons_self
      exact .visit (begins.inOrder here)
        (.silent_error rfl (.refl begins.sound) ⟨R.lawful _ here, fun _ => trivial⟩)
  | .ret pos (some value), Γ, inside, m, begins, known => by
      obtain ⟨here, inner⟩ := List.forall_mem_cons.mp known
      refine .visit (begins.inOrder here) ?_
      refine (evaluate_meets serves value m begins (known_nodes inner)).bind ?_
      intro v m' after valid
      exact .silent_error rfl (.refl after.sound) ⟨R.lawful _ here, valid⟩

theorem executeAll_meets (serves : Serves R call) : ∀ (ss : List (Stmt Address)) (Γ : Scopes)
    (inside : Bool) (m : Machine), Begins R Γ m → (∀ σ ∈ sitesOfAll Γ inside ss, R.sites σ) →
    Meets R inside (Recorded.executeAll rounds call ss) m fun _ _ => True
  | [], _, _, m, begins, _ => .pure begins.sound trivial
  | s :: rest, Γ, inside, m, begins, known => by
      obtain ⟨first, others⟩ := List.forall_mem_append.mp known
      refine (execute_meets serves s Γ inside m begins first).bind fun _ m' after mirrors => ?_
      rw [← after.active] at mirrors
      exact executeAll_meets serves rest (Γ.extend s) inside m' ⟨after.sound, mirrors⟩ others

end

end
end LoxLang
