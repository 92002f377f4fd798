import LoxLang.Proofs.Heap.Growth
/-! The scopes of a heap after any steps on them, failing ones among them, read off the steps
alone: a binding has what was written to it last. -/
namespace LoxLang

/-- A step on the scopes of a heap. -/
inductive ScopeStep where
  | new (enclosing : Option ScopeId)
  | define (s : ScopeId) (x : String) (v : Option Value)
  | assign (s : ScopeId) (x : String) (v : Value)
  | assignAt (s : ScopeId) (distance : Nat) (x : String) (v : Value)

namespace ScopeStep

def mentions : ScopeStep → List ScopeId
  | new enclosing => enclosing.toList
  | define s _ _ | assign s _ _ | assignAt s _ _ _ => [s]

/-- The scope around the new one. -/
def made? : ScopeStep → Option (Option ScopeId)
  | new enclosing => some enclosing
  | _ => none

end ScopeStep

/-- The heap after a step. One that fails leaves it as it is. -/
def Heap.perform (h : Heap) : ScopeStep → Heap
  | .new enclosing => (h.newScope enclosing).2
  | .define s x v => h.define s x v
  | .assign s x v => (h.assign s x v).toOption.getD h
  | .assignAt s distance x v => (h.assignAt s distance x v).toOption.getD h

/-- The heap after some steps from no scopes at all. -/
def Heap.traced (steps : List ScopeStep) : Heap := steps.foldl Heap.perform Heap.empty

/-! What the steps say, without a heap. -/

namespace ScopeStep

/-- The scopes around the scopes made, in the order in which they were made. -/
def enclosings (steps : List ScopeStep) : List (Option ScopeId) := steps.filterMap made?

def Created (steps : List ScopeStep) (s : ScopeId) : Prop := s.index < (enclosings steps).length

instance (steps : List ScopeStep) : DecidablePred (Created steps) := fun s =>
  inferInstanceAs (Decidable (s.index < (enclosings steps).length))

def enclosing (steps : List ScopeStep) (s : ScopeId) : Option ScopeId :=
  (enclosings steps)[s.index]?.join

/-- The scope so many scopes outward. -/
def outward (steps : List ScopeStep) (s : ScopeId) : Nat → Option ScopeId
  | 0 => some s
  | k + 1 => (enclosing steps s).bind fun e => outward steps e k

/-- The name was ever defined in the scope. -/
def Defined (steps : List ScopeStep) (s : ScopeId) (x : String) : Prop :=
  ∃ v, define s x v ∈ steps

/-- The nearest scope outward in which the name was ever defined. -/
def Innermost (steps : List ScopeStep) (s : ScopeId) (x : String) (t : ScopeId) : Prop :=
  ∃ k, outward steps s k = some t ∧ Defined steps t x ∧
    ∀ j < k, ∀ u, outward steps s j = some u → ¬Defined steps u x

/-- What a step after these ones writes, and to which binding. A step that fails writes nothing. -/
inductive Writes (steps : List ScopeStep) : ScopeStep → ScopeId → String → Option Value → Prop
  | define {s : ScopeId} {x : String} {v : Option Value} : Writes steps (define s x v) s x v
  | assign {s t : ScopeId} {x : String} {v : Value} : Innermost steps s x t →
    Writes steps (assign s x v) t x (some v)
  | assignAt {s t : ScopeId} {k : Nat} {x : String} {v : Value} : outward steps s k = some t →
    Defined steps t x → Writes steps (assignAt s k x v) t x (some v)

/-- The last write to a binding wrote this. -/
def LastWrite (steps : List ScopeStep) (t : ScopeId) (x : String) (b : Option Value) : Prop :=
  ∃ before step after, steps = before ++ step :: after ∧ Writes before step t x b ∧
    ∀ between later rest, after = between ++ later :: rest →
      ∀ b', ¬Writes (before ++ step :: between) later t x b'

/-- Each step is on scopes that are there. -/
inductive Sensible : List ScopeStep → Prop
  | nil : Sensible []
  | snoc {steps : List ScopeStep} {step : ScopeStep} : Sensible steps →
    (∀ s ∈ step.mentions, Created steps s) → Sensible (steps ++ [step])

variable {steps : List ScopeStep} {step : ScopeStep} {s t : ScopeId} {x : String} {b : Option Value}

/-! One more step. -/

theorem nearest_unique {u : ScopeId} (nearest : Innermost steps s x t) (again : Innermost steps s x u) :
    u = t := by
  obtain ⟨k, there, defined, none⟩ := nearest
  obtain ⟨k', there', defined', none'⟩ := again
  have same : k' = k := Nat.le_antisymm
    (Nat.le_of_not_lt fun less => none' k less t there defined)
    (Nat.le_of_not_lt fun less => none k' less u there' defined')
  subst same
  exact Option.some.inj (there'.symm.trans there)

theorem writes_unique {u : ScopeId} {y : String} {b' : Option Value}
    (writes : Writes steps step t x b) (again : Writes steps step u y b') :
    u = t ∧ y = x ∧ b' = b := by
  cases writes with
  | define =>
      cases again
      exact ⟨rfl, rfl, rfl⟩
  | assign nearest =>
      cases again with
      | assign nearest' => exact ⟨nearest_unique nearest nearest', rfl, rfl⟩
  | assignAt there =>
      cases again with
      | assignAt there' => exact ⟨Option.some.inj (there'.symm.trans there), rfl, rfl⟩

theorem lastWrite_snoc : LastWrite (steps ++ [step]) t x b ↔
    Writes steps step t x b ∨ (∀ b', ¬Writes steps step t x b') ∧ LastWrite steps t x b := by
  constructor
  · rintro ⟨before, first, after, whole, writes, last⟩
    rcases List.eq_nil_or_concat after with rfl | ⟨front, final, rfl⟩
    · obtain ⟨rfl, same⟩ := List.append_inj' whole rfl
      cases same
      exact .inl writes
    · rw [List.concat_eq_append] at whole last
      rw [← List.cons_append, ← List.append_assoc] at whole
      obtain ⟨rfl, same⟩ := List.append_inj' whole rfl
      cases same
      refine .inr ⟨last front step [] rfl, before, first, front, rfl, writes, ?_⟩
      rintro between later rest rfl
      exact last between later (rest ++ [step]) (by simp)
  · rintro (writes | ⟨idle, before, first, after, rfl, writes, last⟩)
    · exact ⟨steps, step, [], rfl, writes, by simp⟩
    · refine ⟨before, first, after ++ [step], by simp, writes, ?_⟩
      intro between later rest split
      rcases List.eq_nil_or_concat rest with rfl | ⟨front, final, rfl⟩
      · obtain ⟨rfl, same⟩ := List.append_inj' split rfl
        cases same
        exact idle
      · rw [List.concat_eq_append, ← List.cons_append, ← List.append_assoc] at split
        obtain ⟨rfl, -⟩ := List.append_inj' split rfl
        exact last between later front rfl

theorem defined_snoc : Defined (steps ++ [step]) s x ↔
    Defined steps s x ∨ ∃ v, step = define s x v := by
  simp only [Defined, List.mem_append, List.mem_singleton, exists_or, eq_comm (a := define _ _ _)]

theorem enclosings_snoc : enclosings (steps ++ [step]) = enclosings steps ++ step.made?.toList := by
  cases made : step.made? <;> simp [enclosings, List.filterMap_append, made]

theorem enclosing_snoc (created : Created steps s) :
    enclosing (steps ++ [step]) s = enclosing steps s := by
  rw [enclosing, enclosings_snoc, List.getElem?_append_left created, enclosing]

theorem created_of_enclosing {e : ScopeId} (around : enclosing steps s = some e) :
    Created steps s := by
  cases found : (enclosings steps)[s.index]? with
  | none => simp [enclosing, found] at around
  | some _ => exact (List.getElem?_eq_some_iff.mp found).1

/-- A step that makes no scope leaves the scopes as they are. -/
theorem enclosings_same (same : step.made? = none) :
    enclosings (steps ++ [step]) = enclosings steps := by
  rw [enclosings_snoc, same, Option.toList_none, List.append_nil]

theorem enclosing_same (same : step.made? = none) :
    enclosing (steps ++ [step]) s = enclosing steps s := by
  rw [enclosing, enclosings_same same, enclosing]

/-- The names defined are those to which there is a last write. -/
theorem defined_write {u : ScopeId} {y : String} (writes : Writes steps step t x b) :
    Defined (steps ++ [step]) u y ↔ (u = t ∧ y = x) ∨ Defined steps u y := by
  rw [defined_snoc]
  constructor
  · rintro (defined | ⟨v, rfl⟩)
    · exact .inr defined
    · cases writes
      exact .inl ⟨rfl, rfl⟩
  · rintro (⟨rfl, rfl⟩ | defined)
    · cases writes with
      | define => exact .inr ⟨_, rfl⟩
      | assign nearest => exact .inl nearest.choose_spec.2.1
      | assignAt _ defined => exact .inl defined
    · exact .inl defined

theorem defined_idle {u : ScopeId} {y : String} (idle : ∀ t x b, ¬Writes steps step t x b) :
    Defined (steps ++ [step]) u y ↔ Defined steps u y := by
  rw [defined_snoc, or_iff_left]
  rintro ⟨v, rfl⟩
  exact idle u y v .define

theorem lastWrite_idle (idle : ∀ t x b, ¬Writes steps step t x b) :
    LastWrite (steps ++ [step]) t x b ↔ LastWrite steps t x b := by
  rw [lastWrite_snoc, or_iff_right (idle t x b), and_iff_right (idle t x)]

theorem lastWrite_self {b' : Option Value} (writes : Writes steps step t x b) :
    LastWrite (steps ++ [step]) t x b' ↔ b' = b := by
  rw [lastWrite_snoc]
  constructor
  · rintro (again | ⟨none, -⟩)
    · exact (writes_unique writes again).2.2
    · exact absurd writes (none b)
  · rintro rfl
    exact .inl writes

theorem lastWrite_other {u : ScopeId} {y : String} {b' : Option Value}
    (writes : Writes steps step t x b) (other : ¬(u = t ∧ y = x)) :
    LastWrite (steps ++ [step]) u y b' ↔ LastWrite steps u y b' := by
  have none (b' : Option Value) : ¬Writes steps step u y b' := fun again =>
    other ⟨(writes_unique writes again).1, (writes_unique writes again).2.1⟩
  rw [lastWrite_snoc, or_iff_right (none b'), and_iff_right none]

end ScopeStep

open ScopeStep

/-- The heap has the scopes that the steps make, and their bindings what was written last. -/
structure Heap.Tracks (steps : List ScopeStep) (h : Heap) : Prop where
  size : h.scopes.size = (enclosings steps).length
  inner : ∀ s e, enclosing steps s = some e → e.index < s.index
  chain : ∀ s, Created steps s → h.chain s = s :: ((enclosing steps s).map h.chain).getD []
  bound : ∀ t x, (h.binding? t x).isSome = true ↔ Defined steps t x
  value : ∀ t x b, h.binding? t x = some b ↔ LastWrite steps t x b

namespace Heap.Tracks
variable {steps : List ScopeStep} {h : Heap} {step : ScopeStep} {s t : ScopeId} {x : String}

theorem created_iff (tracks : h.Tracks steps) : Created steps s ↔ h.Alive s := by
  rw [alive_iff, tracks.size, Created]

theorem created_enclosing (tracks : h.Tracks steps) {e : ScopeId} (created : Created steps s)
    (around : enclosing steps s = some e) : Created steps e :=
  Nat.lt_trans (tracks.inner s e around) created

/-- The scopes around a scope are those that the steps put around it. -/
theorem getElem?_chain (tracks : h.Tracks steps) (created : Created steps s) (k : Nat) :
    (h.chain s)[k]? = outward steps s k := by
  induction k generalizing s with
  | zero => rfl
  | succ k ih =>
      rw [tracks.chain s created, List.getElem?_cons_succ, outward]
      cases around : enclosing steps s with
      | none => rfl
      | some e => exact ih (tracks.created_enclosing created around)

theorem mem_chain_iff (tracks : h.Tracks steps) (created : Created steps s) :
    t ∈ h.chain s ↔ ∃ k, outward steps s k = some t := by
  simp only [List.mem_iff_getElem?, tracks.getElem?_chain created]

theorem not_bound_iff (tracks : h.Tracks steps) :
    h.binding? t x = none ↔ ¬Defined steps t x := by
  rw [← tracks.bound t x]
  cases h.binding? t x <;> simp

theorem binder?_iff (tracks : h.Tracks steps) (created : Created steps s) :
    h.binder? s x = some t ↔ Innermost steps s x t := by
  rw [binder?, List.find?_eq_some_iff_getElem]
  constructor
  · rintro ⟨bound, k, short, here, nearer⟩
    refine ⟨k, ?_, (tracks.bound t x).mp bound, fun j less u there defined => ?_⟩
    · rw [← tracks.getElem?_chain created, List.getElem?_eq_getElem short, here]
    · rw [← tracks.getElem?_chain created, List.getElem?_eq_getElem (Nat.lt_trans less short)] at there
      have unbound := nearer j less
      rw [Option.some.inj there, (tracks.bound u x).mpr defined] at unbound
      cases unbound
  · rintro ⟨k, there, defined, nearer⟩
    rw [← tracks.getElem?_chain created] at there
    obtain ⟨short, here⟩ := List.getElem?_eq_some_iff.mp there
    refine ⟨(tracks.bound t x).mpr defined, k, short, here, fun j less => ?_⟩
    have apart := nearer j less (h.chain s)[j] (by
      rw [← tracks.getElem?_chain created, List.getElem?_eq_getElem (Nat.lt_trans less short)])
    rw [← tracks.bound, Bool.not_eq_true] at apart
    rw [apart]
    rfl

theorem binder?_none (tracks : h.Tracks steps) (created : Created steps s) :
    h.binder? s x = none ↔ ∀ k t, outward steps s k = some t → ¬Defined steps t x := by
  rw [binder?, List.find?_eq_none]
  constructor
  · intro none k t there defined
    exact none t ((tracks.mem_chain_iff created).mpr ⟨k, there⟩) ((tracks.bound t x).mpr defined)
  · intro none t member bound
    obtain ⟨k, there⟩ := (tracks.mem_chain_iff created).mp member
    exact none k t there ((tracks.bound t x).mp bound)

/-! Each step keeps the heap in line with the steps. -/

theorem start : Heap.empty.Tracks [] where
  size := rfl
  inner := by
    intro s e around
    cases around
  chain := by
    intro s created
    cases created
  bound := by
    intro t x
    constructor
    · intro bound
      cases bound
    · rintro ⟨v, member⟩
      cases member
  value := by
    intro t x b
    constructor
    · intro bound
      cases bound
    · rintro ⟨before, step, after, whole, -⟩
      cases before <;> cases whole

/-- A new scope binds nothing, and nothing was bound where it is put. -/
theorem binding?_newScope (h : Heap) (e : Option ScopeId) (t : ScopeId) (x : String) :
    (h.newScope e).2.binding? t x = h.binding? t x := by
  rw [Heap.binding?_newScope]
  split
  · next same =>
      cases bound : h.binding? t x with
      | none => rfl
      | some b => exact absurd same (alive_of_binding bound).ne_new
  · rfl

theorem new (tracks : h.Tracks steps) {e : Option ScopeId}
    (known : ∀ s ∈ e.toList, Created steps s) : (h.newScope e).2.Tracks (steps ++ [.new e]) := by
  have idle (t : ScopeId) (x : String) (b : Option Value) : ¬Writes steps (.new e) t x b := by
    rintro ⟨⟩
  have more : enclosings (steps ++ [.new e]) = enclosings steps ++ [e] := enclosings_snoc
  have kept {s : ScopeId} (created : Created steps s) : (h.newScope e).2.chain s = h.chain s :=
    (h.extends_newScope e).chain (tracks.created_iff.mp created)
  -- The new scope is the only one that was not there.
  have cases_ {s : ScopeId} (created : Created (steps ++ [.new e]) s) :
      Created steps s ∨ s = ⟨h.scopes.size⟩ ∧ enclosing (steps ++ [.new e]) s = e := by
    rw [Created, more, List.length_append] at created
    rcases Nat.lt_or_eq_of_le (Nat.le_of_lt_succ created) with old | last
    · exact .inl old
    · refine .inr ⟨scopeId_eq_iff.mpr (last.trans tracks.size.symm), ?_⟩
      rw [enclosing, more, last]
      simp
  refine ⟨?_, ?_, ?_, ?_, ?_⟩
  · rw [more, List.length_append, ← tracks.size]
    exact Array.size_push _
  · intro s e' around
    rcases cases_ (created_of_enclosing around) with old | ⟨rfl, same⟩
    · rw [enclosing_snoc old] at around
      exact tracks.inner s e' around
    · rw [same] at around
      subst around
      exact tracks.size ▸ known e' (by simp)
  · intro s created
    rcases cases_ created with old | ⟨rfl, same⟩
    · rw [kept old, tracks.chain s old, enclosing_snoc old]
      cases around : enclosing steps s with
      | none => rfl
      | some e' => simp [kept (tracks.created_enclosing old around)]
    · rw [same]
      cases e with
      | none => simp [Heap.chain, scope?_newScope]
      | some e' => simp [chain_newScope_self, kept (known e' (by simp))]
  · intro t x
    rw [binding?_newScope, tracks.bound, defined_idle idle]
  · intro t x b
    rw [binding?_newScope, tracks.value, lastWrite_idle idle]

/-- A step that fails. -/
theorem idle (tracks : h.Tracks steps) (made : step.made? = none)
    (none : ∀ t x b, ¬Writes steps step t x b) : h.Tracks (steps ++ [step]) where
  size := by rw [enclosings_same made, tracks.size]
  inner s e around := tracks.inner s e (enclosing_same made ▸ around)
  chain s created := by
    rw [Created, enclosings_same made] at created
    rw [enclosing_same made, tracks.chain s created]
  bound t x := by rw [defined_idle none, tracks.bound]
  value t x b := by rw [lastWrite_idle none, tracks.value]

/-- A step that writes one binding. -/
theorem write (tracks : h.Tracks steps) {b : Option Value} (made : step.made? = none)
    (created : Created steps t) (writes : Writes steps step t x b) :
    (h.define t x b).Tracks (steps ++ [step]) where
  size := by
    rw [enclosings_same made, ← tracks.size]
    exact Array.size_modify
  inner s e around := tracks.inner s e (enclosing_same made ▸ around)
  chain s created := by
    rw [Created, enclosings_same made] at created
    simp only [enclosing_same made, chain_define, funext (chain_define h t · x b)]
    exact tracks.chain s created
  bound u y := by
    have living := tracks.created_iff.mp created
    rw [defined_write writes, binding?_define]
    split
    · next same =>
        obtain ⟨rfl, rfl⟩ := same
        obtain ⟨scope, found⟩ := Option.isSome_iff_exists.mp living
        simp [found]
    · next other => rw [or_iff_right other, tracks.bound]
  value u y b' := by
    by_cases same : u = t ∧ y = x
    · obtain ⟨rfl, rfl⟩ := same
      rw [binding?_define_self y b (tracks.created_iff.mp created), lastWrite_self writes,
        Option.some.injEq, eq_comm]
    · rw [binding?_define, if_neg same, tracks.value, lastWrite_other writes same]

theorem lookup_eq (h : Heap) (s : ScopeId) (x : String) :
    h.lookup s x = (h.binder? s x).bind fun t => h.binding? t x := by
  rw [lookup, binder?]
  induction h.chain s with
  | nil => rfl
  | cons t ts ih =>
      rw [List.findSome?_cons, List.find?_cons]
      cases bound : h.binding? t x with
      | none => exact ih
      | some b => exact bound.symm

end Heap.Tracks

/-- What is read from a scope after some steps. -/
inductive Got (steps : List ScopeStep) (s : ScopeId) (x : String) :
    Except Fault.Cause Value → Prop
  | value {t : ScopeId} {v : Value} : Innermost steps s x t → LastWrite steps t x (some v) →
    Got steps s x (.ok v)
  | uninitialized {t : ScopeId} : Innermost steps s x t → LastWrite steps t x none →
    Got steps s x (.error (.uninitializedVariable x))
  | undefined : (∀ k t, outward steps s k = some t → ¬Defined steps t x) →
    Got steps s x (.error (.undefinedVariable x))

/-- What is read at a distance from a scope. -/
inductive GotAt (steps : List ScopeStep) (s : ScopeId) (k : Nat) (x : String) :
    Except AccessError Value → Prop
  | value {t : ScopeId} {v : Value} : outward steps s k = some t → LastWrite steps t x (some v) →
    GotAt steps s k x (.ok v)
  | uninitialized {t : ScopeId} : outward steps s k = some t → LastWrite steps t x none →
    GotAt steps s k x (.error (.fault (.uninitializedVariable x)))
  | noScope : outward steps s k = none → GotAt steps s k x (.error (.unbound (.noScope k)))
  | notBound {t : ScopeId} : outward steps s k = some t → ¬Defined steps t x →
    GotAt steps s k x (.error (.unbound (.notBound x k)))

/-- What an assignment yields. It changes a binding that is there. -/
inductive Assigned (steps : List ScopeStep) (h : Heap) (s : ScopeId) (x : String) (v : Value) :
    Except Fault.Cause Heap → Prop
  | nearest {t : ScopeId} : Innermost steps s x t → Assigned steps h s x v (.ok (h.define t x (some v)))
  | undefined : (∀ k t, outward steps s k = some t → ¬Defined steps t x) →
    Assigned steps h s x v (.error (.undefinedVariable x))

inductive AssignedAt (steps : List ScopeStep) (h : Heap) (s : ScopeId) (k : Nat) (x : String)
    (v : Value) : Except Unbound Heap → Prop
  | there {t : ScopeId} : outward steps s k = some t → Defined steps t x →
    AssignedAt steps h s k x v (.ok (h.define t x (some v)))
  | noScope : outward steps s k = none → AssignedAt steps h s k x v (.error (.noScope k))
  | notBound {t : ScopeId} : outward steps s k = some t → ¬Defined steps t x →
    AssignedAt steps h s k x v (.error (.notBound x k))

namespace Heap.Tracks
variable {steps : List ScopeStep} {h : Heap} {step : ScopeStep} {s t : ScopeId} {x : String}

theorem created_of_defined (tracks : h.Tracks steps) (defined : Defined steps t x) :
    Created steps t := by
  obtain ⟨b, bound⟩ := Option.isSome_iff_exists.mp ((tracks.bound t x).mpr defined)
  exact tracks.created_iff.mpr (alive_of_binding bound)

theorem got (tracks : h.Tracks steps) (created : Created steps s) : Got steps s x (h.get s x) := by
  rw [get, lookup_eq]
  cases found : h.binder? s x with
  | none => exact .undefined ((tracks.binder?_none created).mp found)
  | some t =>
      have nearest := (tracks.binder?_iff created).mp found
      have defined := nearest.choose_spec.2.1
      obtain ⟨b, bound⟩ := Option.isSome_iff_exists.mp ((tracks.bound t x).mpr defined)
      have last := (tracks.value t x b).mp bound
      rw [Option.bind_some, bound]
      cases b with
      | none => exact .uninitialized nearest last
      | some v => exact .value nearest last

theorem get_iff (tracks : h.Tracks steps) (created : Created steps s)
    {result : Except Fault.Cause Value} : h.get s x = result ↔ Got steps s x result := by
  constructor
  · rintro rfl
    exact tracks.got created
  · intro got
    cases got with
    | value nearest last | uninitialized nearest last =>
        rw [get, lookup_eq, (tracks.binder?_iff created).mpr nearest, Option.bind_some,
          (tracks.value _ x _).mpr last]
        rfl
    | undefined none =>
        rw [get, lookup_eq, (tracks.binder?_none created).mpr none]
        rfl

theorem ancestor_some (tracks : h.Tracks steps) (created : Created steps s) {k : Nat}
    (there : outward steps s k = some t) : h.ancestor s k = .ok t := by
  rw [ancestor, Int.toNat_natCast, tracks.getElem?_chain created, there]

theorem ancestor_none (tracks : h.Tracks steps) (created : Created steps s) {k : Nat}
    (none : outward steps s k = none) : h.ancestor s k = .error (.noScope k) := by
  rw [ancestor, Int.toNat_natCast, tracks.getElem?_chain created, none]

theorem gotAt (tracks : h.Tracks steps) (created : Created steps s) (k : Nat) :
    GotAt steps s k x (h.getAt s k x) := by
  cases there : outward steps s k with
  | none =>
      rw [getAt, tracks.ancestor_none created there]
      exact .noScope there
  | some t =>
      rw [getAt, tracks.ancestor_some created there]
      dsimp only
      cases bound : h.binding? t x with
      | none => exact .notBound there (tracks.not_bound_iff.mp bound)
      | some b =>
          have last := (tracks.value t x b).mp bound
          cases b with
          | none => exact .uninitialized there last
          | some v => exact .value there last

theorem getAt_iff (tracks : h.Tracks steps) (created : Created steps s) {k : Nat}
    {result : Except AccessError Value} : h.getAt s k x = result ↔ GotAt steps s k x result := by
  constructor
  · rintro rfl
    exact tracks.gotAt created k
  · intro got
    cases got with
    | value there last | uninitialized there last =>
        rw [getAt, tracks.ancestor_some created there]
        dsimp only
        rw [(tracks.value _ x _).mpr last]
        rfl
    | noScope none => rw [getAt, tracks.ancestor_none created none]
    | notBound there unbound =>
        rw [getAt, tracks.ancestor_some created there]
        dsimp only
        rw [tracks.not_bound_iff.mpr unbound]

theorem assigned (tracks : h.Tracks steps) (created : Created steps s) (v : Value) :
    Assigned steps h s x v (h.assign s x v) := by
  rw [assign]
  cases found : h.binder? s x with
  | none => exact .undefined ((tracks.binder?_none created).mp found)
  | some t => exact .nearest ((tracks.binder?_iff created).mp found)

theorem assign_iff (tracks : h.Tracks steps) (created : Created steps s) {v : Value}
    {result : Except Fault.Cause Heap} :
    h.assign s x v = result ↔ Assigned steps h s x v result := by
  constructor
  · rintro rfl
    exact tracks.assigned created v
  · intro assigned
    cases assigned with
    | nearest nearest => rw [assign, (tracks.binder?_iff created).mpr nearest]
    | undefined none => rw [assign, (tracks.binder?_none created).mpr none]

theorem assignedAt (tracks : h.Tracks steps) (created : Created steps s) (k : Nat) (v : Value) :
    AssignedAt steps h s k x v (h.assignAt s k x v) := by
  cases there : outward steps s k with
  | none =>
      rw [assignAt, binderAt, tracks.ancestor_none created there]
      exact .noScope there
  | some t =>
      rw [assignAt, binderAt, tracks.ancestor_some created there]
      dsimp only
      cases bound : h.binding? t x with
      | none => exact .notBound there (tracks.not_bound_iff.mp bound)
      | some b => exact .there there ((tracks.bound t x).mp (by rw [bound, Option.isSome_some]))

theorem assignAt_iff (tracks : h.Tracks steps) (created : Created steps s) {k : Nat} {v : Value}
    {result : Except Unbound Heap} :
    h.assignAt s k x v = result ↔ AssignedAt steps h s k x v result := by
  constructor
  · rintro rfl
    exact tracks.assignedAt created k v
  · intro assigned
    cases assigned with
    | there there defined =>
        rw [assignAt, binderAt, tracks.ancestor_some created there]
        dsimp only
        rw [if_pos ((tracks.bound _ x).mpr defined)]
    | noScope none => rw [assignAt, binderAt, tracks.ancestor_none created none]
    | notBound there unbound =>
        rw [assignAt, binderAt, tracks.ancestor_some created there]
        dsimp only
        rw [tracks.not_bound_iff.mpr unbound]
        rfl

/-- A step that makes no scope writes one binding, or nothing. -/
theorem effect (tracks : h.Tracks steps) (known : ∀ s ∈ step.mentions, Created steps s)
    (made : step.made? = none) :
    (∃ t x b, Writes steps step t x b ∧ Created steps t ∧ h.perform step = h.define t x b) ∨
      (∀ t x b, ¬Writes steps step t x b) ∧ h.perform step = h := by
  cases step with
  | new e => cases made
  | define s x v => exact .inl ⟨s, x, v, .define, known s (by simp [mentions]), rfl⟩
  | assign s x v =>
      have created := known s (by simp [mentions])
      have result := tracks.assigned (x := x) created v
      rw [Heap.perform]
      generalize h.assign s x v = r at result
      cases result with
      | nearest nearest =>
          have defined := nearest.choose_spec.2.1
          exact .inl ⟨_, x, some v, .assign nearest, tracks.created_of_defined defined, rfl⟩
      | undefined none =>
          refine .inr ⟨?_, rfl⟩
          intro t x b writes
          cases writes with
          | assign nearest =>
              obtain ⟨k, there, defined, -⟩ := nearest
              exact none k t there defined
  | assignAt s k x v =>
      have created := known s (by simp [mentions])
      have result := tracks.assignedAt (x := x) created k v
      rw [Heap.perform]
      generalize h.assignAt s k x v = r at result
      cases result with
      | there there defined =>
          exact .inl ⟨_, x, some v, .assignAt there defined, tracks.created_of_defined defined, rfl⟩
      | noScope none =>
          refine .inr ⟨?_, rfl⟩
          rintro t x b ⟨⟩
          simp_all
      | notBound there unbound =>
          refine .inr ⟨?_, rfl⟩
          rintro t x b ⟨⟩
          simp_all

/-- Each step that is on scopes that are there keeps the heap in line with the steps. -/
theorem perform (tracks : h.Tracks steps) (known : ∀ s ∈ step.mentions, Created steps s) :
    (h.perform step).Tracks (steps ++ [step]) := by
  cases made : step.made? with
  | some e =>
      cases step with
      | new e => exact tracks.new known
      | _ => cases made
  | none =>
      rcases tracks.effect known made with ⟨t, x, b, writes, created, same⟩ | ⟨idle, same⟩
      · rw [same]
        exact tracks.write made created writes
      · rw [same]
        exact tracks.idle made idle

end Heap.Tracks

/-- The heap answers as the steps say, and one more step does as the steps say. -/
structure Heap.Answers (steps : List ScopeStep) (h : Heap) : Prop where
  get : ∀ s x result, Created steps s → (h.get s x = result ↔ Got steps s x result)
  getAt : ∀ s (k : Nat) x result, Created steps s →
    (h.getAt s k x = result ↔ GotAt steps s k x result)
  assign : ∀ s x v result, Created steps s →
    (h.assign s x v = result ↔ Assigned steps h s x v result)
  assignAt : ∀ s (k : Nat) x v result, Created steps s →
    (h.assignAt s k x v = result ↔ AssignedAt steps h s k x v result)
  /-- A write changes the one binding that it is to. -/
  writes : ∀ step t x b, (∀ s ∈ step.mentions, Created steps s) → Writes steps step t x b →
    (h.perform step).binding? t x = some b ∧
      ∀ u y, ¬(u = t ∧ y = x) → (h.perform step).binding? u y = h.binding? u y
  makes : ∀ e u y, (h.perform (.new e)).binding? u y = h.binding? u y
  /-- A step that writes nothing and makes no scope changes nothing. -/
  fails : ∀ step, (∀ s ∈ step.mentions, Created steps s) → (∀ t x b, ¬Writes steps step t x b) →
    step.made? = none → h.perform step = h
  /-- Only definitions bind. -/
  binds : ∀ step t x, (∀ s ∈ step.mentions, Created steps s) → (∀ v, step ≠ .define t x v) →
    ((h.perform step).binding? t x).isSome = (h.binding? t x).isSome

namespace Heap.Tracks
variable {steps : List ScopeStep} {h : Heap}

/-- A write changes the one binding that it is to. -/
theorem perform_write (tracks : h.Tracks steps) {step : ScopeStep} {t : ScopeId} {x : String}
    {b : Option Value} (known : ∀ s ∈ step.mentions, Created steps s)
    (writes : Writes steps step t x b) : (h.perform step).binding? t x = some b ∧
      ∀ u y, ¬(u = t ∧ y = x) → (h.perform step).binding? u y = h.binding? u y := by
  have made : step.made? = none := by cases writes <;> rfl
  rcases tracks.effect known made with ⟨t', x', b', wrote, created, same⟩ | ⟨idle, -⟩
  · obtain ⟨rfl, rfl, rfl⟩ := writes_unique wrote writes
    rw [same]
    refine ⟨binding?_define_self x b (tracks.created_iff.mp created), fun u y other => ?_⟩
    rw [binding?_define, if_neg other]
  · exact absurd writes (idle t x b)

/-- What is bound stays so, and only definitions bind more. -/
theorem isSome_perform (tracks : h.Tracks steps) {step : ScopeStep} {t : ScopeId} {x : String}
    (known : ∀ s ∈ step.mentions, Created steps s) (other : ∀ v, step ≠ .define t x v) :
    ((h.perform step).binding? t x).isSome = (h.binding? t x).isSome := by
  cases made : step.made? with
  | some e =>
      cases step with
      | new e => exact congrArg Option.isSome (binding?_newScope h e t x)
      | _ => cases made
  | none =>
      rcases tracks.effect known made with ⟨u, y, b, writes, created, same⟩ | ⟨-, same⟩
      · have later := (tracks.write made created writes).bound t x
        rw [same, Bool.eq_iff_iff, later, tracks.bound, defined_snoc, or_iff_left]
        rintro ⟨v, rfl⟩
        exact other v rfl
      · rw [same]

theorem answers (tracks : h.Tracks steps) : h.Answers steps where
  get _ _ _ created := tracks.get_iff created
  getAt _ _ _ _ created := tracks.getAt_iff created
  assign _ _ _ _ created := tracks.assign_iff created
  assignAt _ _ _ _ _ created := tracks.assignAt_iff created
  writes _ _ _ _ known writes := tracks.perform_write known writes
  makes e u y := binding?_newScope h e u y
  fails step known idle made := by
    rcases tracks.effect known made with ⟨t, x, b, writes, -⟩ | ⟨-, same⟩
    · exact absurd writes (idle t x b)
    · exact same
  binds _ _ _ known other := tracks.isSome_perform known other

end Heap.Tracks

theorem Heap.tracks_traced {steps : List ScopeStep} (sensible : Sensible steps) :
    (Heap.traced steps).Tracks steps := by
  induction sensible with
  | nil => exact .start
  | snoc _ known ih =>
      rw [traced, List.foldl_append]
      exact ih.perform known

/-- After any steps on scopes that are there, in any tree of scopes, reading finds the last write
to the binding that the steps say, and writing changes that binding only. -/
theorem traced_answers (steps : List ScopeStep) (sensible : Sensible steps) :
    (Heap.traced steps).Answers steps :=
  (Heap.tracks_traced sensible).answers

/-- A variable that two scopes share, without a value until one of them assigns it, and a step
that fails. -/
def ScopeStep.shared : List ScopeStep :=
  [.new none, .define ⟨0⟩ "a" none, .new (some ⟨0⟩), .new (some ⟨0⟩), .assign ⟨1⟩ "a" .nil,
    .assignAt ⟨2⟩ 2 "a" (.bool true)]

theorem traced_answers_shared : Sensible shared ∧ (Heap.traced shared).Answers shared := by
  have sensible : Sensible shared :=
    .snoc (.snoc (.snoc (.snoc (.snoc (.snoc .nil (by decide)) (by decide)) (by decide)) (by decide))
      (by decide)) (by decide)
  exact ⟨sensible, traced_answers shared sensible⟩

example : (Heap.traced ScopeStep.shared).get ⟨2⟩ "a" = .ok .nil := rfl

end LoxLang
