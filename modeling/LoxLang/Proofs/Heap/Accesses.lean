import LoxLang.Proofs.Heap.Traces
/-! Two ways to a variable. One walks outward to the nearest scope that binds the name, the other
counts scopes. They come to the same binding where the count is that of the nearest scope, and
nothing is read or written where a count leads to no binding. -/
namespace LoxLang
namespace Heap
variable {h : Heap} {s t : ScopeId} {x : String} {d : Int}

/-- The nearest scope that binds the name is so many links outward. -/
structure Nearest (h : Heap) (s : ScopeId) (x : String) (d : Nat) (t : ScopeId) : Prop where
  reached : (h.chain s)[d]? = some t
  bound : (h.binding? t x).isSome = true
  nearest : ∀ d' < d, ∀ u, (h.chain s)[d']? = some u → h.binding? u x = none

/-- No scope outward binds the name. -/
def Lacks (h : Heap) (s : ScopeId) (x : String) : Prop := ∀ t ∈ h.chain s, h.binding? t x = none

/-- There is no scope at the distance, or the one there does not bind the name. -/
def Misses (h : Heap) (s : ScopeId) (x : String) (d : Int) : Prop :=
  ∀ t, (h.chain s)[d.toNat]? = some t → h.binding? t x = none

/-- What an access reports that misses. -/
def missed (h : Heap) (s : ScopeId) (x : String) (d : Int) : Unbound :=
  if (h.chain s).length ≤ d.toNat then .noScope d else .notBound x d

/-- An access at the distance fails, be it to read or to write, and yields no other heap. -/
structure Refuses (h : Heap) (s : ScopeId) (x : String) (d : Int) : Prop where
  read : h.getAt s d x = .error (.unbound (h.missed s x d))
  write : ∀ v, h.assignAt s d x v = .error (h.missed s x d)

/-! The walk outward. -/

theorem binder?_of_nearest {d : Nat} (nearest : h.Nearest s x d t) : h.binder? s x = some t := by
  obtain ⟨short, here⟩ := List.getElem?_eq_some_iff.mp nearest.reached
  rw [binder?, List.find?_eq_some_iff_getElem]
  refine ⟨nearest.bound, d, short, here, fun j nearer => ?_⟩
  rw [nearest.nearest j nearer _ (List.getElem?_eq_getElem (Nat.lt_trans nearer short))]
  rfl

theorem nearest_of_binder? (found : h.binder? s x = some t) : ∃ d, h.Nearest s x d t := by
  obtain ⟨bound, d, short, here, nearer⟩ := List.find?_eq_some_iff_getElem.mp found
  refine ⟨d, List.getElem?_eq_some_iff.mpr ⟨short, here⟩, bound, fun j less u there => ?_⟩
  obtain ⟨_, same⟩ := List.getElem?_eq_some_iff.mp there
  simpa only [same, Option.not_isSome, Bool.not_eq_true', Option.isSome_eq_false_iff,
    Option.isNone_iff_eq_none] using nearer j less

theorem binder?_eq_none_iff : h.binder? s x = none ↔ h.Lacks s x := by
  simp only [binder?, List.find?_eq_none, Lacks, Option.not_isSome_iff_eq_none]

/-- Either a scope outward binds the name, and one of these is the nearest, or none does. -/
theorem nearest_or_lacks (h : Heap) (s : ScopeId) (x : String) :
    (∃ d t, h.Nearest s x d t) ∨ h.Lacks s x := by
  cases found : h.binder? s x with
  | none => exact .inr (binder?_eq_none_iff.mp found)
  | some t =>
      obtain ⟨d, nearest⟩ := nearest_of_binder? found
      exact .inl ⟨d, t, nearest⟩

theorem Nearest.get {d : Nat} {b : Option Value} (nearest : h.Nearest s x d t)
    (bound : h.binding? t x = some b) : h.get s x = Heap.read x b := by
  rw [Heap.get, Tracks.lookup_eq, binder?_of_nearest nearest, Option.bind_some, bound]

theorem Nearest.assign {d : Nat} (nearest : h.Nearest s x d t) (v : Value) :
    h.assign s x v = .ok (h.define t x (some v)) := by
  rw [Heap.assign, binder?_of_nearest nearest]

theorem Lacks.get (lacks : h.Lacks s x) : h.get s x = .error (.undefinedVariable x) := by
  rw [Heap.get, Tracks.lookup_eq, binder?_eq_none_iff.mpr lacks, Option.bind_none]

theorem Lacks.assign (lacks : h.Lacks s x) (v : Value) :
    h.assign s x v = .error (.undefinedVariable x) := by
  rw [Heap.assign, binder?_eq_none_iff.mpr lacks]

/-! Counting scopes. -/

theorem Nearest.getAt {d : Nat} {b : Option Value} (nearest : h.Nearest s x d t)
    (bound : h.binding? t x = some b) : h.getAt s d x = (Heap.read x b).mapError .fault := by
  simp only [Heap.getAt, ancestor, Int.toNat_natCast, nearest.reached, bound]

theorem Nearest.assignAt {d : Nat} (nearest : h.Nearest s x d t) (v : Value) :
    h.assignAt s d x v = .ok (h.define t x (some v)) := by
  simp only [Heap.assignAt, binderAt, ancestor, Int.toNat_natCast, nearest.reached, nearest.bound,
    if_true]

theorem Misses.refuses (misses : h.Misses s x d) : h.Refuses s x d := by
  cases there : (h.chain s)[d.toNat]? with
  | none =>
      have short : (h.chain s).length ≤ d.toNat := List.getElem?_eq_none_iff.mp there
      constructor
      · simp only [Heap.getAt, ancestor, there, missed, if_pos short]
      · simp only [Heap.assignAt, binderAt, ancestor, there, missed, if_pos short, implies_true]
  | some t =>
      obtain ⟨long, -⟩ := List.getElem?_eq_some_iff.mp there
      have unbound := misses t there
      constructor
      · simp only [Heap.getAt, ancestor, there, unbound, missed, if_neg (Nat.not_le_of_lt long)]
      · simp [Heap.assignAt, binderAt, ancestor, there, unbound, missed,
          if_neg (Nat.not_le_of_lt long)]

theorem Nearest.refuses {d d' : Nat} (nearest : h.Nearest s x d t) (nearer : d' < d) :
    h.Refuses s x d' :=
  Misses.refuses fun u there => nearest.nearest d' nearer u there

theorem Lacks.refuses (lacks : h.Lacks s x) (d : Int) : h.Refuses s x d :=
  Misses.refuses fun u there => lacks u (List.mem_of_getElem? there)

/-- Both ways to a variable lead to one binding or to none. -/
structure AccessesAgree (h : Heap) (s : ScopeId) (x : String) : Prop where
  either : (∃ d t, h.Nearest s x d t) ∨ h.Lacks s x
  /-- At the distance of the nearest binding both read what it holds, and write it. -/
  nearest : ∀ (d : Nat) t, h.Nearest s x d t →
    (∃ b, h.binding? t x = some b ∧ h.get s x = Heap.read x b ∧
      h.getAt s d x = (Heap.read x b).mapError .fault) ∧
    ∀ v, h.assign s x v = .ok (h.define t x (some v)) ∧
      h.assignAt s d x v = .ok (h.define t x (some v))
  nearer : ∀ (d d' : Nat) t, h.Nearest s x d t → d' < d → h.Refuses s x d'
  misses : ∀ d, h.Misses s x d → h.Refuses s x d
  lacks : h.Lacks s x → h.get s x = .error (.undefinedVariable x) ∧
    (∀ v, h.assign s x v = .error (.undefinedVariable x)) ∧ ∀ d, h.Refuses s x d

theorem accessesAgree (h : Heap) (s : ScopeId) (x : String) : h.AccessesAgree s x where
  either := h.nearest_or_lacks s x
  nearest d t nearest := by
    obtain ⟨b, bound⟩ := Option.isSome_iff_exists.mp nearest.bound
    exact ⟨⟨b, bound, nearest.get bound, nearest.getAt bound⟩,
      fun v => ⟨nearest.assign v, nearest.assignAt v⟩⟩
  nearer d d' t nearest less := nearest.refuses less
  misses d := Misses.refuses
  lacks lacks := ⟨lacks.get, lacks.assign, lacks.refuses⟩

end Heap

namespace Run
variable {m : Machine} {name : Name} {s t : ScopeId} {d : Nat}

/-- A run that assigns a variable goes on with the heap that the assignment yields, or breaks off
with the heap it had. -/
theorem assignFrom_eq (s : ScopeId) (name : Name) (v : Value) (m : Machine) :
    assignFrom s name v m = match m.heap.assign s name.text v with
      | .ok h => .ok () { m with heap := h }
      | .error cause => .error (.fault ⟨cause, some name.token⟩) m := by
  simp only [assignFrom, Heap.assign, Bind.bind, EStateM.bind, heap]
  cases m.heap.binder? s name.text <;> rfl

theorem assign_local_eq (d : Nat) (name : Name) (v : Value) (m : Machine) :
    assign name (some d) v m = match m.heap.assignAt m.active d name.text v with
      | .ok h => .ok () { m with heap := h }
      | .error u => .error (.unbound u) m := by
  simp only [assign, assignAt, Heap.assignAt, Bind.bind, EStateM.bind, heap, active]
  cases m.heap.binderAt m.active d name.text <;> rfl

theorem lookUp_local_eq (d : Nat) (token : Token) (m : Machine) :
    lookUp token (some d) m = match m.heap.getAt m.active d token.lexeme with
      | .ok v => .ok v m
      | .error (.fault cause) => .error (.fault ⟨cause, some token⟩) m
      | .error (.unbound u) => .error (.unbound u) m := by
  simp only [lookUp, Bind.bind, EStateM.bind, heap, active]
  cases m.heap.getAt m.active d token.lexeme with
  | ok v => rfl
  | error e => cases e <;> rfl

end Run

/-- In a run the accesses to a variable leave the machine as the heap says: where they fail,
nothing has changed. -/
structure Machine.AccessesAgree (m : Machine) (name : Name) : Prop where
  read : ∀ (d : Nat) t, m.heap.Nearest m.active name.text d t →
    Run.lookUp name.token (some d) m =
      Run.lift name.token (m.heap.get m.active name.text) m
  written : ∀ (d : Nat) t v, m.heap.Nearest m.active name.text d t →
    Run.assign name (some d) v m = .ok () { m with heap := m.heap.define t name.text (some v) } ∧
      Run.assignFrom m.active name v m =
        .ok () { m with heap := m.heap.define t name.text (some v) }
  refused : ∀ d : Nat, m.heap.Refuses m.active name.text d →
    Run.lookUp name.token (some d) m =
        .error (.unbound (m.heap.missed m.active name.text d)) m ∧
      ∀ v, Run.assign name (some d) v m =
        .error (.unbound (m.heap.missed m.active name.text d)) m
  undefined : ∀ s v, m.heap.Lacks s name.text →
    Run.assignFrom s name v m =
      .error (.fault ⟨.undefinedVariable name.text, some name.token⟩) m

/-- Counting scopes agrees with walking outward, from every scope of every heap and for every name.
Where the nearest binding is so many links outward, both read its value, or report alike that it
has none, and both write it to the same effect. At a lesser distance, at one that is too long and
at one whose scope does not bind the name, counting fails, and at every distance if no scope binds
it; then walking fails as well. What fails changes nothing. -/
theorem accesses_agree :
    (∀ h s x, Heap.AccessesAgree h s x) ∧ ∀ m name, Machine.AccessesAgree m name := by
  refine ⟨Heap.accessesAgree, fun m name => ⟨fun d t nearest => ?_, fun d t v nearest => ?_,
    fun d refuses => ?_, fun s v lacks => ?_⟩⟩
  · obtain ⟨b, bound⟩ := Option.isSome_iff_exists.mp nearest.bound
    rw [Run.lookUp_local_eq, show name.token.lexeme = name.text from rfl, nearest.getAt bound,
      nearest.get bound]
    cases b <;> rfl
  · constructor
    · rw [Run.assign_local_eq, nearest.assignAt]
    · rw [Run.assignFrom_eq, nearest.assign]
  · refine ⟨?_, fun v => ?_⟩
    · rw [Run.lookUp_local_eq, show name.token.lexeme = name.text from rfl, refuses.read]
    · rw [Run.assign_local_eq, refuses.write]
  · rw [Run.assignFrom_eq, lacks.assign]

end LoxLang
