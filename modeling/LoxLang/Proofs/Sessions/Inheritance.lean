import LoxLang.Proofs.Sessions.Chronicles
/-! Inheritance throughout a session. At every state the links from class to class lead to ever
earlier classes, whatever the names of the classes are bound to since, and the search of a method
finds the last declaration of it in the first class of the chain that declares it. -/
namespace LoxLang

/-- The routine is the last of its name in the list. -/
def LastNamed (x : String) (r : Routine Address) (methods : List (Routine Address)) : Prop :=
  ∃ front back, methods = front ++ r :: back ∧ r.name.text = x ∧ ∀ q ∈ back, q.name.text ≠ x

namespace Moment

/-- The declaration that made a class. -/
def declaration? (m : Moment) (c : ClassId) : Option ClassOrigin := m.register.classes[c.index]?

/-- The declaration of the class has no method of the name. -/
def Lacks (m : Moment) (x : String) (c : ClassId) : Prop :=
  ∃ o, m.declaration? c = some o ∧ ∀ r ∈ o.methods, r.name.text ≠ x

/-- The routine is the last of the name in the declaration of the class. -/
def Declares (m : Moment) (x : String) (r : Routine Address) (c : ClassId) : Prop :=
  ∃ o, m.declaration? c = some o ∧ LastNamed x r o.methods

/-- What holds of a class on the heap. Numbers are given to classes as they are made, so a class
with a smaller number was made before. -/
structure Inherits (inputs : List Session.Input) (m : Moment) (c : ClassId) (k : Class) : Prop where
  declared : ∃ o, m.declaration? c = some o ∧ Session.Holds inputs o.site ∧ k.name = o.name.text ∧
    k.superclass? = o.above ∧ o.parent.isSome = o.above.isSome
  linked : m.machine.heap.lineage c =
    c :: (k.superclass?.map m.machine.heap.lineage).getD []
  present : ∀ d ∈ m.machine.heap.lineage c, m.machine.heap.Leads (.ofClass d)
  earlier : (m.machine.heap.lineage c).Pairwise fun lower upper => upper.index < lower.index
  ends : ∀ x r, m.machine.heap.Searches x (some c) r ↔ r = m.machine.heap.findMethod c x
  nearest : ∀ x method, m.machine.heap.findMethod c x = some method →
    ∃ before d after, m.machine.heap.lineage c = before ++ d :: after ∧
      (∀ e ∈ before, m.Lacks x e) ∧ m.Declares x method.declaration d
  missing : ∀ x, m.machine.heap.findMethod c x = none ↔
    ∀ d ∈ m.machine.heap.lineage c, m.Lacks x d

end Moment

variable {R : Regime} {l : Register} {h : Heap}

/-! The table of a class and its declaration. -/

namespace ClassOrigin.Made
variable {o : ClassOrigin} {k : Class}

theorem find?_eq_none (made : o.Made R l h k) (x : String) :
    k.methods.find? x = none ↔ ∀ r ∈ o.methods, r.name.text ≠ x := by
  obtain ⟨s, table, -⟩ := made.methods
  rw [table, methodTable_find?, Option.map_eq_none_iff, List.find?_eq_none]
  simp only [List.mem_reverse, decide_eq_true_eq]

theorem lastNamed (made : o.Made R l h k) {x : String} {method : Closure}
    (found : k.methods.find? x = some method) : LastNamed x method.declaration o.methods := by
  obtain ⟨s, table, -⟩ := made.methods
  rw [table, methodTable_find?, Option.map_eq_some_iff] at found
  obtain ⟨r, found, rfl⟩ := found
  obtain ⟨named, front, back, split, others⟩ := List.find?_eq_some_iff_append.mp found
  refine ⟨back.reverse, front.reverse, ?_, of_decide_eq_true named, fun q member => ?_⟩
  · have whole := congrArg List.reverse split
    simpa only [List.reverse_reverse, List.reverse_append, List.reverse_cons, List.append_assoc,
      List.singleton_append] using whole
  · have other := others q (List.mem_reverse.mp member)
    simpa only [Bool.not_eq_true', decide_eq_false_iff_not] using other

end ClassOrigin.Made

namespace Register.Sound
variable {m : Moment}

/-- A class in which no method is found is one whose declaration has none. -/
theorem lacks_iff (sound : m.register.Sound R m.machine.heap) (x : String) {c : ClassId}
    (leads : m.machine.heap.Leads (.ofClass c)) :
    ((m.machine.heap.class? c).bind fun k => k.methods.find? x) = none ↔ m.Lacks x c := by
  obtain ⟨k, found⟩ := Option.isSome_iff_exists.mp leads
  obtain ⟨o, entered, made⟩ := sound.enteredClass found
  rw [found, Option.bind_some, made.find?_eq_none]
  constructor
  · exact fun lacks => ⟨o, entered, lacks⟩
  · rintro ⟨o', entered', lacks⟩
    cases entered.symm.trans entered'
    exact lacks

theorem inherits {inputs : List Session.Input} {m : Moment}
    (sound : m.register.Sound (Session.regime True inputs) m.machine.heap) {c : ClassId} {k : Class}
    (found : m.machine.heap.class? c = some k) : m.Inherits inputs c k := by
  obtain ⟨typed, inheriting, -⟩ := sound.typed trivial
  obtain ⟨o, entered, made⟩ := sound.enteredClass found
  have leads : m.machine.heap.Leads (.ofClass c) := Option.isSome_iff_exists.mpr ⟨k, found⟩
  have present := typed.lineage leads
  refine ⟨⟨o, entered, made.site, made.name, made.above, made.parent⟩, inheriting.lineage found,
    present, inheriting.descends leads, fun x r => inheriting.searches_iff leads, ?_, ?_⟩
  · intro x method here
    -- The search passed the classes before the one that it stopped at.
    obtain ⟨before, d, after, split, named, others⟩ := List.findSome?_eq_some_iff.mp here
    have there (e : ClassId) (member : e ∈ before) : m.machine.heap.Leads (.ofClass e) :=
      present e (split ▸ List.mem_append_left _ member)
    refine ⟨before, d, after, split, fun e member => ?_, ?_⟩
    · exact (sound.lacks_iff x (there e member)).mp (others e member)
    · obtain ⟨k', found', named'⟩ := Option.bind_eq_some_iff.mp named
      obtain ⟨o', entered', made'⟩ := sound.enteredClass found'
      exact ⟨o', entered', made'.lastNamed named'⟩
  · intro x
    rw [Heap.findMethod, List.findSome?_eq_none_iff]
    exact forall₂_congr fun d member => sound.lacks_iff x (present d member)

end Register.Sound

namespace Session
variable (limits : Limits)

/-- Methods are looked up along links that never change and come to an end, and the nearest
declaration is found. References of the routines of the host have to lead somewhere. -/
theorem methods_inherited (now : Clock) (inputs : List Input)
    (sane : ∀ n, .native n ∈ inputs → n.Sane) :
    let chronicle := (Chronicle.start now).feedAll limits inputs
    chronicle.session = feedAll limits (start now) inputs ∧
      (chronicle.states.Pairwise fun later earlier => ∀ c k,
        earlier.machine.heap.class? c = some k → later.machine.heap.class? c = some k) ∧
      ∀ m ∈ chronicle.states, ∀ c k, m.machine.heap.class? c = some k → m.Inherits inputs c k := by
  intro chronicle
  have sound : Scene.Sound (regime True inputs) _ :=
    (Chronicle.sound limits now fun _ => sane).noted
  refine ⟨Chronicle.feedAll_session limits _ inputs, ?_, fun m member c k found => ?_⟩
  · exact sound.ordered.imp fun before => before.keeps.grown.classes
  · exact (sound.moments m member).1.inherits found

theorem applying_sane : applying.Sane := by
  intro h arguments _ valid
  match arguments with
  | .callable c :: rest =>
      refine ⟨valid (.callable c) List.mem_cons_self, fun n _ => ?_⟩
      dsimp only
      by_cases same : n = rest.length
      · rw [if_pos same]
        exact ⟨valid (.callable c) List.mem_cons_self,
          fun v member => valid v (List.mem_cons_of_mem _ member), fun v h' _ _ later => later⟩
      · rw [if_neg same]
        trivial
  | [] | .nil :: _ | .bool _ :: _ | .number _ :: _ | .text _ :: _ | .object _ :: _ => trivial

/-- The name of the first class is bound to the last one, which is below it. -/
theorem methods_inherited_redeclared :
    let inputs := [Input.native applying,
      .source ⟨false, false⟩ "class A { m() {} } class B < A {} class A < B {}"]
    let chronicle := (Chronicle.start 0).feedAll ⟨9, 9⟩ inputs
    chronicle.now.machine.heap.lineage ⟨2⟩ = [⟨2⟩, ⟨1⟩, ⟨0⟩] ∧ (∀ n, .native n ∈ inputs → n.Sane) ∧
      ∀ m ∈ chronicle.states, ∀ c k, m.machine.heap.class? c = some k → m.Inherits inputs c k := by
  intro inputs chronicle
  have sane : ∀ n, .native n ∈ inputs → n.Sane := fun n member => by
    obtain rfl : n = applying := by simpa [inputs] using member
    exact applying_sane
  exact ⟨by decide +kernel, sane, (methods_inherited ⟨9, 9⟩ 0 inputs sane).2.2⟩

end Session
end LoxLang
