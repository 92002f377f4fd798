import LoxLang.Proofs.Heap.Steps
/-! Inheritance on a heap. Every class is made after the class above it, so the links from class to
class come to an end, and a search along them finds what `findMethod` finds. -/
namespace LoxLang

/-- The class directly above a class. -/
def Class.superclass? (k : Class) : Option ClassId := k.ancestors.head?

namespace Heap
variable {h h' : Heap} {c p : ClassId} {k : Class} {x : String}

/-- A class that is below another one was made after it, and is below all that the other one is
below. -/
def Inheriting (h : Heap) : Prop :=
  ∀ c k, h.class? c = some k → ∀ p, k.superclass? = some p →
    p.index < c.index ∧ h.Leads (.ofClass p) ∧ k.ancestors = h.lineage p

theorem index_lt_of_leads (leads : h.Leads (.ofClass c)) : c.index < h.classes.size := by
  obtain ⟨k, found⟩ := Option.isSome_iff_exists.mp leads
  exact (Array.getElem?_eq_some_iff.mp found).1

theorem lineage_of_class (found : h.class? c = some k) : h.lineage c = c :: k.ancestors := by
  rw [lineage, found]
  rfl

theorem Extends.lineage (grown : h.Extends h') (leads : h.Leads (.ofClass c)) :
    h'.lineage c = h.lineage c := by
  obtain ⟨k, found⟩ := Option.isSome_iff_exists.mp leads
  rw [lineage_of_class found, lineage_of_class (grown.classes c k found)]

/-- The links of old classes stay. -/
theorem Inheriting.grow (inheriting : h.Inheriting) (grown : h.Extends h')
    (made : ∀ c k, h'.class? c = some k → h.class? c = some k ∨
      ∀ p, k.superclass? = some p → p.index < c.index ∧ h'.Leads (.ofClass p) ∧
        k.ancestors = h'.lineage p) : h'.Inheriting := by
  intro c k found p above
  rcases made c k found with old | new
  · obtain ⟨earlier, leads, same⟩ := inheriting c k old p above
    exact ⟨earlier, leads.grow grown, same.trans (grown.lineage leads).symm⟩
  · exact new p above

/-- A new class is below a class that was there. -/
theorem Inheriting.newClass (inheriting : h.Inheriting) (name : String) {parent : Option ClassId}
    (methods : Table Closure) (leads : ∀ p, parent = some p → h.Leads (.ofClass p)) :
    (h.newClass name parent methods).2.Inheriting := by
  have grown := h.extends_newClass name parent methods
  refine inheriting.grow grown fun c k found => ?_
  rw [class?_newClass] at found
  split at found
  · next new =>
      refine .inr fun p above => ?_
      cases found
      cases parent with
      | none => cases above
      | some p' =>
          obtain rfl : p' = p := Option.some.inj above
          have here := leads p' rfl
          exact ⟨new ▸ index_lt_of_leads here, here.grow grown, (grown.lineage here).symm⟩
  · exact .inl found

/-- A class and the classes above it, in terms of the link to the next one. -/
theorem Inheriting.lineage (inheriting : h.Inheriting) (found : h.class? c = some k) :
    h.lineage c = c :: (k.superclass?.map h.lineage).getD [] := by
  rw [lineage_of_class found]
  cases above : k.superclass? with
  | none => rw [List.head?_eq_none_iff.mp above]; rfl
  | some p => rw [(inheriting c k found p above).2.2]; rfl

/-- Along the links of a class an induction comes to an end. -/
theorem Inheriting.induction {motive : ClassId → Prop} (inheriting : h.Inheriting)
    (step : ∀ c k, h.class? c = some k → (∀ p, k.superclass? = some p → motive p) → motive c)
    (leads : h.Leads (.ofClass c)) : motive c := by
  have all : ∀ n c, c.index < n → h.Leads (.ofClass c) → motive c := by
    intro n
    induction n with
    | zero => exact fun c less _ => absurd less (Nat.not_lt_zero _)
    | succ n ih =>
        intro c less leads
        obtain ⟨k, found⟩ := Option.isSome_iff_exists.mp leads
        refine step c k found fun p above => ?_
        obtain ⟨earlier, leads', -⟩ := inheriting c k found p above
        exact ih p (Nat.lt_of_lt_of_le earlier (Nat.le_of_lt_succ less)) leads'
  exact all (c.index + 1) c (Nat.lt_succ_self _) leads

/-- From a class upwards every class was made before the one below it. -/
theorem Inheriting.descends (inheriting : h.Inheriting) (leads : h.Leads (.ofClass c)) :
    (h.lineage c).Pairwise fun lower upper => upper.index < lower.index := by
  refine inheriting.induction (motive := fun c => (h.lineage c).Pairwise fun lower upper =>
    upper.index < lower.index) (fun c k found above => ?_) leads
  rw [inheriting.lineage found]
  cases linked : k.superclass? with
  | none => exact List.pairwise_singleton ..
  | some p =>
      have rest := above p linked
      have earlier := (inheriting c k found p linked).1
      refine List.pairwise_cons.mpr ⟨fun d member => ?_, rest⟩
      rcases List.mem_cons.mp member with rfl | further
      · exact earlier
      · exact Nat.lt_trans ((List.pairwise_cons.mp rest).1 d further) earlier

/-! The search of a method. -/

/-- A search from a class upwards, link by link, and what it ends with. -/
inductive Searches (h : Heap) (x : String) : Option ClassId → Option Closure → Prop
  | ended : Searches h x none none
  | here {c : ClassId} {k : Class} {m : Closure} :
    h.class? c = some k → k.methods.find? x = some m → Searches h x (some c) (some m)
  | above {c : ClassId} {k : Class} {r : Option Closure} :
    h.class? c = some k → k.methods.find? x = none → Searches h x k.superclass? r →
    Searches h x (some c) r

theorem Searches.unique {o : Option ClassId} {r r' : Option Closure} (search : h.Searches x o r)
    (search' : h.Searches x o r') : r' = r := by
  induction search with
  | ended =>
      cases search'
      rfl
  | here found named =>
      cases search' with
      | here found' named' =>
          cases found.symm.trans found'
          exact named'.symm.trans named
      | above found' missing _ =>
          cases found.symm.trans found'
          cases named.symm.trans missing
  | above found missing _ ih =>
      cases search' with
      | here found' named =>
          cases found.symm.trans found'
          cases named.symm.trans missing
      | above found' _ rest =>
          cases found.symm.trans found'
          exact ih rest

theorem findMethod_of_class (inheriting : h.Inheriting) (found : h.class? c = some k) (x : String) :
    h.findMethod c x = (k.methods.find? x).or (k.superclass?.bind fun p => h.findMethod p x) := by
  rw [findMethod, inheriting.lineage found, List.findSome?_cons, found, Option.bind_some]
  cases k.methods.find? x with
  | some m => rfl
  | none => cases k.superclass? <;> rfl

/-- A search from a class on the heap comes to an end, and finds what `findMethod` finds. -/
theorem Inheriting.searches_iff (inheriting : h.Inheriting) (leads : h.Leads (.ofClass c))
    {r : Option Closure} : h.Searches x (some c) r ↔ r = h.findMethod c x := by
  have ends : h.Searches x (some c) (h.findMethod c x) := by
    refine inheriting.induction (motive := fun c => h.Searches x (some c) (h.findMethod c x))
      (fun c k found above => ?_) leads
    rw [findMethod_of_class inheriting found]
    cases named : k.methods.find? x with
    | some m => exact .here found named
    | none =>
        refine .above found named ?_
        cases linked : k.superclass? with
        | none => exact .ended
        | some p => exact above p linked
  exact ⟨fun search => ends.unique search, fun same => same ▸ ends⟩

end Heap

end LoxLang
