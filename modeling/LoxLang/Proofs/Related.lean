import LoxLang.Heap
/-! Options, and arrays, that are related entry by entry, and what is read alike from heaps whose
objects are. -/
namespace LoxLang

theorem rel_imp {α β : Type} {r s : α → β → Prop} {o : Option α} {p : Option β}
    (rel : Option.Rel r o p) (all : ∀ a b, o = some a → r a b → s a b) : Option.Rel s o p := by
  cases rel with
  | some related => exact .some (all _ _ rfl related)
  | none => exact .none

theorem rel_some {α β : Type} {r : α → β → Prop} {o : Option α} {p : Option β} {a : α}
    (rel : Option.Rel r o p) (found : o = some a) : ∃ b, p = some b ∧ r a b := by
  cases rel with
  | some related =>
      cases found
      exact ⟨_, rfl, related⟩
  | none => cases found

theorem rel_map_eq {α β γ : Type} {r : α → β → Prop} {o : Option α} {p : Option β} {f : α → γ}
    {g : β → γ} (rel : Option.Rel r o p) (same : ∀ a b, r a b → g b = f a) : p.map g = o.map f := by
  cases rel with
  | some related => exact congrArg some (same _ _ related)
  | none => rfl

theorem rel_of_eq {α : Type} {o p : Option α} (same : p = o) :
    Option.Rel (fun a b => b = a) o p := by
  subst same
  cases p with
  | some a => exact .some rfl
  | none => exact .none

theorem rel_bind {α β γ δ : Type} {r : α → β → Prop} {q : γ → δ → Prop} {o : Option α}
    {p : Option β} {f : α → Option γ} {g : β → Option δ} (rel : Option.Rel r o p)
    (all : ∀ a b, r a b → Option.Rel q (f a) (g b)) : Option.Rel q (o.bind f) (p.bind g) := by
  cases rel with
  | some related => exact all _ _ related
  | none => exact .none

theorem rel_findSome {α β γ : Type} {r : β → γ → Prop} {f : α → Option β} {g : α → Option γ}
    (all : ∀ a, Option.Rel r (f a) (g a)) (as : List α) :
    Option.Rel r (as.findSome? f) (as.findSome? g) := by
  induction as with
  | nil => exact .none
  | cons a as ih =>
      have here := all a
      rw [List.findSome?_cons, List.findSome?_cons]
      generalize f a = b, g a = c at here
      cases here with
      | some related => exact .some related
      | none => exact ih

theorem size_eq_of_rel {α β : Type} {r : α → β → Prop} {as : Array α} {bs : Array β}
    (rel : ∀ i : Nat, Option.Rel r as[i]? bs[i]?) : as.size = bs.size := by
  have here := rel as.size
  have there := rel bs.size
  rw [Array.getElem?_eq_none (Nat.le_refl _)] at here there
  rcases Nat.lt_trichotomy as.size bs.size with less | same | more
  · rw [Array.getElem?_eq_getElem less] at here
    cases here
  · exact same
  · rw [Array.getElem?_eq_getElem more] at there
    cases there

/-- Related arrays stay so with a related pair at their ends. -/
theorem rel_push {α β : Type} {r : α → β → Prop} {as : Array α} {bs : Array β} {a : α} {b : β}
    (rel : ∀ i : Nat, Option.Rel r as[i]? bs[i]?) (last : r a b) (i : Nat) :
    Option.Rel r (as.push a)[i]? (bs.push b)[i]? := by
  rw [Array.getElem?_push, Array.getElem?_push, ← size_eq_of_rel rel]
  split
  · exact .some last
  · exact rel i

namespace Heap
variable {h h' : Heap}

/-- A call takes as many arguments where functions and initializers have as many parameters. -/
theorem arity?_congr
    (functions : ∀ f, (h'.function? f).map (fun k => k.declaration.params.length) =
      (h.function? f).map fun k => k.declaration.params.length)
    (classes : ∀ c, (h'.class? c).map Class.name = (h.class? c).map Class.name)
    (initializers : ∀ c, (h'.findMethod c "init").map (fun k => k.declaration.params.length) =
      (h.findMethod c "init").map fun k => k.declaration.params.length)
    (natives : h'.natives = h.natives) (c : Callable) :
    h'.arity? c = h.arity? c := by
  cases c with
  | native n => rw [arity?, arity?, native?, native?, natives]
  | function f => exact functions f
  | ofClass c =>
      have named (n : Nat) := congrArg (Option.map fun _ => n) (classes c)
      simp only [Option.map_map, Function.comp_def] at named
      rw [arity?, arity?, initializers c, named]

/-- Values are displayed alike where functions and classes have the same names. -/
theorem display_congr
    (functions : ∀ f, (h'.function? f).map (fun k => k.declaration.name.text) =
      (h.function? f).map fun k => k.declaration.name.text)
    (classes : ∀ c, (h'.class? c).map Class.name = (h.class? c).map Class.name)
    (instances : h'.instances = h.instances) (v : Value) : h'.display v = h.display v := by
  cases v with
  | callable c =>
      cases c with
      | native n => rfl
      | function f => simp only [display, functions]
      | ofClass c => simp only [display, classes]
  | object i =>
      have here : h'.instance? i = h.instance? i := by rw [instance?, instance?, instances]
      rw [display, display, here, Option.map_bind, Option.map_bind]
      simp only [Function.comp_def, classes]
  | bool b => cases b <;> rfl
  | nil | number _ | text _ => rfl

end Heap
end LoxLang
