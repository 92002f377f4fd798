import LoxLang.Proofs.Lexical.Steps
/-! Functions, classes and instances are made in step: what is new has the same number on the
heap and in the store. -/
namespace LoxLang
open Lexical (Environment Location Store)

variable {R : Regime} {h : Heap} {w : Owners} {σ : Store} {s : ScopeId} {Γ : Scopes}
  {ρ : Environment} {x : String}

theorem Closure.LikeFunction.known {k : Closure} {k' : Lexical.Closure}
    (like : k.LikeFunction R h w k') (v : Variables w h σ) : k.Known R h := by
  obtain ⟨Γ, code, same, initializer⟩ := like
  exact ⟨Γ, code, v.mirrors same.visible, initializer⟩

theorem Closure.LikeMethod.known {k : Closure} {k' : Lexical.Closure}
    (like : k.LikeMethod R h w k') (v : Variables w h σ) : k.KnownMethod R h := by
  obtain ⟨Γ, code, same⟩ := like
  exact ⟨Γ, code, v.mirrors same.visible⟩

/-! What is read. -/

namespace Alike

theorem lineage_eq (alike : Alike R w h σ) (c : ClassId) : σ.lineage c = h.lineage c := by
  have ancestors := rel_map_eq (f := Class.ancestors) (g := Lexical.Class.ancestors)
    (alike.objects.classes c) fun _ _ like => like.ancestors
  rw [Store.lineage, Heap.lineage, ancestors]

/-- The method found for a name is the same on both sides. -/
theorem findMethod (alike : Alike R w h σ) (c : ClassId) (x : String) :
    Option.Rel (Closure.LikeMethod R h w) (h.findMethod c x) (σ.findMethod c x) := by
  rw [Heap.findMethod, Store.findMethod, alike.lineage_eq]
  exact rel_findSome (fun d => rel_bind (alike.objects.classes d) fun _ _ like => like.methods x) _

theorem arity?_eq (alike : Alike R w h σ) (c : Callable) : σ.arity? c = h.arity? c := by
  cases c with
  | native n => simp only [Store.arity?, Heap.arity?, Store.native?, Heap.native?,
      alike.objects.natives]
  | function f =>
      refine rel_map_eq (alike.objects.functions f) fun k k' like => ?_
      obtain ⟨_, -, same, -⟩ := like
      rw [same.declaration, Routine.params_erase]
  | ofClass c =>
      have taken := rel_map_eq (f := fun k => k.declaration.params.length)
        (g := fun k => k.declaration.params.length) (alike.findMethod c "init") fun k k' like => by
          obtain ⟨_, -, same⟩ := like
          rw [same.declaration, Routine.params_erase]
      refine rel_map_eq (alike.objects.classes c) fun _ _ _ => ?_
      rw [taken]

theorem display_eq (alike : Alike R w h σ) (v : Value) : σ.display v = h.display v := by
  have named (c : ClassId) : (σ.class? c).map Lexical.Class.name = (h.class? c).map Class.name :=
    rel_map_eq (alike.objects.classes c) fun _ _ like => like.name
  cases v with
  | callable c =>
      cases c with
      | native n => rfl
      | function f =>
          have called : (σ.function? f).map (fun k => k.declaration.name.text) =
              (h.function? f).map fun k => k.declaration.name.text := by
            refine rel_map_eq (alike.objects.functions f) fun k k' like => ?_
            obtain ⟨_, -, same, -⟩ := like
            rw [same.declaration, Routine.name_erase]
          simp only [Store.display, Heap.display, called]
      | ofClass c => simp only [Store.display, Heap.display, named]
  | object i =>
      have here : σ.instance? i = h.instance? i := by
        rw [Store.instance?, Heap.instance?, alike.objects.instances]
      rw [Store.display, Heap.display, here, Option.map_bind, Option.map_bind]
      simp only [Function.comp_def, named]
  | bool b => cases b <;> rfl
  | _ => rfl

/-! What is made. -/

theorem newFunction {k : Closure} {k' : Lexical.Closure} (alike : Alike R w h σ)
    (like : k.LikeFunction R h w k') : (σ.newFunction k').1 = (h.newFunction k).1 ∧
      Alike R w (h.newFunction k).2 (σ.newFunction k').2 := by
  have e := h.extends_newFunction k
  have keeps : w.Keeps w := fun _ _ found => found
  have functions := alike.objects.functions
  refine ⟨?_, alike.sound.newFunction (like.known alike.bindings),
    ⟨alike.bindings.cells, alike.bindings.apart, alike.bindings.globals⟩,
    ⟨fun f => ?_, fun c => ?_, alike.objects.instances, alike.objects.natives⟩⟩
  · exact congrArg FunctionId.mk (size_eq_of_rel fun i => functions ⟨i⟩).symm
  · exact rel_imp (rel_push (fun i => functions ⟨i⟩) like f.index) fun _ _ _ like =>
      like.grow e keeps
  · exact rel_imp (alike.objects.classes c) fun _ _ _ like => like.grow e keeps

theorem newClass {methods : Table Closure} {methods' : Table Lexical.Closure}
    (alike : Alike R w h σ) (untyped : ¬R.typed) (name : String) (parent : Option ClassId)
    (like : ∀ x, Option.Rel (Closure.LikeMethod R h w) (methods.find? x) (methods'.find? x)) :
    (σ.newClass name parent methods').1 = (h.newClass name parent methods).1 ∧
      Alike R w (h.newClass name parent methods).2 (σ.newClass name parent methods').2 := by
  have e := h.extends_newClass name parent methods
  have keeps : w.Keeps w := fun _ _ found => found
  have classes := alike.objects.classes
  have lineage : σ.lineage = h.lineage := funext alike.lineage_eq
  have made : Class.Like R h w ⟨name, (parent.map h.lineage).getD [], methods⟩
      ⟨name, (parent.map σ.lineage).getD [], methods'⟩ := ⟨rfl, by rw [lineage], like⟩
  have sound : Sound R (h.newClass name parent methods).2 := by
    refine alike.sound.newClass (fun x m found => ?_) (absurd · untyped)
    obtain ⟨m', -, same⟩ := rel_some (like x) found
    exact same.known alike.bindings
  refine ⟨?_, sound, ⟨alike.bindings.cells, alike.bindings.apart, alike.bindings.globals⟩,
    ⟨fun f => ?_, fun c => ?_, alike.objects.instances, alike.objects.natives⟩⟩
  · exact congrArg ClassId.mk (size_eq_of_rel fun i => classes ⟨i⟩).symm
  · exact rel_imp (alike.objects.functions f) fun _ _ _ like => like.grow e keeps
  · exact rel_imp (rel_push (fun i => classes ⟨i⟩) made c.index) fun _ _ _ like =>
      like.grow e keeps

theorem newInstance (alike : Alike R w h σ) (untyped : ¬R.typed) (c : ClassId) :
    (σ.newInstance c).1 = (h.newInstance c).1 ∧
      Alike R w (h.newInstance c).2 (σ.newInstance c).2 := by
  have e := h.extends_newInstance c
  have keeps : w.Keeps w := fun _ _ found => found
  have instances := alike.objects.instances
  refine ⟨?_, alike.sound.newInstance (absurd · untyped),
    ⟨alike.bindings.cells, alike.bindings.apart, alike.bindings.globals⟩,
    ⟨fun f => ?_, fun c => ?_, ?_, alike.objects.natives⟩⟩
  · simp only [Store.newInstance, Heap.newInstance, instances]
  · exact rel_imp (alike.objects.functions f) fun _ _ _ like => like.grow e keeps
  · exact rel_imp (alike.objects.classes c) fun _ _ _ like => like.grow e keeps
  · simp only [Store.newInstance, Heap.newInstance, instances]

theorem setField (alike : Alike R w h σ) (untyped : ¬R.typed) (i : InstanceId) (x : String)
    (v : Value) : Alike R w (h.setField i x v) (σ.setField i x v) := by
  have e := h.extends_setField i x v
  have keeps : w.Keeps w := fun _ _ found => found
  refine ⟨alike.sound.setField (absurd · untyped),
    ⟨alike.bindings.cells, alike.bindings.apart, alike.bindings.globals⟩,
    ⟨fun f => ?_, fun c => ?_, ?_, alike.objects.natives⟩⟩
  · exact rel_imp (alike.objects.functions f) fun _ _ _ like => like.grow e keeps
  · exact rel_imp (alike.objects.classes c) fun _ _ _ like => like.grow e keeps
  · simp only [Store.setField, Heap.setField, alike.objects.instances]

/-- A method with its receiver bound sees `this`, in a scope that is new. -/
theorem bindReceiver {k : Closure} {k' : Lexical.Closure} (alike : Alike R w h σ)
    (untyped : ¬R.typed) (like : k.LikeMethod R h w k') (i : InstanceId) :
    ∃ w', Alike R w' (h.bindReceiver k i).2 (σ.bindReceiver k' i).2 ∧
      (h.bindReceiver k i).1.LikeFunction R (h.bindReceiver k i).2 w' (σ.bindReceiver k' i).1 ∧
      w.Grow w' fun t => ¬h.Alive t := by
  obtain ⟨Γ, known, same⟩ := like
  have fits : Fits "this" (some (.object i)) :=
    ⟨fun _ => ⟨i, rfl⟩, fun other => absurd other (by decide)⟩
  obtain ⟨w', alike', visible, grown⟩ := alike.enclose untyped fits same.visible
  exact ⟨w', alike', ⟨Walk.receiverScope :: Γ, known,
    ⟨same.declaration, same.isInitializer, visible⟩, fun _ => ⟨Γ, rfl⟩⟩, grown⟩

end Alike

/-! Names that are declared first and given a value then. -/

theorem Heap.define_define (h : Heap) (s : ScopeId) (x : String) (a b : Option Value) :
    (h.define s x a).define s x b = h.define s x b := by
  have twice : (h.define s x a).scopes.modify s.index (fun k =>
      { k with bindings := k.bindings.put x b }) = h.scopes.modify s.index fun k =>
      { k with bindings := k.bindings.put x b } := by
    apply Array.ext_getElem?
    intro i
    simp only [Heap.define, Array.getElem?_modify]
    split
    · cases h.scopes[i]? with
      | none => rfl
      | some k => simp only [Option.map_some, Table.put_put]
    · rfl
  exact congrArg (fun scopes => { h with scopes := scopes }) twice

namespace Alike

/-- A name just declared is given a value. -/
theorem redefine {v : Value} (alike : Alike R w h σ) (untyped : ¬R.typed) (fits : Fits x (some v))
    (stands : Stands w h s (Γ.declare x) ρ) (bound : (h.binding? s x).isSome = true) :
    ∃ σ', σ.assign? ρ x v = some σ' ∧ Alike R w (h.define s x (some v)) σ' ∧
      Stands w (h.define s x (some v)) s (Γ.declare x) ρ := by
  have kept : Stands w (h.define s x (some v)) s (Γ.declare x) ρ :=
    stands.grow (h.extends_define s x (some v)) (.refl w fun _ => False) id
  have visible := stands.visible
  obtain ⟨ts, around⟩ : ∃ ts, h.chain s = s :: ts := ⟨_, rfl⟩
  rw [around] at visible
  cases Γ with
  | nil =>
      cases visible with
      | globals _ =>
          rw [alike.bindings.global] at bound
          refine ⟨{ σ with globals := σ.globals.put x (some v) }, ?_,
            alike.putGlobal untyped fits, kept⟩
          exact if_pos bound
  | cons g Γ =>
      rw [Scopes.declare_cons] at visible
      obtain ⟨t, l, ⟨⟩, place, owned⟩ := visible.place_some (x := x) (n := 0)
        (by simp [Scopes.locate_cons, Table.contains]) ⟨g.put x true, rfl, by simp⟩
      refine ⟨σ.write l (some v), ?_, alike.write untyped fits owned, kept⟩
      rw [Store.assign?, place]

/-- A function is declared: its name first, which it sees, then the function. -/
theorem declareFunction {r : Routine Address} (alike : Alike R w h σ) (untyped : ¬R.typed)
    (stands : Stands w h s Γ ρ) (ordinary : r.name.Ordinary)
    (known : r.Known R (Γ.declare r.name.text)) :
    let made := h.newFunction ⟨r, s, false⟩
    let v : Value := .callable (.function made.1)
    let declared := σ.declare ρ r.name.text none
    let made' := declared.2.newFunction ⟨r.erase, declared.1, false⟩
    ∃ w' σ', made'.2.assign? declared.1 r.name.text (.callable (.function made'.1)) = some σ' ∧
      Alike R w' (made.2.define s r.name.text (some v)) σ' ∧
      Stands w' (made.2.define s r.name.text (some v)) s (Γ.declare r.name.text) declared.1 ∧
      w.Grow w' (· = s) := by
  intro made v declared made'
  obtain ⟨w', alike₁, stands₁, grown⟩ :=
    alike.declare untyped (ordinary.fits none) stands
  have like : (Closure.mk r s false).LikeFunction R (h.define s r.name.text none) w'
      ⟨r.erase, declared.1, false⟩ :=
    ⟨Γ.declare r.name.text, known, ⟨rfl, rfl, stands₁.visible⟩, by simp⟩
  obtain ⟨number, alike₂⟩ := alike₁.newFunction like
  have stands₂ := stands₁.grow (Heap.extends_newFunction _ ⟨r, s, false⟩)
    (.refl w' fun _ => False) id
  have living : h.Alive s := stands.visible.alive_head
  have bound : ((h.define s r.name.text none).binding? s r.name.text).isSome = true := by
    rw [Heap.binding?_define_self _ _ living]
    rfl
  obtain ⟨σ', assigned, alike₃, stands₃⟩ :=
    alike₂.redefine untyped (ordinary.fits (some v)) stands₂ bound
  have same : (((h.define s r.name.text none).newFunction ⟨r, s, false⟩).2.define s r.name.text
      (some v)) = made.2.define s r.name.text (some v) :=
    made.2.define_define s r.name.text none (some v)
  rw [same] at alike₃ stands₃
  refine ⟨w', σ', ?_, alike₃, stands₃, grown⟩
  rw [number]
  exact assigned

theorem bindParameters {ps : List Name} {vs : List Value} (alike : Alike R w h σ)
    (untyped : ¬R.typed) (stands : Stands w h s Γ ρ) (ordinary : ∀ p ∈ ps, p.Ordinary)
    (all : vs.length = ps.length) :
    ∃ w', Alike R w' (Run.bindParameters s ps vs h) (σ.bindParameters ρ (ps.zip vs)).2 ∧
      Stands w' (Run.bindParameters s ps vs h) s (ps.foldl (fun Δ p => Δ.declare p.text) Γ)
        (σ.bindParameters ρ (ps.zip vs)).1 ∧ w.Grow w' (· = s) := by
  induction ps generalizing h w σ Γ ρ vs with
  | nil => exact ⟨w, alike, stands, .refl w _⟩
  | cons p ps ih =>
      cases vs with
      | nil => cases all
      | cons v vs =>
          obtain ⟨first, others⟩ := List.forall_mem_cons.mp ordinary
          obtain ⟨w₁, alike₁, stands₁, grown₁⟩ :=
            alike.declare untyped (first.fits (some v)) stands
          obtain ⟨w₂, alike₂, stands₂, grown₂⟩ :=
            ih alike₁ stands₁ others (Nat.succ.inj all)
          exact ⟨w₂, alike₂, stands₂, grown₁.trans grown₂ (fun _ => id) fun _ => id⟩

end Alike
end LoxLang
