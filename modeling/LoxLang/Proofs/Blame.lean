import LoxLang.Proofs.Heap.Steps
import LoxLang.Proofs.Recording
import LoxLang.Proofs.Running.Execution
/-! Failures and the nodes that are to blame for them. On a heap whose functions are known code and
whose routines of the host raise nothing, every step of a node fails only as that node can. -/
namespace LoxLang

/-- The variable cannot be read: it is not there, or has no value yet. -/
def Token.Unreadable (t : Token) (f : Fault) : Prop :=
  f.token = some t ∧
    (f.cause = .undefinedVariable t.lexeme ∨ f.cause = .uninitializedVariable t.lexeme)

/-- What the operator refuses. -/
def BinaryOp.Refuses : BinaryOp → Fault.Cause → Prop
  | .comma, _ | .equal, _ | .notEqual, _ => False
  | .add, c => c = .operandsNotAddable
  | .divide, c => c = .operandsNotNumbers ∨ c = .divisionByZero
  | _, c => c = .operandsNotNumbers

/-- The failures of which a node is the place, each with its token. -/
def Node.Blames : Node → Fault → Prop
  | .expr (.var name _), f => name.token.Unreadable f
  | .expr (.assign name _ _), f => f = ⟨.undefinedVariable name.text, some name.token⟩
  | .expr (.unary op pos _), f =>
    op = .negate ∧ f = ⟨.operandNotNumber, some (op.token pos)⟩
  | .expr (.binary _ op pos _), f => f.token = some (op.token pos) ∧ op.Refuses f.cause
  | .expr (.call _ close _), f => f.token = some ⟨.rightParen, ")", close⟩ ∧
    (f.cause = .notCallable ∨ ∃ expected got, expected ≠ got ∧ f.cause = .arity expected got)
  | .expr (.member _ name), f =>
    f.token = some name.token ∧ (f.cause = .noProperties ∨ f.cause = .undefinedProperty name.text)
  | .expr (.assignMember _ name _), f => f = ⟨.noFields, some name.token⟩
  | .expr (.inherited _ method _), f => f = ⟨.undefinedProperty method.text, some method.token⟩
  | .superclass _ parent, f => parent.name.token.Unreadable f ∨
    f = ⟨.superclassNotClass, some parent.name.token⟩
  | _, _ => False

theorem UnaryOp.refuses {op : UnaryOp} {v : Value} {c : Fault.Cause}
    (failed : op.apply v = .error c) : op = .negate ∧ c = .operandNotNumber := by
  unfold UnaryOp.apply at failed
  split at failed <;> cases failed
  exact ⟨rfl, rfl⟩

theorem BinaryOp.refuses {op : BinaryOp} {v w : Value} {c : Fault.Cause}
    (failed : op.apply v w = .error c) : op.Refuses c := by
  unfold BinaryOp.apply at failed
  split at failed
  case h_4 =>
    unfold addValues at failed
    split at failed <;> cases failed
    rfl
  case h_11 =>
    split at failed <;> cases failed
    exact .inr rfl
  case h_12 others =>
    cases failed
    cases op <;> simp_all [BinaryOp.Refuses]
  all_goals cases failed

/-- A host program that raises nothing. -/
def Host.Quiet : Host → Prop
  | .done _ => True
  | .raise _ => False
  | .call _ _ next => ∀ v, (next v).Quiet
  | .arity _ next => ∀ n, (next n).Quiet
  | .display _ next => ∀ s, (next s).Quiet
  | .time next => ∀ now, (next now).Quiet

/-- A routine of the host that raises nothing. -/
def Native.Quiet (n : Native) : Prop := ∀ arguments, (n.body arguments).Quiet

theorem Native.clock_quiet : Native.clock.Quiet := fun _ _ => trivial

/-- A routine whose code is known. -/
def Routine.Coded (R : Regime) (r : Routine Address) : Prop := ∃ Γ, ∀ σ ∈ r.sites Γ, R.sites σ

/-- Every function is known code, the host raises nothing, and the reserved names always have a
value where they are bound. -/
structure Coded (R : Regime) (h : Heap) : Prop where
  functions : ∀ f k, h.function? f = some k → k.declaration.Coded R
  methods : ∀ c k, h.class? c = some k → ∀ x m, k.methods.find? x = some m → m.declaration.Coded R
  natives : ∀ n r, h.native? n = some r → r.Quiet
  reserved : ∀ s x, x = "this" ∨ x = "super" → h.binding? s x ≠ some none

/-- A run can go on from the machine. -/
structure Poised (R : Regime) (m : Machine) : Prop where
  coded : Coded R m.heap
  alive : m.heap.Alive m.active

/-- The machine after a step. -/
structure Follows (R : Regime) (m m' : Machine) : Prop where
  grown : m.heap.Extends m'.heap
  active : m'.active = m.active
  coded : Coded R m'.heap

variable {α β : Type} {R : Regime} {m m' m'' : Machine} {h : Heap}

namespace Follows

theorem refl (coded : Coded R m.heap) : Follows R m m := ⟨.refl _, rfl, coded⟩

theorem trans (a : Follows R m m') (b : Follows R m' m'') : Follows R m m'' :=
  ⟨a.grown.trans b.grown, b.active.trans a.active, b.coded⟩

theorem poised (a : Follows R m m') (poised : Poised R m) : Poised R m' :=
  ⟨a.coded, a.active ▸ a.grown.alive poised.alive⟩

end Follows

/-! Steps of the heap. -/

namespace Coded

theorem newScope (coded : Coded R h) (e : Option ScopeId) : Coded R (h.newScope e).2 := by
  refine ⟨coded.functions, coded.methods, coded.natives, fun s x reserved => ?_⟩
  rw [Heap.binding?_newScope]
  split
  · exact fun same => nomatch same
  · exact coded.reserved s x reserved

theorem define (coded : Coded R h) {s : ScopeId} {x : String} {v : Option Value}
    (valued : x = "this" ∨ x = "super" → v ≠ none) : Coded R (h.define s x v) := by
  refine ⟨coded.functions, coded.methods, coded.natives, fun t y reserved => ?_⟩
  rw [Heap.binding?_define]
  split
  · next same =>
      intro bound
      obtain ⟨scope, -, none⟩ := Option.map_eq_some_iff.mp bound
      exact valued (same.2 ▸ reserved) none
  · exact coded.reserved t y reserved

theorem write (coded : Coded R h) (s : ScopeId) (x : String) (v : Value) :
    Coded R (h.define s x (some v)) := coded.define fun _ same => nomatch same

theorem newFunction (coded : Coded R h) {k : Closure} (code : k.declaration.Coded R) :
    Coded R (h.newFunction k).2 := by
  refine ⟨fun f k' found => ?_, coded.methods, coded.natives, coded.reserved⟩
  rw [function?_newFunction] at found
  split at found
  · cases found
    exact code
  · exact coded.functions f k' found

theorem newClass (coded : Coded R h) {name : String} {parent : Option ClassId}
    {methods : Table Closure}
    (code : ∀ x m, methods.find? x = some m → m.declaration.Coded R) :
    Coded R (h.newClass name parent methods).2 := by
  refine ⟨coded.functions, fun c k found => ?_, coded.natives, coded.reserved⟩
  rw [class?_newClass] at found
  split at found
  · cases found
    exact code
  · exact coded.methods c k found

theorem newInstance (coded : Coded R h) (c : ClassId) : Coded R (h.newInstance c).2 :=
  ⟨coded.functions, coded.methods, coded.natives, coded.reserved⟩

theorem setField (coded : Coded R h) (i : InstanceId) (x : String) (v : Value) :
    Coded R (h.setField i x v) :=
  ⟨coded.functions, coded.methods, coded.natives, coded.reserved⟩

theorem newNative (coded : Coded R h) {n : Native} (quiet : n.Quiet) :
    Coded R (h.newNative n).2 := by
  refine ⟨coded.functions, coded.methods, fun k r found => ?_, coded.reserved⟩
  rw [native?_newNative] at found
  split at found
  · cases found
    exact quiet
  · exact coded.natives k r found

theorem bindReceiver (coded : Coded R h) (k : Closure) (i : InstanceId) :
    Coded R (h.bindReceiver k i).2 := (coded.newScope _).write _ _ _

theorem bindParameters (coded : Coded R h) (s : ScopeId) (ps : List Name) (vs : List Value) :
    Coded R (Run.bindParameters s ps vs h) := by
  unfold Run.bindParameters
  induction ps.zip vs generalizing h with
  | nil => exact coded
  | cons pair rest ih => exact ih (coded.write s pair.1.text pair.2)

theorem findMethod (coded : Coded R h) {c : ClassId} {x : String} {k : Closure}
    (found : h.findMethod c x = some k) : k.declaration.Coded R := by
  obtain ⟨d, -, named⟩ := List.exists_of_findSome?_eq_some found
  obtain ⟨own, here, held⟩ := Option.bind_eq_some_iff.mp named
  exact coded.methods d own here x k held

/-- What an address leads to, under a reserved name, can be read. -/
theorem getAt (coded : Coded R h) {s : ScopeId} {d : Int} {x : String}
    (reserved : x = "this" ∨ x = "super") (cause : Fault.Cause) :
    h.getAt s d x ≠ .error (.fault cause) := fun failed => by
  obtain ⟨-, t, bound⟩ := Heap.getAt_fault failed
  exact coded.reserved t x reserved bound

end Coded

/-- A new scope is there. -/
theorem Heap.alive_of_newScope {e : Option ScopeId} {s : ScopeId} {h' : Heap}
    (made : h.newScope e = (s, h')) : h'.Alive s := by
  rw [← show (h.newScope e).2 = h' by rw [made], ← show (h.newScope e).1 = s by rw [made],
    Heap.alive_newScope_iff]
  exact .inl rfl

/-- Only an ordinary name can be bound without a value. -/
theorem Name.Ordinary.valued {n : Name} (ordinary : n.Ordinary) (v : Option Value)
    (reserved : n.text = "this" ∨ n.text = "super") : v ≠ none :=
  absurd reserved (not_or.mpr ordinary)

namespace Run

/-- From the machine on, the computation keeps what is known, fails only as `B` says, and ends with
what `Q` says. -/
structure Heeds (R : Regime) (B : Fault → Prop) (x : Run α) (m : Machine)
    (Q : α → Heap → Prop) : Prop where
  ok : ∀ a m', x m = .ok a m' → Follows R m m' ∧ Q a m'.heap
  error : ∀ e m', x m = .error e m' → Follows R m m' ∧ ∀ f, e = .fault f → B f

namespace Heeds
variable {B B' : Fault → Prop} {x : Run α} {Q : α → Heap → Prop}

theorem done {a : α} (same : x m = .ok a m') (follows : Follows R m m') (q : Q a m'.heap) :
    Heeds R B x m Q := by
  refine ⟨fun a' m'' other => ?_, fun e m'' other => ?_⟩
  · cases same.symm.trans other
    exact ⟨follows, q⟩
  · cases same.symm.trans other

theorem broken {e : Exit} (same : x m = .error e m) (coded : Coded R m.heap)
    (blamed : ∀ f, e = .fault f → B f) : Heeds R B x m Q := by
  refine ⟨fun a' m'' other => ?_, fun e' m'' other => ?_⟩
  · cases same.symm.trans other
  · cases same.symm.trans other
    exact ⟨.refl coded, blamed⟩

theorem pure {a : α} (coded : Coded R m.heap) (q : Q a m.heap) :
    Heeds R B (Pure.pure a : Run α) m Q := done rfl (.refl coded) q

theorem fault {cause : Fault.Cause} {token : Option Token} (coded : Coded R m.heap)
    (blamed : B ⟨cause, token⟩) : Heeds R B (Run.fault cause token : Run α) m Q := by
  refine broken rfl coded ?_
  rintro f ⟨⟩
  exact blamed

/-- An end that is no failure. -/
theorem throw {e : Exit} (coded : Coded R m.heap) (other : ∀ f, e ≠ .fault f) :
    Heeds R B (MonadExcept.throw e : Run α) m Q :=
  broken rfl coded fun f same => absurd same (other f)

theorem update {f : Heap → Heap} (grown : m.heap.Extends (f m.heap)) (coded : Coded R (f m.heap)) :
    Heeds R B (Run.update f) m fun _ h => h = f m.heap :=
  done rfl ⟨grown, rfl, coded⟩ rfl

theorem change {f : Heap → α × Heap} (grown : m.heap.Extends (f m.heap).2)
    (coded : Coded R (f m.heap).2) : Heeds R B (Run.change f) m fun a h => f m.heap = (a, h) :=
  done rfl ⟨grown, rfl, coded⟩ rfl

theorem heap (coded : Coded R m.heap) : Heeds R B Run.heap m fun h h' => h = m.heap ∧ h' = m.heap :=
  done rfl (.refl coded) ⟨rfl, rfl⟩

theorem time (coded : Coded R m.heap) : Heeds R B Run.time m fun _ h => h = m.heap :=
  done rfl ⟨.refl m.heap, rfl, coded⟩ rfl

theorem active (coded : Coded R m.heap) :
    Heeds R B Run.active m fun s h => s = m.active ∧ h = m.heap :=
  done rfl (.refl coded) ⟨rfl, rfl⟩

theorem follow {o : Option α} (coded : Coded R m.heap) :
    Heeds R B (Run.follow o) m fun a h => h = m.heap ∧ o = some a := by
  cases o with
  | none => exact throw coded fun _ same => nomatch same
  | some a => exact pure coded ⟨rfl, rfl⟩

theorem bind {f : α → Run β} {P : α → Heap → Prop} {Q : β → Heap → Prop}
    (first : Heeds R B x m P)
    (second : ∀ a m', Follows R m m' → P a m'.heap → Heeds R B (f a) m' Q) :
    Heeds R B (x >>= f) m Q := by
  refine ⟨fun b m'' same => ?_, fun e m'' same => ?_⟩
  · cases ran : x m with
    | error e m' =>
        simp only [Bind.bind, EStateM.bind, ran] at same
        cases same
    | ok a m' =>
        simp only [Bind.bind, EStateM.bind, ran] at same
        obtain ⟨follows, p⟩ := first.ok a m' ran
        obtain ⟨follows', q⟩ := (second a m' follows p).ok b m'' same
        exact ⟨follows.trans follows', q⟩
  · cases ran : x m with
    | error e' m' =>
        simp only [Bind.bind, EStateM.bind, ran] at same
        cases same
        exact first.error e m'' ran
    | ok a m' =>
        simp only [Bind.bind, EStateM.bind, ran] at same
        obtain ⟨follows, p⟩ := first.ok a m' ran
        obtain ⟨follows', blamed⟩ := (second a m' follows p).error e m'' same
        exact ⟨follows.trans follows', blamed⟩

theorem weaken {Q' : α → Heap → Prop} (heeds : Heeds R B x m Q) (imp : ∀ a h, Q a h → Q' a h) :
    Heeds R B x m Q' :=
  ⟨fun a m' same => ⟨(heeds.ok a m' same).1, imp a _ (heeds.ok a m' same).2⟩, heeds.error⟩

theorem more (heeds : Heeds R B x m Q) (imp : ∀ f, B f → B' f) : Heeds R B' x m Q :=
  ⟨heeds.ok, fun e m' same => ⟨(heeds.error e m' same).1,
    fun f fault => imp f ((heeds.error e m' same).2 f fault)⟩⟩

/-! What expressions do. -/

theorem lift {token : Token} {r : Except Fault.Cause Value} (coded : Coded R m.heap)
    (blamed : ∀ cause, r = .error cause → B ⟨cause, some token⟩) :
    Heeds R B (Run.lift token r) m fun _ _ => True := by
  cases r with
  | ok v => exact pure coded trivial
  | error cause => exact fault coded (blamed cause rfl)

theorem lookUp {token : Token} {address : Address} (coded : Coded R m.heap) :
    Heeds R token.Unreadable (Run.lookUp token address) m fun _ _ => True := by
  refine (heap coded).bind ?_
  rintro h m' follows ⟨rfl, -⟩
  cases address with
  | none => exact lift follows.coded fun cause failed => ⟨rfl, Heap.get_error failed⟩
  | some depth =>
      refine (active follows.coded).bind ?_
      rintro s m'' follows' -
      split
      · exact pure follows'.coded trivial
      · next cause failed => exact fault follows'.coded ⟨rfl, .inr (Heap.getAt_fault failed).1⟩
      · exact throw follows'.coded fun _ same => nomatch same

/-- A reserved word is read without failure at its address. -/
theorem lookUp_reserved {token : Token} {depth : Nat} (coded : Coded R m.heap)
    (reserved : token.lexeme = "this" ∨ token.lexeme = "super") :
    Heeds R B (Run.lookUp token (some depth)) m fun _ _ => True := by
  refine (heap coded).bind ?_
  rintro h m' follows ⟨rfl, -⟩
  refine (active follows.coded).bind ?_
  rintro s m'' follows' -
  split
  · exact pure follows'.coded trivial
  · next cause same => exact absurd same (coded.getAt reserved cause)
  · exact throw follows'.coded fun _ same => nomatch same

theorem bound {k : Closure} {i : InstanceId} (coded : Coded R m.heap)
    (code : k.declaration.Coded R) : Heeds R B (Run.bound k i) m fun _ _ => True := by
  refine (change (m.heap.extends_bindReceiver k i) (coded.bindReceiver k i)).bind ?_
  intro k' m' follows made
  have same : k'.declaration = k.declaration := by
    rw [show k' = (m.heap.bindReceiver k i).1 by rw [made]]
    rfl
  refine (change (m'.heap.extends_newFunction k') (follows.coded.newFunction (same ▸ code))).bind ?_
  intro f m'' follows' _
  exact pure follows'.coded trivial

theorem property {i : InstanceId} {name : Name} (coded : Coded R m.heap) :
    Heeds R (fun f => f = ⟨.undefinedProperty name.text, some name.token⟩) (Run.property i name) m
      fun _ _ => True := by
  refine (heap coded).bind ?_
  rintro h m' follows ⟨rfl, -⟩
  refine (Heeds.follow follows.coded).bind ?_
  rintro o m'' follows' -
  split
  · exact pure follows'.coded trivial
  · split
    · next method found => exact bound follows'.coded (coded.findMethod found)
    · exact fault follows'.coded rfl

theorem inheritedMethod {pos : Pos} {method : Name} {depth : Nat} (coded : Coded R m.heap) :
    Heeds R (fun f => f = ⟨.undefinedProperty method.text, some method.token⟩)
      (Run.inheritedMethod pos method (some depth)) m fun _ _ => True := by
  refine (heap coded).bind ?_
  rintro h m' follows ⟨rfl, -⟩
  refine (Heeds.follow follows.coded).bind ?_
  rintro d m₂ follows₂ -
  refine (lookUp_reserved follows₂.coded (.inr rfl)).bind ?_
  intro parent m₃ follows₃ _
  refine (active follows₃.coded).bind ?_
  rintro s m₄ follows₄ -
  split
  · split
    · next found => exact bound follows₄.coded (coded.findMethod found)
    · exact fault follows₄.coded rfl
  · exact throw follows₄.coded fun _ same => nomatch same
  · exact throw follows₄.coded fun _ same => nomatch same

theorem assignFrom {s : ScopeId} {name : Name} {v : Value} (coded : Coded R m.heap) :
    Heeds R (fun f => f = ⟨.undefinedVariable name.text, some name.token⟩) (Run.assignFrom s name v) m
      fun _ _ => True := by
  refine (heap coded).bind ?_
  rintro h m' follows ⟨rfl, -⟩
  split
  · exact (update (m'.heap.extends_define _ _ _) (follows.coded.write _ _ _)).weaken
      fun _ _ _ => trivial
  · exact fault follows.coded rfl

theorem assign {name : Name} {address : Address} {v : Value} (coded : Coded R m.heap) :
    Heeds R (fun f => f = ⟨.undefinedVariable name.text, some name.token⟩)
      (Run.assign name address v) m fun _ _ => True := by
  cases address with
  | none => exact assignFrom coded
  | some depth =>
      refine (active coded).bind ?_
      rintro s m' follows -
      refine (heap follows.coded).bind ?_
      rintro h m'' follows' -
      split
      · exact (update (m''.heap.extends_define _ _ _) (follows'.coded.write _ _ _)).weaken
          fun _ _ _ => trivial
      · exact throw follows'.coded fun _ same => nomatch same

/-! What statements do. -/

theorem define {name : Name} {v : Option Value} (coded : Coded R m.heap) (ordinary : name.Ordinary) :
    Heeds R B (Run.define name.text v) m fun _ h => h = m.heap.define m.active name.text v := by
  refine (active coded).bind ?_
  rintro s m' follows ⟨rfl, same⟩
  rw [← same]
  exact update (m'.heap.extends_define _ _ _) (follows.coded.define (ordinary.valued v))

theorem superclass {parent : Superclass Address} (coded : Coded R m.heap) :
    Heeds R (fun f => parent.name.token.Unreadable f ∨
      f = ⟨.superclassNotClass, some parent.name.token⟩) (Run.superclass parent) m
        fun _ _ => True := by
  refine ((lookUp coded).more fun _ => Or.inl).bind fun v m' follows _ => ?_
  split
  · exact pure follows.coded trivial
  · exact fault follows.coded (.inr rfl)

/-- The scope of the methods leaves the bindings around it. -/
theorem methodScope {around : ScopeId} {above : Option ClassId} (coded : Coded R m.heap) :
    Heeds R B (Recorded.methodScope around above) m fun _ h => m.heap.Extends h := by
  cases above with
  | none => exact pure coded (.refl _)
  | some c =>
      refine (change (m.heap.extends_newScope _) (coded.newScope _)).bind fun s m' follows _ => ?_
      refine (update (m'.heap.extends_define _ _ _) (follows.coded.write _ _ _)).bind ?_
      intro _ m'' follows' _
      exact pure follows'.coded (follows.grown.trans follows'.grown)

/-- A binding that is there is found from its scope on. -/
theorem assignFrom_bound {s : ScopeId} {name : Name} {v : Value} (coded : Coded R m.heap)
    (there : (m.heap.binding? s name.text).isSome = true) :
    Heeds R B (Run.assignFrom s name v) m fun _ _ => True := by
  have found : m.heap.binder? s name.text = some s := by
    rw [Heap.binder?, Heap.chain, List.find?_cons, there]
  refine (heap coded).bind ?_
  rintro h m' follows ⟨rfl, -⟩
  rw [found]
  exact (update (m'.heap.extends_define _ _ _) (follows.coded.write _ _ _)).weaken
    fun _ _ _ => trivial

/-- A class is bound without failure, since its name is bound first. -/
theorem bindClass {name : Name} {above : Option ClassId} {methods : List (Routine Address)}
    (poised : Poised R m) (ordinary : name.Ordinary) (code : ∀ r ∈ methods, r.Coded R) :
    Heeds R B (Recorded.bindClass name above methods) m fun _ _ => True := by
  refine (define poised.coded ordinary).bind fun _ m' follows bound => ?_
  have there : (m'.heap.binding? m'.active name.text).isSome = true := by
    rw [bound, follows.active, Heap.binding?_define_self _ _ poised.alive]
    rfl
  refine (active follows.coded).bind ?_
  rintro s m₂ follows₂ ⟨rfl, same₂⟩
  refine (methodScope follows₂.coded).bind fun t m₃ follows₃ _ => ?_
  have table : ∀ x k, (Run.methodTable t methods).find? x = some k → k.declaration.Coded R :=
    fun x k found => code _ (methodTable_find found).2
  refine (change (m₃.heap.extends_newClass _ _ _) (follows₃.coded.newClass table)).bind ?_
  intro c m₄ follows₄ _
  refine assignFrom_bound follows₄.coded ?_
  exact (follows₂.grown.trans (follows₃.grown.trans follows₄.grown)).bound there

end Heeds
end Run
end LoxLang
