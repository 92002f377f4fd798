import LoxLang.Proofs.Renaming.Heaps
import LoxLang.Proofs.Running.Execution
/-! Runs of a program with a name changed in some scopes. A machine and the machine with the name
changed come by the same code, print the same lines, and stop alike. -/
namespace LoxLang

/-- The failure with its token as that is spelled now, and named after it. -/
def Fault.respell (τ : Respelling) : Fault → Fault
  | ⟨.uninitializedVariable _, some t⟩ =>
    ⟨.uninitializedVariable (t.respell τ).lexeme, some (t.respell τ)⟩
  | ⟨cause, token⟩ => ⟨cause, token.map (Token.respell τ)⟩

/-- A failure is on the line where it was. -/
@[simp] theorem Fault.line_respell (τ : Respelling) (f : Fault) : (f.respell τ).line = f.line := by
  obtain ⟨cause, token⟩ := f
  cases token <;> cases cause <;> simp [respell, line]

/-- A cause that names no variable that has no value yet. -/
def Fault.Cause.Silent (cause : Fault.Cause) : Prop := ∀ x, cause ≠ .uninitializedVariable x

theorem Fault.respell_silent {cause : Fault.Cause} (silent : cause.Silent) (τ : Respelling)
    (token : Option Token) :
    Fault.respell τ ⟨cause, token⟩ = ⟨cause, token.map (Token.respell τ)⟩ := by
  cases cause with
  | uninitializedVariable x => exact absurd rfl (silent x)
  | _ => rfl

theorem UnaryOp.silent {op : UnaryOp} {a : Value} {cause : Fault.Cause}
    (failed : op.apply a = .error cause) : cause.Silent := by
  unfold UnaryOp.apply at failed
  split at failed <;> cases failed
  exact fun _ => Fault.Cause.noConfusion

theorem addValues_silent {a b : Value} {cause : Fault.Cause}
    (failed : addValues a b = .error cause) : cause.Silent := by
  unfold addValues at failed
  split at failed <;> cases failed
  exact fun _ => Fault.Cause.noConfusion

theorem BinaryOp.silent {op : BinaryOp} {a b : Value} {cause : Fault.Cause}
    (failed : op.apply a b = .error cause) : cause.Silent := by
  unfold BinaryOp.apply at failed
  split at failed
  case h_4 => exact addValues_silent failed
  case h_11 =>
    split at failed <;> cases failed
    exact fun _ => Fault.Cause.noConfusion
  all_goals
    cases failed
    try exact fun _ => Fault.Cause.noConfusion

/-- The exit of a run, and that of the run with names changed. -/
inductive Exit.Respelled (τ : Respelling) (ρ : Renaming) : Exit → Exit → Prop
  | returned (v : Value) : Respelled τ ρ (.returned v) (.returned v)
  | fault (f : Fault) : Respelled τ ρ (.fault f) (.fault (f.respell τ))
  | noScope (d : Int) : Respelled τ ρ (.unbound (.noScope d)) (.unbound (.noScope d))
  | notBound (x : String) (d : Int) (b : Bool) :
    Respelled τ ρ (.unbound (.notBound x d)) (.unbound (.notBound (ρ.spell b x) d))
  | overflow : Respelled τ ρ .overflow .overflow
  | endless : Respelled τ ρ .endless .endless
  | illFormed : Respelled τ ρ .illFormed .illFormed

/-- A failure that names nothing that is changed. -/
theorem Exit.Respelled.unbound_same {τ : Respelling} {ρ : Renaming} (u : Unbound) :
    Exit.Respelled τ ρ (.unbound u) (.unbound u) := by
  cases u with
  | noScope d => exact .noScope d
  | notBound x d =>
      have same := Exit.Respelled.notBound (τ := τ) (ρ := ρ) x d false
      rwa [Renaming.spell_false] at same

def Machine.respell (τ : Respelling) (ρ : Renaming) (w : List Bool) (m : Machine) : Machine :=
  ⟨m.heap.respell τ ρ w, m.active, m.world⟩

/-- What a run does to a machine and to the marks. -/
structure Onward (w : List Bool) (m : Machine) (w' : List Bool) (m' : Machine) : Prop where
  grown : m.heap.Extends m'.heap
  active : m'.active = m.active
  marks : w <+: w'

/-- The marks are right, and `F` are those from the active scope outward. -/
structure Outlook (τ : Respelling) (ρ : Renaming) (F : List Bool) (w : List Bool) (m : Machine) :
    Prop where
  marked : m.heap.Marked τ ρ w
  alive : m.heap.Alive m.active
  marks : m.heap.marks w m.active = F

/-- The first result, and that with names changed. -/
inductive Respelled {α : Type} (τ : Respelling) (ρ : Renaming) (w : List Bool) (m : Machine)
    (Q : List Bool → Machine → α → α → Prop) :
    EStateM.Result Exit Machine α → EStateM.Result Exit Machine α → Prop
  | ok {a a' : α} {w' : List Bool} {m' : Machine} : Onward w m w' m' → m'.heap.Marked τ ρ w' →
    Q w' m' a a' → Respelled τ ρ w m Q (.ok a m') (.ok a' (m'.respell τ ρ w'))
  | error {e e' : Exit} {w' : List Bool} {m' : Machine} : Onward w m w' m' →
    m'.heap.Marked τ ρ w' → e.Respelled τ ρ e' →
    Respelled τ ρ w m Q (.error e m') (.error e' (m'.respell τ ρ w'))

/-- The same value. -/
def Equal {α : Type} (_ : List Bool) (_ : Machine) (a b : α) : Prop := a = b

/-- The same value, and nothing has changed. -/
def Still {α : Type} (w : List Bool) (m : Machine) (w' : List Bool) (m' : Machine) (a b : α) :
    Prop := w = w' ∧ m = m' ∧ a = b

variable {α β : Type} {τ : Respelling} {ρ : Renaming} {F w w' w'' : List Bool} {m m' m'' : Machine}

namespace Onward

theorem refl (w : List Bool) (m : Machine) : Onward w m w m :=
  ⟨.refl m.heap, rfl, List.prefix_refl w⟩

theorem trans (o : Onward w m w' m') (o' : Onward w' m' w'' m'') : Onward w m w'' m'' :=
  ⟨o.grown.trans o'.grown, o'.active.trans o.active, o.marks.trans o'.marks⟩

theorem outlook (o : Onward w m w' m') (outlook : Outlook τ ρ F w m)
    (marked : m'.heap.Marked τ ρ w') : Outlook τ ρ F w' m' := by
  refine ⟨marked, ?_, ?_⟩
  · rw [o.active]
    exact o.grown.alive outlook.alive
  · rw [o.active, outlook.marked.marks_grow o.grown o.marks outlook.alive]
    exact outlook.marks

end Onward

namespace Run

/-- Two computations do the same, the second one with names changed. -/
def Renames (τ : Respelling) (ρ : Renaming) (Q : List Bool → Machine → α → α → Prop)
    (x x' : Run α) (w : List Bool) (m : Machine) : Prop :=
  Respelled τ ρ w m Q (x m) (x' (m.respell τ ρ w))

namespace Renames
variable {Q Q' : List Bool → Machine → α → α → Prop} {P : List Bool → Machine → β → β → Prop}
  {x x' : Run α}

theorem pure {a a' : α} (marked : m.heap.Marked τ ρ w) (q : Q w m a a') :
    Renames τ ρ Q (Pure.pure a) (Pure.pure a') w m :=
  .ok (.refl w m) marked q

theorem stop {e e' : Exit} (marked : m.heap.Marked τ ρ w) (same : e.Respelled τ ρ e') :
    Renames τ ρ Q (throw e) (throw e') w m :=
  .error (.refl w m) marked same

theorem fault {cause : Fault.Cause} (marked : m.heap.Marked τ ρ w) (silent : cause.Silent)
    (token : Option Token) :
    Renames τ ρ Q (Run.fault cause token) (Run.fault cause (token.map (Token.respell τ))) w m := by
  refine stop marked ?_
  rw [← Fault.respell_silent silent τ token]
  exact .fault _

theorem weaken (r : Renames τ ρ Q x x' w m) (imp : ∀ w' m' a a', Q w' m' a a' → Q' w' m' a a') :
    Renames τ ρ Q' x x' w m := by
  unfold Renames at r ⊢
  generalize x m = y, x' (m.respell τ ρ w) = y' at r
  cases r with
  | ok o marked q => exact .ok o marked (imp _ _ _ _ q)
  | error o marked same => exact .error o marked same

theorem bind {f f' : α → Run β} (first : Renames τ ρ Q x x' w m)
    (second : ∀ a a' w' m', Onward w m w' m' → m'.heap.Marked τ ρ w' → Q w' m' a a' →
      Renames τ ρ P (f a) (f' a') w' m') : Renames τ ρ P (x >>= f) (x' >>= f') w m := by
  unfold Renames at first ⊢
  simp only [Bind.bind, EStateM.bind]
  generalize x m = y, x' (m.respell τ ρ w) = y' at first
  cases first with
  | error o marked same => exact .error o marked same
  | @ok a a' w' m' o marked q =>
      have rest := second a a' w' m' o marked q
      unfold Renames at rest
      dsimp only
      generalize f a m' = z, f' a' (m'.respell τ ρ w') = z' at rest
      cases rest with
      | ok o' marked' p => exact .ok (o.trans o') marked' p
      | error o' marked' same => exact .error (o.trans o') marked' same

/-- Both look at their heaps. -/
theorem read {f f' : Heap → Run α}
    (r : Renames τ ρ Q (f m.heap) (f' (m.heap.respell τ ρ w)) w m) :
    Renames τ ρ Q (Run.heap >>= f) (Run.heap >>= f') w m := r

theorem active {f f' : ScopeId → Run α} (r : Renames τ ρ Q (f m.active) (f' m.active) w m) :
    Renames τ ρ Q (Run.active >>= f) (Run.active >>= f') w m := r

theorem change {c c' : Heap → α × Heap} {a' : α} (grown : m.heap.Extends (c m.heap).2)
    (more : w <+: w') (marked : (c m.heap).2.Marked τ ρ w')
    (same : c' (m.heap.respell τ ρ w) = (a', (c m.heap).2.respell τ ρ w'))
    (q : Q w' ⟨(c m.heap).2, m.active, m.world⟩ (c m.heap).1 a') :
    Renames τ ρ Q (Run.change c) (Run.change c') w m := by
  simp only [Renames, Run.change, Machine.respell, same]
  exact .ok ⟨grown, rfl, more⟩ marked q

theorem update {c c' : Heap → Heap} {Q : List Bool → Machine → Unit → Unit → Prop}
    (grown : m.heap.Extends (c m.heap)) (marked : (c m.heap).Marked τ ρ w)
    (same : c' (m.heap.respell τ ρ w) = (c m.heap).respell τ ρ w)
    (q : Q w ⟨c m.heap, m.active, m.world⟩ () ()) :
    Renames τ ρ Q (Run.update c) (Run.update c') w m := by
  simp only [Renames, Run.update, Machine.respell, same]
  exact .ok ⟨grown, rfl, List.prefix_refl w⟩ marked q

theorem follow {o o' : Option α} (marked : m.heap.Marked τ ρ w)
    (none : o = none → o' = none) (some : ∀ a, o = some a → ∃ a', o' = some a' ∧ Q w m a a') :
    Renames τ ρ Q (Run.follow o) (Run.follow o') w m := by
  cases o with
  | none =>
      rw [none rfl]
      exact stop marked .illFormed
  | some a =>
      obtain ⟨a', rfl, q⟩ := some a rfl
      exact pure marked q

/-- Both follow the same reference. -/
theorem follow_same (o : Option α) (marked : m.heap.Marked τ ρ w) :
    Renames τ ρ (Still w m) (Run.follow o) (Run.follow o) w m :=
  follow marked id fun a found => ⟨a, found, rfl, rfl, rfl⟩

theorem equal (r : Renames τ ρ (Still w m) x x' w m) : Renames τ ρ Equal x x' w m :=
  r.weaken fun _ _ _ _ still => still.2.2

theorem print (marked : m.heap.Marked τ ρ w) (line : String) :
    Renames τ ρ Equal (Run.print line) (Run.print line) w m := by
  have onward : Onward w m w ⟨m.heap, m.active, m.world.print line⟩ :=
    ⟨.refl m.heap, rfl, List.prefix_refl w⟩
  exact .ok onward marked rfl

theorem time (marked : m.heap.Marked τ ρ w) :
    Renames τ ρ Equal Run.time Run.time w m := by
  have onward : Onward w m w ⟨m.heap, m.active, m.world.time.2⟩ :=
    ⟨.refl m.heap, rfl, List.prefix_refl w⟩
  exact .ok onward marked rfl

theorem lift {t : Token} (marked : m.heap.Marked τ ρ w) (r : Except Fault.Cause Value)
    (silent : ∀ cause, r = .error cause → cause.Silent) :
    Renames τ ρ Equal (Run.lift t r) (Run.lift (t.respell τ) r) w m := by
  cases r with
  | ok v => exact pure marked rfl
  | error cause => exact fault marked (silent cause rfl) (some t)

/-! Variables. -/

theorem lookUp {t : Token} {address : Address} (outlook : Outlook τ ρ F w m)
    (fresh : t.lexeme ≠ ρ.new)
    (spelled : (t.respell τ).lexeme = ρ.spell (changedAt F address) t.lexeme) :
    Renames τ ρ (Still w m) (Run.lookUp t address) (Run.lookUp (t.respell τ) address) w m := by
  obtain ⟨marked, alive, rfl⟩ := outlook
  refine read ?_
  cases address with
  | none =>
      -- No global variable is renamed.
      have same : (t.respell τ).lexeme = t.lexeme := spelled.trans Renaming.spell_false
      dsimp only
      rw [same, marked.get_globals]
      unfold Heap.get
      cases m.heap.lookup Machine.globals t.lexeme with
      | none => exact fault marked (fun _ => Fault.Cause.noConfusion) (some t)
      | some b =>
          cases b with
          | some v => exact pure marked ⟨rfl, rfl, rfl⟩
          | none =>
              have failed := Exit.Respelled.fault (τ := τ) (ρ := ρ)
                ⟨.uninitializedVariable t.lexeme, some t⟩
              rw [Fault.respell, same] at failed
              exact stop marked failed
  | some d =>
      refine active ?_
      simp only [Heap.getAt, Heap.ancestor_nat, Heap.chain_respell, spelled]
      cases there : (m.heap.chain m.active)[d]? with
      | none => exact stop marked (.noScope d)
      | some s =>
          simp only [marked.binding_at there fresh]
          cases m.heap.binding? s t.lexeme with
          | none => exact stop marked (.notBound _ _ _)
          | some b =>
              cases b with
              | some v => exact pure marked ⟨rfl, rfl, rfl⟩
              | none =>
                  -- The message names the variable as its scope has it.
                  have failed := Exit.Respelled.fault (τ := τ) (ρ := ρ)
                    ⟨.uninitializedVariable t.lexeme, some t⟩
                  rw [Fault.respell, spelled] at failed
                  exact stop marked failed

/-- A name that follows is read as it is spelled. -/
theorem lookUpName {name : Name} {address : Address} {fixed : Bool} (outlook : Outlook τ ρ F w m)
    (follows : Use.Follows τ ρ F ⟨name, address, fixed⟩) :
    Renames τ ρ (Still w m) (Run.lookUp name.token address)
      (Run.lookUp (name.respell τ).token address) w m :=
  lookUp outlook follows.fresh follows.text

theorem lookUpReceiver (p : Pos) {address : Address} (outlook : Outlook τ ρ F w m) :
    Renames τ ρ (Still w m) (Run.lookUp (receiverToken p) address)
      (Run.lookUp (receiverToken (τ.pos p)) address) w m :=
  lookUp outlook ρ.new_ordinary.1.symm Renaming.spell_this.symm

theorem lookUpInherited (p : Pos) {address : Address} (outlook : Outlook τ ρ F w m) :
    Renames τ ρ (Still w m) (Run.lookUp (inheritedToken p) address)
      (Run.lookUp (inheritedToken (τ.pos p)) address) w m :=
  lookUp outlook ρ.new_ordinary.2.symm Renaming.spell_super.symm

/-- A name is given a value in a scope as that scope has it. -/
theorem updateDefine (marked : m.heap.Marked τ ρ w) (s : ScopeId) {x y : String}
    (fresh : x ≠ ρ.new) (spelled : y = ρ.spell (changedIn w s) x) (v : Option Value) :
    Renames τ ρ Equal (Run.update (·.define s x v)) (Run.update (·.define s y v)) w m := by
  subst spelled
  exact update (m.heap.extends_define s x v) (marked.define s fresh v)
    (Heap.define_respell (marked.fresh s) fresh v).symm rfl

theorem define {name : Name} {fixed : Bool} (outlook : Outlook τ ρ F w m)
    (follows : Use.Follows τ ρ F ⟨name, some 0, fixed⟩) (v : Option Value) :
    Renames τ ρ Equal (Run.define name.text v) (Run.define (name.respell τ).text v) w m := by
  obtain ⟨marked, alive, rfl⟩ := outlook
  exact active (updateDefine marked m.active follows.fresh follows.text v)

theorem assignGlobal {name : Name} {fixed : Bool} (marked : m.heap.Marked τ ρ w)
    (follows : Use.Follows τ ρ F ⟨name, none, fixed⟩) (v : Value) :
    Renames τ ρ Equal (Run.assignFrom Machine.globals name v)
      (Run.assignFrom Machine.globals (name.respell τ) v) w m := by
  refine read ?_
  rw [Name.text_respell, follows.property, marked.binder?_globals]
  cases found : m.heap.binder? Machine.globals name.text with
  | none => exact fault marked (fun _ => Fault.Cause.noConfusion) (some name.token)
  | some t =>
      obtain rfl : t = Machine.globals := by
        have member := List.mem_of_find?_eq_some found
        rw [marked.alone] at member
        exact List.mem_singleton.mp member
      refine updateDefine marked _ follows.fresh ?_ _
      rw [marked.globals, Renaming.spell_false]

theorem assignLocal {name : Name} {d : Nat} {fixed : Bool} (outlook : Outlook τ ρ F w m)
    (follows : Use.Follows τ ρ F ⟨name, some d, fixed⟩) (v : Value) :
    Renames τ ρ Equal (Run.assignAt d name v) (Run.assignAt d (name.respell τ) v) w m := by
  obtain ⟨marked, alive, rfl⟩ := outlook
  have spelled : τ.text name = ρ.spell (changedAt (m.heap.marks w m.active) (some d)) name.text :=
    follows.text
  refine active (read ?_)
  simp only [Heap.binderAt, Heap.ancestor_nat, Heap.chain_respell, Name.text_respell]
  cases there : (m.heap.chain m.active)[d]? with
  | none => exact stop marked (.noScope d)
  | some s =>
      have same := marked.binding_at there follows.fresh
      rw [← spelled] at same
      simp only [same]
      by_cases bound : (m.heap.binding? s name.text).isSome = true
      · simp only [if_pos bound]
        rw [Heap.changedAt_marks there] at spelled
        exact updateDefine marked s follows.fresh spelled _
      · simp only [if_neg bound]
        rw [spelled]
        exact stop marked (.notBound _ _ _)

theorem assign {name : Name} {address : Address} {fixed : Bool} (outlook : Outlook τ ρ F w m)
    (follows : Use.Follows τ ρ F ⟨name, address, fixed⟩) (v : Value) :
    Renames τ ρ Equal (Run.assign name address v) (Run.assign (name.respell τ) address v) w m := by
  cases address with
  | none => exact assignGlobal outlook.marked follows v
  | some d => exact assignLocal outlook follows v

/-! Methods and classes. -/

theorem newScope {s : ScopeId} (marked : m.heap.Marked τ ρ w) (alive : m.heap.Alive s) (b : Bool) :
    Renames τ ρ (fun w' m' t t' => t' = t ∧ m'.heap.Alive t ∧ m'.heap.marks w' t =
      b :: m.heap.marks w s) (Run.change (·.newScope (some s))) (Run.change (·.newScope (some s)))
      w m :=
  change (m.heap.extends_newScope _) (List.prefix_append w [b]) (marked.newScope alive b)
    (m.heap.newScope_respell marked.size _ b)
    ⟨rfl, Heap.alive_newScope _ _, marked.marks_newScope alive b⟩

theorem newFunction {k : Closure} (marked : m.heap.Marked τ ρ w)
    (follows : m.heap.FollowsFrom τ ρ w k.scope [] k.declaration) :
    Renames τ ρ Equal (Run.change (·.newFunction k)) (Run.change (·.newFunction (k.respell τ))) w m :=
  change (m.heap.extends_newFunction k) (List.prefix_refl w) (marked.newFunction follows)
    (m.heap.newFunction_respell k) rfl

theorem bindReceiver {method : Closure} (marked : m.heap.Marked τ ρ w) (i : InstanceId)
    (follows : m.heap.FollowsFrom τ ρ w method.scope [false] method.declaration) :
    Renames τ ρ (fun w' m' k k' => k' = k.respell τ ∧
      m'.heap.FollowsFrom τ ρ w' k.scope [] k.declaration) (Run.change (·.bindReceiver method i))
      (Run.change (·.bindReceiver (method.respell τ) i)) w m := by
  obtain ⟨marked', follows'⟩ := marked.bindReceiver i follows
  exact change (m.heap.extends_bindReceiver method i) (List.prefix_append w [false]) marked'
    (Heap.bindReceiver_respell marked method i) ⟨rfl, follows'⟩

theorem bound {method : Closure} (marked : m.heap.Marked τ ρ w) (i : InstanceId)
    (follows : m.heap.FollowsFrom τ ρ w method.scope [false] method.declaration) :
    Renames τ ρ Equal (Run.bound method i) (Run.bound (method.respell τ) i) w m := by
  refine (bindReceiver marked i follows).bind ?_
  rintro k _ w' m' - marked' ⟨rfl, follows'⟩
  refine (newFunction marked' follows').bind ?_
  rintro f _ w' m' - marked' rfl
  exact pure marked' rfl

/-- A method is looked up, and bound if there is one. -/
theorem boundMethod {name : Name} {fixed : Bool} (marked : m.heap.Marked τ ρ w) (c : ClassId)
    (i : InstanceId) (follows : Use.Follows τ ρ F ⟨name, none, fixed⟩) :
    Renames τ ρ Equal
      (match m.heap.findMethod c name.text with
      | some method => Run.bound method i
      | none => Run.fault (.undefinedProperty name.text) (some name.token))
      (match (m.heap.respell τ ρ w).findMethod c (name.respell τ).text with
      | some method => Run.bound method i
      | none => Run.fault (.undefinedProperty (name.respell τ).text) (some (name.respell τ).token))
      w m := by
  rw [Name.text_respell, follows.property, Heap.findMethod_respell]
  cases found : m.heap.findMethod c name.text with
  | none => exact fault marked (fun _ same => by cases same) (some name.token)
  | some method => exact bound marked i (marked.findMethod found)

theorem property {name : Name} {fixed : Bool} (marked : m.heap.Marked τ ρ w) (i : InstanceId)
    (follows : Use.Follows τ ρ F ⟨name, none, fixed⟩) :
    Renames τ ρ Equal (Run.property i name) (Run.property i (name.respell τ)) w m := by
  refine read ((follow_same (m.heap.instance? i) marked).bind ?_)
  rintro o _ _ _ - - ⟨rfl, rfl, rfl⟩
  have method := boundMethod marked o.ofClass i follows
  rw [Name.text_respell, follows.property] at method ⊢
  cases o.fields.find? name.text with
  | some v => exact pure marked rfl
  | none => exact method

theorem setField {name : Name} {fixed : Bool} (marked : m.heap.Marked τ ρ w) (i : InstanceId)
    (follows : Use.Follows τ ρ F ⟨name, none, fixed⟩) (v : Value) :
    Renames τ ρ Equal (Run.update (·.setField i name.text v))
      (Run.update (·.setField i (name.respell τ).text v)) w m := by
  rw [Name.text_respell, follows.property]
  exact update (m.heap.extends_setField i _ v) (marked.setField i _ v) rfl rfl

theorem inheritedMethod {pos : Pos} {method : Name} {address : Address} {fixed : Bool}
    (outlook : Outlook τ ρ F w m) (follows : Use.Follows τ ρ F ⟨method, none, fixed⟩) :
    Renames τ ρ Equal (Run.inheritedMethod pos method address)
      (Run.inheritedMethod (τ.pos pos) (method.respell τ) address) w m := by
  refine read ((follow_same address outlook.marked).bind ?_)
  rintro depth _ _ _ - - ⟨rfl, rfl, rfl⟩
  refine (lookUpInherited pos outlook).bind ?_
  rintro parent _ _ _ - - ⟨rfl, rfl, rfl⟩
  refine active ?_
  rw [outlook.marked.getAt_this]
  split
  · exact boundMethod outlook.marked _ _ follows
  · exact stop outlook.marked (.unbound_same _)
  · exact stop outlook.marked .illFormed

theorem superclass {parent : Superclass Address} {fixed : Bool} (outlook : Outlook τ ρ F w m)
    (follows : Use.Follows τ ρ F ⟨parent.name, parent.address, fixed⟩) :
    Renames τ ρ Equal (Run.superclass parent) (Run.superclass (parent.respell τ)) w m := by
  refine (lookUpName outlook follows).bind ?_
  rintro v _ _ _ - - ⟨rfl, rfl, rfl⟩
  have other : Renames τ ρ (Equal (α := ClassId))
      (Run.fault .superclassNotClass (some parent.name.token))
      (Run.fault .superclassNotClass (some (parent.name.respell τ).token)) w m :=
    fault outlook.marked (fun _ same => by cases same) (some parent.name.token)
  cases v with
  | callable c =>
      cases c with
      | ofClass c => exact pure outlook.marked rfl
      | native _ | function _ => exact other
  | nil | bool _ | number _ | text _ | object _ => exact other

theorem defineBound {name : Name} {fixed : Bool} (outlook : Outlook τ ρ F w m)
    (follows : Use.Follows τ ρ F ⟨name, some 0, fixed⟩) (v : Option Value) :
    Renames τ ρ (fun _ m' _ _ => (m'.heap.binding? m'.active name.text).isSome = true)
      (Run.define name.text v) (Run.define (name.respell τ).text v) w m := by
  obtain ⟨marked, alive, rfl⟩ := outlook
  have spelled : τ.text name = ρ.spell (changedIn w m.active) name.text := follows.text
  refine active (update (m.heap.extends_define _ _ v) (marked.define _ follows.fresh v) ?_ ?_)
  · rw [Name.text_respell, spelled]
    exact (Heap.define_respell (marked.fresh _) follows.fresh v).symm
  · rw [Heap.binding?_define_self _ _ alive]
    rfl

/-- A name that the active scope binds is assigned there. -/
theorem assignHere {name : Name} {fixed : Bool} (outlook : Outlook τ ρ F w m)
    (follows : Use.Follows τ ρ F ⟨name, some 0, fixed⟩)
    (bound : (m.heap.binding? m.active name.text).isSome = true) (v : Value) :
    Renames τ ρ Equal (Run.assignFrom m.active name v) (Run.assignFrom m.active (name.respell τ) v)
      w m := by
  obtain ⟨marked, alive, rfl⟩ := outlook
  have spelled : τ.text name = ρ.spell (changedIn w m.active) name.text := follows.text
  have same := Heap.binding?_respell (τ := τ) (marked.fresh m.active) follows.fresh
  rw [← spelled] at same
  have here : m.heap.binder? m.active name.text = some m.active := by
    simp [Heap.binder?, Heap.chain, bound]
  have here' : (m.heap.respell τ ρ w).binder? m.active (name.respell τ).text = some m.active := by
    simp [Heap.binder?, Heap.chain, same, bound]
  refine read ?_
  rw [here, here']
  exact updateDefine marked m.active follows.fresh spelled _

/-- The scope of methods has no names of the program between it and the class. -/
theorem methodScope (outlook : Outlook τ ρ F w m) (above : Option ClassId) :
    Renames τ ρ (fun w' m' t t' => t = t' ∧ m'.heap.Alive t ∧
      m'.heap.marks w' t = above.toList.map (fun _ => false) ++ F)
      (Recorded.methodScope m.active above) (Recorded.methodScope m.active above) w m := by
  cases above with
  | none => exact pure outlook.marked ⟨rfl, outlook.alive, outlook.marks⟩
  | some c =>
      refine (newScope outlook.marked outlook.alive false).bind ?_
      rintro _ t w' m' - marked' ⟨rfl, alive, marks⟩
      have unchanged : changedIn w' t = false := (List.cons.inj marks).1
      refine bind (Q := fun w'' m'' _ _ => m''.heap.Alive t ∧ m''.heap.marks w'' t = false :: F)
        (update (m'.heap.extends_define t _ _) (marked'.define t ρ.new_ordinary.2.symm _) ?_
          ⟨(m'.heap.extends_define t _ _).alive alive, ?_⟩) ?_
      · have defined := Heap.define_respell (τ := τ) (marked'.fresh t) ρ.new_ordinary.2.symm
          (some (.callable (.ofClass c)))
        rw [Renaming.spell_super] at defined
        exact defined.symm
      · rw [Heap.marks_define, marks, outlook.marks]
      · rintro _ _ w'' m'' - marked'' ⟨alive', marks'⟩
        exact pure marked'' ⟨rfl, alive', marks'⟩

end Renames

/-- What is known of the methods of a class is known of each. -/
theorem followed_methods {methods : List (Routine Address)}
    (follow : Followed τ ρ F (usesOfMethods methods) (scopesOfMethods methods)) :
    ∀ r ∈ methods, τ.text r.name = r.name.text ∧ Followed τ ρ F r.uses r.scopes := by
  induction methods with
  | nil => simp
  | cons r rest ih =>
      obtain ⟨name, uses⟩ := List.forall_mem_cons.mp follow.uses
      obtain ⟨uses, uses'⟩ := List.forall_mem_append.mp uses
      obtain ⟨scopes, scopes'⟩ := List.forall_mem_append.mp follow.scopes
      exact List.forall_mem_cons.mpr ⟨⟨name.property, uses, scopes⟩, ih ⟨uses', scopes'⟩⟩

theorem methodTable_respell (s : ScopeId) {methods : List (Routine Address)}
    (names : ∀ r ∈ methods, τ.text r.name = r.name.text) :
    methodTable s (respellMethods τ methods) = (methodTable s methods).map (Closure.respell τ) := by
  suffices same : ∀ t : Table Closure, (respellMethods τ methods).foldl (fun t r =>
      t.put r.name.text ⟨r, s, r.name.text = "init"⟩) (t.map (Closure.respell τ)) =
        (methods.foldl (fun t r => t.put r.name.text ⟨r, s, r.name.text = "init"⟩) t).map
          (Closure.respell τ) from same Table.empty
  induction methods with
  | nil => exact fun _ => rfl
  | cons r rest ih =>
      intro t
      obtain ⟨name, names⟩ := List.forall_mem_cons.mp names
      rw [List.foldl_cons, ← ih names, ← Table.put_map]
      simp [respellMethods, Closure.respell, name]

namespace Renames

theorem makeClass {name : Name} {above : Option ClassId} {methods : List (Routine Address)}
    {scope : ScopeId} (outlook : Outlook τ ρ F w m)
    (declared : Use.Follows τ ρ F ⟨name, some 0, true⟩)
    (bound : (m.heap.binding? m.active name.text).isSome = true) (alive : m.heap.Alive scope)
    (code : Followed τ ρ (false :: m.heap.marks w scope) (usesOfMethods methods)
      (scopesOfMethods methods)) :
    Renames τ ρ Equal (Recorded.makeClass name above methods m.active scope)
      (Recorded.makeClass (name.respell τ) above (respellMethods τ methods) m.active scope) w m := by
  have each := followed_methods code
  have table := methodTable_respell scope fun r member => (each r member).1
  have follow : ∀ x k, (methodTable scope methods).find? x = some k →
      m.heap.FollowsFrom τ ρ w k.scope [false] k.declaration := by
    intro x k found
    obtain ⟨rfl, member⟩ := methodTable_find found
    exact ⟨alive, (each _ member).1, (each _ member).2⟩
  have e := m.heap.extends_newClass name.text above (methodTable scope methods)
  have marked : (m.heap.newClass name.text above (methodTable scope methods)).2.Marked τ ρ w :=
    outlook.marked.newClass follow
  refine bind (Q := fun w' m' k k' => w = w' ∧ m.active = m'.active ∧ k = k' ∧
    (m'.heap.binding? m'.active name.text).isSome = true)
    (change e (List.prefix_refl w) marked ?_ ⟨rfl, rfl, rfl, e.bound bound⟩) ?_
  · rw [table, Name.text_respell, declared.fixed rfl]
    exact m.heap.newClass_respell _ _ _
  · rintro k _ _ m' onward marked' ⟨rfl, same, rfl, bound'⟩
    rw [same]
    exact assignHere (onward.outlook outlook marked') declared bound' _

theorem bindClass {name : Name} (above : Option ClassId) {methods : List (Routine Address)}
    (outlook : Outlook τ ρ F w m) (declared : Use.Follows τ ρ F ⟨name, some 0, true⟩)
    (code : Followed τ ρ (false :: (above.toList.map (fun _ => false) ++ F)) (usesOfMethods methods)
      (scopesOfMethods methods)) :
    Renames τ ρ Equal (Recorded.bindClass name above methods)
      (Recorded.bindClass (name.respell τ) above (respellMethods τ methods)) w m := by
  refine (defineBound outlook declared none).bind ?_
  rintro _ _ w' m' onward marked bound
  have outlook := onward.outlook outlook marked
  refine active ((methodScope outlook above).bind ?_)
  rintro scope _ w'' m'' onward' marked' ⟨rfl, alive, marks⟩
  rw [← onward'.active]
  refine makeClass (onward'.outlook outlook marked') declared ?_ alive (marks ▸ code)
  rw [onward'.active]
  exact onward'.grown.bound bound

/-- A function that is declared sees its own scope. -/
theorem declareFunction {r : Routine Address} (outlook : Outlook τ ρ F w m)
    (declared : Use.Follows τ ρ F ⟨r.name, some 0, true⟩) (code : Followed τ ρ F r.uses r.scopes) :
    Renames τ ρ Equal
      (do
        let f ← Run.change (·.newFunction ⟨r, (← Run.active), false⟩)
        Run.define r.name.text (some (.callable (.function f))))
      (do
        let f ← Run.change (·.newFunction ⟨r.respell τ, (← Run.active), false⟩)
        Run.define (r.respell τ).name.text (some (.callable (.function f)))) w m := by
  have follows : m.heap.FollowsFrom τ ρ w m.active [] r :=
    ⟨outlook.alive, declared.fixed rfl, by rwa [List.nil_append, outlook.marks]⟩
  refine active ((newFunction (k := ⟨r, m.active, false⟩) outlook.marked follows).bind ?_)
  rintro f _ w' m' onward marked rfl
  rw [Routine.name_respell]
  exact define (onward.outlook outlook marked) declared _

theorem display (outlook : Outlook τ ρ F w m) (v : Value) :
    Renames τ ρ Equal (do Run.print ((← Run.heap).display v))
      (do Run.print ((← Run.heap).display v)) w m := by
  refine read ?_
  rw [outlook.marked.display]
  exact print outlook.marked _

/-- A block is entered. -/
theorem openBlock (outlook : Outlook τ ρ F w m) (b : Bool) :
    Renames τ ρ (fun w' m' s s' => s' = s ∧ Outlook τ ρ (b :: F) w' { m' with active := s })
      (do Run.change (·.newScope (some (← Run.active))))
      (do Run.change (·.newScope (some (← Run.active)))) w m := by
  refine active ((newScope outlook.marked outlook.alive b).bind ?_)
  rintro s _ w' m' onward marked ⟨rfl, alive, marks⟩
  exact pure marked ⟨rfl, marked, alive, by rw [marks, outlook.marks]⟩

/-- A routine is entered. -/
theorem openActivation {k : Closure} {b : Bool} (arguments : List Value)
    (marked : m.heap.Marked τ ρ w) (alive : m.heap.Alive k.scope)
    (params : ∀ p ∈ k.declaration.params,
      Use.Follows τ ρ (b :: m.heap.marks w k.scope) ⟨p, some 0, false⟩) :
    Renames τ ρ
      (fun w' m' s s' => s' = s ∧
        Outlook τ ρ (b :: m.heap.marks w k.scope) w' { m' with active := s })
      (Recorded.openActivation k arguments) (Recorded.openActivation (k.respell τ) arguments)
      w m := by
  refine (newScope marked alive b).bind ?_
  rintro _ s w' m' - marked' ⟨rfl, alive', marks⟩
  have grown := m'.heap.extends_bindParameters s k.declaration.params arguments
  have here : changedIn w' s = b := (List.cons.inj marks).1
  obtain ⟨marked'', same⟩ := Heap.bindParameters_respell k.declaration.params arguments
    (here ▸ params) m'.heap marked'
  refine bind (Q := fun w'' m'' _ _ => m''.heap.Alive s ∧
    m''.heap.marks w'' s = b :: m.heap.marks w k.scope)
    (update grown marked'' ?_ ⟨grown.alive alive', ?_⟩) ?_
  · simpa [Closure.respell] using same
  · rw [marked'.marks_grow grown (List.prefix_refl w') alive']
    exact marks
  · rintro _ _ w'' m'' - marked''' ⟨alive'', marks''⟩
    exact pure marked''' ⟨rfl, marked''', alive'', marks''⟩

/-- An initializer yields its receiver. -/
theorem yielded (marked : m.heap.Marked τ ρ w) (k : Closure) (v : Value) :
    Renames τ ρ Equal (Run.yielded k v) (Run.yielded (k.respell τ) v) w m := by
  unfold Run.yielded
  by_cases initializer : k.isInitializer = true
  · simp only [Closure.respell, initializer, if_true]
    refine read ?_
    rw [marked.getAt_this]
    cases m.heap.getAt k.scope 0 "this" with
    | ok receiver => exact pure marked rfl
    | error _ => exact stop marked .illFormed
  · simp only [Closure.respell, initializer]
    exact pure marked rfl

end Renames
end Run
end LoxLang
