import LoxLang.Proofs.Chronicle.Erasure
import LoxLang.Proofs.Chronicle.Running
import LoxLang.Proofs.Sessions
/-! Chronicles of sessions. The register is kept over all inputs, and at every state that a session
comes to, between two inputs or in the midst of a run, it is right about the heap. -/
namespace LoxLang
namespace Session

/-- A session with the register of its runs and the moments that it came to before. -/
structure Chronicle where
  session : Session
  register : Register
  moments : List Moment

namespace Chronicle

def start (now : Clock) : Chronicle := ⟨Session.start now, Register.empty, []⟩

/-- Where the session is. -/
def now (b : Chronicle) : Moment := ⟨b.session.machine, b.register⟩

/-- All that a session came to, in its runs and between them, the latest first. -/
def states (b : Chronicle) : List Moment := b.now :: b.moments

/-- A chronicled run of a program on the machine of the session. -/
def chronicled (limits : Limits) (b : Chronicle) (program : List (Stmt Address)) :
    EStateM.Result Exit Scene (Option Value) :=
  Chronicled.program limits program ⟨b.session.machine, b.register, b.states⟩

/-- What a chronicled run leaves behind. -/
def close (b : Chronicle) (ran : EStateM.Result Exit Scene (Option Value)) : Chronicle where
  session := ⟨(left ran).machine.flush, told b.session.reporter (concluded ran)⟩
  register := (left ran).register
  moments := (left ran).moments

/-- Runs a source text and goes on with the register. What is rejected is not run. -/
def run (limits : Limits) (flags : Flags) (b : Chronicle) (text : String) : Chronicle :=
  if b.session.Runs text then b.close (b.chronicled limits (resolve (spelled text)).program)
  else ⟨(Session.run limits flags b.session text).session, b.register, b.states⟩

def feed (limits : Limits) (b : Chronicle) : Input → Chronicle
  | .source flags text => b.run limits flags text
  | .native n => ⟨b.session.register n, b.register, b.states⟩
  | .reset => ⟨b.session.reset, b.register, b.states⟩

def feedAll (limits : Limits) (b : Chronicle) (inputs : List Input) : Chronicle :=
  inputs.foldl (feed limits) b

end Chronicle

theorem left_struck_scene (r : EStateM.Result Exit Scene (Option Value)) :
    left (Chronicled.struck r) = (left r).machine := by
  cases r <;> rfl

theorem concluded_struck_scene (r : EStateM.Result Exit Scene (Option Value)) :
    concluded (Chronicled.struck r) = concluded r := by
  cases r with
  | ok v a => rfl
  | error e a => cases e <;> rfl

variable (limits : Limits)

namespace Chronicle
variable {R : Regime} {b : Chronicle}

/-! The session of a chronicle is the session. -/

theorem run_session (flags : Flags) (b : Chronicle) (text : String) :
    (b.run limits flags text).session = (Session.run limits flags b.session text).session := by
  unfold run
  by_cases runs : b.session.Runs text
  · have does := Chronicled.program_does limits (resolve (spelled text)).program
      ⟨b.session.machine, b.register, b.states⟩
    rw [if_pos runs, (run_of_runs runs limits flags).1, (execute_eq limits b.session _).2, does,
      left_struck_scene, concluded_struck_scene]
    rfl
  · rw [if_neg runs]

theorem feed_session (b : Chronicle) (input : Input) :
    (b.feed limits input).session = b.session.feed limits input := by
  cases input with
  | source flags text => exact b.run_session limits flags text
  | native n => rfl
  | reset => rfl

theorem feedAll_session (b : Chronicle) (inputs : List Input) :
    (b.feedAll limits inputs).session = b.session.feedAll limits inputs := by
  induction inputs generalizing b with
  | nil => rfl
  | cons input rest ih =>
      refine (ih (b.feed limits input)).trans ?_
      rw [feed_session]
      rfl

/-- The register is right between runs, as it was at every moment, and the global scope is
active. -/
structure Sound (R : Regime) (b : Chronicle) : Prop where
  scene : Scene.Sound R ⟨b.session.machine, b.register, b.moments⟩
  active : b.session.machine.active = Machine.globals

namespace Sound

/-- Where a session is, it has been from now on. -/
theorem noted (sound : b.Sound R) : Scene.Sound R ⟨b.session.machine, b.register, b.states⟩ := by
  refine ⟨sound.scene.register, List.forall_mem_cons.mpr ⟨?_, sound.scene.moments⟩, ?_⟩
  · exact ⟨sound.scene.register, .refl _, .refl _⟩
  · exact List.pairwise_cons.mpr
      ⟨fun m member => (sound.scene.moments m member).2, sound.scene.ordered⟩

theorem register {s : Session} {l : Register} {moments : List Moment} {n : Native}
    (sound : Sound R ⟨s, l, moments⟩) (sane : R.typed → n.Sane) :
    Sound R ⟨s.register n, l, moments⟩ := by
  have steady : s.machine.heap.Steady (s.register n).machine.heap :=
    (s.machine.heap.steady_newNative n).trans (Heap.steady_define _ _ _ (.inr rfl))
  have made := Scene.Later.step (m := (s.register n).machine) sound.scene rfl steady.keeps (.refl l)
    (sound.scene.register.newNative sane)
  exact ⟨made.sound, sound.active⟩

theorem close (sound : b.Sound R) {ran : EStateM.Result Exit Scene (Option Value)}
    (later : Scene.Later R ⟨b.session.machine, b.register, b.states⟩ (left ran)) :
    (b.close ran).Sound R :=
  ⟨⟨later.sound.register, later.sound.moments, later.sound.ordered⟩,
    later.active.trans sound.active⟩

theorem run (sound : b.Sound R) (flags : Flags) {text : String}
    (known : Accepted text → ∀ σ ∈ sitesOfSource text, R.sites σ) :
    (b.run limits flags text).Sound R := by
  unfold Chronicle.run
  by_cases runs : b.session.Runs text
  · have minds := Chronicled.program_minds limits sound.noted sound.active
      (runs.2.sites_eq ▸ known runs.2)
    rw [if_pos runs]
    refine sound.close ?_
    unfold chronicled
    cases ran : Chronicled.program limits (resolve (spelled text)).program
        ⟨b.session.machine, b.register, b.states⟩ with
    | ok v a => exact (minds.ok v a ran).1
    | error e a => exact (minds.error e a ran).1
  · obtain ⟨-, ds, same⟩ := run_of_not_runs runs limits flags
    rw [if_neg runs, same]
    exact ⟨sound.noted, sound.active⟩

theorem feed (sound : b.Sound R) {input : Input}
    (known : ∀ flags text, input = .source flags text → Accepted text →
      ∀ σ ∈ sitesOfSource text, R.sites σ)
    (sane : R.typed → ∀ n, input = .native n → n.Sane) : (b.feed limits input).Sound R := by
  cases input with
  | source flags text => exact sound.run limits flags (known flags text rfl)
  | native n => exact register ⟨sound.noted, sound.active⟩ fun t => sane t n rfl
  | reset => exact ⟨sound.noted, sound.active⟩

theorem feedAll (sound : b.Sound R) {inputs : List Input}
    (known : ∀ flags text, .source flags text ∈ inputs → Accepted text →
      ∀ σ ∈ sitesOfSource text, R.sites σ)
    (sane : R.typed → ∀ n, .native n ∈ inputs → n.Sane) : (b.feedAll limits inputs).Sound R := by
  induction inputs generalizing b with
  | nil => exact sound
  | cons input rest ih =>
      refine ih (sound.feed limits (fun flags text same => ?_) fun t n same => ?_) ?_ ?_
      · exact known flags text (same ▸ List.mem_cons_self)
      · exact sane t n (same ▸ List.mem_cons_self)
      · exact fun flags text member => known flags text (List.mem_cons_of_mem _ member)
      · exact fun t n member => sane t n (List.mem_cons_of_mem _ member)

end Sound

theorem empty_sound (R : Regime) : Register.empty.Sound R Heap.start := by
  refine ⟨rfl, rfl, ?_, rfl, rfl, ?_, ?_, ?_, ?_, ?_,
    fun t => ⟨(Session.start_sound R).typed t, ?_, ?_⟩⟩
  · intro s alive t member
    obtain rfl : s = Machine.globals :=
      Heap.scopeId_eq_iff.mpr (Nat.lt_one_iff.mp (Heap.alive_iff.mp alive))
    obtain rfl : t = Machine.globals := List.mem_singleton.mp member
    exact ⟨alive, List.suffix_refl _⟩
  · intro f k o found
    cases found
  · intro c k o found
    cases found
  · intro n r found
    cases found
  · intro n n' r r' found
    cases found
  · intro c c' s copied
    cases copied with
    | value found _ => cases found
    | initializer found _ => cases found
  · intro c k found
    cases found
  · intro n r found
    cases found

theorem start_sound (R : Regime) (now : Clock) : (start now).Sound R :=
  Sound.register ⟨.momentless (empty_sound R), rfl⟩ fun _ => Native.clock_sane

/-- The chronicle of every session is right, if what it holds to be true of the routines of the host
is true of those that the session is given. -/
theorem sound (now : Clock) {inputs : List Input} {typed : Prop}
    (sane : typed → ∀ n, .native n ∈ inputs → n.Sane) :
    ((start now).feedAll limits inputs).Sound (regime typed inputs) :=
  (start_sound (regime typed inputs) now).feedAll limits
    (fun flags text member accepted _ site => ⟨flags, text, member, accepted, site⟩) sane

end Chronicle
end Session
end LoxLang
