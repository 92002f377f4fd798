import LoxLang.Proofs.Attribution.Running
import LoxLang.Proofs.Sessions
/-! What `this` and `super` mean throughout a session. The ledger is kept over all inputs, and it is
right about all of them: whatever is bound, called or assigned in between. -/
namespace LoxLang
namespace Session

/-- A session with the ledger of its runs. -/
structure Book where
  session : Session
  ledger : Ledger

namespace Book

def start (now : Clock) : Book := ⟨Session.start now, Ledger.empty⟩

/-- An attributed run of a program on the machine of the session. -/
def attributed (limits : Limits) (b : Book) (program : List (Stmt Address)) :
    EStateM.Result Exit Account (Option Value) :=
  Attributed.program limits program ⟨b.session.machine, b.ledger⟩

/-- What an attributed run leaves behind. -/
def close (b : Book) (ran : EStateM.Result Exit Account (Option Value)) : Book where
  session := ⟨(left ran).machine.flush, told b.session.reporter (concluded ran)⟩
  ledger := (left ran).ledger

/-- Runs a source text and keeps the ledger. What is rejected is not run. -/
def run (limits : Limits) (flags : Flags) (b : Book) (text : String) : Book :=
  if b.session.Runs text then b.close (b.attributed limits (resolve (spelled text)).program)
  else ⟨(Session.run limits flags b.session text).session, b.ledger⟩

def feed (limits : Limits) (b : Book) : Input → Book
  | .source flags text => b.run limits flags text
  | .native n => ⟨b.session.register n, b.ledger⟩
  | .reset => ⟨b.session.reset, b.ledger⟩

def feedAll (limits : Limits) (b : Book) (inputs : List Input) : Book :=
  inputs.foldl (feed limits) b

end Book

theorem left_struck (r : EStateM.Result Exit Account (Option Value)) :
    left (Attributed.struck r) = (left r).machine := by
  cases r <;> rfl

theorem concluded_struck (r : EStateM.Result Exit Account (Option Value)) :
    concluded (Attributed.struck r) = concluded r := by
  cases r with
  | ok v a => rfl
  | error e a => cases e <;> rfl

variable (limits : Limits)

/-- The session of a book is the session. -/
theorem Book.run_session (flags : Flags) (b : Book) (text : String) :
    (b.run limits flags text).session = (Session.run limits flags b.session text).session := by
  unfold Book.run
  by_cases runs : b.session.Runs text
  · have does := Attributed.program_does limits (resolve (spelled text)).program
      ⟨b.session.machine, b.ledger⟩
    rw [if_pos runs, (run_of_runs runs limits flags).1, (execute_eq limits b.session _).2, does,
      left_struck, concluded_struck]
    rfl
  · rw [if_neg runs]

theorem Book.feed_session (b : Book) (input : Input) :
    (b.feed limits input).session = b.session.feed limits input := by
  cases input with
  | source flags text => exact b.run_session limits flags text
  | native n => rfl
  | reset => rfl

theorem Book.feedAll_session (b : Book) (inputs : List Input) :
    (b.feedAll limits inputs).session = b.session.feedAll limits inputs := by
  induction inputs generalizing b with
  | nil => rfl
  | cons input rest ih =>
      refine (ih (b.feed limits input)).trans ?_
      rw [Book.feed_session]
      rfl

/-- Between runs the ledger is right, and the global scope is active. -/
structure Book.Sound (b : Book) : Prop where
  ledger : b.ledger.Sound b.session.machine.heap
  active : b.session.machine.active = Machine.globals

/-- A routine of the host may have any name. -/
theorem Book.Sound.register {l : Ledger} {s : Session} (sound : Book.Sound ⟨s, l⟩) (n : Native) :
    Book.Sound ⟨s.register n, l⟩ :=
  ⟨(sound.ledger.steady (Heap.steady_newNative _ n)).steady
    (Heap.steady_define _ _ _ (.inr rfl)), sound.active⟩

theorem start_sound_ledger : Ledger.empty.Sound Heap.start := by
  refine ⟨rfl, rfl, rfl, rfl, ?_, ?_, ?_⟩
  · intro f k who found
    cases found
  · intro c k x m found
    cases found
  · intro s seen
    cases seen

theorem Book.start_sound (now : Clock) : (Book.start now).Sound :=
  Book.Sound.register ⟨start_sound_ledger, rfl⟩ .clock

theorem Book.Sound.run {b : Book} (sound : b.Sound) (flags : Flags) (text : String) :
    (b.run limits flags text).Sound := by
  unfold Book.run
  by_cases runs : b.session.Runs text
  · have known : ∀ σ ∈ sitesOfAll [] false (resolve (spelled text)).program, σ.Lawful := by
      rw [← runs.2.sites_eq]
      exact runs.2.lawful
    have later := Attributed.program_minds limits (a := ⟨b.session.machine, b.ledger⟩)
      sound.ledger sound.active known
    rw [if_pos runs]
    unfold Attributed.Minds Attributed.leaves at later
    unfold Book.attributed
    cases ran : Attributed.program limits (resolve (spelled text)).program
        ⟨b.session.machine, b.ledger⟩ with
    | ok v a =>
        rw [ran] at later
        exact ⟨later.sound, later.active.trans sound.active⟩
    | error e a =>
        rw [ran] at later
        exact ⟨later.sound, later.active.trans sound.active⟩
  · obtain ⟨-, ds, same⟩ := run_of_not_runs runs limits flags
    rw [if_neg runs, same]
    exact ⟨sound.ledger, sound.active⟩

theorem Book.Sound.feed {b : Book} (sound : b.Sound) (input : Input) :
    (b.feed limits input).Sound := by
  cases input with
  | source flags text => exact sound.run limits flags text
  | native n => exact Book.Sound.register sound n
  | reset => exact ⟨sound.ledger, sound.active⟩

theorem Book.Sound.feedAll {b : Book} (sound : b.Sound) (inputs : List Input) :
    (b.feedAll limits inputs).Sound := by
  induction inputs generalizing b with
  | nil => exact sound
  | cons input rest ih => exact ih (sound.feed limits input)

/-- Through inheritance, extraction and nesting `this` and `super` keep their meaning: wherever a
run comes to one of them, it means what the ledger says of the method or function in which it
stands. -/
theorem receivers_kept (now : Clock) (inputs : List Input) :
    let book := (Book.start now).feedAll limits inputs
    book.session = feedAll limits (start now) inputs ∧
      ∀ s ∈ book.ledger.sights, s.Right book.ledger.above :=
  ⟨Book.feedAll_session limits (Book.start now) inputs,
    ((Book.start_sound now).feedAll limits inputs).ledger.sights⟩

/-- The first instance calls the method of the second class, and so do both words in it. -/
example : (((Book.start 0).feedAll ⟨4, 4⟩ [.source ⟨false, false⟩
    "class A { m() {} } class B < A { m() { super.m(); return this; } } B().m();"]).ledger.sights.map
      Sight.who) = [some ⟨⟨0⟩, ⟨1⟩⟩, some ⟨⟨0⟩, ⟨1⟩⟩] := by decide +kernel

end Session
end LoxLang
