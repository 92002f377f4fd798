import LoxLang.Session
import LoxLang.Proofs.Addressing.Balance
import LoxLang.Proofs.Addressing.Lawful
import LoxLang.Proofs.Grammar.Statements
import LoxLang.Proofs.Running.Calls
import LoxLang.Proofs.Scanning
/-! Sessions as sequences of inputs. Whatever a session is given, between its runs the heap is
sound for the sources it has accepted and the global scope is active. -/
namespace LoxLang

/-- The program that a source text spells. -/
def spelled (source : String) : List RawStmt := (parse (scan source).tokens).program

/-- A source text of which the scan, the reading and the walk report nothing. -/
structure Accepted (source : String) : Prop where
  scanned : (scan source).issues = []
  parsed : (parse (scan source).tokens).issues = []
  resolved : (resolve (spelled source)).issues = []

instance (source : String) : Decidable (Accepted source) :=
  decidable_of_iff ((scan source).issues = [] ∧ (parse (scan source).tokens).issues = [] ∧
      (resolve (spelled source)).issues = [])
    ⟨fun ⟨s, p, r⟩ => ⟨s, p, r⟩, fun a => ⟨a.scanned, a.parsed, a.resolved⟩⟩

/-- The nodes of an accepted source, each with the scopes that the walk has open there. -/
def sitesOfSource (source : String) : List Site := Walk.stmtsVisits (spelled source) Walk.start

theorem Accepted.plain {source : String} (accepted : Accepted source) :
    plainBody (spelled source) := (parse_sound accepted.parsed).2 (scan_named source)

theorem Accepted.sites_eq {source : String} (accepted : Accepted source) :
    sitesOfSource source = sitesOfAll [] false (resolve (spelled source)).program :=
  Walk.stmtsVisits_eq (spelled source) Walk.start accepted.plain

/-- Every node of an accepted source agrees with the scopes around it. -/
theorem Accepted.lawful {source : String} (accepted : Accepted source) :
    ∀ σ ∈ sitesOfSource source, σ.Lawful := by
  rw [accepted.sites_eq]
  exact Walk.stmts_lawful (spelled source) Walk.start .start accepted.plain accepted.resolved

namespace Reporter

theorem reportAll_append (r : Reporter) (ds es : List Diagnostic) :
    (r.reportAll ds).reportAll es = r.reportAll (ds ++ es) := (List.foldl_append ..).symm

theorem hadError_reportAll (r : Reporter) (ds : List Diagnostic) :
    (r.reportAll ds).hadError = (r.hadError || !ds.isEmpty) := by
  induction ds generalizing r with
  | nil => simp [reportAll]
  | cons d ds ih =>
      rw [show r.reportAll (d :: ds) = (r.report d).reportAll ds from rfl, ih]
      simp [report]

end Reporter

namespace Session

/-- What a session is given: source texts, routines of the host, and resets. -/
inductive Input where
  | source (flags : Flags) (text : String)
  | native (n : Native)
  | reset

def feed (limits : Limits) (s : Session) : Input → Session
  | .source flags text => (run limits flags s text).session
  | .native n => s.register n
  | .reset => s.reset

def feedAll (limits : Limits) (s : Session) (inputs : List Input) : Session :=
  inputs.foldl (feed limits) s

/-- What came of a run of a program. -/
def concluded {σ : Type} : EStateM.Result Exit σ (Option Value) → Outcome
  | .ok value _ => .completed value
  | .error (.fault f) _ => .failed f
  | .error (.returned _) _ => .aborted .strayReturn
  | .error (.unbound u) _ => .aborted (.unbound u)
  | .error .overflow _ => .aborted .overflow
  | .error .endless _ => .aborted .endless
  | .error .illFormed _ => .aborted .illFormed

/-- The reporter after a run with an outcome. -/
def told (r : Reporter) : Outcome → Reporter
  | .failed f => r.fault f
  | _ => r

/-- The state that a run leaves. -/
def left {σ : Type} : EStateM.Result Exit σ (Option Value) → σ
  | .ok _ m | .error _ m => m

theorem execute_eq (limits : Limits) (s : Session) (program : List (Stmt Address)) :
    let result := Run.program limits program s.machine
    (execute limits s program).outcome = concluded result ∧
      (execute limits s program).session =
        ⟨(left result).flush, told s.reporter (concluded result)⟩ := by
  intro result
  unfold execute
  cases same : Run.program limits program s.machine with
  | ok value m => simp only [result, same, concluded, told, left, and_self]
  | error e m => cases e <;> simp only [result, same, concluded, told, left, and_self]

/-- What is wrong with a source text, and reported before anything runs. -/
def objections (source : String) : List Diagnostic :=
  (scan source).issues ++
    (parse (scan source).tokens).issues.map (Issue.diagnostic (scan source).stop.line)

/-- What the walk reports of a source text. -/
def scopeObjections (source : String) : List Diagnostic :=
  (resolve (spelled source)).issues.map ScopeIssue.diagnostic

theorem accepted_iff {source : String} :
    Accepted source ↔ objections source = [] ∧ scopeObjections source = [] := by
  constructor
  · intro accepted
    simp [objections, scopeObjections, accepted.scanned, accepted.parsed, accepted.resolved]
  · rintro ⟨quiet, resolved⟩
    obtain ⟨scanned, parsed⟩ := List.append_eq_nil_iff.mp quiet
    exact ⟨scanned, List.map_eq_nil_iff.mp parsed, List.map_eq_nil_iff.mp resolved⟩

/-- A source text is run if nothing is wrong with it and nothing was wrong before. -/
def Runs (s : Session) (source : String) : Prop := s.reporter.hadError = false ∧ Accepted source

instance (s : Session) (source : String) : Decidable (s.Runs source) :=
  inferInstanceAs (Decidable (_ ∧ _))

/-- What is run is executed on the machine of the session. -/
theorem run_of_runs {s : Session} {source : String} (runs : s.Runs source) (limits : Limits)
    (flags : Flags) :
    let executed := execute limits s (resolve (spelled source)).program
    (run limits flags s source).session = executed.session ∧
      (run limits flags s source).outcome = executed.outcome := by
  obtain ⟨clean, accepted⟩ := runs
  simp [run, resolveAndRun, spelled, accepted.scanned, accepted.parsed, clean, Result.after,
    Reporter.reportAll, show (resolve (parse (scan source).tokens).program).issues = [] from
      accepted.resolved]

/-- What is not run changes only the reporter, which is told what is wrong with the source. -/
theorem run_of_not_runs {s : Session} {source : String} (stops : ¬s.Runs source) (limits : Limits)
    (flags : Flags) : (run limits flags s source).outcome = .rejected ∧
      ∃ ds, (run limits flags s source).session = { s with reporter := s.reporter.reportAll ds } := by
  simp only [run, Reporter.reportAll_append]
  rw [← objections]
  by_cases early : (s.reporter.reportAll (objections source)).hadError = true
  · rw [if_pos early]
    exact ⟨rfl, _, rfl⟩
  · rw [if_neg early]
    simp only [resolveAndRun, overdrawn_resolve, Bool.false_eq_true, if_false, Result.after,
      Reporter.reportAll_append]
    rw [← spelled, ← scopeObjections]
    by_cases late : (s.reporter.reportAll (objections source ++
        scopeObjections source)).hadError = true
    · rw [if_pos late]
      exact ⟨rfl, _, rfl⟩
    · rw [Reporter.hadError_reportAll, Bool.or_eq_true, not_or] at late
      refine absurd ⟨eq_false_of_ne_true late.1, accepted_iff.mpr ?_⟩ stops
      simpa using late.2

/-- The nodes that the run of a source text comes by. -/
def visits (limits : Limits) (s : Session) (source : String) : List Visit :=
  if s.Runs source then
    (Recorded.program limits (resolve (spelled source)).program s.machine).visits
  else []

/-- Between runs the heap is sound and the global scope is active. -/
structure Ready (R : Regime) (s : Session) : Prop where
  sound : Sound R s.machine.heap
  active : s.machine.active = Machine.globals

/-- The routines of the host that a session is given are proper. -/
def Hosted (typed : Prop) (inputs : List Input) : Prop :=
  ∀ n, .native n ∈ inputs → n.Proper typed

/-- A routine of the host that calls its first argument with the others, if it takes as many. -/
def applying : Native where
  name := "apply"
  arity := 2
  body
    | .callable c :: rest =>
      .arity c fun n => if n = rest.length then .call c rest .done else .raise "Wrong arity."
    | _ => .raise "Expect a callable."

theorem applying_proper (typed : Prop) : applying.Proper typed := by
  intro h arguments _ valid
  match arguments with
  | .callable c :: rest =>
      refine ⟨fun t => (valid t).2 (.callable c) List.mem_cons_self, fun n taken => ?_⟩
      dsimp only
      by_cases same : n = rest.length
      · rw [if_pos same]
        refine ⟨same ▸ taken, fun t v member => (valid t).2 v (List.mem_cons_of_mem _ member), ?_⟩
        exact fun v h' _ later t => (later t).2
      · rw [if_neg same]
        trivial
  | [] | .nil :: _ | .bool _ :: _ | .number _ :: _ | .text _ :: _ | .object _ :: _ => trivial

/-- The nodes of the accepted sources among the inputs. -/
def Holds (inputs : List Input) (σ : Site) : Prop :=
  ∃ flags text, .source flags text ∈ inputs ∧ Accepted text ∧ σ ∈ sitesOfSource text

/-- No routine of the host has a reserved name. -/
def Tidy (inputs : List Input) : Prop :=
  ∀ n, .native n ∈ inputs → n.name ≠ "this" ∧ n.name ≠ "super"

def regime (typed : Prop) (inputs : List Input) : Regime where
  sites := Holds inputs
  lawful := fun σ ⟨_, _, _, accepted, member⟩ => accepted.lawful σ member
  typed := typed
  tidy := Tidy inputs

variable {R : Regime} {limits : Limits} {s : Session}

theorem Ready.register (ready : s.Ready R) {n : Native} (proper : n.Proper R.typed)
    (tidy : R.tidy → n.name ≠ "this" ∧ n.name ≠ "super") : (s.register n).Ready R := by
  have made := ready.sound.newNative proper
  refine ⟨made.define (fun global => ?_) fun _ v same => ?_, ready.active⟩
  · obtain ⟨this, super⟩ := tidy (global rfl)
    exact ⟨(absurd · this), (absurd · super)⟩
  · cases same
    exact leads_newNative s.machine.heap n

/-- A machine starts with a sound heap: an empty global scope. -/
theorem start_sound (R : Regime) : Sound R Heap.start := by
  have empty (s : ScopeId) (x : String) : Heap.start.binding? s x = none := by
    rw [Heap.start, Heap.binding?_newScope]
    split
    · rfl
    · simp [Heap.binding?, Heap.scope?, Heap.empty]
  refine ⟨⟨rfl, rfl, ?_, ?_, ?_, ?_⟩, fun _ => ⟨?_, ?_, ?_, ?_⟩⟩
  · intro s x b _ bound
    rw [empty] at bound
    cases bound
  · intro f k found
    cases found
  · intro c k found
    cases found
  · intro n r found
    cases found
  · intro s x v bound
    rw [empty] at bound
    cases bound
  · intro i o x v found
    cases found
  · intro i o found
    cases found
  · intro c k found
    cases found

theorem Ready.start (R : Regime) (now : Clock) : (start now).Ready R :=
  Ready.register ⟨start_sound R, rfl⟩ (Native.clock_proper _) fun _ => by simp [Native.clock]

/-- A run of known code leaves the session ready, and every way in which it ends is in order. -/
theorem Ready.meets (ready : s.Ready R) (limits : Limits) {source : String} (accepted : Accepted source)
    (known : ∀ σ ∈ sitesOfSource source, R.sites σ) :
    Meets R false (Recorded.program limits (resolve (spelled source)).program) s.machine
      (YieldsLast R) :=
  program_meets limits ready.sound ready.active (accepted.sites_eq ▸ known)

theorem Ready.run (ready : s.Ready R) {flags : Flags} {source : String}
    (known : Accepted source → ∀ σ ∈ sitesOfSource source, R.sites σ) :
    (run limits flags s source).session.Ready R := by
  by_cases runs : s.Runs source
  · have meets := ready.meets limits runs.2 (known runs.2)
    rw [(run_of_runs runs limits flags).1, (execute_eq limits s _).2]
    rw [← Recorded.forget_program]
    cases same : (Recorded.program limits (resolve (spelled source)).program s.machine).result with
    | ok value m =>
        obtain ⟨after, -⟩ := meets.ok value m same
        simp only [Recorded.forget, same]
        exact ⟨after.sound, after.active.trans ready.active⟩
    | error e m =>
        obtain ⟨after, -⟩ := meets.error e m same
        simp only [Recorded.forget, same]
        exact ⟨after.sound, after.active.trans ready.active⟩
  · obtain ⟨-, ds, same⟩ := run_of_not_runs runs limits flags
    rw [same]
    exact ⟨ready.sound, ready.active⟩

/-- One input leaves a ready session ready. -/
theorem Ready.feed (ready : s.Ready R) {input : Input}
    (known : ∀ flags text, input = .source flags text → Accepted text →
      ∀ σ ∈ sitesOfSource text, R.sites σ)
    (proper : ∀ n, input = .native n → n.Proper R.typed)
    (tidy : R.tidy → ∀ n, input = .native n → n.name ≠ "this" ∧ n.name ≠ "super") :
    (s.feed limits input).Ready R := by
  cases input with
  | source flags text => exact ready.run (known flags text rfl)
  | native n => exact ready.register (proper n rfl) fun t => tidy t n rfl
  | reset => exact ⟨ready.sound, ready.active⟩

/-- A session is ready after any inputs. -/
theorem Ready.feedAll (ready : s.Ready R) {inputs : List Input}
    (known : ∀ flags text, .source flags text ∈ inputs → Accepted text →
      ∀ σ ∈ sitesOfSource text, R.sites σ)
    (proper : Hosted R.typed inputs) (tidy : R.tidy → Tidy inputs) :
    (feedAll limits s inputs).Ready R := by
  induction inputs generalizing s with
  | nil => exact ready
  | cons input rest ih =>
      refine ih (ready.feed (fun flags text same => ?_) (fun n same => ?_) fun t n same => ?_)
        ?_ ?_ ?_
      · exact known flags text (same ▸ List.mem_cons_self)
      · exact proper n (same ▸ List.mem_cons_self)
      · exact tidy t n (same ▸ List.mem_cons_self)
      · exact fun flags text member => known flags text (List.mem_cons_of_mem _ member)
      · exact fun n member => proper n (List.mem_cons_of_mem _ member)
      · exact fun t n member => tidy t n (List.mem_cons_of_mem _ member)

/-- A session is ready for what its inputs are made of, and more. -/
theorem ready_after (limits : Limits) (now : Clock) {typed : Prop} {inputs : List Input}
    (hosted : Hosted typed inputs) (more : List Input) :
    (feedAll limits (start now) inputs).Ready (regime typed (inputs ++ more)) :=
  (Ready.start _ now).feedAll (fun flags text member accepted _ here =>
    ⟨flags, text, List.mem_append_left more member, accepted, here⟩) hosted
    fun tidy n member => tidy n (List.mem_append_left more member)

end Session
end LoxLang
