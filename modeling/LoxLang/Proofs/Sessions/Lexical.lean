import LoxLang.Proofs.Lexical.Calls
import LoxLang.Proofs.Sessions
/-! A program run by addresses does what it does if names are scoped at their declaration. -/
namespace LoxLang

/-- The site is a store to the variable in whose initializer it stands. -/
def Site.OwnStore (σ : Site) : Prop := ∃ x, σ.SelfAssigns x

/-- The variable that is stored to by its own initializer. -/
def Site.ownVariable (σ : Site) : Option String :=
  match σ.initializing, σ.node with
  | some n, .store name (some 0) => if name.text = n.text then some n.text else none
  | _, _ => none

theorem Site.ownStore_iff (σ : Site) :
    σ.OwnStore ↔ σ.scopes.isEmpty = false ∧ σ.ownVariable.isSome = true := by
  obtain ⟨Γ, b, i, n⟩ := σ
  constructor
  · rintro ⟨x, inner, ⟨n, rfl, rfl⟩, name, rfl, same⟩
    simpa [Site.ownVariable, same] using inner
  · rintro ⟨inner, own⟩
    unfold Site.ownVariable at own
    split at own
    · next n name started node =>
        split at own
        · next same => exact ⟨n.text, by simpa using inner, ⟨n, started, rfl⟩, name, node, same⟩
        · cases own
    · cases own

instance (σ : Site) : Decidable σ.OwnStore := decidable_of_iff _ σ.ownStore_iff.symm

/-- The store of a new session with a clock. -/
def Lexical.Store.start (now : Clock) : Lexical.Store where
  cells := #[]
  globals := Table.empty.put "clock" (some (.callable (.native ⟨0⟩)))
  functions := #[]
  classes := #[]
  instances := #[]
  natives := #[.clock]
  world := ⟨#[], now⟩

/-- A line of output, if the event is one. -/
def Event.line? : Event → Option String
  | .output line => some line
  | _ => none

namespace Session

/-- The lines shown before a program runs. -/
def preamble (flags : Flags) (source : String) : List String :=
  (if flags.tokens then listing (scan source) else []) ++
    if flags.tree then [programText (resolve (spelled source)).program] else []

theorem start_beside (R : Regime) (now : Clock) :
    Beside R #[] (start now).machine (Lexical.Store.start now) := by
  refine ⟨⟨(Ready.start R now).sound, ⟨fun i => ?_, fun i j o found => ?_, ?_⟩,
    ⟨fun f => ?_, fun c => ?_, rfl, ?_⟩⟩, rfl⟩
  · exact .none
  · cases found
  · rfl
  · exact .none
  · exact .none
  · rfl

theorem lines_output (ls : List String) : (ls.map Event.output).filterMap Event.line? = ls := by
  rw [List.filterMap_map]
  exact List.filterMap_some

theorem execute_lines (limits : Limits) (s : Session) (program : List (Stmt Address)) :
    (execute limits s program).events.filterMap Event.line? =
      (left (Run.program limits program s.machine)).world.printed.toList := by
  unfold execute
  cases same : Run.program limits program s.machine with
  | ok value m => simp only [left, List.append_nil, lines_output]
  | error e m =>
      cases e <;> simp only [left, List.append_nil, List.filterMap_append, List.filterMap_cons,
        List.filterMap_nil, Event.line?, lines_output]

/-- What is shown of a source that is run, in order. -/
theorem run_events {s : Session} {source : String} (runs : s.Runs source) (limits : Limits)
    (flags : Flags) : (run limits flags s source).events =
      .remark (.scanned ((scan source).tokens.length + 1)) ::
        (if flags.tokens then listing (scan source) else []).map .output ++
      [.remark (.parsed (spelled source).length),
        .remark (.resolved (resolve (spelled source)).resolved)] ++
      (if flags.tree then [programText (resolve (spelled source)).program] else []).map .output ++
      (execute limits s (resolve (spelled source)).program).events := by
  obtain ⟨clean, accepted⟩ := runs
  have resolved : (resolve (parse (scan source).tokens).program).issues = [] := accepted.resolved
  cases tokens : flags.tokens <;> cases tree : flags.tree <;>
    simp [run, resolveAndRun, spelled, accepted.scanned, accepted.parsed, clean, Result.after,
      resolved, Reporter.reportAll, messages, tokens, tree]

theorem run_lines {s : Session} {source : String} (runs : s.Runs source) (limits : Limits)
    (flags : Flags) : (run limits flags s source).events.filterMap Event.line? =
      preamble flags source ++
        (left (Run.program limits (resolve (spelled source)).program
          s.machine)).world.printed.toList := by
  rw [← execute_lines limits s, run_events runs]
  simp only [List.filterMap_append, List.filterMap_cons, lines_output]
  simp [preamble, Event.line?]

/-- What agrees has one conclusion, and leaves a store like the machine. -/
theorem leaves_of_agree {R : Regime} {d : Prop} {w : Owners} {m : Machine}
    {r : EStateM.Result Exit Machine (Option Value)}
    {r' : EStateM.Result Exit Lexical.Store (Option Value)} (agree : Agree R d w m Same r r') :
    concluded r' = concluded r ∧ ∃ w', Beside R w' (left r) (left r') := by
  cases agree with
  | ok _ beside same => exact ⟨congrArg Outcome.completed same, _, beside⟩
  | @error e _ _ _ _ beside => cases e <;> exact ⟨rfl, _, beside⟩

/-- A program run by addresses in a new session comes to what it comes to if every name stands
for what was visible at the declaration of the code around it. -/
structure RunsLexically (limits : Limits) (now : Clock) (flags : Flags) (source : String) :
    Prop where
  outcome : (run limits flags (start now) source).outcome =
    concluded (Lexical.program limits (spelled source) (.start now))
  printed : (run limits flags (start now) source).events.filterMap Event.line? =
    preamble flags source ++
      (left (Lexical.program limits (spelled source) (.start now))).world.printed.toList
  globals : ((run limits flags (start now) source).session.machine.heap.scope?
      Machine.globals).map Scope.bindings =
    some (left (Lexical.program limits (spelled source) (.start now))).globals
  display : ∀ v, (run limits flags (start now) source).session.machine.heap.display v =
    (left (Lexical.program limits (spelled source) (.start now))).display v

/-- The code of one source text. -/
def regimeOf {source : String} (accepted : Accepted source) : Regime where
  sites := (· ∈ sitesOfSource source)
  lawful := accepted.lawful
  typed := False
  tidy := False

/-- Every accepted program in which no local variable is assigned in its own initializer runs
as lexical scoping has it. -/
theorem runs_lexically (limits : Limits) (now : Clock) (flags : Flags) {source : String}
    (accepted : Accepted source) (apart : ∀ σ ∈ sitesOfSource source, ¬σ.OwnStore) :
    RunsLexically limits now flags source := by
  have runs : (start now).Runs source := ⟨rfl, accepted⟩
  have orderly : (regimeOf accepted).Orderly :=
    ⟨id, fun σ known x itself => apart σ known ⟨x, itself⟩⟩
  have known : ∀ σ ∈ sitesOfAll [] false (resolve (spelled source)).program,
      (regimeOf accepted).sites σ := by
    rw [← accepted.sites_eq]
    exact fun _ => id
  have parallel := program_parallel orderly limits (start_beside _ now) rfl known
  rw [erase_resolve] at parallel
  obtain ⟨same, w, beside⟩ := leaves_of_agree parallel
  obtain ⟨session, outcome⟩ := run_of_runs runs limits flags
  obtain ⟨concludes, leaves⟩ := execute_eq limits (start now) (resolve (spelled source)).program
  refine ⟨?_, ?_, ?_, fun v => ?_⟩
  · rw [outcome, concludes, same]
  · rw [run_lines runs, beside.world]
  · rw [session, leaves]
    exact beside.alike.bindings.globals
  · rw [session, leaves]
    exact (beside.alike.display_eq v).symm

/-- A closure keeps the meaning of its names when its scope gains one of them. -/
theorem runs_lexically_closure :
    let source := "var a = true; { fun show() { print a; } show(); var a = false; show(); }"
    Accepted source ∧ (∀ σ ∈ sitesOfSource source, ¬σ.OwnStore) ∧
      RunsLexically Limits.standard 0 ⟨false, false⟩ source := by
  intro source
  have accepted : Accepted source := by decide +kernel
  have apart : ∀ σ ∈ sitesOfSource source, ¬σ.OwnStore := by decide +kernel
  exact ⟨accepted, apart, runs_lexically Limits.standard 0 ⟨false, false⟩ accepted apart⟩

example : (left (Lexical.program Limits.standard
    (spelled "var a = true; { fun show() { print a; } show(); var a = false; show(); }")
    (.start 0))).world.printed = #["true", "true"] := by decide +kernel

end Session
end LoxLang
