import LoxLang.Proofs.Renaming.Marks
import LoxLang.Proofs.Renaming.Runs
import LoxLang.Proofs.Renaming.Scanning
import LoxLang.Proofs.Renaming.Walking
import LoxLang.Proofs.Respelling.Statements
import LoxLang.Proofs.Sessions.Lexical
import LoxLang.Proofs.Sessions.Outcomes
/-! Renaming a local variable. With another name for a variable of one scope a program is accepted
as before, at the same addresses, and it does the same. -/
namespace LoxLang

/-- A name of the scope that is no function's and no class's: declared by `var` or as a parameter. -/
structure LocalScope.Variable (s : LocalScope) (x : String) : Prop where
  belongs : ∃ u ∈ s.uses, u.name.text = x
  plain : ∀ u ∈ s.uses, u.name.text = x → u.fixed = false

instance (s : LocalScope) (x : String) : Decidable (s.Variable x) :=
  decidable_of_iff ((∃ u ∈ s.uses, u.name.text = x) ∧
      ∀ u ∈ s.uses, u.name.text = x → u.fixed = false)
    ⟨fun ⟨b, p⟩ => ⟨b, p⟩, fun v => ⟨v.belongs, v.plain⟩⟩

/-- The outcome with names respelled. A binding that is missing at the end of an address is that of
the name stored to at the last node. -/
def Outcome.respell (τ : Respelling) (last : Option Node) : Outcome → Outcome
  | .failed f => .failed (f.respell τ)
  | .aborted (.unbound (.notBound x d)) =>
    match last with
    | some (.store name _) => .aborted (.unbound (.notBound (τ.text name) d))
    | _ => .aborted (.unbound (.notBound x d))
  | outcome => outcome

namespace Session

/-- Both source texts, run in new sessions, do the same, the second one with names respelled. -/
structure RunsRespelled (τ : Respelling) (limits : Limits) (now : Clock) (flags : Flags)
    (source renamed : String) : Prop where
  outcome : (run limits flags (start now) renamed).outcome =
    (run limits flags (start now) source).outcome.respell τ
      (((start now).visits limits source).getLast?.map Visit.node)
  printed : ∃ lines,
    (run limits flags (start now) source).events.filterMap Event.line? =
      preamble flags source ++ lines ∧
    (run limits flags (start now) renamed).events.filterMap Event.line? =
      preamble flags renamed ++ lines
  globals : ((run limits flags (start now) renamed).session.machine.heap.scope?
      Machine.globals).map Scope.bindings =
    ((run limits flags (start now) source).session.machine.heap.scope?
      Machine.globals).map Scope.bindings
  display : ∀ v, (run limits flags (start now) renamed).session.machine.heap.display v =
    (run limits flags (start now) source).session.machine.heap.display v
  visits : ((start now).visits limits renamed).map Visit.node =
    (((start now).visits limits source).map Visit.node).map (Node.respell τ)

variable {τ : Respelling} {ρ : Renaming} {limits : Limits} {now : Clock} {flags : Flags}
  {source renamed : String}

/-- A new session has one scope, and no code. -/
theorem start_machine (now : Clock) : (start now).machine =
    ⟨⟨#[⟨[], ⟨[("clock", some (.callable (.native ⟨0⟩)))]⟩⟩], #[], #[], #[], #[.clock]⟩,
      Machine.globals, ⟨#[], now⟩⟩ := rfl

theorem start_respell : (start now).machine.respell τ ρ [false] = (start now).machine := by
  rw [start_machine]
  simp [Machine.respell, Heap.respell, Scope.rename, Table.rename]

theorem start_outlook (now : Clock) : Outlook τ ρ [false] [false] (start now).machine := by
  have unchanged (s : ScopeId) : changedIn [false] s = false := by
    obtain ⟨_ | i⟩ := s <;> rfl
  refine ⟨⟨rfl, fun s changed => ?_, fun s k found => ?_, rfl, rfl, rfl, ?_, ?_⟩, rfl, rfl⟩
  · rw [unchanged] at changed
    cases changed
  · obtain ⟨_ | i⟩ := s <;> cases found
    exact fun _ member => by cases member
  · intro f k found
    cases found
  · intro c k x m found
    cases found

/-- What a run leaves with names respelled, but for the message about a missing binding. -/
theorem leaves_of_respelled {w : List Bool} {m : Machine}
    {r r' : EStateM.Result Exit Machine (Option Value)} (same : Respelled τ ρ w m Equal r r') :
    (∃ w', (left r).heap.Marked τ ρ w' ∧ left r' = (left r).respell τ ρ w') ∧
      ((∃ x d b, concluded r = .aborted (.unbound (.notBound x d)) ∧
          concluded r' = .aborted (.unbound (.notBound (ρ.spell b x) d))) ∨
        ∀ last, concluded r' = (concluded r).respell τ last) := by
  cases same with
  | ok _ marked value =>
      refine ⟨⟨_, marked, rfl⟩, .inr fun _ => ?_⟩
      rw [Equal] at value
      exact congrArg Outcome.completed value.symm
  | error _ marked respelled =>
      refine ⟨⟨_, marked, rfl⟩, ?_⟩
      cases respelled with
      | notBound x d b => exact .inl ⟨x, d, b, rfl, rfl⟩
      | _ => exact .inr fun _ => rfl

/-- A binding is missing only where a variable is stored to. -/
theorem missing_at_store {x : String} {d : Int} (accepted : Accepted source)
    (ended : (run limits flags (start now) source).outcome = .aborted (.unbound (.notBound x d))) :
    d = 0 ∧ ∃ name address,
      ((start now).visits limits source).getLast?.map Visit.node = some (.store name address) ∧
        name.text = x := by
  have runs : (start now).Runs source := ⟨rfl, accepted⟩
  have hosted : Hosted True [] := fun n member => by cases member
  have documented : Documented (Holds [.source flags source]) ((start now).visits limits source)
      (start now) (run limits flags (start now) source).session
      (run limits flags (start now) source).outcome :=
    documented_of_meets runs trivial (fun _ => id) (meets_of_runs hosted flags runs)
  rw [ended] at documented
  obtain ⟨-, v, z, σ, last, -, node, ⟨-, -, name, stores, rfl⟩, same⟩ := documented
  cases same
  refine ⟨rfl, name, some 0, ?_, rfl⟩
  rw [last, Option.map_some, ← node, stores]

/-- Two accepted texts, one of which spells the program of the other with names that follow, do the
same. -/
theorem runs_respelled (limits : Limits) (now : Clock) (flags : Flags) (accepted : Accepted source)
    (accepted' : Accepted renamed)
    (same : (resolve (spelled renamed)).program = respellBody τ (resolve (spelled source)).program)
    (follow : Followed τ ρ [false] (usesOfBody (resolve (spelled source)).program)
      (scopesOfBody (resolve (spelled source)).program)) :
    RunsRespelled τ limits now flags source renamed := by
  have runs : (start now).Runs source := ⟨rfl, accepted⟩
  have runs' : (start now).Runs renamed := ⟨rfl, accepted'⟩
  obtain ⟨result, nodes⟩ := Recorded.program_renames limits (start_outlook now) follow
  rw [Run.Renames, Recorded.forget_program, Recorded.forget_program, start_respell, ← same] at result
  rw [start_respell, ← same] at nodes
  have visits : ((start now).visits limits renamed).map Visit.node =
      (((start now).visits limits source).map Visit.node).map (Node.respell τ) := by
    rw [Session.visits, Session.visits, if_pos runs, if_pos runs']
    exact nodes
  obtain ⟨session, outcome⟩ := run_of_runs runs limits flags
  obtain ⟨session', outcome'⟩ := run_of_runs runs' limits flags
  obtain ⟨concludes, leaves⟩ := execute_eq limits (start now) (resolve (spelled source)).program
  obtain ⟨concludes', leaves'⟩ := execute_eq limits (start now) (resolve (spelled renamed)).program
  obtain ⟨⟨w, marked, machine⟩, ends⟩ := leaves_of_respelled result
  refine ⟨?_, ⟨_, run_lines runs limits flags, ?_⟩, ?_, fun v => ?_, visits⟩
  · rcases ends with ⟨x, d, b, missing, missing'⟩ | other
    · have ended := (outcome.trans concludes).trans missing
      have ended' := (outcome'.trans concludes').trans missing'
      -- Each message names the variable that its own run was about to store to.
      obtain ⟨rfl, name, address, last, rfl⟩ := missing_at_store accepted ended
      obtain ⟨-, name', address', last', text'⟩ := missing_at_store accepted' ended'
      rw [ended, ended', last]
      have respelled : name' = name.respell τ := by
        rw [← List.getLast?_map, visits, List.getLast?_map, List.getLast?_map, last] at last'
        exact (Node.store.inj (Option.some.inj last')).1.symm
      rw [Outcome.respell, ← text', respelled, Name.text_respell]
    · rw [outcome, outcome', concludes, concludes']
      exact other _
  · rw [run_lines runs', machine]
    rfl
  · rw [session, session', leaves, leaves', machine]
    exact marked.bindings_globals
  · rw [session, session', leaves, leaves', machine]
    exact marked.display v

end Session

/-- The names of a resolved source text are the names that it spells. -/
theorem names_resolved (source : String) :
    namesOfBody (resolve (spelled source)).program = namesOfBody (spelled source) := by
  rw [← names_eraseBody, erase_resolve]

/-- Every name of a program is an identifier of its text. -/
theorem token_of_name {source : String} {n : Name}
    (member : n ∈ namesOfBody (resolve (spelled source)).program) :
    ∃ t ∈ (scan source).tokens, t.kind = .identifier ∧ t.lexeme = n.text := by
  rw [names_resolved] at member
  obtain ⟨t, here, named⟩ := List.mem_filterMap.mp ((names_drawn _).subset n member)
  unfold Token.name? at named
  split at named
  · next identifier =>
      cases named
      exact ⟨t, here, identifier, rfl⟩
  · cases named

/-- An identifier is not reserved. -/
theorem Lexeme.ordinary {y : String} (spelt : Lexeme .identifier y.toList) :
    y ≠ "this" ∧ y ≠ "super" := by
  obtain ⟨_, _, -, -, -, free⟩ := lexeme_identifier spelt
  rw [String.ofList_toList] at free
  constructor <;> intro reserved <;> rw [reserved] at free <;> cases free

/-- At the end of all scopes are the global variables, which keep their names. -/
theorem Followed.globals {τ : Respelling} {ρ : Renaming} {us : List Use} {ss : List LocalScope}
    (follow : Followed τ ρ [] us ss) : Followed τ ρ [false] us ss := by
  refine ⟨fun u member => ?_, follow.scopes⟩
  obtain ⟨text, fresh, fixed⟩ := follow.uses u member
  rw [changedAt_false (by simp)] at text
  exact ⟨by rwa [changedAt_false (by simp)], fresh, fixed⟩

/-- A program in which another name is put for a variable of one scope is accepted, has the same
addresses, and does the same. -/
theorem rename_local {source x y : String} {s : LocalScope} (accepted : Accepted source)
    (inside : s ∈ scopesOfBody (resolve (spelled source)).program) (varies : s.Variable x)
    (spelt : Lexeme .identifier y.toList)
    (fresh : ∀ t ∈ (scan source).tokens, t.kind = .identifier → t.lexeme ≠ y) :
    let renamed := rewritten (s.marks x) y source
    Accepted renamed ∧ ∃ τ : Respelling,
      (∀ n, τ.text n = if n.pos ∈ s.marks x then y else n.text) ∧
      (resolve (spelled renamed)).program = respellBody τ (resolve (spelled source)).program ∧
      ∀ limits now flags, Session.RunsRespelled τ limits now flags source renamed := by
  intro renamed
  obtain ⟨τ, text, tokens⟩ := tokens_rewritten spelt (s.marks x) source
  have old_ordinary : x ≠ "this" ∧ x ≠ "super" := by
    obtain ⟨u, belongs, rfl⟩ := varies.belongs
    have member := mem_names.mpr (.inr ⟨s, inside, u, belongs, rfl⟩)
    obtain ⟨t, here, identifier, same⟩ := token_of_name member
    exact same ▸ scan_named source t here identifier
  let ρ : Renaming := ⟨x, y, old_ordinary, spelt.ordinary⟩
  have distinct := names_distinct source
  rw [← spelled, ← names_resolved] at distinct
  have follow : Followed τ ρ [] (usesOfBody (resolve (spelled source)).program)
      (scopesOfBody (resolve (spelled source)).program) := by
    refine followed_of_marks distinct inside varies.plain ?_ text
    intro n member
    obtain ⟨t, here, identifier, same⟩ := token_of_name member
    exact same ▸ fresh t here identifier
  have parsed := parse_respell τ (scan source).tokens
  rw [← tokens] at parsed
  have program : spelled renamed = respellBody τ (spelled source) := congrArg Parse.program parsed
  obtain ⟨quiet, resolved⟩ := resolve_rename accepted.resolved follow
  rw [← program] at quiet resolved
  have accepted' : Accepted renamed := by
    refine ⟨issues_rewritten spelt accepted.scanned, ?_, quiet⟩
    rw [parsed, accepted.parsed]
    rfl
  refine ⟨accepted', τ, text, resolved, fun limits now flags => ?_⟩
  exact Session.runs_respelled limits now flags accepted accepted' resolved follow.globals

/-- A parameter, to which an inner function refers and an inner scope does not. -/
theorem rename_local_parameter :
    let source := "fun f(a) { fun g() { return a; } { var a = nil; } return g; } print f(true)();"
    let renamed := "fun f(b) { fun g() { return b; } { var a = nil; } return g; } print f(true)();"
    Accepted source ∧ (∀ t ∈ (scan source).tokens, t.kind = .identifier → t.lexeme ≠ "b") ∧
      Lexeme .identifier "b".toList ∧
      ∃ s ∈ scopesOfBody (resolve (spelled source)).program,
        s.Variable "a" ∧ rewritten (s.marks "a") "b" source = renamed ∧ Accepted renamed ∧
        ∃ τ : Respelling, (∀ n, τ.text n = if n.pos ∈ s.marks "a" then "b" else n.text) ∧
          (resolve (spelled renamed)).program =
            respellBody τ (resolve (spelled source)).program ∧
          ∀ limits now flags, Session.RunsRespelled τ limits now flags source renamed := by
  intro source renamed
  have accepted : Accepted source := by decide +kernel
  have fresh : ∀ t ∈ (scan source).tokens, t.kind = .identifier → t.lexeme ≠ "b" := by
    decide +kernel
  have spelt : Lexeme .identifier "b".toList :=
    .identifier (by decide) (by simp) (by intro kind; cases kind <;> decide)
  have chosen : ∃ s ∈ scopesOfBody (resolve (spelled source)).program,
      s.Variable "a" ∧ rewritten (s.marks "a") "b" source = renamed := by decide +kernel
  obtain ⟨s, inside, varies, same⟩ := chosen
  have result := rename_local accepted inside varies spelt fresh
  rw [same] at result
  exact ⟨accepted, fresh, spelt, s, inside, varies, same, result⟩

end LoxLang
