import LoxLang.Proofs.Addressing.Parts
import LoxLang.Proofs.Grammar.Exact.Statements
import LoxLang.Proofs.Sessions.Agreement
import LoxLang.Proofs.Thinning.Interchange
import LoxLang.Proofs.Thinning.Loops
/-! What a `for` is read as does what the loop does, wherever in a session it is come by. -/
namespace LoxLang

theorem Mirrors.of_places {h : Heap} {ts : List ScopeId} {Γ : Scopes}
    (length : ts.length = Γ.length + 1) (outermost : ts[Γ.length]? = some Machine.globals)
    (alive : h.Alive Machine.globals)
    (inner : ∀ d, d < Γ.length → ∃ t, ts[d]? = some t ∧ t ≠ Machine.globals ∧ h.Alive t)
    (names : ∀ d x, Γ.Holds d x → ∃ t, ts[d]? = some t ∧ (h.binding? t x).isSome = true) :
    Mirrors h ts Γ := by
  induction Γ generalizing ts with
  | nil =>
      obtain ⟨t, rfl⟩ := List.length_eq_one_iff.mp length
      obtain rfl := Option.some.inj outermost
      exact .globals alive
  | cons g Γ ih =>
      cases ts with
      | nil => cases length
      | cons t ts =>
          obtain ⟨_, here, inside, living⟩ := inner 0 (Nat.zero_lt_succ _)
          obtain rfl := Option.some.inj here
          refine .cons inside living (fun x finished => ?_)
            (ih (Nat.succ.inj length) outermost ?_ ?_)
          · obtain ⟨_, here, bound⟩ := names 0 x ⟨g, rfl, finished⟩
            obtain rfl := Option.some.inj here
            exact bound
          · exact fun d less => inner (d + 1) (Nat.succ_lt_succ less)
          · rintro d x ⟨g', found, finished⟩
            exact names (d + 1) x ⟨g', found, finished⟩

namespace Recorded

/-- What a computation comes by, it comes by with whatever follows. -/
theorem mem_visits_bind {α β : Type} {x : Recorded α} {f : α → Recorded β} {m : Machine} {v : Visit}
    (member : v ∈ (x m).visits) : v ∈ ((x >>= f) m).visits := by
  simp only [bind]
  generalize x m = y at member
  obtain ⟨result, visits⟩ := y
  cases result with
  | ok a m' => exact List.mem_append_left _ member
  | error e m' => exact member

/-- A run comes by the first statement of its program. -/
theorem first_visit (limits : Limits) (s : Stmt Address) (rest : List (Stmt Address))
    (m : Machine) : ⟨.stmt s, m⟩ ∈ (program limits (s :: rest) m).visits := by
  refine mem_visits_bind ?_
  have noted (f : Unit → Recorded Unit) : ⟨.stmt s, m⟩ ∈ ((visit (.stmt s) >>= f) m).visits :=
    mem_visits_bind List.mem_cons_self
  cases s with
  | expression value => exact mem_visits_bind List.mem_cons_self
  | var name value =>
      cases value <;> exact mem_visits_bind (noted _)
  | classDecl name parent methods => cases parent <;> exact mem_visits_bind (noted _)
  | ret pos value => cases value <;> exact mem_visits_bind (noted _)
  | _ => exact mem_visits_bind (noted _)

end Recorded

/-- At a statement, all names of the scopes around it are bound. -/
theorem Site.Around.mirrors {σ : Site} {m : Machine} {s : Stmt Address} (around : σ.Around m)
    (here : σ.node = .stmt s) (alive : m.heap.Alive Machine.globals) :
    Mirrors m.heap (m.heap.chain m.active) σ.scopes := by
  refine .of_places around.depth around.outermost alive around.inner fun d x held =>
    around.names d x held ?_
  rintro ⟨-, name, parent, node, -⟩
  rw [here] at node
  cases node

namespace Session

/-- The sites of a statement at a known site are known. -/
theorem Holds.parts {inputs : List Input} {σ : Site} (known : Holds inputs σ) {s : Stmt Address}
    (here : σ.node = .stmt s) : ∀ τ ∈ s.sites σ.scopes σ.inRoutine, Holds inputs τ := by
  obtain ⟨flags, text, given, accepted, member⟩ := known
  rw [accepted.sites_eq] at member
  refine fun τ part => ⟨flags, text, given, accepted, ?_⟩
  rw [accepted.sites_eq]
  exact closed_all _ [] false σ member s here τ part

/-- Behind a `for` of the source stand its clauses and its body, read without issues up to
`rest`. -/
structure ForAt (source : String) (n : Nat) (t : Token) (ts : List Token) (l : ForLoop Unit)
    (rest : List Token) : Prop where
  word : t.kind = .forWord
  inside : t :: ts <:+ (scan source).tokens
  gives : Reading.Gives (Reading.forClauses (n + 1) (Reading.statement n)) ts l rest

namespace ForAt
variable {source : String} {n : Nat} {t : Token} {ts rest : List Token} {l : ForLoop Unit}

/-- A `for` is read as the tree that stands for it. -/
theorem statement (loop : ForAt source n t ts l rest) :
    Reading.Gives (Reading.statement (n + 1)) (t :: ts) (l.desugared t.pos.line) rest := by
  have read : Reading.statement (n + 1) (t :: ts) =
      Reading.forLoop (n + 1) (Reading.statement n) t.pos.line ts := by
    rw [Reading.statement, Reading.statementLevel, loop.word]
  rw [Reading.Gives, read, Reading.forLoop_eq]
  exact loop.gives.map

theorem body (loop : ForAt source n t ts l rest) : l.body.binds = none ∧ l.body.Plain := by
  have gives : _ = _ := loop.gives
  obtain ⟨_, used, value, split, binds, plain⟩ :=
    Reading.takes_forClauses (Reading.takes_statement_declaration n).1 ts (by rw [gives])
  rw [gives] at value split
  obtain rfl := Option.some.inj value
  refine ⟨binds, plain fun u member => ?_⟩
  exact scan_named source u (loop.inside.subset
    (List.mem_cons_of_mem t (split ▸ List.mem_append_left _ member)))

/-- A source that is one `for` spells the tree that stands for it. -/
theorem spelled (loop : ForAt source n t ts l []) (whole : t :: ts = (scan source).tokens)
    (count : ts.length = n) : LoxLang.spelled source = [l.desugared t.pos.line] := by
  have start : t.kind ∈ statementStarts := by rw [loop.word]; decide
  have item : Reading.Gives (Reading.declaration (n + 1)) (t :: ts)
      (some (l.desugared t.pos.line)) [] :=
    .recover ((Reading.declarationLevel_statement start ts).trans loop.statement)
  have items : Reading.Gives (Reading.untilEnd (Reading.declaration (n + 1)) (n + 1)) (t :: ts)
      [some (l.desugared t.pos.line)] [] := by
    have none : Reading.Gives (Reading.untilEnd (Reading.declaration (n + 1)) n) [] [] [] := by
      cases n <;> rfl
    exact item.bind (none.bind .pure)
  have program : Reading.Gives (Reading.program (n + 1)) (t :: ts) [l.desugared t.pos.line] [] :=
    items.bind .pure
  rw [LoxLang.spelled, ← whole, parse, List.length_cons, count, program]
  rfl

end ForAt

variable {limits : Limits} {now : Clock} {typed : Prop} {inputs : List Input}
  {text source : String} {n : Nat} {t : Token} {ts rest : List Token} {l : ForLoop Unit}
  {c : Walk.Context} {v : Visit}

/-- Wherever a run comes by what a `for` is read as, the loop itself would do the same: print the
same, end the same, and leave everything the same. -/
theorem for_faithful (limits : Limits) (now : Clock) (hosted : Hosted typed inputs)
    (loop : ForAt text n t ts l rest)
    (visited : v ∈ (feedAll limits (start now) inputs).visits limits source)
    (here : v.node = .stmt (Walk.stmt (l.desugared t.pos.line) c).value) (limit depth : Nat) :
    Reading.Gives (Reading.statement (n + 1)) (t :: ts) (l.desugared t.pos.line) rest ∧
      l.body.binds = none ∧
      Run.Interchangeable v.machine
        (Run.execute limit (Run.invoke limit depth) (Walk.stmt (l.desugared t.pos.line) c).value)
        (Run.forLoop limit (Run.invoke limit depth) (Walk.forLoop l c).value) := by
  obtain ⟨binds, plain⟩ := loop.body
  refine ⟨loop.statement, binds, ?_⟩
  let R := regime typed (inputs ++ [.source ⟨false, false⟩ source])
  by_cases runs : (feedAll limits (start now) inputs).Runs source
  · rw [visits, if_pos runs] at visited
    obtain ⟨sound, σ, known, same, around⟩ : v.InOrder R :=
      (meets_of_runs hosted ⟨false, false⟩ runs).seen v visited
    have node := same.trans here
    have parts := Holds.parts known node
    have mirrors := around.mirrors node sound.inScope.globals
    have view := Twin.view_itself sound.inScope mirrors.all_alive
    have lawful := fun τ part => R.lawful τ (parts τ part)
    refine Run.interchangeable_of_thins (R := R) (Run.forLoop_thins (Run.invoke_thins limit depth)
      (Heap.allKept_same mirrors.all_alive) binds plain lawful view) fun e m failed => ?_
    rw [← Recorded.forget_invoke, ← Recorded.forget_execute] at failed
    exact ⟨_, _, ((execute_meets (invoke_serves limit depth) _ σ.scopes σ.inRoutine v.machine
      ⟨sound, mirrors⟩ parts).error e m failed).2⟩
  · rw [visits, if_neg runs] at visited
    cases visited

/-- A loop whose rounds each make a closure of the loop's variable. -/
theorem for_faithful_closure :
    let source := "for (var go = true; go; go = false) { fun f() { return go; } print f(); }"
    ∃ t ts l v, ForAt source 28 t ts l [] ∧ v ∈ (start 0).visits ⟨9, 9⟩ source ∧
      v.node = .stmt (Walk.stmt (l.desugared t.pos.line) Walk.start).value ∧
      Run.Interchangeable v.machine
        (Run.execute 9 (Run.invoke 9 9) (Walk.stmt (l.desugared t.pos.line) Walk.start).value)
        (Run.forLoop 9 (Run.invoke 9 9) (Walk.forLoop l Walk.start).value) := by
  intro source
  let clauses := Reading.forClauses 29 (Reading.statement 28) (scan source).tokens.tail
  have accepted : Accepted source := by decide +kernel
  have behind : (⟨.forWord, "for", ⟨1, 1⟩⟩ : Token) :: (scan source).tokens.tail =
    (scan source).tokens := by decide +kernel
  have count : (scan source).tokens.tail.length = 28 := by decide +kernel
  have ended : clauses.rest = [] := by decide +kernel
  have quiet : clauses.issues = [] := by decide +kernel
  obtain ⟨l, _, value, -⟩ :=
    Reading.takes_forClauses (Reading.takes_statement_declaration 28).1 _ quiet
  have gives : clauses = ⟨some l, [], []⟩ := by rw [← value, ← ended, ← quiet]
  have loop : ForAt source 28 ⟨.forWord, "for", ⟨1, 1⟩⟩ (scan source).tokens.tail l [] :=
    ⟨rfl, ⟨[], behind⟩, gives⟩
  have visited : ⟨.stmt (Walk.stmt (l.desugared 1) Walk.start).value, (start 0).machine⟩ ∈
      (start 0).visits ⟨9, 9⟩ source := by
    rw [visits, if_pos ⟨rfl, accepted⟩, loop.spelled behind count]
    exact Recorded.first_visit _ _ _ _
  have hosted : Hosted True [] := fun _ member => by cases member
  exact ⟨_, _, l, _, loop, visited, rfl,
    (for_faithful ⟨9, 9⟩ 0 hosted loop visited rfl 9 9).2.2⟩

end Session
end LoxLang
