import Mathlib.Order.Bounds.Basic
import LoxLang.Proofs.Recovery.Strict
import LoxLang.Proofs.Respelling.Statements
/-! Recovery of the parser. The tokens are cut into segments, one for each declaration that is tried
at the top; one that is abandoned ends where the next statement may start. -/
namespace LoxLang
namespace Reading

/-- What a declaration tries to read before it recovers. -/
def attempt : Nat → Reading RawStmt
  | 0 => fail .expression
  | n + 1 => declarationLevel (n + 1) (statement n) (declaration n)

end Reading

/-- A statement may start at an index: the tokens end there, a semicolon stands before it, or a
word that starts a statement stands at it. -/
def Restarts (tokens : List Token) (q : Nat) : Prop :=
  q = tokens.length ∨ (∃ p t, q = p + 1 ∧ tokens[p]? = some t ∧ t.kind = .semicolon) ∨
    ∃ t, tokens[q]? = some t ∧ t.kind ∈ [.classWord, .funWord, .varWord, .forWord, .ifWord,
      .whileWord, .printWord, .returnWord]

/-- Where reading goes on after an error at the index `e`. -/
def Resumes (tokens : List Token) (e q : Nat) : Prop :=
  if e = tokens.length then q = e else IsLeast {q | e < q ∧ Restarts tokens q} q

/-- Some tokens, from one index up to another one, and what was read there. -/
structure Segment where
  start : Nat
  stop : Nat
  read : Reading.Outcome RawStmt

namespace Segment

/-- The segments follow one on the other from one index to another one. -/
def Cover (n : Nat) (ss : List Segment) (m : Nat) : Prop :=
  match ss with
  | [] => n = m
  | s :: rest => s.start = n ∧ Cover s.stop rest m

/-- A segment belongs to one call of the reading of declarations. -/
structure Tried (tokens : List Token) (s : Segment) : Prop where
  read : s.read = Reading.attempt tokens.length (tokens.drop s.start)
  nonempty : s.start < s.stop
  /-- A statement takes the whole segment. -/
  statement : ∀ d, s.read.value? = some d → s.read.rest = tokens.drop s.stop
  /-- An error abandons it at an index with a message, and what follows up to the next statement
  is skipped. -/
  abandoned : s.read.value? = none → ∃ e before cause, s.start ≤ e ∧ e ≤ tokens.length ∧
    s.read.rest = tokens.drop e ∧ s.read.issues = before ++ [⟨tokens[e]?, cause⟩] ∧
    Resumes tokens e s.stop

/-- The statements that were read, and all messages. -/
def result (ss : List Segment) : Parse :=
  ⟨ss.filterMap fun s => s.read.value?, ss.flatMap fun s => s.read.issues⟩

end Segment

/-- The parser reads the segments one by one. -/
structure Parse.Recovers (tokens : List Token) (ss : List Segment) : Prop where
  cover : Segment.Cover 0 ss tokens.length
  tried : ∀ s ∈ ss, s.Tried tokens
  result : parse tokens = Segment.result ss
  /-- The tokens behind a segment are read as if they were all. -/
  afresh : ∀ before after n, ss = before ++ after → Segment.Cover 0 before n →
    parse (tokens.drop n) = Segment.result after
  /-- Without a message every segment is a statement, and reading without any recovery, also
  inside of statements, comes to the same and takes all tokens. -/
  quiet : (parse tokens).issues = [] → (∀ s ∈ ss, s.read.value? ≠ none) ∧
    Reading.strictProgram tokens.length tokens = ⟨some (parse tokens).program, [], []⟩

namespace Reading

theorem declaration_attempt (n : Nat) : declaration n = recover (attempt n) := by
  cases n <;> simp only [declaration, attempt]

theorem blames_attempt (n : Nat) : Blames (attempt n) := by
  cases n with
  | zero => exact .fail
  | succ n =>
      obtain ⟨statements, declarations⟩ := blames_statement_declaration n
      exact blames_declarationLevel statements declarations

theorem consumes_attempt (n : Nat) : ConsumesStmt (attempt n) := by
  cases n with
  | zero => exact .fail
  | succ n =>
      obtain ⟨statements, declarations⟩ := consumes_statement_declaration n
      exact consumes_declarationLevel statements declarations

end Reading

section
variable {tokens : List Token}

/-- The search for the next statement, with the tokens before it. -/
theorem resumeAfter_least (before : List Token) {ts : List Token} {previous : Token}
    (whole : tokens = before ++ previous :: ts) :
    ∃ q, Reading.resumeAfter previous ts = tokens.drop q ∧
      IsLeast {q | before.length < q ∧ Restarts tokens q} q := by
  induction ts generalizing before previous with
  | nil =>
      have length : tokens.length = before.length + 1 := by simp [whole]
      refine ⟨tokens.length, by simp [Reading.resumeAfter], ⟨by simp [length], .inl rfl⟩, ?_⟩
      intro r further
      have := further.1
      omega
  | cons t ts ih =>
      have here : tokens[before.length]? = some previous := by simp [whole]
      have next : tokens[before.length + 1]? = some t := by simp [whole]
      by_cases starts : previous.kind = .semicolon ∨ t.kind ∈ [.classWord, .funWord, .varWord,
        .forWord, .ifWord, .whileWord, .printWord, .returnWord]
      · refine ⟨before.length + 1, ?_, ⟨Nat.lt_succ_self _, ?_⟩, fun r further => further.1⟩
        · rw [Reading.resumeAfter, if_pos starts]
          simp [whole]
        · rcases starts with semicolon | word
          · exact .inr (.inl ⟨_, _, rfl, here, semicolon⟩)
          · exact .inr (.inr ⟨t, next, word⟩)
      · obtain ⟨q, rest, ⟨behind, restarts⟩, least⟩ := ih (before ++ [previous])
          (by simpa using whole)
        rw [List.length_append, List.length_singleton] at behind
        refine ⟨q, ?_, ⟨by omega, restarts⟩, ?_⟩
        · rw [Reading.resumeAfter, if_neg starts, rest]
        · rintro r ⟨further, again⟩
          refine least ⟨?_, again⟩
          rw [List.length_append, List.length_singleton]
          refine Nat.lt_of_le_of_ne further fun same => starts ?_
          subst same
          rcases again with ended | ⟨p, u, same, found, semicolon⟩ | ⟨u, found, word⟩
          · simp [whole] at ended
          · obtain rfl := Nat.succ.inj same
            cases here.symm.trans found
            exact .inl semicolon
          · cases next.symm.trans found
            exact .inr word

theorem resume_resumes {e : Nat} (inside : e ≤ tokens.length) :
    ∃ q, Reading.resume (tokens.drop e) = tokens.drop q ∧ Resumes tokens e q := by
  by_cases ended : e = tokens.length
  · exact ⟨e, by simp [ended, Reading.resume], by simp [Resumes, ended]⟩
  · have some : e < tokens.length := Nat.lt_of_le_of_ne inside ended
    have whole : tokens = tokens.take e ++ tokens[e] :: tokens.drop (e + 1) := by
      rw [← List.drop_eq_getElem_cons some, List.take_append_drop]
    obtain ⟨q, rest, least⟩ := resumeAfter_least _ whole
    rw [List.length_take, Nat.min_eq_left inside] at least
    refine ⟨q, ?_, by rwa [Resumes, if_neg ended]⟩
    rw [List.drop_eq_getElem_cons some, Reading.resume, rest]

theorem Resumes.unique {e q r : Nat} (resumes : Resumes tokens e q) (again : Resumes tokens e r) :
    q = r := by
  unfold Resumes at resumes again
  split at resumes
  · next ended =>
      rw [if_pos ended] at again
      rw [resumes, again]
  · next more =>
      rw [if_neg more] at again
      exact resumes.unique again

theorem Restarts.le {q : Nat} (restarts : Restarts tokens q) : q ≤ tokens.length := by
  rcases restarts with ended | ⟨p, t, rfl, found, -⟩ | ⟨t, found, -⟩
  · exact Nat.le_of_eq ended
  · exact (List.getElem?_eq_some_iff.mp found).1
  · exact Nat.le_of_lt (List.getElem?_eq_some_iff.mp found).1

theorem Resumes.bounds {e q : Nat} (resumes : Resumes tokens e q) :
    q ≤ tokens.length ∧ (q = e → e = tokens.length) ∧ e ≤ q := by
  unfold Resumes at resumes
  split at resumes
  · next ended => exact ⟨by omega, fun _ => ended, by omega⟩
  · obtain ⟨⟨behind, restarts⟩, -⟩ := resumes
    exact ⟨restarts.le, fun same => absurd same (Nat.ne_of_gt behind), Nat.le_of_lt behind⟩

namespace Segment

/-- A call of the reading of declarations takes a segment. -/
theorem exists_tried {n : Nat} (more : n < tokens.length) :
    ∃ s : Segment, s.start = n ∧ s.stop ≤ tokens.length ∧ s.Tried tokens := by
  obtain ⟨used, split, taken⟩ := Reading.consumes_attempt tokens.length (tokens.drop n)
  have blames := Reading.blames_attempt tokens.length (tokens.drop n)
  generalize tried : Reading.attempt tokens.length (tokens.drop n) = read at split taken blames
  have rest : read.rest = tokens.drop (n + used.length) := by
    rw [← List.drop_drop, split, List.drop_left]
  have inside : n + used.length ≤ tokens.length := by
    have length := congrArg List.length split
    rw [List.length_append, List.length_drop] at length
    omega
  cases value : read.value? with
  | some d =>
      have further : n < n + used.length :=
        Nat.lt_add_of_pos_right (List.length_pos_iff.mpr (taken d value).some)
      exact ⟨⟨n, n + used.length, read⟩, rfl, inside, {
        read := tried.symm
        nonempty := further
        statement := fun _ _ => rest
        abandoned := fun none => by cases value.symm.trans none }⟩
  | none =>
      obtain ⟨q, -, resumes⟩ := resume_resumes inside
      obtain ⟨bound, ended, behind⟩ := resumes.bounds
      obtain ⟨before, cause, issues⟩ := blames value
      rw [rest, List.head?_drop] at issues
      have further : n < q := by omega
      exact ⟨⟨n, q, read⟩, rfl, bound, {
        read := tried.symm
        nonempty := further
        statement := fun d some => by cases value.symm.trans some
        abandoned := fun _ =>
          ⟨n + used.length, before, cause, Nat.le_add_right _ _, inside, rest, issues, resumes⟩ }⟩

/-- The segments from an index up to the end, by the number of tokens that are left. -/
theorem exists_cover (left : Nat) : ∀ n, n ≤ tokens.length → tokens.length - n ≤ left →
    ∃ ss, Cover n ss tokens.length ∧ ∀ s ∈ ss, s.Tried tokens := by
  induction left with
  | zero =>
      intro n inside none
      exact ⟨[], by simp only [Cover]; omega, by simp⟩
  | succ left ih =>
      intro n inside short
      by_cases ended : n = tokens.length
      · exact ⟨[], ended, by simp⟩
      · obtain ⟨s, rfl, bound, tried⟩ := exists_tried (Nat.lt_of_le_of_ne inside ended)
        have fewer := tried.nonempty
        obtain ⟨ss, cover, all⟩ := ih s.stop bound (by omega)
        exact ⟨s :: ss, ⟨rfl, cover⟩, List.forall_mem_cons.mpr ⟨tried, all⟩⟩

theorem Cover.append {ss tt : List Segment} {m : Nat} : ∀ {n k : Nat},
    Cover n (ss ++ tt) m → Cover n ss k → Cover k tt m := by
  induction ss with
  | nil =>
      rintro n k cover rfl
      exact cover
  | cons s ss ih =>
      rintro n k ⟨-, cover⟩ ⟨-, before⟩
      exact ih cover before

theorem Cover.le {ss : List Segment} {m : Nat} (tried : ∀ s ∈ ss, s.Tried tokens) : ∀ {n : Nat},
    Cover n ss m → n ≤ m := by
  induction ss with
  | nil =>
      rintro n rfl
      exact Nat.le_refl _
  | cons s ss ih =>
      rintro n ⟨rfl, cover⟩
      obtain ⟨here, later⟩ := List.forall_mem_cons.mp tried
      exact Nat.le_trans (Nat.le_of_lt here.nonempty) (ih later cover)

/-- The reading of declarations takes the segment that was tried. -/
theorem Tried.declaration {s : Segment} (tried : s.Tried tokens) :
    Reading.declaration tokens.length (tokens.drop s.start) =
      ⟨some s.read.value?, tokens.drop s.stop, s.read.issues⟩ := by
  rw [Reading.declaration_attempt, Reading.recover, ← tried.read]
  cases value : s.read.value? with
  | some d => rw [tried.statement d value]
  | none =>
      obtain ⟨e, before, cause, -, inside, rest, -, resumes⟩ := tried.abandoned value
      obtain ⟨q, skipped, again⟩ := resume_resumes inside
      rw [rest, skipped, again.unique resumes]

/-- Declarations up to the end of the tokens take the segments up to there. -/
theorem untilEnd_cover {ss : List Segment} (tried : ∀ s ∈ ss, s.Tried tokens) (budget : Nat) :
    ∀ n, Cover n ss tokens.length → tokens.length - n ≤ budget →
      Reading.untilEnd (Reading.declaration tokens.length) budget (tokens.drop n) =
        ⟨some (ss.map fun s => s.read.value?), [], ss.flatMap fun s => s.read.issues⟩ := by
  induction ss generalizing budget with
  | nil =>
      rintro n rfl -
      cases budget <;> simp [Reading.untilEnd, pure]
  | cons s ss ih =>
      rintro n ⟨rfl, cover⟩ short
      obtain ⟨here, later⟩ := List.forall_mem_cons.mp tried
      have further := here.nonempty
      have bound := cover.le later
      obtain ⟨budget, rfl⟩ : ∃ k, budget = k + 1 := ⟨budget - 1, by omega⟩
      have more : (tokens.drop s.start).isEmpty = false := by
        rw [List.isEmpty_eq_false_iff, Ne, List.drop_eq_nil_iff]
        omega
      have behind := ih later budget s.stop cover (by omega)
      simp [Reading.untilEnd, more, bind, here.declaration, behind, pure]

/-- Reading afresh from an index where segments begin. -/
theorem parse_cover {ss : List Segment} (tried : ∀ s ∈ ss, s.Tried tokens) {n : Nat}
    (cover : Cover n ss tokens.length) : parse (tokens.drop n) = result ss := by
  have short : (tokens.drop n).length ≤ tokens.length := List.length_drop ▸ Nat.sub_le _ _
  have read := untilEnd_cover tried tokens.length n cover (Nat.sub_le _ _)
  rw [parse, ← Reading.program_budget short, Reading.program]
  simp [bind, pure, read, result, List.filterMap_map]

end Segment

namespace Reading

/-- Where every item is a value, the list of the values is read. -/
theorem untilEnd_some (x : Reading RawStmt) (n : Nat) : ∀ ts, untilEnd (some <$> x) n ts =
    ⟨(untilEnd x n ts).value?.map (List.map some), (untilEnd x n ts).rest,
      (untilEnd x n ts).issues⟩ := by
  induction n with
  | zero => exact fun ts => rfl
  | succ n ih =>
      intro ts
      simp only [untilEnd]
      split
      · rfl
      · cases value : (x ts).value? with
        | none => simp [Functor.map, bind, value]
        | some a =>
            simp only [Functor.map, bind, value, Function.comp, pure] at ih ⊢
            rw [ih]
            cases (untilEnd x n (x ts).rest).value? <;> simp

theorem parse_untilEnd (tokens : List Token) {found : List (Option RawStmt)}
    (read : (untilEnd (declaration tokens.length) tokens.length tokens).value? = some found) :
    parse tokens = ⟨found.filterMap id,
      (untilEnd (declaration tokens.length) tokens.length tokens).issues⟩ := by
  simp [parse, program, bind, pure, read]

/-- A parser that reports nothing reads as if there were no recovery. -/
theorem quiet_strict (quiet : (parse tokens).issues = []) :
    strictProgram tokens.length tokens = ⟨some (parse tokens).program, [], []⟩ := by
  obtain ⟨value, rest⟩ := untilEnd_total (declaration_takes tokens.length) tokens.length tokens
    (Nat.le_refl _)
  obtain ⟨found, value⟩ := Option.ne_none_iff_exists'.mp value
  rw [parse_untilEnd tokens value] at quiet ⊢
  have same := (quietly_statement_declaration tokens.length).2.untilEnd tokens.length tokens quiet
  rw [untilEnd_some] at same
  rw [← same] at quiet rest value
  obtain ⟨statements, read, rfl⟩ := Option.map_eq_some_iff.mp value
  rw [← same, strictProgram]
  cases outcome : untilEnd (strictDeclaration tokens.length) tokens.length tokens with
  | mk value rest issues => simp_all

end Reading

/-- The parser recovers exactly, whatever the tokens are. -/
theorem parse_recovers (tokens : List Token) : ∃ ss, Parse.Recovers tokens ss := by
  obtain ⟨ss, cover, tried⟩ := Segment.exists_cover tokens.length 0 (Nat.zero_le _) (Nat.sub_le _ _)
  have whole : parse tokens = Segment.result ss := Segment.parse_cover tried cover
  refine ⟨ss, cover, tried, whole, ?_, ?_⟩
  · rintro before after n rfl start
    exact Segment.parse_cover (fun s member => tried s (List.mem_append_right before member))
      (cover.append start)
  · intro quiet
    refine ⟨fun s member none => ?_, Reading.quiet_strict quiet⟩
    obtain ⟨e, before, cause, -, -, -, issues, -⟩ := (tried s member).abandoned none
    have silent : s.read.issues = [] := by
      rw [whole] at quiet
      exact List.flatMap_eq_nil_iff.mp quiet s member
    simp [silent] at issues

end

end LoxLang
