import LoxLang.Proofs.Addressing.Balance
import LoxLang.Proofs.Addressing.Lawful
import LoxLang.Proofs.Mentions
/-! The walk over a program sees at every place what the scopes around the place declare before it.
What it reports and the addresses it finds can therefore be read off the places. -/
namespace LoxLang
variable {δ : Type}

theorem past_nil (around : List (Enclosure δ)) : past [] around = around := by
  cases around with
  | nil => rfl
  | cons f outer => simp [past]

theorem past_append (xs ys : List (Mention δ)) (around : List (Enclosure δ)) :
    past (xs ++ ys) around = past ys (past xs around) := by
  cases around with
  | nil => rfl
  | cons f outer => simp [past]

theorem spotsOf_append (xs ys : List (Mention δ)) (around : List (Enclosure δ)) :
    spotsOf around (xs ++ ys) = spotsOf around xs ++ spotsOf (past xs around) ys := by
  induction xs generalizing around with
  | nil => rw [past_nil]; rfl
  | cons x xs ih =>
      rw [List.cons_append, spotsOf, spotsOf, ih, ← past_append, List.append_assoc]
      rfl

theorem spotsOf_scope (kind : ScopeKind) (items : List (Mention δ)) (around : List (Enclosure δ)) :
    spotsOf around [.scope kind items] = spotsOf (⟨kind, []⟩ :: around) items := by
  rw [spotsOf, spotsOf, Mention.spots, List.append_nil]

@[simp] theorem inRoutine_past (items : List (Mention δ)) (around : List (Enclosure δ)) :
    inRoutine (past items around) = inRoutine around := by
  cases around <;> rfl

@[simp] theorem innermostClass_past (items : List (Mention δ)) (around : List (Enclosure δ)) :
    innermostClass (past items around) = innermostClass around := by
  cases around <;> rfl

/-- What is said of a reference with the address of the nearest scope that declares its name. -/
def Spot.Addressed (p : Spot Address) : Prop :=
  ∀ o, p.occurrence? = some o →
    o.address = if p.misplaced then none else p.around.findIdx? (·.declares o.token.lexeme)

namespace Walk
variable {α β : Type} {i j : Option Name} {c : Context} {F : List (Enclosure Address)}

/-- The class around a place. -/
def surroundingOf : Option Bool → Surrounding
  | none => .noClass
  | some false => .plainClass
  | some true => .subclass

/-- The context of a walk has what the scopes around a place declare before it, all of it finished
but for the variable `i` in whose initializer the place is. -/
structure Agrees (i : Option Name) (c : Context) (F : List (Enclosure Address)) : Prop where
  inRoutine : c.inRoutine = LoxLang.inRoutine F
  surrounding : c.surrounding = surroundingOf (innermostClass F)
  names : ∀ x, c.scopes.map (·.contains x) = F.map (·.declares x)
  pending : Scopes.PendingOnly c.scopes i
  entered : ∀ n g Γ, i = some n → c.scopes = g :: Γ → g.find? n.text = some false

/-- A walk from `c` reports what is wrong at the places it comes by, finds their addresses and
counts them, and agrees with the place behind them. -/
structure Follows (j : Option Name) (F : List (Enclosure Address)) (items : List (Mention Address))
    (c : Context) (o : Outcome α) : Prop where
  issues : o.issues = (spotsOf F items).filterMap Spot.offence?
  addressed : ∀ p ∈ spotsOf F items, p.Addressed
  resolved : o.context.resolved = c.resolved +
    ((spotsOf F items).filterMap Spot.occurrence?).countP (·.address.isSome)
  agrees : Agrees j o.context (past items F)

namespace Follows
variable {xs ys : List (Mention Address)} {x : Walk α}

theorem pure (agrees : Agrees j c F) (a : α) : Follows j F [] c ((Pure.pure a : Walk α) c) := by
  refine ⟨rfl, fun p none => absurd none List.not_mem_nil, rfl, ?_⟩
  rw [past_nil]
  exact agrees

theorem append {o : Outcome α} {o' : Outcome β} (first : Follows i F xs c o)
    (second : Follows j (past xs F) ys o.context o') :
    Follows j F (xs ++ ys) c
      (⟨o'.value, o'.context, o.issues ++ o'.issues, o.overdrawn || o'.overdrawn⟩ : Outcome β) := by
  refine ⟨?_, ?_, ?_, ?_⟩
  · rw [first.issues, second.issues, spotsOf_append, List.filterMap_append]
  · rw [spotsOf_append]
    exact List.forall_mem_append.mpr ⟨first.addressed, second.addressed⟩
  · rw [second.resolved, first.resolved, spotsOf_append, List.filterMap_append,
      List.countP_append, Nat.add_assoc]
  · rw [past_append]
    exact second.agrees

theorem bind {f : α → Walk β} (first : Follows i F xs c (x c))
    (second : Follows j (past xs F) ys (x c).context (f (x c).value (x c).context)) :
    Follows j F (xs ++ ys) c ((x >>= f) c) :=
  first.append second

theorem map (first : Follows j F xs c (x c)) (g : α → β) :
    Follows j F xs c ((x >>= fun a => Pure.pure (g a)) c) := by
  have whole := first.bind (.pure first.agrees (g (x c).value)) (f := fun a => Pure.pure (g a))
  rwa [List.append_nil] at whole

end Follows

namespace Agrees

theorem keep {d : Context} (agrees : Agrees i c F) (kept : Keeps c d) : Agrees i d F := by
  have routine := kept.inRoutine
  obtain ⟨scopes, -, surrounding⟩ := kept
  refine ⟨routine.trans agrees.inRoutine, surrounding.trans agrees.surrounding, ?_, ?_, ?_⟩
  · rw [scopes]
    exact agrees.names
  · rw [scopes]
    exact agrees.pending
  · rw [scopes]
    exact agrees.entered

/-- A mention that declares nothing leaves the scopes around a place as they are. -/
theorem skip (agrees : Agrees i c F) {item : Mention Address}
    (quiet : ∀ x, item.declares x = false) :
    Agrees i c (past [item] F) := by
  refine ⟨?_, ?_, fun x => (agrees.names x).trans ?_, agrees.pending, agrees.entered⟩
  · rw [inRoutine_past, agrees.inRoutine]
  · rw [innermostClass_past, agrees.surrounding]
  · cases F with
    | nil => rfl
    | cons f outer => simp [past, Enclosure.declares, quiet]

theorem locate_eq (agrees : Agrees i c F) (x : String) :
    Scopes.locate c.scopes x = F.findIdx? (·.declares x) := by
  have mapped := congrArg (List.findIdx? id) (agrees.names x)
  rwa [List.findIdx?_map, List.findIdx?_map] at mapped

/-- The start of a declaration adds its name, unfinished. -/
theorem declare (agrees : Agrees none c F) (n : Name) :
    Agrees (some n) (declare n c).context (past [.declaration n] F) := by
  rw [Walk.declare, context_enter]
  refine ⟨?_, ?_, fun x => ?_, agrees.pending.enter n, ?_⟩
  · rw [inRoutine_past, ← agrees.inRoutine, Context.inRoutine, Context.inRoutine]
  · rw [innermostClass_past, ← agrees.surrounding]
  · have names := agrees.names x
    cases scopes : c.scopes with
    | nil =>
        obtain rfl : F = [] := by simpa [scopes] using names.symm
        rfl
    | cons g Γ =>
        obtain ⟨f, outer, rfl⟩ : ∃ f outer, F = f :: outer :=
          List.exists_cons_of_ne_nil fun none => by simp [scopes, none] at names
        simp only [scopes, List.map_cons, List.cons.injEq] at names
        obtain ⟨head, tail⟩ := names
        simp only [Scopes.enter, past, List.map_cons, tail, List.cons.injEq, and_true]
        by_cases same : x = n.text
        · simp [same, Table.contains, Enclosure.declares, Mention.declares]
        · simpa [same, Ne.symm same, Table.contains, Enclosure.declares, Mention.declares] using
            head
  · rintro m g Γ ⟨⟩ scopes
    cases before : c.scopes with
    | nil => simp [before, Scopes.enter] at scopes
    | cons h Δ =>
        simp only [before, Scopes.enter, List.cons.injEq] at scopes
        rw [← scopes.1, Table.find?_put, if_pos rfl]

/-- The end of a declaration changes nothing but that its name is finished. -/
theorem define {n : Name} (agrees : Agrees (some n) c F) : Agrees none (define n c).context F := by
  rw [Walk.define, context_enter]
  refine ⟨agrees.inRoutine, agrees.surrounding, fun x => (agrees.names x).symm ▸ ?_,
    agrees.pending.finish, fun m g Γ none => nomatch none⟩
  cases scopes : c.scopes with
  | nil => rfl
  | cons g Γ =>
      have entered := agrees.entered n g Γ rfl scopes
      by_cases same : x = n.text
      · simp [Scopes.enter, Table.contains, same, entered]
      · simp [Scopes.enter, Table.contains, same]

end Agrees

theorem locate_counts (x : String) (c : Context) : (locate x c).context =
    { c with resolved := c.resolved + if (locate x c).value.isSome then 1 else 0 } := by
  unfold locate
  split <;> rfl

theorem locateReceiver_eq (pos : Pos) (c : Context) : locateReceiver pos c =
    if c.surrounding = .noClass then ⟨none, c, [⟨receiverToken pos, .receiverOutside⟩], false⟩
    else locate "this" c := by
  cases around : c.surrounding <;>
    simp only [locateReceiver, Bind.bind, run_context, around] <;> rfl

theorem locateInherited_eq (pos : Pos) (c : Context) : locateInherited pos c =
    if c.surrounding = .noClass then ⟨none, c, [⟨inheritedToken pos, .inheritedOutside⟩], false⟩
    else if c.surrounding = .plainClass then
      ⟨none, c, [⟨inheritedToken pos, .inheritedWithoutSuperclass⟩], false⟩
    else locate "super" c := by
  cases around : c.surrounding <;>
    simp only [locateInherited, Bind.bind, run_context, around] <;> rfl

/-- A reference is reported at its place or found in the scopes around it, and counted if it is
found in one of them. -/
theorem Follows.reference {o : Outcome α} {role : Occurrence.Role} {token : Token} {a : Address}
    {inside : Option Name} (agrees : Agrees i c F)
    (issues : o.issues = (Spot.offence? ⟨F, .reference role token a inside⟩).toList)
    (address : Spot.Addressed ⟨F, .reference role token a inside⟩)
    (context : o.context = { c with resolved := c.resolved + if a.isSome then 1 else 0 }) :
    Follows i F [.reference role token a inside] c o := by
  have alone : spotsOf F [.reference role token a inside] =
      [⟨F, .reference role token a inside⟩] := rfl
  have behind : Agrees i o.context F := by
    rw [context]
    exact agrees.keep ⟨rfl, rfl, rfl⟩
  refine ⟨?_, ?_, ?_, behind.skip fun _ => rfl⟩
  · rw [alone, issues, List.filterMap_cons]
    cases Spot.offence? ⟨F, .reference role token a inside⟩ <;> rfl
  · rw [alone]
    exact List.forall_mem_singleton.mpr address
  · rw [alone, context]
    simp [Spot.occurrence?, List.countP_cons]

/-- A reference with nothing wrong about it is looked up. -/
theorem Follows.located {role : Occurrence.Role} {token : Token} {inside : Option Name}
    (agrees : Agrees i c F)
    (sound : ∀ a, Spot.offence? ⟨F, .reference role token a inside⟩ = none) :
    Follows i F [.reference role token (locate token.lexeme c).value inside] c
      (locate token.lexeme c) := by
  refine .reference agrees ?_ ?_ (locate_counts _ _)
  · rw [sound, issues_locate]
    rfl
  · rintro o ⟨⟩
    have placed : Spot.misplaced ⟨F, .reference role token (locate token.lexeme c).value inside⟩ =
        false := by
      cases role <;> simp [Spot.misplaced, sound]
    rw [placed]
    exact (value_locate _ _).trans (agrees.locate_eq _)

/-- A reference out of place is reported and not looked up. -/
theorem Follows.misplaced {role : Occurrence.Role} {token : Token} {inside : Option Name}
    {issue : ScopeIssue} (agrees : Agrees i c F)
    (wrong : Spot.offence? ⟨F, .reference role token none inside⟩ = some issue)
    (keyword : role = .receiver ∨ role = .inherited) :
    Follows i F [.reference role token none inside] c
      (⟨none, c, [issue], false⟩ : Outcome Address) := by
  refine .reference agrees ?_ ?_ rfl
  · rw [wrong]
    rfl
  · rintro o ⟨⟩
    have out : Spot.misplaced ⟨F, .reference role token none inside⟩ = true := by
      rcases keyword with rfl | rfl <;> simp [Spot.misplaced, wrong]
    rw [out]
    rfl

theorem locateReceiver_follows (agrees : Agrees i c F) (pos : Pos) :
    Follows i F [.reference .receiver (receiverToken pos) (locateReceiver pos c).value i] c
      (locateReceiver pos c) := by
  rw [locateReceiver_eq]
  cases around : innermostClass F with
  | none =>
      rw [if_pos (by rw [agrees.surrounding, around]; rfl)]
      exact .misplaced agrees (by simp [Spot.offence?, around]) (.inl rfl)
  | some inherits =>
      rw [if_neg (by rw [agrees.surrounding, around]; cases inherits <;> decide)]
      exact .located agrees fun a => by simp [Spot.offence?, around]

theorem locateInherited_follows (agrees : Agrees i c F) (pos : Pos) :
    Follows i F [.reference .inherited (inheritedToken pos) (locateInherited pos c).value i] c
      (locateInherited pos c) := by
  rw [locateInherited_eq, agrees.surrounding]
  cases around : innermostClass F with
  | none => exact .misplaced agrees (by simp [Spot.offence?, around]) (.inr rfl)
  | some inherits =>
      cases inherits with
      | false => exact .misplaced agrees (by simp [Spot.offence?, around]) (.inr rfl)
      | true => exact .located agrees fun a => by simp [Spot.offence?, around]

/-- The only name whose declaration can be unfinished is that of the variable in whose initializer
the place is. -/
theorem issues_checkInitializer (agrees : Agrees i c F) (n : Name) (a : Address) :
    (checkInitializer n c).issues = (Spot.offence? ⟨F, .reference .access n.token a i⟩).toList := by
  have names := agrees.names n.text
  cases scopes : c.scopes with
  | nil =>
      obtain rfl : F = [] := by simpa [scopes] using names.symm
      cases i <;> simp [checkInitializer, scopes, Spot.offence?]
  | cons g Γ =>
      have inner : F ≠ [] := fun none => by simp [scopes, none] at names
      cases i with
      | none =>
          have finished : g.find? n.text ≠ some false := fun unfinished => by
            simpa using (agrees.pending 0 g n.text (by rw [scopes]; rfl) unfinished).2
          simp [checkInitializer, scopes, finished, Spot.offence?]
      | some m =>
          by_cases same : m.text = n.text
          · have entered := agrees.entered m g Γ rfl scopes
            rw [same] at entered
            simp [checkInitializer, scopes, entered, Spot.offence?, same, inner, Name.token]
          · have finished : g.find? n.text ≠ some false := fun unfinished => by
              obtain ⟨-, k, named, itself⟩ :=
                agrees.pending 0 g n.text (by rw [scopes]; rfl) unfinished
              cases named
              exact same itself
            simp [checkInitializer, scopes, finished, Spot.offence?, same, Name.token]

theorem access_follows (agrees : Agrees i c F) (n : Name) (g : Address → α) :
    Follows i F [.reference .access n.token (locate n.text c).value i] c
      ((checkInitializer n >>= fun _ => locate n.text >>= fun a => pure (g a)) c) := by
  refine .reference agrees ?_ ?_ ?_
  · rw [issues_bind, issues_checkInitializer agrees n (locate n.text c).value]
    simp
  · rintro o ⟨⟩
    exact (value_locate _ _).trans (agrees.locate_eq n.text)
  · rw [context_bind, context_checkInitializer]
    exact locate_counts _ _

mutual

theorem expr_follows : ∀ (e : Expr Unit) (c : Context) (F : List (Enclosure Address)),
    Agrees i c F → Follows i F ((expr e c).value.mentions i) c (expr e c)
  | .literal _ _, c, F, agrees => .pure agrees _
  | .grouping _ inner, c, F, agrees => (expr_follows inner c F agrees).map _
  | .var name _, c, F, agrees => by
      have found := access_follows agrees name fun a => (Expr.var name a : Expr Address)
      simp only [expr, value_bind, context_checkInitializer, run_pure, Expr.mentions]
      exact found
  | .assign name value _, c, F, agrees => by
      have first := expr_follows value c F agrees
      exact first.bind ((Follows.located first.agrees fun _ => rfl).map _)
  | .unary _ _ operand, c, F, agrees => (expr_follows operand c F agrees).map _
  | .binary left _ _ right, c, F, agrees => by
      have first := expr_follows left c F agrees
      exact first.bind ((expr_follows right _ _ first.agrees).map _)
  | .logical left _ _ right, c, F, agrees => by
      have first := expr_follows left c F agrees
      exact first.bind ((expr_follows right _ _ first.agrees).map _)
  | .conditional condition thenBranch elseBranch, c, F, agrees => by
      have first := expr_follows condition c F agrees
      have second := expr_follows thenBranch _ _ first.agrees
      exact first.bind (second.bind ((expr_follows elseBranch _ _ second.agrees).map _))
  | .call callee _ arguments, c, F, agrees => by
      have first := expr_follows callee c F agrees
      exact first.bind ((exprs_follow arguments _ _ first.agrees).map _)
  | .member object _, c, F, agrees => (expr_follows object c F agrees).map _
  | .assignMember object _ value, c, F, agrees => by
      have first := expr_follows value c F agrees
      exact first.bind ((expr_follows object _ _ first.agrees).map _)
  | .receiver pos _, c, F, agrees => (locateReceiver_follows agrees pos).map _
  | .inherited pos _ _, c, F, agrees => (locateInherited_follows agrees pos).map _

theorem exprs_follow : ∀ (es : List (Expr Unit)) (c : Context) (F : List (Enclosure Address)),
    Agrees i c F → Follows i F (mentionsOfAll i (exprs es c).value) c (exprs es c)
  | [], c, F, agrees => .pure agrees _
  | e :: rest, c, F, agrees => by
      have first := expr_follows e c F agrees
      exact first.bind ((exprs_follow rest _ _ first.agrees).map _)

end


theorem Follows.of_eq {items : List (Mention Address)} {o : Outcome α} {o' : Outcome β}
    (follows : Follows j F items c o) (context : o'.context = o.context)
    (issues : o'.issues = o.issues) : Follows j F items c o' := by
  refine ⟨issues.trans follows.issues, follows.addressed, ?_, ?_⟩
  · rw [context]
    exact follows.resolved
  · rw [context]
    exact follows.agrees

theorem declare_follows (agrees : Agrees none c F) (n : Name) :
    Follows (some n) F [.declaration n] c (declare n c) := by
  refine ⟨?_, List.forall_mem_singleton.mpr nofun, ?_, agrees.declare n⟩
  · rw [declare, issues_enter]
    rfl
  · rw [declare, context_enter]
    rfl

theorem define_follows {n : Name} (agrees : Agrees (some n) c F) :
    Follows none F [] c (define n c) := by
  refine ⟨?_, fun p none => absurd none List.not_mem_nil, ?_, ?_⟩
  · rw [define, issues_enter]
    rfl
  · rw [define, context_enter]
    rfl
  · rw [past_nil]
    exact agrees.define

/-- A declaration that is complete at once. -/
theorem declaration_follows (agrees : Agrees none c F) (n : Name) :
    Follows none F [.declaration n] c
      (⟨(), { c with scopes := Scopes.declare c.scopes n.text }, [], false⟩ : Outcome Unit) := by
  have started := declare_follows agrees n
  have whole := started.append (define_follows started.agrees)
  refine whole.of_eq ?_ ?_
  · simp [declare, define, Scopes.declare]
  · simp [declare, define]

theorem defineAll_follows (agrees : Agrees none c F) (ps : List Name) :
    Follows none F (ps.map .declaration) c (defineAll ps c) := by
  induction ps generalizing c F with
  | nil => exact .pure agrees ()
  | cons p ps ih =>
      have first := declaration_follows agrees p
      refine (first.append (ih first.agrees)).of_eq ?_ ?_
      · simp [defineAll, declare, define, Scopes.declare]
      · simp [defineAll, declare, define]

/-- The place inside a scope, once that is open. -/
theorem Agrees.inside (agrees : Agrees none c F) {d : Context} {g : Table Bool} (kind : ScopeKind)
    (inRoutine : d.inRoutine = (kind = .routine || c.inRoutine))
    (surrounding : d.surrounding = surroundingOf (kind.class?.or (innermostClass F)))
    (scopes : d.scopes = g :: c.scopes)
    (held : ∀ x, g.find? x = if kind.held = some x then some true else none) :
    Agrees none d (⟨kind, []⟩ :: F) := by
  refine ⟨?_, ?_, fun x => ?_, ?_, fun n g Γ none => nomatch none⟩
  · rw [inRoutine, agrees.inRoutine]
    rfl
  · rw [surrounding, innermostClass, innermostClass, List.findSome?_cons]
    cases kind.class? <;> rfl
  · rw [scopes, List.map_cons, List.map_cons, agrees.names x]
    refine congrArg (· :: _) ?_
    by_cases here : kind.held = some x <;> simp [Table.contains, Enclosure.declares, held, here]
  · rw [scopes]
    refine agrees.pending.cons fun x unfinished => ?_
    rw [held] at unfinished
    split at unfinished <;> cases unfinished

/-- What a walk that is done with a scope goes back to. -/
def outside (c : Context) (o : Outcome α) : Outcome Unit :=
  ⟨(), ⟨o.context.scopes.tail, c.enclosing, c.surrounding, o.context.resolved⟩, o.issues,
    o.overdrawn⟩

theorem Follows.enclosed (agrees : Agrees none c F) {d : Context} {kind : ScopeKind}
    {items : List (Mention Address)} {o : Outcome α}
    (inner : Follows none (⟨kind, []⟩ :: F) items d o) (counted : d.resolved = c.resolved) :
    Follows none F [.scope kind items] c (outside c o) := by
  have outer : Agrees none (outside c o).context F := by
    refine ⟨agrees.inRoutine, agrees.surrounding, fun x => ?_, fun k g x here unfinished => ?_,
      fun n g Γ none => nomatch none⟩
    · rw [outside, List.map_tail, inner.agrees.names x]
      rfl
    · have found : o.context.scopes[k + 1]? = some g := by
        rw [← List.getElem?_tail]
        exact here
      exact absurd (inner.agrees.pending (k + 1) g x found unfinished).1 (Nat.succ_ne_zero k)
  refine ⟨?_, ?_, ?_, outer.skip fun _ => rfl⟩
  · rw [spotsOf_scope]
    exact inner.issues
  · rw [spotsOf_scope]
    exact inner.addressed
  · rw [spotsOf_scope, ← counted]
    exact inner.resolved

theorem exit_follows (agrees : Agrees none c F) (pos : Pos) :
    Follows none F [.exit pos] c
      (⟨(), c, if c.inRoutine then [] else [⟨returnToken pos, .returnOutside⟩], false⟩ :
        Outcome Unit) := by
  refine ⟨?_, List.forall_mem_singleton.mpr nofun, rfl, agrees.skip fun _ => rfl⟩
  have alone : spotsOf F [.exit pos] = [⟨F, .exit pos⟩] := rfl
  rw [alone, agrees.inRoutine]
  cases around : LoxLang.inRoutine F <;> simp [Spot.offence?, around]

/-- What is reported of a superclass, and where it is found, does not depend on the class around. -/
theorem superclass_eq (name : Name) (parent : Superclass Unit) (c : Context) (s : Surrounding) :
    superclass name parent { c with surrounding := s } =
      ⟨⟨parent.name, (locate parent.name.text c).value⟩,
        { (locate parent.name.text c).context with surrounding := .subclass },
        (if parent.name.text = name.text then [⟨parent.name.token, .inheritsItself⟩] else []) ++
          (checkInitializer parent.name c).issues,
        false⟩ := by
  have checked : (checkInitializer parent.name { c with surrounding := .subclass }).issues =
      (checkInitializer parent.name c).issues := by
    unfold checkInitializer
    cases c.scopes with
    | nil => rfl
    | cons g Γ => dsimp only; split <;> rfl
  have parts : ∀ o : Outcome (Superclass Address),
      o = superclass name parent { c with surrounding := s } →
      o.value = ⟨parent.name, (locate parent.name.text c).value⟩ ∧
      o.context = { (locate parent.name.text c).context with surrounding := .subclass } ∧
      o.issues = (if parent.name.text = name.text then [⟨parent.name.token, .inheritsItself⟩]
        else []) ++ (checkInitializer parent.name c).issues := by
    rintro o rfl
    unfold superclass
    split <;> simp [checked, locate_counts]
  obtain ⟨value, context, issues⟩ := parts _ rfl
  rw [← value, ← context, ← issues, ← overdrawn_superclass name parent { c with surrounding := s }]

theorem superclass_follows (agrees : Agrees none c F) (name : Name) (parent : Superclass Unit)
    (s : Surrounding) :
    Follows none F ((superclass name parent { c with surrounding := s }).value.mentions name) c
      (⟨(), { (superclass name parent { c with surrounding := s }).context with
        surrounding := c.surrounding },
        (superclass name parent { c with surrounding := s }).issues, false⟩ : Outcome Unit) := by
  have inherits : Follows none F [.inheritance name parent.name] c
      (⟨(), c, if parent.name.text = name.text then [⟨parent.name.token, .inheritsItself⟩]
        else [], false⟩ : Outcome Unit) := by
    refine ⟨?_, List.forall_mem_singleton.mpr nofun, rfl, agrees.skip fun _ => rfl⟩
    have alone : spotsOf F [.inheritance name parent.name] = [⟨F, .inheritance name parent.name⟩] :=
      rfl
    rw [alone]
    by_cases same : parent.name.text = name.text <;> simp [Spot.offence?, same]
  have whole := inherits.append (access_follows inherits.agrees parent.name id)
  rw [superclass_eq]
  refine whole.of_eq ?_ ?_
  · simp [locate_counts]
  · simp

mutual

theorem stmt_follows : ∀ (s : Stmt Unit) (c : Context) (F : List (Enclosure Address)),
    Agrees none c F → Follows none F (stmt s c).value.mentions c (stmt s c)
  | .expression value, c, F, agrees => (expr_follows value c F agrees).map _
  | .print _ value, c, F, agrees => (expr_follows value c F agrees).map _
  | .var name none, c, F, agrees => by
      refine (declaration_follows agrees name).of_eq ?_ ?_
      · simp [stmt, optionalExpr, declare, define, Scopes.declare]
      · simp [stmt, optionalExpr, declare, define]
  | .var name (some value), c, F, agrees => by
      have started := declare_follows agrees name
      have within := expr_follows value _ _ started.agrees
      have whole := started.append (within.append (define_follows within.agrees))
      rw [List.append_nil] at whole
      refine whole.of_eq ?_ ?_
      · simp [stmt, optionalExpr]
      · simp [stmt, optionalExpr]
  | .block _ body, c, F, agrees => by
      let d : Context := { c with scopes := Table.empty :: c.scopes }
      have inside : Agrees none d (⟨.block, []⟩ :: F) :=
        agrees.inside .block (by simp [d]) agrees.surrounding rfl fun x => rfl
      have balanced := stmts_balance body d
      refine (Follows.enclosed agrees (stmts_follow body d _ inside) rfl).of_eq ?_ ?_
      · simp [stmt, outside, d, balanced.enclosing, balanced.surrounding]
      · simp [stmt, outside, d]
  | .ifThen _ condition thenBranch, c, F, agrees => by
      have first := expr_follows condition c F agrees
      exact first.bind ((stmt_follows thenBranch _ _ first.agrees).map _)
  | .ifElse _ condition thenBranch elseBranch, c, F, agrees => by
      have first := expr_follows condition c F agrees
      have second := stmt_follows thenBranch _ _ first.agrees
      exact first.bind (second.bind ((stmt_follows elseBranch _ _ second.agrees).map _))
  | .loop _ condition body, c, F, agrees => by
      have first := expr_follows condition c F agrees
      exact first.bind ((stmt_follows body _ _ first.agrees).map _)
  | .function declaration, c, F, agrees => by
      have first := declaration_follows agrees declaration.name
      have whole := first.append (routine_follows .function declaration _ _ first.agrees)
      have here : (stmt (.function declaration) c).value.mentions = .declaration declaration.name ::
          (routine .function declaration
            { c with scopes := Scopes.declare c.scopes declaration.name.text }).value.mentions := by
        simp [stmt, Stmt.mentions, declare, define, Scopes.declare]
      rw [here]
      refine whole.of_eq ?_ ?_
      · simp [stmt, declare, define, Scopes.declare]
      · simp [stmt, declare, define, Scopes.declare]
  | .classDecl name none methods, c, F, agrees => by
      let d : Context :=
        ⟨receiverScope :: Scopes.declare c.scopes name.text, c.enclosing, .plainClass, c.resolved⟩
      have first := declaration_follows agrees name
      have inside : Agrees none d (⟨.receiver false, []⟩ :: past [.declaration name] F) :=
        first.agrees.inside (.receiver false) (by simp [d]) rfl rfl fun x => by
          simp [receiverScope, ScopeKind.held, eq_comm]
      have balanced := routines_restore methods d
      have whole := first.append (.enclosed first.agrees (routines_follow methods d _ inside) rfl)
      have here : (stmt (.classDecl name none methods) c).value.mentions = [.declaration name,
          .scope (.receiver false) (mentionsOfMethods (routines methods d).value)] := by
        simp [stmt, Stmt.mentions, declare, define, Scopes.declare, d]
      rw [here]
      refine whole.of_eq ?_ ?_
      · simp [stmt, outside, declare, define, Scopes.declare, d]
        exact balanced.enclosing
      · simp [stmt, outside, declare, define, Scopes.declare, d]
  | .classDecl name (some parent) methods, c, F, agrees => by
      let b : Context := { c with scopes := Scopes.declare c.scopes name.text }
      let above := superclass name parent { b with surrounding := .plainClass }
      let k : Context := { above.context with surrounding := c.surrounding }
      let d : Context := { k with scopes := inheritedScope :: k.scopes }
      let e : Context :=
        { d with scopes := receiverScope :: d.scopes, surrounding := above.context.surrounding }
      have first : Follows none F [.declaration name] c (⟨(), b, [], false⟩ : Outcome Unit) :=
        declaration_follows agrees name
      have second : Follows none (past [.declaration name] F) (above.value.mentions name) b
          (⟨(), k, above.issues, false⟩ : Outcome Unit) :=
        superclass_follows first.agrees name parent .plainClass
      have around : Agrees none d (⟨.inherited, []⟩ :: _) :=
        second.agrees.inside .inherited rfl second.agrees.surrounding rfl fun x => by
          simp [inheritedScope, ScopeKind.held, eq_comm]
      have kept := keeps_superclass name parent { b with surrounding := .plainClass }
      have inside : Agrees none e (⟨.receiver true, []⟩ :: _) :=
        around.inside (.receiver true) rfl kept.surrounding rfl fun x => by
          simp [receiverScope, ScopeKind.held, eq_comm]
      have balanced := routines_restore methods e
      have inner := Follows.enclosed around (routines_follow methods e _ inside) rfl
      have whole := first.append (second.append (.enclosed second.agrees inner rfl))
      have here : (stmt (.classDecl name (some parent) methods) c).value.mentions =
          [.declaration name] ++ (above.value.mentions name ++ [.scope .inherited
            [.scope (.receiver true) (mentionsOfMethods (routines methods e).value)]]) := by
        simp [stmt, Stmt.mentions, declare, define, Scopes.declare, above, b, k, d, e]
      rw [here]
      refine whole.of_eq ?_ ?_
      · simp [stmt, outside, declare, define, Scopes.declare, above, b, k, d, e]
        exact balanced.enclosing
      · simp [stmt, outside, declare, define, Scopes.declare, above, b, k, d, e]
  | .ret pos none, c, F, agrees => by
      rw [value_ret]
      refine (exit_follows agrees pos).of_eq ?_ ?_
      · cases around : c.inRoutine <;> simp [stmt, around, optionalExpr]
      · cases around : c.inRoutine <;> simp [stmt, around, optionalExpr]
  | .ret pos (some value), c, F, agrees => by
      have first := exit_follows agrees pos
      have whole := first.append (expr_follows value _ _ first.agrees)
      rw [value_ret]
      refine whole.of_eq ?_ ?_
      · cases around : c.inRoutine <;> simp [stmt, around, optionalExpr]
      · cases around : c.inRoutine <;> simp [stmt, around, optionalExpr]

theorem stmts_follow : ∀ (ss : List (Stmt Unit)) (c : Context) (F : List (Enclosure Address)),
    Agrees none c F → Follows none F (mentionsOfBody (stmts ss c).value) c (stmts ss c)
  | [], c, F, agrees => .pure agrees _
  | s :: rest, c, F, agrees => by
      have first := stmt_follows s c F agrees
      exact first.bind ((stmts_follow rest _ _ first.agrees).map _)

theorem routine_follows (k : RoutineKind) : ∀ (r : Routine Unit) (c : Context)
    (F : List (Enclosure Address)),
    Agrees none c F → Follows none F (routine k r c).value.mentions c (routine k r c)
  | .mk name params body, c, F, agrees => by
      let d : Context := ⟨Table.empty :: c.scopes, some k, c.surrounding, c.resolved⟩
      have inside : Agrees none d (⟨.routine, []⟩ :: F) :=
        agrees.inside .routine rfl agrees.surrounding rfl fun x => rfl
      have first := defineAll_follows inside params
      have balanced := stmts_balance body (defineAll params d).context
      have inner := first.append (stmts_follow body _ _ first.agrees)
      refine (Follows.enclosed agrees inner rfl).of_eq ?_ ?_
      · simp [routine, outside, d]
        exact balanced.surrounding.trans (by rw [context_defineAll])
      · simp [routine, outside, d]

theorem routines_follow : ∀ (rs : List (Routine Unit)) (c : Context) (F : List (Enclosure Address)),
    Agrees none c F → Follows none F (mentionsOfMethods (routines rs c).value) c (routines rs c)
  | [], c, F, agrees => .pure agrees _
  | r :: rest, c, F, agrees => by
      have first := routine_follows .method r c F agrees
      exact first.bind ((routines_follow rest _ _ first.agrees).map _)

end

end Walk
end LoxLang
