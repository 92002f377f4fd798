import LoxLang.Proofs.Addressing.Lawful
import LoxLang.Proofs.Renaming
/-! The walk over a program in which a name is changed in some scopes. Where it has nothing to report
of the program, it has nothing to report then, and comes to the same addresses. -/
namespace LoxLang

section
variable {τ : Respelling} {ρ : Renaming} {F : List Bool}

/-- The scopes that a walk has open, with names changed in some of them. -/
def Scopes.rename (ρ : Renaming) (F : List Bool) (Γ : Scopes) : Scopes :=
  List.zipWith (Table.rename ρ) F Γ

/-- It is known of each scope whether names are changed there, and none has the new name. -/
structure Scopes.Fits (ρ : Renaming) (F : List Bool) (Γ : Scopes) : Prop where
  length : F.length = Γ.length
  fresh : ∀ g ∈ Γ, g.find? ρ.new = none

theorem Scopes.Fits.cons {Γ : Scopes} (fits : Γ.Fits ρ F) {g : Table Bool}
    (fresh : g.find? ρ.new = none) (b : Bool) : Scopes.Fits ρ (b :: F) (g :: Γ) :=
  ⟨congrArg (· + 1) fits.length, List.forall_mem_cons.mpr ⟨fresh, fits.fresh⟩⟩

/-- A name is found in the scope in which it was found, spelled as that has it. -/
theorem Scopes.locate_rename {x : String} (other : x ≠ ρ.new) (Γ : Scopes) : ∀ F,
    Γ.Fits ρ F → (Γ.rename ρ F).locate (ρ.spell (changedAt F (Γ.locate x)) x) = Γ.locate x := by
  induction Γ with
  | nil =>
      intro F fits
      obtain rfl : F = [] := List.length_eq_zero_iff.mp fits.length
      rfl
  | cons g Γ ih =>
      intro F fits
      obtain ⟨b, F, rfl⟩ := List.exists_cons_of_length_eq_add_one fits.length
      obtain ⟨fresh, inner⟩ := List.forall_mem_cons.mp fits.fresh
      have rest := ih F ⟨Nat.succ.inj fits.length, inner⟩
      rw [Scopes.rename, List.zipWith_cons_cons, Scopes.locate_cons, Scopes.locate_cons]
      by_cases here : g.contains x = true
      · have found : (g.rename ρ b).contains (ρ.spell b x) = true := by
          rw [Table.contains, Table.find?_rename fresh other]
          exact here
        rw [if_pos here]
        exact if_pos found
      · have none : g.find? x = none := by simpa [Table.contains] using here
        have missing (c : Bool) : ¬(g.rename ρ b).contains (ρ.spell c x) = true := by
          simp [Table.contains, Table.find?_rename_none fresh other none c]
        have deeper : changedAt (b :: F) ((Scopes.locate Γ x).map (· + 1)) =
            changedAt F (Scopes.locate Γ x) := by
          cases Scopes.locate Γ x <;> rfl
        rw [if_neg here, deeper, if_neg (missing _)]
        exact congrArg (Option.map (· + 1)) rest

end

namespace Walk

def Context.rename (ρ : Renaming) (F : List Bool) (c : Context) : Context :=
  { c with scopes := Scopes.rename ρ F c.scopes }

/-- Where the first walk has nothing to report, neither has the second one, and it comes to the same
with names changed. -/
def Renames {α : Type} (ρ : Renaming) (F F' : List Bool) (g : α → α) (x x' : Walk α) (c : Context) :
    Prop :=
  Scopes.Fits ρ F c.scopes → (x c).issues = [] → Scopes.Fits ρ F' (x c).context.scopes ∧
    x' (c.rename ρ F) = ⟨g (x c).value, (x c).context.rename ρ F', [], (x c).overdrawn⟩

namespace Renames
variable {α β : Type} {τ : Respelling} {ρ : Renaming} {F F' F'' : List Bool} {g : α → α} {h : β → β}
  {x x' : Walk α} {c : Context}

theorem pure {a b : α} (same : b = g a) : Renames ρ F F g (Pure.pure a) (Pure.pure b) c :=
  fun fits _ => ⟨fits, congrArg (Outcome.mk · (c.rename ρ F) [] false) same⟩

theorem bind {f f' : α → Walk β} (first : Renames ρ F F' g x x' c)
    (second : Renames ρ F' F'' h (f (x c).value) (f' (g (x c).value)) (x c).context) :
    Renames ρ F F'' h (x >>= f) (x' >>= f') c := by
  intro fits quiet
  rw [issues_bind, List.append_eq_nil_iff] at quiet
  obtain ⟨fits', same⟩ := first fits quiet.1
  obtain ⟨fits'', same'⟩ := second fits' quiet.2
  refine ⟨fits'', ?_⟩
  simp only [Bind.bind, same, same', List.append_nil]

/-- The second half of what a walk does is simple. -/
theorem bind_pure {k k' : α → β} (first : Renames ρ F F' g x x' c)
    (same : k' (g (x c).value) = h (k (x c).value)) :
    Renames ρ F F' h (x >>= fun a => Pure.pure (k a)) (x' >>= fun a => Pure.pure (k' a)) c :=
  first.bind (pure same)

theorem context {f f' : Context → Walk β} (walk : Renames ρ F F' h (f c) (f' (c.rename ρ F)) c) :
    Renames ρ F F' h (Walk.context >>= f) (Walk.context >>= f') c := by
  intro fits quiet
  rw [issues_bind] at quiet
  obtain ⟨fits', same⟩ := walk fits quiet
  refine ⟨fits', ?_⟩
  simp only [Bind.bind, Walk.context, same, List.append_nil, Bool.false_or]

/-- What is reported needs no care. -/
theorem reported {t : Token} {cause : ScopeError} {f : Unit → Walk α} {y : Walk α} :
    Renames ρ F F' g (Walk.report t cause >>= f) y c := by
  intro _ quiet
  cases quiet

theorem setEnclosing (k : Option RoutineKind) :
    Renames ρ F F id (Walk.setEnclosing k) (Walk.setEnclosing k) c := fun fits _ => ⟨fits, rfl⟩

theorem setSurrounding (s : Surrounding) :
    Renames ρ F F id (Walk.setSurrounding s) (Walk.setSurrounding s) c := fun fits _ => ⟨fits, rfl⟩

theorem openScope {scope : Table Bool} (fresh : scope.find? ρ.new = none) (b : Bool)
    (same : scope.rename ρ b = scope) :
    Renames ρ F (b :: F) id (Walk.openScope scope) (Walk.openScope scope) c := by
  intro fits _
  refine ⟨fits.cons fresh b, ?_⟩
  simp only [run_openScope, Context.rename, Scopes.rename, List.zipWith_cons_cons, same, id]

theorem closeScope {b : Bool} : Renames ρ (b :: F) F id Walk.closeScope Walk.closeScope c := by
  intro fits _
  obtain ⟨scopes, enclosing, surrounding, resolved⟩ := c
  cases scopes with
  | nil => cases fits.length
  | cons g Γ =>
      exact ⟨⟨Nat.succ.inj fits.length, fun g member => fits.fresh g (List.mem_cons_of_mem _ member)⟩,
        rfl⟩

theorem enter {name : Name} {fixed : Bool} (follows : Use.Follows τ ρ F ⟨name, some 0, fixed⟩)
    (finished : Bool) :
    Renames ρ F F id (Walk.enter name finished) (Walk.enter (name.respell τ) finished) c := by
  intro fits _
  obtain ⟨scopes, enclosing, surrounding, resolved⟩ := c
  cases scopes with
  | nil =>
      obtain rfl : F = [] := List.length_eq_zero_iff.mp fits.length
      exact ⟨fits, rfl⟩
  | cons g Γ =>
      obtain ⟨b, F, rfl⟩ := List.exists_cons_of_length_eq_add_one fits.length
      obtain ⟨fresh, inner⟩ := List.forall_mem_cons.mp fits.fresh
      refine ⟨⟨fits.length, List.forall_mem_cons.mpr ⟨?_, inner⟩⟩, ?_⟩
      · rw [Table.find?_put, if_neg follows.fresh.symm, fresh]
      · simp only [Walk.enter, Context.rename, Scopes.rename, List.zipWith_cons_cons,
          Name.text_respell, follows.declared, Table.put_rename fresh follows.fresh, id]

theorem locate {y : String} (other : y ≠ ρ.new) :
    Renames ρ F F id (Walk.locate y)
      (Walk.locate (ρ.spell (changedAt F (Scopes.locate c.scopes y)) y)) c := by
  intro fits _
  have same := Scopes.locate_rename other c.scopes F fits
  simp only [Scopes.locate] at same
  simp only [Walk.locate, Context.rename, Scopes.locate, same]
  cases c.scopes.findIdx? (·.contains y) with
  | none => exact ⟨fits, rfl⟩
  | some d => exact ⟨fits, rfl⟩

theorem locateName {name : Name} {fixed : Bool}
    (follows : Use.Follows τ ρ F ⟨name, Scopes.locate c.scopes name.text, fixed⟩) :
    Renames ρ F F id (Walk.locate name.text) (Walk.locate (name.respell τ).text) c := by
  rw [Name.text_respell, follows.text]
  exact locate follows.fresh

theorem checkInitializer {name : Name} {fixed : Bool}
    (follows : Use.Follows τ ρ F ⟨name, Scopes.locate c.scopes name.text, fixed⟩) :
    Renames ρ F F id (Walk.checkInitializer name) (Walk.checkInitializer (name.respell τ)) c := by
  intro fits quiet
  obtain ⟨scopes, enclosing, surrounding, resolved⟩ := c
  cases scopes with
  | nil =>
      obtain rfl : F = [] := List.length_eq_zero_iff.mp fits.length
      exact ⟨fits, rfl⟩
  | cons g Γ =>
      obtain ⟨b, F, rfl⟩ := List.exists_cons_of_length_eq_add_one fits.length
      have fresh := (List.forall_mem_cons.mp fits.fresh).1
      have spelled := follows.text
      have other := follows.fresh
      have finished : g.find? name.text ≠ some false := by
        intro unfinished
        simp [Walk.checkInitializer, unfinished] at quiet
      -- A name that is in the innermost scope is spelled as that scope has it.
      have finished' : (g.rename ρ b).find? (τ.text name) ≠ some false := by
        cases here : g.find? name.text with
        | some entry =>
            have inside : Scopes.locate (g :: Γ) name.text = some 0 := by
              simp [Scopes.locate, List.findIdx?_cons, Table.contains, here]
            simp only [inside] at spelled
            rw [spelled, changedAt, List.getD_cons_zero, Table.find?_rename fresh other]
            exact finished
        | none =>
            rw [spelled, Table.find?_rename_none fresh other here]
            exact Option.some_ne_none _ |>.symm
      refine ⟨by rwa [context_checkInitializer], ?_⟩
      simp [Walk.checkInitializer, Context.rename, Scopes.rename, finished, finished']

theorem locateReceiver {p q : Pos} :
    Renames ρ F F id (Walk.locateReceiver p) (Walk.locateReceiver q) c := by
  refine context ?_
  have found := locate (c := c) (F := F) ρ.new_ordinary.1.symm
  rw [Renaming.spell_this] at found
  rcases c with ⟨scopes, enclosing, surrounding, resolved⟩
  cases surrounding with
  | noClass => exact reported
  | plainClass | subclass => exact found

theorem locateInherited {p q : Pos} :
    Renames ρ F F id (Walk.locateInherited p) (Walk.locateInherited q) c := by
  refine context ?_
  have found := locate (c := c) (F := F) ρ.new_ordinary.2.symm
  rw [Renaming.spell_super] at found
  rcases c with ⟨scopes, enclosing, surrounding, resolved⟩
  cases surrounding with
  | noClass | plainClass => exact reported
  | subclass => exact found

end Renames

variable {τ : Respelling} {ρ : Renaming} {F : List Bool}

mutual

theorem expr_renames : ∀ (e : Expr Unit) (c : Context),
    (∀ u ∈ (expr e c).value.uses, u.Follows τ ρ F) →
      Renames ρ F F (Expr.respell τ) (expr e) (expr (e.respell τ)) c
  | .literal _ _, _, _ => .pure rfl
  | .grouping _ inner, c, follow => (expr_renames inner c follow).bind_pure rfl
  | .var name _, c, follow => by
      have here : Use.Follows τ ρ F ⟨name, Scopes.locate c.scopes name.text, false⟩ := by
        simpa [expr] using follow
      refine (Renames.checkInitializer here).bind ?_
      rw [context_checkInitializer]
      exact (Renames.locateName here).bind_pure rfl
  | .assign name value _, c, follow => by
      simp only [expr, value_bind, run_pure, Expr.uses, List.forall_mem_cons, value_locate] at follow
      obtain ⟨target, follow⟩ := follow
      exact (expr_renames value c follow).bind ((Renames.locateName target).bind_pure rfl)
  | .unary _ _ operand, c, follow => (expr_renames operand c follow).bind_pure rfl
  | .binary left _ _ right, c, follow => by
      obtain ⟨first, second⟩ := List.forall_mem_append.mp follow
      exact (expr_renames left c first).bind ((expr_renames right _ second).bind_pure rfl)
  | .logical left _ _ right, c, follow => by
      obtain ⟨first, second⟩ := List.forall_mem_append.mp follow
      exact (expr_renames left c first).bind ((expr_renames right _ second).bind_pure rfl)
  | .conditional condition thenBranch elseBranch, c, follow => by
      obtain ⟨first, others⟩ := List.forall_mem_append.mp follow
      obtain ⟨second, third⟩ := List.forall_mem_append.mp others
      exact (expr_renames condition c first).bind ((expr_renames thenBranch _ second).bind
        ((expr_renames elseBranch _ third).bind_pure rfl))
  | .call callee _ arguments, c, follow => by
      obtain ⟨first, second⟩ := List.forall_mem_append.mp follow
      exact (expr_renames callee c first).bind ((exprs_rename arguments _ second).bind_pure rfl)
  | .member object _, c, follow =>
      (expr_renames object c (List.forall_mem_append.mp follow).1).bind_pure rfl
  | .assignMember object _ value, c, follow => by
      obtain ⟨second, first⟩ := List.forall_mem_append.mp follow
      exact (expr_renames value c (List.forall_mem_cons.mp first).2).bind
        ((expr_renames object _ second).bind_pure rfl)
  | .receiver _ _, _, _ => Renames.locateReceiver.bind_pure rfl
  | .inherited _ _ _, _, _ => Renames.locateInherited.bind_pure rfl

theorem exprs_rename : ∀ (es : List (Expr Unit)) (c : Context),
    (∀ u ∈ usesOfAll (exprs es c).value, u.Follows τ ρ F) →
      Renames ρ F F (respellAll τ) (exprs es) (exprs (respellAll τ es)) c
  | [], _, _ => .pure rfl
  | e :: rest, c, follow => by
      obtain ⟨first, second⟩ := List.forall_mem_append.mp follow
      exact (expr_renames e c first).bind ((exprs_rename rest _ second).bind_pure rfl)

end

theorem optionalExpr_renames (e : Option (Expr Unit)) (c : Context)
    (follow : ∀ u ∈ optionalUses (optionalExpr e c).value, u.Follows τ ρ F) :
    Renames ρ F F (Option.map (Expr.respell τ)) (optionalExpr e)
      (optionalExpr (e.map (Expr.respell τ))) c := by
  cases e with
  | none => exact .pure rfl
  | some e => exact (expr_renames e c follow).bind_pure rfl

theorem defineAll_renames (names : List Name) : ∀ c : Context,
    (∀ name ∈ names, Use.Follows τ ρ F ⟨name, some 0, false⟩) →
      Renames ρ F F id (defineAll names) (defineAll (names.map (Name.respell τ))) c := by
  induction names with
  | nil => exact fun _ _ => .pure rfl
  | cons name rest ih =>
      intro c follow
      obtain ⟨first, others⟩ := List.forall_mem_cons.mp follow
      exact (Renames.enter first false).bind ((Renames.enter first true).bind (ih _ others))

theorem superclass_renames {name : Name} {parent : Superclass Unit} {c : Context}
    (declared : Use.Follows τ ρ F ⟨name, some 0, true⟩)
    (follows : Use.Follows τ ρ F ⟨parent.name, Scopes.locate c.scopes parent.name.text, false⟩) :
    Renames ρ F F (Superclass.respell τ) (superclass name parent)
      (superclass (name.respell τ) (parent.respell τ)) c := by
  by_cases itself : parent.name.text = name.text
  · simp only [superclass, if_pos itself]
    exact .reported
  · have other : τ.text parent.name ≠ τ.text name := by
      rw [follows.text, declared.fixed rfl]
      simpa using Renaming.spell_ne follows.fresh declared.fresh itself false
    have other' : (parent.respell τ).name.text ≠ (name.respell τ).text := other
    simp only [superclass, if_neg itself, if_neg other']
    have inside : Use.Follows τ ρ F ⟨parent.name,
      Scopes.locate (setSurrounding .subclass c).context.scopes parent.name.text, false⟩ := follows
    refine (Renames.setSurrounding .subclass).bind ((Renames.checkInitializer inside).bind ?_)
    rw [context_checkInitializer]
    exact (Renames.locateName inside).bind_pure rfl

theorem receiverScope_fresh : receiverScope.find? ρ.new = none := by
  simp [receiverScope, ρ.new_ordinary.1]

theorem inheritedScope_fresh : inheritedScope.find? ρ.new = none := by
  simp [inheritedScope, ρ.new_ordinary.2]

mutual

theorem stmt_renames : ∀ (s : Stmt Unit) (F : List Bool) (c : Context),
    Followed τ ρ F (stmt s c).value.uses (stmt s c).value.scopes →
      Renames ρ F F (Stmt.respell τ) (stmt s) (stmt (s.respell τ)) c
  | .expression value, F, c, follow => (expr_renames value c follow.uses).bind_pure rfl
  | .print _ value, F, c, follow => (expr_renames value c follow.uses).bind_pure rfl
  | .var name initializer, F, c, follow => by
      obtain ⟨declared, value⟩ := List.forall_mem_cons.mp follow.uses
      exact (Renames.enter declared false).bind ((optionalExpr_renames initializer _ value).bind
        ((Renames.enter declared true).bind_pure rfl))
  | .block _ body, F, c, follow => by
      obtain ⟨scope, scopes⟩ := List.forall_mem_cons.mp follow.scopes
      obtain ⟨b, -, inside⟩ := scope.enter follow.uses
      exact (Renames.openScope rfl b rfl).bind ((stmts_rename body (b :: F) _ ⟨inside, scopes⟩).bind
        (Renames.closeScope.bind_pure rfl))
  | .ifThen _ condition thenBranch, F, c, follow => by
      obtain ⟨first, second⟩ := List.forall_mem_append.mp follow.uses
      exact (expr_renames condition c first).bind
        ((stmt_renames thenBranch F _ ⟨second, follow.scopes⟩).bind_pure rfl)
  | .ifElse _ condition thenBranch elseBranch, F, c, follow => by
      obtain ⟨first, others⟩ := List.forall_mem_append.mp follow.uses
      obtain ⟨second, third⟩ := List.forall_mem_append.mp others
      obtain ⟨scopes, scopes'⟩ := List.forall_mem_append.mp follow.scopes
      exact (expr_renames condition c first).bind ((stmt_renames thenBranch F _ ⟨second, scopes⟩).bind
        ((stmt_renames elseBranch F _ ⟨third, scopes'⟩).bind_pure rfl))
  | .loop _ condition body, F, c, follow => by
      obtain ⟨first, second⟩ := List.forall_mem_append.mp follow.uses
      exact (expr_renames condition c first).bind
        ((stmt_renames body F _ ⟨second, follow.scopes⟩).bind_pure rfl)
  | .function (.mk name params body), F, c, follow => by
      obtain ⟨declared, inside⟩ := List.forall_mem_cons.mp follow.uses
      exact (Renames.enter declared false).bind ((Renames.enter declared true).bind
        ((routine_renames .function (.mk name params body) F _ ⟨inside, follow.scopes⟩).bind_pure rfl))
  | .classDecl name none methods, F, c, follow => by
      obtain ⟨declared, inside⟩ := List.forall_mem_cons.mp follow.uses
      have walk := routines_rename methods (false :: F) _ ⟨receivers_follow inside, follow.scopes⟩
      exact .context ((Renames.setSurrounding _).bind ((Renames.enter declared false).bind
        ((Renames.enter declared true).bind ((Renames.openScope receiverScope_fresh false rfl).bind
          (walk.bind (Renames.closeScope.bind ((Renames.setSurrounding _).bind_pure rfl)))))))
  | .classDecl name (some parent) methods, F, c, follow => by
      obtain ⟨declared, others⟩ := List.forall_mem_cons.mp follow.uses
      obtain ⟨above, inside⟩ := List.forall_mem_cons.mp others
      have walk := routines_rename methods (false :: false :: F) _
        ⟨receivers_follow (receivers_follow inside), follow.scopes⟩
      refine .context ((Renames.setSurrounding _).bind ((Renames.enter declared false).bind
        ((Renames.enter declared true).bind ((superclass_renames declared ?_).bind
          ((Renames.openScope inheritedScope_fresh false rfl).bind
            ((Renames.openScope receiverScope_fresh false rfl).bind (walk.bind (Renames.closeScope.bind
              (Renames.closeScope.bind ((Renames.setSurrounding _).bind_pure rfl))))))))))
      rw [value_superclass] at above
      exact above
  | .ret pos value, F, c, follow => by
      rw [value_ret] at follow
      refine .context ?_
      obtain ⟨scopes, enclosing, surrounding, resolved⟩ := c
      cases enclosing with
      | none => exact .reported
      | some k => exact (optionalExpr_renames value _ follow.uses).bind_pure rfl

theorem stmts_rename : ∀ (ss : List (Stmt Unit)) (F : List Bool) (c : Context),
    Followed τ ρ F (usesOfBody (stmts ss c).value) (scopesOfBody (stmts ss c).value) →
      Renames ρ F F (respellBody τ) (stmts ss) (stmts (respellBody τ ss)) c
  | [], _, _, _ => .pure rfl
  | s :: rest, F, c, follow => by
      obtain ⟨first, second⟩ := List.forall_mem_append.mp follow.uses
      obtain ⟨scopes, scopes'⟩ := List.forall_mem_append.mp follow.scopes
      exact (stmt_renames s F c ⟨first, scopes⟩).bind
        ((stmts_rename rest F _ ⟨second, scopes'⟩).bind_pure rfl)

theorem routine_renames : ∀ (k : RoutineKind) (r : Routine Unit) (F : List Bool) (c : Context),
    Followed τ ρ F (routine k r c).value.uses (routine k r c).value.scopes →
      Renames ρ F F (Routine.respell τ) (routine k r) (routine k (r.respell τ)) c
  | k, .mk name params body, F, c, follow => by
      obtain ⟨scope, scopes⟩ := List.forall_mem_cons.mp follow.scopes
      obtain ⟨b, given, inside⟩ := scope.enter follow.uses
      refine .context ((Renames.setEnclosing (some k)).bind ((Renames.openScope rfl b rfl).bind ?_))
      exact (defineAll_renames params _ given).bind ((stmts_rename body (b :: F) _ ⟨inside, scopes⟩).bind
        (Renames.closeScope.bind ((Renames.setEnclosing _).bind_pure rfl)))

theorem routines_rename : ∀ (rs : List (Routine Unit)) (F : List Bool) (c : Context),
    Followed τ ρ F (usesOfMethods (routines rs c).value) (scopesOfMethods (routines rs c).value) →
      Renames ρ F F (respellMethods τ) (routines rs) (routines (respellMethods τ rs)) c
  | [], _, _, _ => .pure rfl
  | r :: rest, F, c, follow => by
      obtain ⟨first, second⟩ := List.forall_mem_append.mp (List.forall_mem_cons.mp follow.uses).2
      obtain ⟨scopes, scopes'⟩ := List.forall_mem_append.mp follow.scopes
      exact (routine_renames .method r F c ⟨first, scopes⟩).bind
        ((routines_rename rest F _ ⟨second, scopes'⟩).bind_pure rfl)

end

end Walk

/-- A program that the walk accepts is accepted with its names changed, at the same addresses. -/
theorem resolve_rename {τ : Respelling} {ρ : Renaming} {program : List (Stmt Unit)}
    (quiet : (resolve program).issues = [])
    (follow : Followed τ ρ [] (usesOfBody (resolve program).program)
      (scopesOfBody (resolve program).program)) :
    (resolve (respellBody τ program)).issues = [] ∧
      (resolve (respellBody τ program)).program = respellBody τ (resolve program).program := by
  obtain ⟨-, same⟩ := Walk.stmts_rename program [] Walk.start follow ⟨rfl, by simp [Walk.start]⟩ quiet
  have start : Walk.start.rename ρ [] = Walk.start := rfl
  rw [start] at same
  simp [resolve, same]

end LoxLang
