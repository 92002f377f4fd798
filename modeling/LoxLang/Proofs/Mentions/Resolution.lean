import LoxLang.Proofs.Mentions.Erasure
/-! Resolution as a reader of the program would do it. Every reference has the address of the scope
that declares its name, and every offence is reported once. -/
namespace LoxLang

theorem Walk.start_agrees : Agrees none start [] where
  inRoutine := rfl
  surrounding := rfl
  names _ := rfl
  pending d g x found := absurd found (by simp [start])
  entered n g Γ none := nomatch none

theorem resolve_follows (program : List (Stmt Unit)) :
    Walk.Follows none [] (mentionsOfBody (resolve program).program) Walk.start
      (Walk.stmts program Walk.start) :=
  Walk.stmts_follow program Walk.start [] Walk.start_agrees

/-- What is reported of a program is what is wrong at its places, in the order of the tree, each
offence once. -/
theorem resolve_offences (program : List (Stmt Unit)) :
    (resolve program).issues = (spots program).filterMap Spot.offence? := by
  have resolved : (resolve program).issues =
      (spots (resolve program).program).filterMap Spot.offence? := (resolve_follows program).issues
  have places : spots program = (spots (resolve program).program).map Spot.erase := by
    rw [← spots_erase, erase_resolve]
  rw [resolved, places, List.filterMap_map]
  exact congrArg (fun f => (spots (resolve program).program).filterMap f)
    (funext fun p => p.offence_erase.symm)

example : (spots [.block 1 [.var ⟨"a", ⟨1, 7⟩⟩ (some (.var ⟨"a", ⟨1, 11⟩⟩ ()))]]).filterMap
    Spot.offence? = [⟨⟨.identifier, "a", ⟨1, 11⟩⟩, .ownInitializer⟩] := by decide

/-- The references in a part of a tree. -/
def referencesIn (around : List (Enclosure Address)) (items : List (Mention Address)) :
    List Occurrence :=
  (spotsOf around items).filterMap Spot.occurrence?

theorem referencesIn_append (around : List (Enclosure Address)) (xs ys : List (Mention Address)) :
    referencesIn around (xs ++ ys) =
      referencesIn around xs ++ referencesIn (past xs around) ys := by
  rw [referencesIn, spotsOf_append, List.filterMap_append]
  rfl

mutual

theorem Expr.references_perm (i : Option Name) : ∀ (e : Expr Address) around,
    (referencesIn around (e.mentions i)).Perm (Occurrence.ofExpr e)
  | .literal _ _, _ | .var _ _, _ | .receiver _ _, _ | .inherited _ _ _, _ => .refl _
  | .grouping _ inner, around => inner.references_perm i around
  | .assign name value address, around => by
      rw [Expr.mentions, referencesIn_append, Occurrence.ofExpr]
      exact ((value.references_perm i around).append_right _).trans (List.perm_append_singleton _ _)
  | .unary _ _ operand, around => operand.references_perm i around
  | .binary left _ _ right, around => by
      rw [Expr.mentions, referencesIn_append, Occurrence.ofExpr]
      exact (left.references_perm i around).append (right.references_perm i _)
  | .logical left _ _ right, around => by
      rw [Expr.mentions, referencesIn_append, Occurrence.ofExpr]
      exact (left.references_perm i around).append (right.references_perm i _)
  | .conditional condition thenBranch elseBranch, around => by
      rw [Expr.mentions, referencesIn_append, referencesIn_append, Occurrence.ofExpr,
        List.append_assoc]
      exact (condition.references_perm i around).append
        ((thenBranch.references_perm i _).append (elseBranch.references_perm i _))
  | .call callee _ arguments, around => by
      rw [Expr.mentions, referencesIn_append, Occurrence.ofExpr]
      exact (callee.references_perm i around).append (referencesOfAll_perm i arguments _)
  | .member object _, around => object.references_perm i around
  | .assignMember object _ value, around => by
      rw [Expr.mentions, referencesIn_append, Occurrence.ofExpr]
      exact ((value.references_perm i around).append (object.references_perm i _)).trans
        List.perm_append_comm

theorem referencesOfAll_perm (i : Option Name) : ∀ (es : List (Expr Address)) around,
    (referencesIn around (mentionsOfAll i es)).Perm (Occurrence.ofExprs es)
  | [], _ => .refl _
  | e :: rest, around => by
      rw [mentionsOfAll, referencesIn_append, Occurrence.ofExprs]
      exact (e.references_perm i around).append (referencesOfAll_perm i rest _)

end

theorem referencesIn_declarations (ps : List Name) (around : List (Enclosure Address)) :
    referencesIn around (ps.map .declaration) = [] := by
  induction ps generalizing around with
  | nil => rfl
  | cons p ps ih => exact ih _

theorem referencesIn_scope (kind : ScopeKind) (items : List (Mention Address))
    (around : List (Enclosure Address)) :
    referencesIn around [.scope kind items] = referencesIn (⟨kind, []⟩ :: around) items := by
  rw [referencesIn, spotsOf_scope]
  rfl

mutual

theorem Stmt.references_perm : ∀ (s : Stmt Address) around,
    (referencesIn around s.mentions).Perm (Occurrence.ofStmt s)
  | .expression value, around => value.references_perm none around
  | .print _ value, around => value.references_perm none around
  | .var _ none, _ | .ret _ none, _ => .refl _
  | .var name (some value), around => value.references_perm (some name) _
  | .block _ body, around => by
      rw [Stmt.mentions, referencesIn_scope]
      exact referencesOfBody_perm body _
  | .ifThen _ condition thenBranch, around => by
      rw [Stmt.mentions, referencesIn_append, Occurrence.ofStmt]
      exact (condition.references_perm none around).append (thenBranch.references_perm _)
  | .ifElse _ condition thenBranch elseBranch, around => by
      rw [Stmt.mentions, referencesIn_append, referencesIn_append, Occurrence.ofStmt,
        List.append_assoc]
      exact (condition.references_perm none around).append
        ((thenBranch.references_perm _).append (elseBranch.references_perm _))
  | .loop _ condition body, around => by
      rw [Stmt.mentions, referencesIn_append, Occurrence.ofStmt]
      exact (condition.references_perm none around).append (body.references_perm _)
  | .function declaration, around => declaration.references_perm _
  | .classDecl name none methods, around => by
      have inner := referencesOfMethods_perm methods
        (⟨.receiver false, []⟩ :: past [.declaration name] around)
      rwa [← referencesIn_scope] at inner
  | .classDecl name (some parent) methods, around => by
      let outer := past [.reference .access parent.name.token parent.address none]
        (past [.inheritance name parent.name] (past [.declaration name] around))
      have inner := referencesOfMethods_perm methods
        (⟨.receiver true, []⟩ :: ⟨.inherited, []⟩ :: outer)
      rw [← referencesIn_scope, ← referencesIn_scope] at inner
      exact inner.cons (Occurrence.ofSuperclass parent)
  | .ret _ (some value), around => value.references_perm none _

theorem referencesOfBody_perm : ∀ (ss : List (Stmt Address)) around,
    (referencesIn around (mentionsOfBody ss)).Perm (Occurrence.ofStmts ss)
  | [], _ => .refl _
  | s :: rest, around => by
      rw [mentionsOfBody, referencesIn_append, Occurrence.ofStmts]
      exact (s.references_perm around).append (referencesOfBody_perm rest _)

theorem Routine.references_perm : ∀ (r : Routine Address) around,
    (referencesIn around r.mentions).Perm (Occurrence.ofRoutine r)
  | .mk _ params body, around => by
      rw [Routine.mentions, referencesIn_scope, referencesIn_append, referencesIn_declarations]
      exact referencesOfBody_perm body _

theorem referencesOfMethods_perm : ∀ (rs : List (Routine Address)) around,
    (referencesIn around (mentionsOfMethods rs)).Perm (Occurrence.ofRoutines rs)
  | [], _ => .refl _
  | r :: rest, around => by
      rw [mentionsOfMethods, referencesIn_append, Occurrence.ofRoutines]
      exact (r.references_perm around).append (referencesOfMethods_perm rest _)

end

/-- What becomes of the references of a program. One that is not reported to be out of place has
the address of the nearest scope that declares its name before it, and none if no scope does. Each
is come by once. -/
structure Resolution.Addresses (program : List (Stmt Unit)) : Prop where
  whole : eraseBody (resolve program).program = program
  nearest : ∀ p ∈ spots (resolve program).program, ∀ o, p.occurrence? = some o →
    p.misplaced = false → (∀ k, o.address = some k ↔ p.Nearest o.token.lexeme k) ∧
      (o.address = none ↔ ∀ f ∈ p.around, f.declares o.token.lexeme = false)
  misplaced : ∀ p ∈ spots (resolve program).program, ∀ o, p.occurrence? = some o →
    p.misplaced = true → o.address = none ∧
      ∃ issue ∈ (resolve program).issues, issue.token = o.token
  once : ((spots (resolve program).program).filterMap Spot.occurrence?).Perm
    (Occurrence.ofStmts (resolve program).program)
  counted : (resolve program).resolved =
    (Occurrence.ofStmts (resolve program).program).countP (·.address.isSome)

theorem Spot.nearest_iff {p : Spot Address} {x : String} {k : Nat} :
    p.around.findIdx? (·.declares x) = some k ↔ p.Nearest x k := by
  rw [List.findIdx?_eq_some_iff_getElem]
  constructor
  · rintro ⟨bound, found, first⟩
    refine ⟨p.around[k], List.getElem?_eq_getElem bound, found, fun j before g here => ?_⟩
    obtain ⟨within, rfl⟩ := List.getElem?_eq_some_iff.mp here
    exact eq_false_of_ne_true (first j before)
  · rintro ⟨f, here, found, first⟩
    obtain ⟨bound, rfl⟩ := List.getElem?_eq_some_iff.mp here
    refine ⟨bound, found, fun j before => ?_⟩
    exact ne_true_of_eq_false (first j before _ (List.getElem?_eq_getElem _))

theorem Spot.offence_of_misplaced {p : Spot Address} {o : Occurrence}
    (here : p.occurrence? = some o) (wrong : p.misplaced = true) :
    ∃ issue, p.offence? = some issue ∧ issue.token = o.token := by
  obtain ⟨around, item⟩ := p
  cases item with
  | reference role token address inside =>
      cases here
      cases role with
      | access | assignment => cases wrong
      | receiver =>
          cases innermost : innermostClass around with
          | none => exact ⟨_, by simp only [offence?, innermost]; rfl, rfl⟩
          | some inherits => simp [misplaced, offence?, innermost] at wrong
      | inherited =>
          cases innermost : innermostClass around with
          | none => exact ⟨_, by simp only [offence?, innermost]; rfl, rfl⟩
          | some inherits =>
              cases inherits with
              | false => exact ⟨_, by simp only [offence?, innermost]; rfl, rfl⟩
              | true => simp [misplaced, offence?, innermost] at wrong
  | _ => cases here

theorem resolve_addresses (program : List (Stmt Unit)) : Resolution.Addresses program := by
  have follows := resolve_follows program
  refine ⟨erase_resolve program, fun p place o here sound => ?_,
    fun p place o here wrong => ?_, ?_, ?_⟩
  · have address := follows.addressed p place o here
    rw [sound, if_neg Bool.false_ne_true] at address
    rw [address]
    exact ⟨fun k => Spot.nearest_iff, List.findIdx?_eq_none_iff⟩
  · have address := follows.addressed p place o here
    rw [wrong, if_pos rfl] at address
    obtain ⟨issue, offence, token⟩ := Spot.offence_of_misplaced here wrong
    refine ⟨address, issue, ?_, token⟩
    rw [show (resolve program).issues = _ from follows.issues]
    exact List.mem_filterMap.mpr ⟨p, place, offence⟩
  · exact referencesOfBody_perm _ []
  · have counted : (resolve program).resolved = 0 + _ := follows.resolved
    rw [counted, Nat.zero_add]
    exact (referencesOfBody_perm _ []).countP_eq _

end LoxLang
