import LoxLang.Proofs.Lexical.Erasure
import LoxLang.Proofs.Mentions.Walking
/-! Mentions without their addresses. What is wrong at a place does not depend on addresses, and a
tree without them has the same places. -/
namespace LoxLang
variable {δ : Type}

mutual

def Mention.erase : Mention δ → Mention Unit
  | .declaration name => .declaration name
  | .reference role token _ initializing => .reference role token () initializing
  | .inheritance className parent => .inheritance className parent
  | .exit pos => .exit pos
  | .scope kind items => .scope kind (eraseItems items)

def eraseItems : List (Mention δ) → List (Mention Unit)
  | [] => []
  | item :: rest => item.erase :: eraseItems rest

end

theorem eraseItems_append (xs ys : List (Mention δ)) :
    eraseItems (xs ++ ys) = eraseItems xs ++ eraseItems ys := by
  induction xs with
  | nil => rfl
  | cons x xs ih => exact congrArg (x.erase :: ·) ih

theorem eraseItems_declarations (ps : List Name) :
    eraseItems (ps.map (.declaration : Name → Mention δ)) = ps.map .declaration := by
  induction ps with
  | nil => rfl
  | cons p ps ih => exact congrArg (Mention.declaration p :: ·) ih

mutual

theorem Expr.mentions_erase (i : Option Name) :
    ∀ e : Expr δ, e.erase.mentions i = eraseItems (e.mentions i)
  | .literal _ _ | .var _ _ | .receiver _ _ | .inherited _ _ _ => rfl
  | .grouping _ inner => inner.mentions_erase i
  | .assign _ value _ => by
      rw [Expr.erase, Expr.mentions, Expr.mentions, eraseItems_append, value.mentions_erase]
      rfl
  | .unary _ _ operand => operand.mentions_erase i
  | .binary left _ _ right => by
      rw [Expr.erase, Expr.mentions, Expr.mentions, eraseItems_append,
        left.mentions_erase, right.mentions_erase]
  | .logical left _ _ right => by
      rw [Expr.erase, Expr.mentions, Expr.mentions, eraseItems_append,
        left.mentions_erase, right.mentions_erase]
  | .conditional condition thenBranch elseBranch => by
      rw [Expr.erase, Expr.mentions, Expr.mentions, eraseItems_append, eraseItems_append,
        condition.mentions_erase, thenBranch.mentions_erase, elseBranch.mentions_erase]
  | .call callee _ arguments => by
      rw [Expr.erase, Expr.mentions, Expr.mentions, eraseItems_append, callee.mentions_erase,
        mentionsOfAll_erase i arguments]
  | .member object _ => object.mentions_erase i
  | .assignMember object _ value => by
      rw [Expr.erase, Expr.mentions, Expr.mentions, eraseItems_append,
        object.mentions_erase, value.mentions_erase]

theorem mentionsOfAll_erase (i : Option Name) :
    ∀ es : List (Expr δ), mentionsOfAll i (eraseAll es) = eraseItems (mentionsOfAll i es)
  | [] => rfl
  | e :: rest => by
      rw [eraseAll, mentionsOfAll, mentionsOfAll, eraseItems_append, e.mentions_erase,
        mentionsOfAll_erase i rest]

end

mutual

theorem Stmt.mentions_erase : ∀ s : Stmt δ, s.erase.mentions = eraseItems s.mentions
  | .expression value | .print _ value => value.mentions_erase none
  | .var _ none | .ret _ none => rfl
  | .var name (some value) =>
      congrArg (Mention.declaration name :: ·) (value.mentions_erase (some name))
  | .block _ body => by
      rw [Stmt.erase, Stmt.mentions, Stmt.mentions, mentionsOfBody_erase body]
      rfl
  | .ifThen _ condition thenBranch => by
      rw [Stmt.erase, Stmt.mentions, Stmt.mentions, eraseItems_append, condition.mentions_erase,
        thenBranch.mentions_erase]
  | .ifElse _ condition thenBranch elseBranch => by
      rw [Stmt.erase, Stmt.mentions, Stmt.mentions, eraseItems_append, eraseItems_append,
        condition.mentions_erase, thenBranch.mentions_erase, elseBranch.mentions_erase]
  | .loop _ condition body => by
      rw [Stmt.erase, Stmt.mentions, Stmt.mentions, eraseItems_append,
        condition.mentions_erase, body.mentions_erase]
  | .function declaration => by
      rw [Stmt.erase, Stmt.mentions, Stmt.mentions, declaration.mentions_erase, Routine.name_erase]
      rfl
  | .classDecl _ none methods => by
      rw [Stmt.erase, Stmt.mentions, Stmt.mentions, mentionsOfMethods_erase methods]
      rfl
  | .classDecl _ (some _) methods => by
      rw [Stmt.erase, Stmt.mentions, Stmt.mentions, mentionsOfMethods_erase methods]
      rfl
  | .ret pos (some value) => congrArg (Mention.exit pos :: ·) (value.mentions_erase none)

theorem mentionsOfBody_erase :
    ∀ ss : List (Stmt δ), mentionsOfBody (eraseBody ss) = eraseItems (mentionsOfBody ss)
  | [] => rfl
  | s :: rest => by
      rw [eraseBody, mentionsOfBody, mentionsOfBody, eraseItems_append, s.mentions_erase,
        mentionsOfBody_erase rest]

theorem Routine.mentions_erase : ∀ r : Routine δ, r.erase.mentions = eraseItems r.mentions
  | .mk _ params body => by
      rw [Routine.erase, Routine.mentions, Routine.mentions, mentionsOfBody_erase body,
        ← eraseItems_declarations, ← eraseItems_append]
      rfl

theorem mentionsOfMethods_erase :
    ∀ rs : List (Routine δ), mentionsOfMethods (eraseMethods rs) = eraseItems (mentionsOfMethods rs)
  | [] => rfl
  | r :: rest => by
      rw [eraseMethods, mentionsOfMethods, mentionsOfMethods, eraseItems_append, r.mentions_erase,
        mentionsOfMethods_erase rest]

end

def Enclosure.erase (f : Enclosure δ) : Enclosure Unit := ⟨f.kind, eraseItems f.before⟩

def Spot.erase (p : Spot δ) : Spot Unit := ⟨p.around.map Enclosure.erase, p.item.erase⟩

theorem past_erase (items : List (Mention δ)) (around : List (Enclosure δ)) :
    past (eraseItems items) (around.map Enclosure.erase) =
      (past items around).map Enclosure.erase := by
  cases around with
  | nil => rfl
  | cons f outer => simp [past, Enclosure.erase, eraseItems_append]

mutual

theorem Mention.spots_erase : ∀ (item : Mention δ) (around : List (Enclosure δ)),
    item.erase.spots (around.map Enclosure.erase) = (item.spots around).map Spot.erase
  | .declaration _, _ | .reference _ _ _ _, _ | .inheritance _ _, _ | .exit _, _ => rfl
  | .scope kind items, around => spotsOf_erase items (⟨kind, []⟩ :: around)

theorem spotsOf_erase : ∀ (items : List (Mention δ)) (around : List (Enclosure δ)),
    spotsOf (around.map Enclosure.erase) (eraseItems items) = (spotsOf around items).map Spot.erase
  | [], _ => rfl
  | item :: rest, around => by
      rw [eraseItems, spotsOf, spotsOf, List.map_append, item.spots_erase,
        ← spotsOf_erase rest, ← past_erase]
      rfl

end

theorem spots_erase (program : List (Stmt δ)) :
    spots (eraseBody program) = (spots program).map Spot.erase := by
  rw [spots, spots, mentionsOfBody_erase]
  exact spotsOf_erase _ []

@[simp] theorem inRoutine_erase (around : List (Enclosure δ)) :
    inRoutine (around.map Enclosure.erase) = inRoutine around := by
  rw [inRoutine, inRoutine, List.any_map]
  rfl

@[simp] theorem innermostClass_erase (around : List (Enclosure δ)) :
    innermostClass (around.map Enclosure.erase) = innermostClass around := by
  rw [innermostClass, innermostClass, List.findSome?_map]
  rfl

theorem Spot.offence_erase (p : Spot δ) : p.erase.offence? = p.offence? := by
  obtain ⟨around, item⟩ := p
  cases item with
  | reference role token address inside =>
      cases role <;> cases inside <;> simp [erase, Mention.erase, offence?]
  | _ => simp [erase, Mention.erase, offence?]

end LoxLang
