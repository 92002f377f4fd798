import LoxLang.Proofs.Addressing
import LoxLang.Proofs.Respelling
/-! One name put for another in some of the scopes of a resolved program. Each name of the program
belongs to the scope that its address leads to; it follows the renaming if it has the new text just
if that scope does. -/
namespace LoxLang

/-- A name in a piece of code: how many scopes outward it belongs, `none` if to no local scope, and
whether it is that of a function or a class at its declaration. -/
structure Use where
  name : Name
  depth : Address
  fixed : Bool

namespace Use

/-- The name seen from the next scope outward. -/
def outward : Use → Use
  | ⟨name, some (d + 1), fixed⟩ => ⟨name, some d, fixed⟩
  | ⟨name, _, fixed⟩ => ⟨name, none, fixed⟩

@[simp] theorem name_outward (u : Use) : u.outward.name = u.name := by
  rcases u with ⟨name, _ | _ | d, fixed⟩ <;> rfl

end Use

/-- The names that belong to the innermost scope. -/
def staying (us : List Use) : List Use := us.filter fun u => u.depth = some 0

/-- The names that do not, seen from the next scope outward. -/
def leaving (us : List Use) : List Use :=
  (us.filter fun u => !decide (u.depth = some 0)).map Use.outward

mutual

@[simp]
def Expr.uses : Expr Address → List Use
  | .literal _ _ | .receiver _ _ => []
  | .grouping _ inner => inner.uses
  | .var name address => [⟨name, address, false⟩]
  | .assign name value address => ⟨name, address, false⟩ :: value.uses
  | .unary _ _ operand => operand.uses
  | .binary left _ _ right | .logical left _ _ right => left.uses ++ right.uses
  | .conditional condition thenBranch elseBranch =>
    condition.uses ++ (thenBranch.uses ++ elseBranch.uses)
  | .call callee _ arguments => callee.uses ++ usesOfAll arguments
  | .member object name => object.uses ++ [⟨name, none, false⟩]
  | .assignMember object name value => object.uses ++ (⟨name, none, false⟩ :: value.uses)
  | .inherited _ method _ => [⟨method, none, false⟩]

@[simp]
def usesOfAll : List (Expr Address) → List Use
  | [] => []
  | e :: rest => e.uses ++ usesOfAll rest

end

@[simp]
def optionalUses : Option (Expr Address) → List Use
  | none => []
  | some e => e.uses

mutual

/-- The names of a statement as they belong to the scope in which it stands and to those around.
What a declaration declares belongs to that scope. -/
@[simp]
def Stmt.uses : Stmt Address → List Use
  | .expression value | .print _ value => value.uses
  | .var name initializer => ⟨name, some 0, false⟩ :: optionalUses initializer
  | .block _ body => leaving (usesOfBody body)
  | .ifThen _ condition thenBranch => condition.uses ++ thenBranch.uses
  | .ifElse _ condition thenBranch elseBranch =>
    condition.uses ++ (thenBranch.uses ++ elseBranch.uses)
  | .loop _ condition body => condition.uses ++ body.uses
  | .function declaration => ⟨declaration.name, some 0, true⟩ :: declaration.uses
  | .classDecl name none methods => ⟨name, some 0, true⟩ :: (usesOfMethods methods).map Use.outward
  | .classDecl name (some parent) methods =>
    ⟨name, some 0, true⟩ :: ⟨parent.name, parent.address, false⟩
      :: ((usesOfMethods methods).map Use.outward).map Use.outward
  | .ret _ value => optionalUses value

@[simp]
def usesOfBody : List (Stmt Address) → List Use
  | [] => []
  | s :: rest => s.uses ++ usesOfBody rest

/-- What the parameters and the body of a routine take from around it. -/
@[simp]
def Routine.uses : Routine Address → List Use
  | .mk _ _ body => leaving (usesOfBody body)

@[simp]
def usesOfMethods : List (Routine Address) → List Use
  | [] => []
  | r :: rest => ⟨r.name, none, false⟩ :: (r.uses ++ usesOfMethods rest)

end

/-- A scope of a program: that of a block, or of a function or method with its parameters. -/
structure LocalScope where
  params : List Name
  body : List (Stmt Address)

/-- The names that belong to the scope: what it declares, and what refers to it. -/
def LocalScope.uses (s : LocalScope) : List Use :=
  s.params.map (⟨·, some 0, false⟩) ++ staying (usesOfBody s.body)

mutual

@[simp]
def Stmt.scopes : Stmt Address → List LocalScope
  | .expression _ | .print _ _ | .var _ _ | .ret _ _ => []
  | .block _ body => ⟨[], body⟩ :: scopesOfBody body
  | .ifThen _ _ thenBranch => thenBranch.scopes
  | .ifElse _ _ thenBranch elseBranch => thenBranch.scopes ++ elseBranch.scopes
  | .loop _ _ body => body.scopes
  | .function declaration => declaration.scopes
  | .classDecl _ _ methods => scopesOfMethods methods

@[simp]
def scopesOfBody : List (Stmt Address) → List LocalScope
  | [] => []
  | s :: rest => s.scopes ++ scopesOfBody rest

@[simp]
def Routine.scopes : Routine Address → List LocalScope
  | .mk _ params body => ⟨params, body⟩ :: scopesOfBody body

@[simp]
def scopesOfMethods : List (Routine Address) → List LocalScope
  | [] => []
  | r :: rest => r.scopes ++ scopesOfMethods rest

end

/-- One name and another to put for it. Neither stands for a receiver. -/
structure Renaming where
  old : String
  new : String
  old_ordinary : old ≠ "this" ∧ old ≠ "super"
  new_ordinary : new ≠ "this" ∧ new ≠ "super"

namespace Renaming

/-- The text of a name that belongs to a scope, given whether names are changed there. -/
def spell (ρ : Renaming) (changed : Bool) (x : String) : String :=
  if changed = true ∧ x = ρ.old then ρ.new else x

variable {ρ : Renaming} {b : Bool} {x y : String}

@[simp] theorem spell_false : ρ.spell false x = x := if_neg (by simp)

theorem spell_of_ne (other : x ≠ ρ.old) : ρ.spell b x = x := if_neg fun both => other both.2

@[simp] theorem spell_this : ρ.spell b "this" = "this" := spell_of_ne ρ.old_ordinary.1.symm

@[simp] theorem spell_super : ρ.spell b "super" = "super" := spell_of_ne ρ.old_ordinary.2.symm

/-- In one scope different names stay different. -/
theorem spell_inj (fresh : x ≠ ρ.new) (fresh' : y ≠ ρ.new) :
    ρ.spell b x = ρ.spell b y ↔ x = y := by
  constructor
  · intro same
    unfold spell at same
    split at same <;> split at same
    · next one two => exact one.2.trans two.2.symm
    · exact absurd same.symm fresh'
    · exact absurd same fresh
    · exact same
  · rintro rfl
    rfl

/-- A name of one scope is not mistaken for another name of another scope. -/
theorem spell_ne (fresh : x ≠ ρ.new) (fresh' : y ≠ ρ.new) (other : x ≠ y) (c : Bool) :
    ρ.spell b x ≠ ρ.spell c y := by
  intro same
  unfold spell at same
  split at same <;> split at same
  · next one two => exact other (one.2.trans two.2.symm)
  · exact fresh' same.symm
  · exact fresh same
  · exact other same

end Renaming

/-! Tables of a scope in which names are changed. -/

namespace Table
variable {α : Type} {ρ : Renaming} {b : Bool} {t : Table α} {x : String}

def rename (ρ : Renaming) (changed : Bool) (t : Table α) : Table α :=
  ⟨t.entries.map fun (x, a) => (ρ.spell changed x, a)⟩

@[simp] theorem rename_false : t.rename ρ false = t := by
  simp [rename]

theorem find?_rename (fresh : t.find? ρ.new = none) (other : x ≠ ρ.new) :
    (t.rename ρ b).find? (ρ.spell b x) = t.find? x := by
  obtain ⟨entries⟩ := t
  simp only [find?, rename] at fresh ⊢
  induction entries with
  | nil => rfl
  | cons e es ih =>
      obtain ⟨z, a⟩ := e
      rw [List.lookup_cons] at fresh
      by_cases taken : ρ.new = z
      · simp [taken] at fresh
      · have fresh' : es.lookup ρ.new = none := by simpa [beq_false_of_ne taken] using fresh
        rw [List.map_cons, List.lookup_cons, List.lookup_cons, ih fresh']
        by_cases same : x = z
        · simp [same]
        · rw [beq_false_of_ne same,
            beq_false_of_ne (mt (Renaming.spell_inj other (Ne.symm taken)).mp same)]

/-- A name that a table lacks is not found there under any spelling. -/
theorem find?_rename_none (fresh : t.find? ρ.new = none) (other : x ≠ ρ.new)
    (none : t.find? x = none) (c : Bool) : (t.rename ρ b).find? (ρ.spell c x) = .none := by
  obtain ⟨entries⟩ := t
  simp only [find?, rename, List.lookup_eq_none_iff, List.forall_mem_map] at fresh none ⊢
  intro e member
  have taken := bne_iff_ne.mp (fresh e member)
  have missing := bne_iff_ne.mp (none e member)
  exact bne_iff_ne.mpr (Renaming.spell_ne other (Ne.symm taken) missing b)

theorem put_rename (fresh : t.find? ρ.new = none) (other : x ≠ ρ.new) (a : α) :
    (t.put x a).rename ρ b = (t.rename ρ b).put (ρ.spell b x) a := by
  obtain ⟨entries⟩ := t
  simp only [find?] at fresh
  suffices same : (putEntry x a entries).map (fun (x, a) => (ρ.spell b x, a)) =
      putEntry (ρ.spell b x) a (entries.map fun (x, a) => (ρ.spell b x, a)) from
    congrArg Table.mk same
  induction entries with
  | nil => rfl
  | cons e es ih =>
      obtain ⟨z, c⟩ := e
      rw [List.lookup_cons] at fresh
      by_cases taken : ρ.new = z
      · simp [taken] at fresh
      · have fresh' : es.lookup ρ.new = none := by simpa [beq_false_of_ne taken] using fresh
        by_cases same : z = x
        · simp [putEntry, same]
        · have differ := mt (Renaming.spell_inj (b := b) (Ne.symm taken) other).mp same
          simp [putEntry, same, differ, ih fresh']

end Table

/-! Code that follows a renaming. -/

/-- Whether names are changed in the scope that an address leads to. -/
def changedAt (F : List Bool) : Address → Bool
  | none => false
  | some d => F.getD d false

variable {τ : Respelling} {ρ : Renaming} {F : List Bool} {b : Bool}

/-- A name has the text that it has in its scope; what is fixed keeps its text. -/
structure Use.Follows (τ : Respelling) (ρ : Renaming) (F : List Bool) (u : Use) : Prop where
  text : τ.text u.name = ρ.spell (changedAt F u.depth) u.name.text
  fresh : u.name.text ≠ ρ.new
  fixed : u.fixed = true → τ.text u.name = u.name.text

/-- The names of a scope are changed, or else they are not. -/
def LocalScope.Follows (τ : Respelling) (ρ : Renaming) (s : LocalScope) : Prop :=
  ∃ b, ∀ u ∈ s.uses, u.Follows τ ρ [b]

/-- All names of some code follow, those that stand around it and those of its own scopes. -/
structure Followed (τ : Respelling) (ρ : Renaming) (F : List Bool) (us : List Use)
    (ss : List LocalScope) : Prop where
  uses : ∀ u ∈ us, u.Follows τ ρ F
  scopes : ∀ s ∈ ss, s.Follows τ ρ

namespace Use.Follows
variable {u : Use}

/-- What is declared in the innermost scope is spelled as that has it. -/
theorem declared {name : Name} {fixed : Bool} (follows : Follows τ ρ (b :: F) ⟨name, some 0, fixed⟩) :
    τ.text name = ρ.spell b name.text := follows.text

theorem property {name : Name} {fixed : Bool} (follows : Follows τ ρ F ⟨name, none, fixed⟩) :
    τ.text name = name.text := by
  simpa [changedAt] using follows.text

theorem of_outward (follows : u.outward.Follows τ ρ F) (other : u.depth ≠ some 0) :
    u.Follows τ ρ (b :: F) := by
  rcases u with ⟨name, _ | _ | d, fixed⟩
  · exact ⟨follows.text, follows.fresh, follows.fixed⟩
  · exact absurd rfl other
  · exact ⟨follows.text, follows.fresh, follows.fixed⟩

/-- A scope of receivers has no names of the program. -/
theorem of_receivers (follows : u.outward.Follows τ ρ F) : u.Follows τ ρ (false :: F) := by
  rcases u with ⟨name, _ | _ | d, fixed⟩ <;> exact ⟨follows.text, follows.fresh, follows.fixed⟩

theorem of_here (follows : u.Follows τ ρ [b]) (here : u.depth = some 0) :
    u.Follows τ ρ (b :: F) := by
  obtain ⟨name, depth, fixed⟩ := u
  obtain rfl : depth = some 0 := here
  exact ⟨follows.text, follows.fresh, follows.fixed⟩

end Use.Follows

/-- The methods of a class stand in a scope that has nothing but the receiver. -/
theorem receivers_follow {us : List Use} (follow : ∀ u ∈ us.map Use.outward, u.Follows τ ρ F) :
    ∀ u ∈ us, u.Follows τ ρ (false :: F) :=
  fun _ member => (follow _ (List.mem_map_of_mem member)).of_receivers

/-- What holds of the names that go around a body and of its scope holds of all its names. -/
theorem LocalScope.Follows.enter {s : LocalScope} (follows : s.Follows τ ρ)
    (around : ∀ u ∈ leaving (usesOfBody s.body), u.Follows τ ρ F) :
    ∃ b, (∀ p ∈ s.params, Use.Follows τ ρ (b :: F) ⟨p, some 0, false⟩) ∧
      ∀ u ∈ usesOfBody s.body, u.Follows τ ρ (b :: F) := by
  obtain ⟨b, inside⟩ := follows
  refine ⟨b, fun p member => ?_, fun u member => ?_⟩
  · have param : (⟨p, some 0, false⟩ : Use) ∈ s.uses :=
      List.mem_append_left _ (List.mem_map_of_mem member)
    exact (inside _ param).of_here rfl
  · by_cases here : u.depth = some 0
    · have stays : u ∈ s.uses :=
        List.mem_append_right _ (List.mem_filter.mpr ⟨member, decide_eq_true here⟩)
      exact (inside u stays).of_here here
    · have leaves : u.outward ∈ leaving (usesOfBody s.body) :=
        List.mem_map_of_mem (List.mem_filter.mpr ⟨member, by simp [here]⟩)
      exact (around _ leaves).of_outward here

end LoxLang
