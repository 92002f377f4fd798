import LoxLang.Proofs.Lexical.Erasure
import LoxLang.Proofs.Progress.Statements
import LoxLang.Proofs.Renaming
import LoxLang.Proofs.Scanning.Places
import Mathlib.Data.List.Nodup
import Mathlib.Data.List.Pairwise
/-! The places at which a name of one scope stands. Every name that is written down in a program
belongs to one scope at most, so the places of one scope are not those of another. -/
namespace LoxLang

section
variable {δ : Type}

mutual

theorem Expr.names_erase : ∀ e : Expr δ, e.erase.names = e.names
  | .literal _ _ | .var _ _ | .receiver _ _ | .inherited _ _ _ => rfl
  | .grouping _ inner => inner.names_erase
  | .assign name value _ => congrArg (name :: ·) value.names_erase
  | .unary _ _ operand => operand.names_erase
  | .binary left _ _ right | .logical left _ _ right => by
      simp only [Expr.erase, Expr.names, left.names_erase, right.names_erase]
  | .conditional condition thenBranch elseBranch => by
      simp only [Expr.erase, Expr.names, condition.names_erase, thenBranch.names_erase,
        elseBranch.names_erase]
  | .call callee _ arguments => by
      simp only [Expr.erase, Expr.names, callee.names_erase, names_eraseAll arguments]
  | .member object name => congrArg (· ++ [name]) object.names_erase
  | .assignMember object name value => by
      simp only [Expr.erase, Expr.names, object.names_erase, value.names_erase]

theorem names_eraseAll : ∀ es : List (Expr δ), namesOfAll (eraseAll es) = namesOfAll es
  | [] => rfl
  | e :: rest => by simp only [eraseAll, namesOfAll, e.names_erase, names_eraseAll rest]

end

mutual

theorem Stmt.names_erase : ∀ s : Stmt δ, s.erase.names = s.names
  | .expression value | .print _ value => value.names_erase
  | .var _ none | .ret _ none => rfl
  | .var name (some value) => congrArg (name :: ·) value.names_erase
  | .block _ body => names_eraseBody body
  | .ifThen _ condition thenBranch => by
      simp only [Stmt.erase, Stmt.names, condition.names_erase, thenBranch.names_erase]
  | .ifElse _ condition thenBranch elseBranch => by
      simp only [Stmt.erase, Stmt.names, condition.names_erase, thenBranch.names_erase,
        elseBranch.names_erase]
  | .loop _ condition body => by
      simp only [Stmt.erase, Stmt.names, condition.names_erase, body.names_erase]
  | .function declaration => declaration.names_erase
  | .classDecl _ none methods => by
      simp only [Stmt.erase, Stmt.names, superclassNames, names_eraseMethods methods]
  | .classDecl _ (some _) methods => by
      simp only [Stmt.erase, Stmt.names, superclassNames, names_eraseMethods methods]
  | .ret _ (some value) => value.names_erase

theorem names_eraseBody : ∀ ss : List (Stmt δ), namesOfBody (eraseBody ss) = namesOfBody ss
  | [] => rfl
  | s :: rest => by simp only [eraseBody, namesOfBody, s.names_erase, names_eraseBody rest]

theorem Routine.names_erase : ∀ r : Routine δ, r.erase.names = r.names
  | .mk name params body => congrArg (name :: params ++ ·) (names_eraseBody body)

theorem names_eraseMethods : ∀ rs : List (Routine δ),
    namesOfMethods (eraseMethods rs) = namesOfMethods rs
  | [] => rfl
  | r :: rest => by simp only [eraseMethods, namesOfMethods, r.names_erase, names_eraseMethods rest]

end

end

/-- The names that belong to a scope. -/
def LocalScope.names (s : LocalScope) : List Name := s.uses.map Use.name

mutual

theorem Expr.names_eq_uses : ∀ e : Expr Address, e.names = e.uses.map Use.name
  | .literal _ _ | .var _ _ | .receiver _ _ | .inherited _ _ _ => rfl
  | .grouping _ inner => inner.names_eq_uses
  | .assign name value _ => congrArg (name :: ·) value.names_eq_uses
  | .unary _ _ operand => operand.names_eq_uses
  | .binary left _ _ right | .logical left _ _ right => by
      simp only [Expr.names, Expr.uses, List.map_append, left.names_eq_uses, right.names_eq_uses]
  | .conditional condition thenBranch elseBranch => by
      simp only [Expr.names, Expr.uses, List.map_append, condition.names_eq_uses,
        thenBranch.names_eq_uses, elseBranch.names_eq_uses]
  | .call callee _ arguments => by
      simp only [Expr.names, Expr.uses, List.map_append, callee.names_eq_uses,
        namesOfAll_eq_uses arguments]
  | .member object name => by
      simp only [Expr.names, Expr.uses, List.map_append, object.names_eq_uses, List.map_cons,
        List.map_nil]
  | .assignMember object name value => by
      simp only [Expr.names, Expr.uses, List.map_append, object.names_eq_uses, List.map_cons,
        value.names_eq_uses]

theorem namesOfAll_eq_uses : ∀ es : List (Expr Address), namesOfAll es = (usesOfAll es).map Use.name
  | [] => rfl
  | e :: rest => by
      simp only [namesOfAll, usesOfAll, List.map_append, e.names_eq_uses, namesOfAll_eq_uses rest]

end

theorem optionalNames_eq_uses (e : Option (Expr Address)) :
    optionalNames e = (optionalUses e).map Use.name := by
  cases e with
  | none => rfl
  | some e => exact e.names_eq_uses

theorem names_outward (us : List Use) : (us.map Use.outward).map Use.name = us.map Use.name := by
  simp

/-- A name stays in the innermost scope or it leaves it. -/
theorem count_leaving (us : List Use) (n : Name) : (us.map Use.name).count n =
    ((staying us).map Use.name).count n + ((leaving us).map Use.name).count n := by
  induction us with
  | nil => rfl
  | cons u us ih =>
      by_cases here : u.depth = some 0
      · simp [staying, leaving, here, List.count_cons] at ih ⊢
        omega
      · simp [staying, leaving, here, List.count_cons] at ih ⊢
        omega

/-- The names of some code are those that belong around it and those of its own scopes. -/
def Parted (ns : List Name) (us : List Use) (ss : List LocalScope) : Prop :=
  ∀ n, ns.count n = (us.map Use.name).count n + (ss.flatMap LocalScope.names).count n

namespace Parted
variable {ns ms : List Name} {us vs : List Use} {ss tt : List LocalScope}

theorem around (us : List Use) : Parted (us.map Use.name) us [] := fun _ => rfl

theorem append (first : Parted ns us ss) (second : Parted ms vs tt) :
    Parted (ns ++ ms) (us ++ vs) (ss ++ tt) := by
  intro n
  have one := first n
  have two := second n
  simp only [List.map_append, List.flatMap_append, List.count_append]
  omega

theorem cons (u : Use) (rest : Parted ns us ss) : Parted (u.name :: ns) (u :: us) ss :=
  (around [u]).append rest

theorem outward (parted : Parted ns us ss) : Parted ns (us.map Use.outward) ss := by
  intro n
  rw [names_outward]
  exact parted n

/-- A scope is put around some code. -/
theorem enclose (params : List Name) {body : List (Stmt Address)}
    (inside : Parted ns (usesOfBody body) ss) :
    Parted (params ++ ns) (leaving (usesOfBody body)) (⟨params, body⟩ :: ss) := by
  intro n
  have split := count_leaving (usesOfBody body) n
  have rest := inside n
  have own : (LocalScope.names ⟨params, body⟩).count n =
      params.count n + ((staying (usesOfBody body)).map Use.name).count n := by
    simp [LocalScope.names, LocalScope.uses, List.map_map, Function.comp_def]
  simp only [List.flatMap_cons, List.count_append]
  omega

end Parted

theorem Expr.parted (e : Expr Address) : Parted e.names e.uses [] :=
  e.names_eq_uses ▸ .around e.uses

theorem optionalNames_parted (e : Option (Expr Address)) :
    Parted (optionalNames e) (optionalUses e) [] :=
  optionalNames_eq_uses e ▸ .around (optionalUses e)

mutual

/-- Every name in a statement belongs to one scope. -/
theorem Stmt.parted : ∀ s : Stmt Address, Parted s.names s.uses s.scopes
  | .expression value | .print _ value => value.parted
  | .var name initializer => (optionalNames_parted initializer).cons ⟨name, some 0, false⟩
  | .block _ body => (parted_body body).enclose []
  | .ifThen _ condition thenBranch => condition.parted.append thenBranch.parted
  | .ifElse _ condition thenBranch elseBranch =>
      condition.parted.append (thenBranch.parted.append elseBranch.parted)
  | .loop _ condition body => condition.parted.append body.parted
  | .function (.mk name params body) =>
      ((parted_body body).enclose params).cons ⟨name, some 0, true⟩
  | .classDecl name none methods =>
      (parted_methods methods).outward.cons ⟨name, some 0, true⟩
  | .classDecl name (some parent) methods =>
      ((parted_methods methods).outward.outward.cons ⟨parent.name, parent.address, false⟩).cons
        ⟨name, some 0, true⟩
  | .ret _ value => optionalNames_parted value

theorem parted_body : ∀ ss : List (Stmt Address),
    Parted (namesOfBody ss) (usesOfBody ss) (scopesOfBody ss)
  | [] => .around []
  | s :: rest => s.parted.append (parted_body rest)

theorem parted_methods : ∀ rs : List (Routine Address),
    Parted (namesOfMethods rs) (usesOfMethods rs) (scopesOfMethods rs)
  | [] => .around []
  | .mk name params body :: rest =>
      (((parted_body body).enclose params).append (parted_methods rest)).cons ⟨name, none, false⟩

end

theorem LocalScope.depth_uses {s : LocalScope} {u : Use} (belongs : u ∈ s.uses) :
    u.depth = some 0 := by
  rcases List.mem_append.mp belongs with param | stays
  · obtain ⟨p, -, rfl⟩ := List.mem_map.mp param
    rfl
  · exact of_decide_eq_true (List.mem_filter.mp stays).2

/-- Where no scope has names changed, none is reached. -/
theorem changedAt_false {F : List Bool} (none : ∀ b ∈ F, b = false) (address : Address) :
    changedAt F address = false := by
  cases address with
  | none => rfl
  | some d =>
      rw [changedAt, List.getD_eq_getElem?_getD]
      cases here : F[d]? with
      | none => rfl
      | some b => exact none b (List.mem_of_getElem? here)

/-- The places at which a name of the scope stands: where it is declared, and where it is referred
to. -/
def LocalScope.marks (s : LocalScope) (x : String) : List Pos :=
  (s.names.filter fun n => n.text = x).map Name.pos

theorem LocalScope.mem_marks {s : LocalScope} {x : String} {p : Pos} :
    p ∈ s.marks x ↔ ∃ n ∈ s.names, n.text = x ∧ n.pos = p := by
  simp [marks, and_assoc]

section
variable {program : List (Stmt Address)} {s : LocalScope} {x : String}

/-- Where no two names stand at one place, a place of one scope is not that of a name elsewhere. -/
theorem places_apart (distinct : ((namesOfBody program).map Name.pos).Nodup)
    (inside : s ∈ scopesOfBody program) :
    (∀ u ∈ usesOfBody program, u.name.pos ∉ s.marks x) ∧
      (∀ t ∈ scopesOfBody program, t ≠ s → ∀ u ∈ t.uses, u.name.pos ∉ s.marks x) ∧
      ∀ u ∈ s.uses, u.name.pos ∈ s.marks x ↔ u.name.text = x := by
  have same : (namesOfBody program).Perm ((usesOfBody program).map Use.name ++
      (scopesOfBody program).flatMap LocalScope.names) := by
    rw [List.perm_iff_count]
    intro n
    rw [List.count_append]
    exact parted_body program n
  have once := (same.map Name.pos).nodup distinct
  rw [List.map_append, List.map_flatMap] at once
  obtain ⟨-, own, around⟩ := List.nodup_append.mp once
  obtain ⟨single, apart⟩ := List.nodup_flatMap.mp own
  refine ⟨?_, ?_, ?_⟩
  · intro u member marked
    obtain ⟨n, belongs, -, place⟩ := LocalScope.mem_marks.mp marked
    refine around u.name.pos ?_ n.pos ?_ place.symm
    · exact List.mem_map_of_mem (List.mem_map_of_mem member)
    · exact List.mem_flatMap.mpr ⟨s, inside, List.mem_map_of_mem belongs⟩
  · intro t member other u belongs marked
    obtain ⟨n, belongs', -, place⟩ := LocalScope.mem_marks.mp marked
    have symmetric : Std.Symm (Function.onFun List.Disjoint fun s : LocalScope =>
      s.names.map Name.pos) := ⟨fun _ _ disjoint _ one two => disjoint two one⟩
    exact apart.forall member inside other (List.mem_map_of_mem (List.mem_map_of_mem belongs))
      (place ▸ List.mem_map_of_mem belongs')
  · intro u belongs
    constructor
    · intro marked
      obtain ⟨n, belongs', text, place⟩ := LocalScope.mem_marks.mp marked
      have equal := List.inj_on_of_nodup_map (single s inside) belongs' (List.mem_map_of_mem belongs)
        place
      exact equal ▸ text
    · intro text
      exact LocalScope.mem_marks.mpr ⟨u.name, List.mem_map_of_mem belongs, text, rfl⟩

variable {τ : Respelling} {ρ : Renaming}

/-- The names of a program, by the scopes to which they belong. -/
theorem mem_names {n : Name} : n ∈ namesOfBody program ↔ (∃ u ∈ usesOfBody program, u.name = n) ∨
    ∃ t ∈ scopesOfBody program, ∃ u ∈ t.uses, u.name = n := by
  rw [← List.count_pos_iff, parted_body program n, ← List.count_append, List.count_pos_iff]
  simp [LocalScope.names]

/-- What has another text at the places of one scope, and nowhere else, follows the renaming. -/
theorem followed_of_marks (distinct : ((namesOfBody program).map Name.pos).Nodup)
    (inside : s ∈ scopesOfBody program)
    (free : ∀ u ∈ s.uses, u.name.text = ρ.old → u.fixed = false)
    (fresh : ∀ n ∈ namesOfBody program, n.text ≠ ρ.new)
    (text : ∀ n, τ.text n = if n.pos ∈ s.marks ρ.old then ρ.new else n.text) :
    Followed τ ρ [] (usesOfBody program) (scopesOfBody program) := by
  obtain ⟨around, others, own⟩ := places_apart (x := ρ.old) distinct inside
  have known : ∀ n, (∃ u ∈ usesOfBody program, u.name = n) ∨
      (∃ t ∈ scopesOfBody program, ∃ u ∈ t.uses, u.name = n) → n.text ≠ ρ.new :=
    fun n belongs => fresh n (mem_names.mpr belongs)
  have kept : ∀ u : Use, u.name.pos ∉ s.marks ρ.old → τ.text u.name = u.name.text := by
    intro u elsewhere
    rw [text, if_neg elsewhere]
  constructor
  · intro u member
    have same := kept u (around u member)
    refine ⟨?_, known u.name (.inl ⟨u, member, rfl⟩), fun _ => same⟩
    rwa [changedAt_false (by simp), Renaming.spell_false]
  · intro t member
    by_cases this : t = s
    · subst this
      refine ⟨true, fun u belongs => ⟨?_, known u.name (.inr ⟨t, member, u, belongs, rfl⟩), ?_⟩⟩
      · have here : u.depth = some 0 := LocalScope.depth_uses belongs
        simp [text, own u belongs, here, changedAt, Renaming.spell]
      · intro fixed
        refine kept u fun marked => ?_
        exact Bool.noConfusion (fixed.symm.trans (free u belongs ((own u belongs).mp marked)))
    · refine ⟨false, fun u belongs => ?_⟩
      have same := kept u (others t member this u belongs)
      refine ⟨?_, known u.name (.inr ⟨t, member, u, belongs, rfl⟩), fun _ => same⟩
      rwa [changedAt_false (by simp), Renaming.spell_false]

end

/-- The names of a program stand where identifiers of its text are. -/
theorem names_drawn (tokens : List Token) : Drawn (namesOfBody (parse tokens).program) tokens := by
  obtain ⟨used, split, drawn⟩ := Reading.consumes_program tokens.length tokens
  obtain ⟨statements, value, rest⟩ := Reading.program_total tokens
  have whole : tokens = used := by rw [split, rest, List.append_nil]
  have same : (parse tokens).program = statements := by rw [parse, value, Option.getD_some]
  rw [same, whole]
  exact drawn statements value

theorem Drawn.subset {ns : List Name} {used : List Token} (drawn : Drawn ns used) :
    ∀ n ∈ ns, n ∈ identifiers used := by
  intro n member
  have some := List.count_pos_iff.mpr member
  exact List.count_pos_iff.mp (Nat.lt_of_lt_of_le some (drawn n))

/-- No two names of a program stand at one place. -/
theorem names_distinct (source : String) :
    ((namesOfBody (parse (scan source).tokens).program).map Name.pos).Nodup := by
  have places := identifiers_distinct source
  have drawn := names_drawn (scan source).tokens
  have once := List.nodup_iff_count.mp (places.of_map Name.pos)
  refine List.Nodup.map_on ?_ (List.nodup_iff_count.mpr fun n => Nat.le_trans (drawn n) (once n))
  intro n member m member'
  exact List.inj_on_of_nodup_map places (drawn.subset n member) (drawn.subset m member')

end LoxLang
