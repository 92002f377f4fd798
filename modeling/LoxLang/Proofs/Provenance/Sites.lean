import LoxLang.Proofs.Blame
import LoxLang.Proofs.Lexical.Erasure
import LoxLang.Proofs.Provenance
import LoxLang.Proofs.Scanning.Places
import LoxLang.Proofs.Scanning.Positions
import LoxLang.Proofs.Sessions
import LoxLang.Proofs.Writing.Parsing
/-! Where the nodes of accepted sources come from. The token of a failure for which a node is to
blame is a token of the source in which the node stands. -/
namespace LoxLang

section
variable {δ : Type}

mutual

theorem Expr.parts_erase : ∀ e : Expr δ, e.erase.parts = e.parts
  | .literal _ _ | .var _ _ | .receiver _ _ | .inherited _ _ _ => rfl
  | .grouping _ inner => inner.parts_erase
  | .assign name value _ => congrArg (Part.token name.token :: ·) value.parts_erase
  | .unary op pos operand => congrArg (Part.token (op.token pos) :: ·) operand.parts_erase
  | .binary left _ _ right | .logical left _ _ right => by
      simp only [Expr.erase, Expr.parts, left.parts_erase, right.parts_erase]
  | .conditional condition thenBranch elseBranch => by
      simp only [Expr.erase, Expr.parts, condition.parts_erase, thenBranch.parts_erase,
        elseBranch.parts_erase]
  | .call callee _ arguments => by
      simp only [Expr.erase, Expr.parts, callee.parts_erase, parts_eraseAll arguments]
  | .member object name => congrArg (Part.token name.token :: ·) object.parts_erase
  | .assignMember object _ value => by
      simp only [Expr.erase, Expr.parts, object.parts_erase, value.parts_erase]

theorem parts_eraseAll : ∀ es : List (Expr δ), partsOfAll (eraseAll es) = partsOfAll es
  | [] => rfl
  | e :: rest => by simp only [eraseAll, partsOfAll, e.parts_erase, parts_eraseAll rest]

end

mutual

theorem Stmt.parts_erase : ∀ s : Stmt δ, s.erase.parts = s.parts
  | .expression value | .print _ value => value.parts_erase
  | .var _ none | .ret _ none => rfl
  | .var name (some value) => congrArg (Part.token name.token :: ·) value.parts_erase
  | .block _ body => parts_eraseBody body
  | .ifThen _ condition thenBranch => by
      simp only [Stmt.erase, Stmt.parts, condition.parts_erase, thenBranch.parts_erase]
  | .ifElse _ condition thenBranch elseBranch => by
      simp only [Stmt.erase, Stmt.parts, condition.parts_erase, thenBranch.parts_erase,
        elseBranch.parts_erase]
  | .loop _ condition body => by
      simp only [Stmt.erase, Stmt.parts, condition.parts_erase, body.parts_erase]
  | .function declaration => declaration.parts_erase
  | .classDecl _ none methods => by
      simp only [Stmt.erase, Stmt.parts, Superclass.parts, parts_eraseMethods methods]
  | .classDecl _ (some _) methods => by
      simp only [Stmt.erase, Stmt.parts, Superclass.parts, parts_eraseMethods methods]
  | .ret pos (some value) => congrArg (Part.token (returnToken pos) :: ·) value.parts_erase

theorem parts_eraseBody : ∀ ss : List (Stmt δ), partsOfBody (eraseBody ss) = partsOfBody ss
  | [] => rfl
  | s :: rest => by simp only [eraseBody, partsOfBody, s.parts_erase, parts_eraseBody rest]

theorem Routine.parts_erase : ∀ r : Routine δ, r.erase.parts = r.parts
  | .mk _ _ body => by simp only [Routine.erase, Routine.parts, parts_eraseBody body]

theorem parts_eraseMethods : ∀ rs : List (Routine δ),
    partsOfMethods (eraseMethods rs) = partsOfMethods rs
  | [] => rfl
  | r :: rest => by simp only [eraseMethods, partsOfMethods, r.parts_erase, parts_eraseMethods rest]

end

end

/-- What a node keeps of its source. -/
def Node.parts : Node → List Part
  | .expr e => e.parts
  | .stmt s => s.parts
  | .superclass _ parent => [.token parent.name.token]
  | .store name _ => [.token name.token]

/-- A failure has a token of the node that is to blame for it. -/
theorem Node.Blames.token {n : Node} {f : Fault} (blames : n.Blames f) :
    ∃ t, f.token = some t ∧ .token t ∈ n.parts := by
  cases n with
  | expr e =>
      cases e with
      | var name _ => exact ⟨_, blames.1, List.mem_cons_self⟩
      | assign name _ _ =>
          cases blames
          exact ⟨_, rfl, List.mem_cons_self⟩
      | unary op pos _ =>
          obtain ⟨-, rfl⟩ := blames
          exact ⟨_, rfl, List.mem_cons_self⟩
      | binary _ _ _ _ => exact ⟨_, blames.1, List.mem_cons_self⟩
      | call _ _ _ => exact ⟨_, blames.1, List.mem_cons_self⟩
      | member _ _ => exact ⟨_, blames.1, List.mem_cons_self⟩
      | assignMember _ _ _ =>
          cases blames
          exact ⟨_, rfl, List.mem_cons_self⟩
      | inherited _ _ _ =>
          cases blames
          exact ⟨_, rfl, List.mem_cons_of_mem _ List.mem_cons_self⟩
      | _ => exact blames.elim
  | superclass _ parent =>
      rcases blames with unreadable | rfl
      · exact ⟨_, unreadable.1, List.mem_cons_self⟩
      · exact ⟨_, rfl, List.mem_cons_self⟩
  | _ => exact blames.elim

/-! The nodes of a tree keep parts of the tree. -/

section
variable {S : Token → Prop}

mutual

theorem Expr.stem_nodes : ∀ e : Expr Address, Stem S e.parts → ∀ n ∈ e.nodes, Stem S n.parts
  | .literal _ _, stem | .var _ _, stem | .receiver _ _, stem | .inherited _ _ _, stem =>
      List.forall_mem_singleton.mpr stem
  | .grouping _ inner, stem => List.forall_mem_cons.mpr ⟨stem, inner.stem_nodes stem⟩
  | .assign _ value _, stem => by
      obtain ⟨name, rest⟩ := stem_token.mp stem
      refine List.forall_mem_cons.mpr ⟨stem, List.forall_mem_append.mpr ⟨value.stem_nodes rest, ?_⟩⟩
      exact List.forall_mem_singleton.mpr (stem_token.mpr ⟨name, stem_nil⟩)
  | .unary _ _ operand, stem =>
      List.forall_mem_cons.mpr ⟨stem, operand.stem_nodes (stem_token.mp stem).2⟩
  | .binary left _ _ right, stem | .logical left _ _ right, stem => by
      obtain ⟨first, second⟩ := stem_append.mp (stem_token.mp stem).2
      exact List.forall_mem_cons.mpr ⟨stem,
        List.forall_mem_append.mpr ⟨left.stem_nodes first, right.stem_nodes second⟩⟩
  | .conditional condition thenBranch elseBranch, stem => by
      obtain ⟨first, branches⟩ := stem_append.mp stem
      obtain ⟨second, third⟩ := stem_append.mp branches
      exact List.forall_mem_cons.mpr ⟨stem, List.forall_mem_append.mpr ⟨condition.stem_nodes first,
        List.forall_mem_append.mpr ⟨thenBranch.stem_nodes second, elseBranch.stem_nodes third⟩⟩⟩
  | .call callee _ arguments, stem => by
      obtain ⟨first, second⟩ := stem_append.mp (stem_token.mp stem).2
      exact List.forall_mem_cons.mpr ⟨stem,
        List.forall_mem_append.mpr ⟨callee.stem_nodes first, stem_nodesOfAll arguments second⟩⟩
  | .member object _, stem =>
      List.forall_mem_cons.mpr ⟨stem, object.stem_nodes (stem_token.mp stem).2⟩
  | .assignMember object _ value, stem => by
      obtain ⟨first, second⟩ := stem_append.mp (stem_token.mp stem).2
      exact List.forall_mem_cons.mpr ⟨stem,
        List.forall_mem_append.mpr ⟨value.stem_nodes second, object.stem_nodes first⟩⟩

theorem stem_nodesOfAll : ∀ es : List (Expr Address), Stem S (partsOfAll es) →
    ∀ n ∈ nodesOfAll es, Stem S n.parts
  | [], _ => fun _ member => absurd member List.not_mem_nil
  | e :: rest, stem => by
      obtain ⟨first, others⟩ := stem_append.mp stem
      exact List.forall_mem_append.mpr ⟨e.stem_nodes first, stem_nodesOfAll rest others⟩

end

theorem Expr.stem_sites {e : Expr Address} (stem : Stem S e.parts) (Γ : Scopes) (b : Bool)
    (i : Option Name) : ∀ σ ∈ e.sites Γ b i, Stem S σ.node.parts :=
  List.forall_mem_map.mpr (e.stem_nodes stem)

mutual

theorem Stmt.stem_sites : ∀ (s : Stmt Address) (Γ : Scopes) (b : Bool), Stem S s.parts →
    ∀ σ ∈ s.sites Γ b, Stem S σ.node.parts
  | .expression _, _, _, stem | .print _ _, _, _, stem =>
      List.forall_mem_cons.mpr ⟨stem, Expr.stem_sites stem _ _ _⟩
  | .var _ none, _, _, stem | .ret _ none, _, _, stem => List.forall_mem_singleton.mpr stem
  | .var _ (some _), _, _, stem | .ret _ (some _), _, _, stem =>
      List.forall_mem_cons.mpr ⟨stem, Expr.stem_sites (stem_token.mp stem).2 _ _ _⟩
  | .block _ body, _, _, stem =>
      List.forall_mem_cons.mpr ⟨stem, stem_sitesOfAll body _ _ stem⟩
  | .ifThen _ _ thenBranch, _, _, stem => by
      obtain ⟨first, second⟩ := stem_append.mp stem
      exact List.forall_mem_cons.mpr ⟨stem, List.forall_mem_append.mpr
        ⟨Expr.stem_sites first _ _ _, thenBranch.stem_sites _ _ second⟩⟩
  | .ifElse _ _ thenBranch elseBranch, _, _, stem => by
      obtain ⟨first, branches⟩ := stem_append.mp stem
      obtain ⟨second, third⟩ := stem_append.mp branches
      exact List.forall_mem_cons.mpr ⟨stem, List.forall_mem_append.mpr
        ⟨Expr.stem_sites first _ _ _, List.forall_mem_append.mpr
          ⟨thenBranch.stem_sites _ _ second, elseBranch.stem_sites _ _ third⟩⟩⟩
  | .loop _ _ body, _, _, stem => by
      obtain ⟨first, second⟩ := stem_append.mp stem
      exact List.forall_mem_cons.mpr ⟨stem, List.forall_mem_append.mpr
        ⟨Expr.stem_sites first _ _ _, body.stem_sites _ _ second⟩⟩
  | .function declaration, _, _, stem =>
      List.forall_mem_cons.mpr ⟨stem, declaration.stem_sites _ stem⟩
  | .classDecl _ none methods, _, _, stem =>
      List.forall_mem_cons.mpr ⟨stem, stem_sitesOfMethods methods _ (stem_token.mp stem).2⟩
  | .classDecl _ (some _) methods, _, _, stem => by
      obtain ⟨above, rest⟩ := stem_append.mp (stem_token.mp stem).2
      exact List.forall_mem_cons.mpr ⟨stem,
        List.forall_mem_cons.mpr ⟨above, stem_sitesOfMethods methods _ rest⟩⟩

theorem stem_sitesOfAll : ∀ (ss : List (Stmt Address)) (Γ : Scopes) (b : Bool),
    Stem S (partsOfBody ss) → ∀ σ ∈ sitesOfAll Γ b ss, Stem S σ.node.parts
  | [], _, _, _ => fun _ member => absurd member List.not_mem_nil
  | s :: rest, _, _, stem => by
      obtain ⟨first, others⟩ := stem_append.mp stem
      exact List.forall_mem_append.mpr ⟨s.stem_sites _ _ first, stem_sitesOfAll rest _ _ others⟩

theorem Routine.stem_sites : ∀ (r : Routine Address) (Γ : Scopes), Stem S r.parts →
    ∀ σ ∈ r.sites Γ, Stem S σ.node.parts
  | .mk _ _ body, _, stem =>
      stem_sitesOfAll body _ _ (stem_append.mp (stem_token.mp stem).2).2

theorem stem_sitesOfMethods : ∀ (rs : List (Routine Address)) (Γ : Scopes),
    Stem S (partsOfMethods rs) → ∀ σ ∈ sitesOfMethods Γ rs, Stem S σ.node.parts
  | [], _, _ => fun _ member => absurd member List.not_mem_nil
  | r :: rest, _, stem => by
      obtain ⟨first, others⟩ := stem_append.mp stem
      exact List.forall_mem_append.mpr ⟨r.stem_sites _ first, stem_sitesOfMethods rest _ others⟩

end

end

/-- The nodes of an accepted source come from its tokens. -/
theorem Accepted.stem {source : String} (accepted : Accepted source) :
    ∀ σ ∈ sitesOfSource source, Stem (· ∈ (scan source).tokens) σ.node.parts := by
  have whole : Stem (· ∈ (scan source).tokens) (partsOfBody (resolve (spelled source)).program) := by
    rw [← parts_eraseBody, erase_resolve]
    exact parse_stem (scan_spelled source) (fun _ member => member) accepted.parsed
  rw [accepted.sites_eq]
  exact stem_sitesOfAll _ _ _ whole

/-- The tokens of a source stand on its lines. -/
theorem scan_lines (source : String) : ∀ t ∈ (scan source).tokens,
    1 ≤ t.pos.line ∧ t.pos.line ≤ source.toList.count '\n' + 1 := by
  intro t member
  have division := Scan.spans_division source.toList
  rw [scan_eq_place, Scan.place_tokens, show Pos.start = Pos.start.after [] from rfl,
    Scan.places_offsets [] division.covers.symm] at member
  obtain ⟨placed, there, token⟩ := List.mem_filterMap.mp member
  obtain ⟨entry, -, rfl⟩ := List.mem_map.mp there
  rw [Scan.pos_token token]
  have fewer := (List.take_sublist entry.1 source.toList).count_le '\n'
  simp only [Pos.ofOffset]
  omega

end LoxLang
