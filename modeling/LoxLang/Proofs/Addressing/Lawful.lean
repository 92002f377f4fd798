import LoxLang.Proofs.Addressing.Visits
/-! A walk that reports nothing leaves a lawful tree: every site of it agrees with its scopes. -/
namespace LoxLang
namespace Scopes

theorem locate_cons (g : Table Bool) (Γ : Scopes) (x : String) :
    locate (g :: Γ) x = if g.contains x then some 0 else (locate Γ x).map (· + 1) := by
  simp only [locate, List.findIdx?_cons]

theorem locate_eq_some {Γ : Scopes} {x : String} {d : Nat} (h : Γ.locate x = some d) :
    ∃ g b, Γ[d]? = some g ∧ g.find? x = some b := by
  obtain ⟨hd, found, -⟩ := List.findIdx?_eq_some_iff_getElem.mp h
  obtain ⟨b, hb⟩ := Option.isSome_iff_exists.mp found
  exact ⟨Γ[d], b, List.getElem?_eq_getElem hd, hb⟩

theorem locate_enter {Γ : Scopes} {x y : String} (b : Bool) (h : y ≠ x) :
    (Γ.enter x b).locate y = Γ.locate y := by
  cases Γ with
  | nil => rfl
  | cons g Γ =>
      have kept : (g.put x b).contains y = g.contains y := by simp [Table.contains, h]
      simp only [enter, locate_cons, kept]

theorem locate_declare {Γ : Scopes} {x y : String} (h : y ≠ x) :
    (Γ.declare x).locate y = Γ.locate y := by
  rw [declare, locate_enter true h, locate_enter false h]

/-- Only the entry of `x` in the innermost scope can be unfinished. -/
def PendingOnly (Γ : Scopes) (i : Option Name) : Prop :=
  ∀ d g x, Γ[d]? = some g → g.find? x = some false → d = 0 ∧ ∃ n, i = some n ∧ n.text = x

theorem PendingOnly.enter {Γ : Scopes} (h : Γ.PendingOnly none) (n : Name) :
    (Γ.enter n.text false).PendingOnly (some n) := by
  cases Γ with
  | nil => exact fun d g x hg => absurd hg (by simp [Scopes.enter])
  | cons g Γ =>
      intro d k x hk hx
      cases d with
      | zero =>
          obtain rfl := Option.some.inj hk
          rw [Table.find?_put] at hx
          split at hx
          · next same => exact ⟨rfl, n, rfl, same.symm⟩
          · exact absurd (h 0 g x rfl hx).2 (by simp)
      | succ d => exact absurd (h (d + 1) k x hk hx).2 (by simp)

theorem PendingOnly.finish {Γ : Scopes} {n : Name} (h : Γ.PendingOnly (some n)) :
    (Γ.enter n.text true).PendingOnly none := by
  cases Γ with
  | nil => exact fun d g x hg => absurd hg (by simp [Scopes.enter])
  | cons g Γ =>
      intro d k x hk hx
      cases d with
      | zero =>
          obtain rfl := Option.some.inj hk
          rw [Table.find?_put] at hx
          split at hx
          · cases hx
          · next other =>
              obtain ⟨-, m, named, hm⟩ := h 0 g x rfl hx
              cases named
              exact absurd hm.symm other
      | succ d => exact absurd (h (d + 1) k x hk hx).1 (by simp)

theorem PendingOnly.declare {Γ : Scopes} (h : Γ.PendingOnly none) (n : Name) :
    (Γ.declare n.text).PendingOnly none := (h.enter n).finish

theorem PendingOnly.cons {Γ : Scopes} {g : Table Bool} (h : Γ.PendingOnly none)
    (hg : ∀ x, g.find? x ≠ some false) : PendingOnly (g :: Γ) none := by
  intro d k x hk hx
  cases d with
  | zero =>
      obtain rfl := Option.some.inj hk
      exact absurd hx (hg x)
  | succ d => exact absurd (h d k x hk hx).2 (by simp)

/-- Of a name found in some scope the declaration is finished, unless it is the one pending. -/
theorem PendingOnly.holds {Γ : Scopes} {i : Option Name} (h : Γ.PendingOnly i) {x : String} {d : Nat}
    (hd : Γ.locate x = some d) : Γ.Holds d x ∨ d = 0 ∧ ∃ n, i = some n ∧ n.text = x := by
  obtain ⟨g, b, hg, hb⟩ := locate_eq_some hd
  cases b with
  | true => exact .inl ⟨g, hg, hb⟩
  | false => exact .inr (h d g x hg hb)

theorem receiverScope_find (x : String) :
    Walk.receiverScope.find? x = if x = "this" then some true else none := by
  simp [Walk.receiverScope]

theorem inheritedScope_find (x : String) :
    Walk.inheritedScope.find? x = if x = "super" then some true else none := by
  simp [Walk.inheritedScope]

end Scopes

namespace Walk

/-- A walk about to enter the initializer of `i`, or a statement: declarations are finished but
for that of `i`, and a class around has its scopes. -/
structure Settled (i : Option Name) (c : Context) : Prop where
  ordinary : ∀ n, i = some n → n.Ordinary
  pending : Scopes.PendingOnly c.scopes i
  receiver : c.surrounding ≠ .noClass → ∃ d, Scopes.locate c.scopes "this" = some d
  inherited : c.surrounding = .subclass →
    ∃ d, Scopes.locate c.scopes "super" = some (d + 1) ∧ Scopes.locate c.scopes "this" = some d

namespace Settled
variable {i : Option Name} {c d : Context}

theorem start : Settled none Walk.start :=
  ⟨by simp, fun d g x hg => absurd hg (by simp [Walk.start]), by simp [Walk.start],
    by simp [Walk.start]⟩

theorem keep (h : Settled i c) (k : Keeps c d) : Settled i d := by
  refine ⟨h.ordinary, ?_, ?_, ?_⟩
  · rw [k.scopes]
    exact h.pending
  · rw [k.scopes, k.surrounding]
    exact h.receiver
  · rw [k.scopes, k.surrounding]
    exact h.inherited

theorem enter (h : Settled none c) {n : Name} (hn : n.Ordinary) :
    Settled (some n) { c with scopes := Scopes.enter c.scopes n.text false } := by
  refine ⟨fun m hm => Option.some.inj hm ▸ hn, h.pending.enter n, fun around => ?_, fun around => ?_⟩
  · simpa only [Scopes.locate_enter false hn.1.symm] using h.receiver around
  · simpa only [Scopes.locate_enter false hn.1.symm, Scopes.locate_enter false hn.2.symm] using
      h.inherited around

theorem declare (h : Settled none c) {n : Name} (hn : n.Ordinary) :
    Settled none { c with scopes := Scopes.declare c.scopes n.text } := by
  refine ⟨by simp, h.pending.declare n, fun around => ?_, fun around => ?_⟩
  · simpa only [Scopes.locate_declare hn.1.symm] using h.receiver around
  · simpa only [Scopes.locate_declare hn.1.symm, Scopes.locate_declare hn.2.symm] using
      h.inherited around

theorem extend (h : Settled none c) {s : Stmt Unit} (plain : s.Plain) :
    Settled none { c with scopes := Scopes.extend c.scopes s } := by
  cases s with
  | var n value => exact h.declare (by cases value with | none => exact plain | some _ => exact plain.1)
  | function r => exact h.declare plain.1
  | classDecl n parent methods => exact h.declare plain.1
  | _ => exact h

theorem openLocal (h : Settled none c) : Settled none { c with scopes := Table.empty :: c.scopes } := by
  refine ⟨by simp, h.pending.cons (by simp), fun around => ?_, fun around => ?_⟩
  · obtain ⟨d, hd⟩ := h.receiver around
    exact ⟨d + 1, by simp [Scopes.locate_cons, Table.contains, hd]⟩
  · obtain ⟨d, hd, hd'⟩ := h.inherited around
    exact ⟨d + 1, by simp [Scopes.locate_cons, Table.contains, hd],
      by simp [Scopes.locate_cons, Table.contains, hd']⟩

theorem declareAll (h : Settled none c) {ps : List Name} (hp : ∀ p ∈ ps, p.Ordinary) :
    Settled none
      { c with scopes := ps.foldl (fun Δ p => Scopes.declare Δ p.text) c.scopes } := by
  induction ps generalizing c with
  | nil => exact h
  | cons p ps ih =>
      exact ih (h.declare (hp p List.mem_cons_self)) fun q hq => hp q (List.mem_cons_of_mem p hq)

theorem parameters (h : Settled none c) {ps : List Name} (hp : ∀ p ∈ ps, p.Ordinary)
    (k : RoutineKind) :
    Settled none { c with scopes := Scopes.parameters c.scopes ps, enclosing := k } := by
  have inner := h.openLocal.declareAll hp
  exact ⟨inner.ordinary, inner.pending, inner.receiver, inner.inherited⟩

theorem methods (h : Settled none c) :
    Settled none { c with scopes := receiverScope :: c.scopes, surrounding := .plainClass } := by
  refine ⟨by simp, h.pending.cons fun x => ?_, fun _ => ⟨0, ?_⟩, by simp⟩
  · rw [Scopes.receiverScope_find]
    split <;> simp
  · simp [Scopes.locate_cons, Table.contains, Scopes.receiverScope_find]

theorem subclassMethods (h : Settled none c) :
    Settled none { c with
      scopes := receiverScope :: inheritedScope :: c.scopes, surrounding := .subclass } := by
  have inner : Scopes.PendingOnly (inheritedScope :: c.scopes) none := h.pending.cons fun x => by
    rw [Scopes.inheritedScope_find]
    split <;> simp
  have this : Scopes.locate (receiverScope :: inheritedScope :: c.scopes) "this" = some 0 := by
    simp [Scopes.locate_cons, Table.contains, Scopes.receiverScope_find]
  have above : Scopes.locate (receiverScope :: inheritedScope :: c.scopes) "super" = some 1 := by
    simp [Scopes.locate_cons, Table.contains, Scopes.receiverScope_find, Scopes.inheritedScope_find]
  refine ⟨by simp, inner.cons fun x => ?_, fun _ => ⟨0, this⟩, fun _ => ⟨0, above, this⟩⟩
  rw [Scopes.receiverScope_find]
  split <;> simp

/-- The reserved names are never pending. -/
theorem finds (h : Settled i c) {x : String} (hx : x = "this" ∨ x = "super") {d : Nat}
    (hd : Scopes.locate c.scopes x = some d) : Scopes.Finds c.scopes x (some d) := by
  refine ⟨hd.symm, ?_⟩
  rintro e ⟨⟩
  rcases h.pending.holds hd with held | ⟨-, n, hn, rfl⟩
  · exact held
  · have ordinary := h.ordinary n hn
    rcases hx with hx | hx
    · exact absurd hx ordinary.1
    · exact absurd hx ordinary.2

end Settled

theorem issues_var {n : Name} {c : Context} {u : Unit} (h : (expr (.var n u) c).issues = []) :
    ∀ g Γ, c.scopes = g :: Γ → g.find? n.text ≠ some false := by
  intro g Γ hΓ pending
  simp [expr, checkInitializer, hΓ, pending] at h

theorem lawful_var {i : Option Name} {c : Context} {n : Name} (settled : Settled i c)
    (h : (expr (.var n ()) c).issues = []) :
    Scopes.Finds c.scopes n.text (locate n.text (checkInitializer n c).context).value := by
  rw [context_checkInitializer, value_locate]
  refine ⟨rfl, fun d hd => ?_⟩
  rcases settled.pending.holds hd with held | ⟨rfl, -⟩
  · exact held
  · obtain ⟨g, b, hg, hb⟩ := Scopes.locate_eq_some hd
    obtain ⟨Γ, hΓ⟩ : ∃ Γ, c.scopes = g :: Γ := by
      cases hc : c.scopes with
      | nil => simp [hc] at hg
      | cons k Γ => exact ⟨Γ, by simpa [hc] using hg⟩
    cases b with
    | true => exact ⟨g, hg, hb⟩
    | false => exact absurd hb (issues_var h g Γ hΓ)

theorem lawful_receiver {i : Option Name} {c : Context} {p : Pos} (settled : Settled i c)
    (h : (locateReceiver p c).issues = []) :
    ∃ d, (locateReceiver p c).value = some d ∧ Scopes.Finds c.scopes "this" (some d) := by
  have located (around : c.surrounding ≠ .noClass) :
      ∃ d, (locate "this" c).value = some d ∧ Scopes.Finds c.scopes "this" (some d) := by
    obtain ⟨d, hd⟩ := settled.receiver around
    exact ⟨d, by rw [value_locate, hd], settled.finds (.inl rfl) hd⟩
  cases around : c.surrounding with
  | noClass => simp [locateReceiver, around] at h
  | _ =>
      simp only [locateReceiver, value_bind, run_context, around]
      exact located (by simp [around])

theorem lawful_inherited {i : Option Name} {c : Context} {p : Pos} (settled : Settled i c)
    (h : (locateInherited p c).issues = []) :
    ∃ d, (locateInherited p c).value = some (d + 1) ∧
      Scopes.Finds c.scopes "super" (some (d + 1)) ∧ Scopes.Finds c.scopes "this" (some d) := by
  cases around : c.surrounding with
  | noClass => simp [locateInherited, around] at h
  | plainClass => simp [locateInherited, around] at h
  | subclass =>
      obtain ⟨d, above, this⟩ := settled.inherited around
      refine ⟨d, ?_, settled.finds (.inr rfl) above, settled.finds (.inl rfl) this⟩
      simp only [locateInherited, value_bind, run_context, around, value_locate, above]

theorem lawful_store {i : Option Name} {c : Context} {n : Name} (settled : Settled i c)
    (plain : n.Ordinary) :
    (siteOf c i (.store n (Scopes.locate c.scopes n.text))).Lawful := by
  refine ⟨plain, rfl, fun d hd => ?_⟩
  rcases settled.pending.holds hd with held | ⟨rfl, m, hm, same⟩
  · exact .inl held
  · refine .inr ⟨fun empty => ?_, ⟨m, hm, same⟩, n, ?_, rfl⟩
    · rw [show c.scopes = [] from empty] at hd
      cases hd
    · exact congrArg (Node.store n) hd

/-- The nodes are lawful where a walk in this context comes by them. -/
def LawfulAt (c : Context) (i : Option Name) (ns : List Node) : Prop :=
  ∀ n ∈ ns, (siteOf c i n).Lawful

theorem LawfulAt.keep {c d : Context} {i : Option Name} {ns : List Node} (h : LawfulAt d i ns)
    (k : Keeps c d) : LawfulAt c i ns := by
  intro n hn
  have lawful := h n hn
  rwa [siteOf, k.scopes, k.inRoutine] at lawful

theorem LawfulAt.append {c : Context} {i : Option Name} {ns ms : List Node}
    (h : LawfulAt c i ns) (k : LawfulAt c i ms) : LawfulAt c i (ns ++ ms) :=
  List.forall_mem_append.mpr ⟨h, k⟩

theorem LawfulAt.cons {c : Context} {i : Option Name} {n : Node} {ns : List Node}
    (h : (siteOf c i n).Lawful) (k : LawfulAt c i ns) : LawfulAt c i (n :: ns) :=
  List.forall_mem_cons.mpr ⟨h, k⟩

theorem LawfulAt.single {c : Context} {i : Option Name} {n : Node}
    (h : (siteOf c i n).Lawful) : LawfulAt c i [n] := .cons h (by simp [LawfulAt])

mutual

theorem expr_lawful {i : Option Name} : ∀ (e : Expr Unit) (c : Context), Settled i c → e.Plain →
    (expr e c).issues = [] → LawfulAt c i (expr e c).value.nodes
  | .literal _ _, c, _, _, _ => .single trivial
  | .var _ _, c, settled, _, quiet => .single (lawful_var settled quiet)
  | .receiver pos _, c, settled, _, quiet =>
      .single (lawful_receiver settled (by simpa [expr] using quiet))
  | .inherited pos method _, c, settled, _, quiet =>
      .single (lawful_inherited settled (by simpa [expr] using quiet))
  | .grouping _ inner, c, settled, plain, quiet =>
      .cons trivial (expr_lawful inner c settled plain (by simpa [expr] using quiet))
  | .assign name value _, c, settled, plain, quiet => by
      have within := expr_lawful value c settled plain.2 (by simpa [expr] using quiet)
      have stored := lawful_store settled plain.1
      have address : (locate name.text (expr value c).context).value =
          Scopes.locate c.scopes name.text := by rw [value_locate, expr_scopes]
      rw [← address] at stored
      exact .cons trivial (within.append (.single stored))
  | .unary _ _ operand, c, settled, plain, quiet =>
      .cons trivial (expr_lawful operand c settled plain (by simpa [expr] using quiet))
  | .binary left _ _ right, c, settled, plain, quiet => by
      obtain ⟨quiet₁, quiet₂⟩ : (expr left c).issues = [] ∧
        (expr right (expr left c).context).issues = [] := by simpa [expr] using quiet
      have kept := expr_keeps left c
      have first := expr_lawful left c settled plain.1 quiet₁
      have second := expr_lawful right _ (settled.keep kept) plain.2 quiet₂
      exact .cons trivial (first.append (second.keep kept))
  | .logical left _ _ right, c, settled, plain, quiet => by
      obtain ⟨quiet₁, quiet₂⟩ : (expr left c).issues = [] ∧
        (expr right (expr left c).context).issues = [] := by simpa [expr] using quiet
      have kept := expr_keeps left c
      have first := expr_lawful left c settled plain.1 quiet₁
      have second := expr_lawful right _ (settled.keep kept) plain.2 quiet₂
      exact .cons trivial (first.append (second.keep kept))
  | .conditional condition thenBranch elseBranch, c, settled, plain, quiet => by
      obtain ⟨quiet₁, quiet₂, quiet₃⟩ : (expr condition c).issues = [] ∧
        (expr thenBranch (expr condition c).context).issues = [] ∧
        (expr elseBranch (expr thenBranch (expr condition c).context).context).issues = [] := by
          simpa [expr] using quiet
      have kept := expr_keeps condition c
      have kept' := kept.trans (expr_keeps thenBranch _)
      have first := expr_lawful condition c settled plain.1 quiet₁
      have second := expr_lawful thenBranch _ (settled.keep kept) plain.2.1 quiet₂
      have third := expr_lawful elseBranch _ (settled.keep kept') plain.2.2 quiet₃
      exact .cons trivial (first.append ((second.keep kept).append (third.keep kept')))
  | .call callee _ arguments, c, settled, plain, quiet => by
      obtain ⟨quiet₁, quiet₂⟩ : (expr callee c).issues = [] ∧
        (exprs arguments (expr callee c).context).issues = [] := by simpa [expr] using quiet
      have kept := expr_keeps callee c
      have first := expr_lawful callee c settled plain.1 quiet₁
      have second := exprs_lawful arguments _ (settled.keep kept) plain.2 quiet₂
      exact .cons trivial (first.append (second.keep kept))
  | .member object _, c, settled, plain, quiet =>
      .cons trivial (expr_lawful object c settled plain (by simpa [expr] using quiet))
  | .assignMember object _ value, c, settled, plain, quiet => by
      obtain ⟨quiet₁, quiet₂⟩ : (expr value c).issues = [] ∧
        (expr object (expr value c).context).issues = [] := by simpa [expr] using quiet
      have kept := expr_keeps value c
      have first := expr_lawful value c settled plain.2 quiet₁
      have second := expr_lawful object _ (settled.keep kept) plain.1 quiet₂
      exact .cons trivial (first.append (second.keep kept))

theorem exprs_lawful {i : Option Name} : ∀ (es : List (Expr Unit)) (c : Context), Settled i c →
    plainAll es → (exprs es c).issues = [] → LawfulAt c i (nodesOfAll (exprs es c).value)
  | [], _, _, _, _ => by simp [exprs, nodesOfAll, LawfulAt]
  | e :: rest, c, settled, plain, quiet => by
      obtain ⟨quiet₁, quiet₂⟩ : (expr e c).issues = [] ∧
        (exprs rest (expr e c).context).issues = [] := by simpa [exprs] using quiet
      have kept := expr_keeps e c
      have first := expr_lawful e c settled plain.1 quiet₁
      have second := exprs_lawful rest _ (settled.keep kept) plain.2 quiet₂
      exact first.append (second.keep kept)

end

theorem expr_sites_lawful {i : Option Name} {e : Expr Unit} {c : Context} (settled : Settled i c)
    (plain : e.Plain) (quiet : (expr e c).issues = []) :
    ∀ σ ∈ (expr e c).value.sites c.scopes c.inRoutine i, σ.Lawful := by
  intro σ hσ
  obtain ⟨n, hn, rfl⟩ := List.mem_map.mp hσ
  exact expr_lawful e c settled plain quiet n hn

/-- A superclass is looked up among finished declarations, behind that of the class itself. -/
theorem superclass_lawful {name : Name} {p : Superclass Unit} {c : Context}
    (finished : Scopes.PendingOnly c.scopes none) (quiet : (superclass name p c).issues = []) :
    (siteOf c none (.superclass name (superclass name p c).value)).Lawful := by
  have other : p.name.text ≠ name.text := by
    intro same
    simp [superclass, same] at quiet
  rw [value_superclass]
  refine ⟨other, rfl, fun d hd => ?_⟩
  rcases finished.holds hd with held | ⟨-, n, hn, -⟩
  · exact held
  · cases hn

/-- A return that is not reported stands in a routine. -/
theorem inRoutine_of_quiet {pos : Pos} {value : Option (Expr Unit)} {c : Context}
    (quiet : (stmt (.ret pos value) c).issues = []) : c.inRoutine = true := by
  cases inside : c.inRoutine with
  | true => rfl
  | false => simp [stmt, inside] at quiet

@[simp] theorem params_routine (k : RoutineKind) (r : Routine Unit) (c : Context) :
    (routine k r c).value.params = r.params := by
  cases r
  rfl

theorem params_routines (rs : List (Routine Unit)) (c : Context) (plain : plainMethods rs) :
    ∀ r ∈ (routines rs c).value, ∀ p ∈ r.params, p.Ordinary := by
  induction rs generalizing c with
  | nil => simp [routines]
  | cons r rs ih =>
      have head : ∀ p ∈ r.params, p.Ordinary := by
        cases r
        exact plain.1.1
      simpa [routines] using ⟨head, ih (routine .method r c).context plain.2⟩

mutual

theorem stmt_lawful : ∀ (s : Stmt Unit) (c : Context), Settled none c → s.Plain →
    (stmt s c).issues = [] → ∀ σ ∈ (stmt s c).value.sites c.scopes c.inRoutine, σ.Lawful
  | .expression value, c, settled, plain, quiet =>
      List.forall_mem_cons.mpr
        ⟨trivial, expr_sites_lawful settled plain (by simpa [stmt] using quiet)⟩
  | .print _ value, c, settled, plain, quiet =>
      List.forall_mem_cons.mpr
        ⟨trivial, expr_sites_lawful settled plain (by simpa [stmt] using quiet)⟩
  | .var name none, c, _, plain, _ =>
      List.forall_mem_cons.mpr ⟨plain, fun _ none => absurd none List.not_mem_nil⟩
  | .var name (some value), c, settled, plain, quiet => by
      have within := expr_sites_lawful (settled.enter plain.1) plain.2
        (by simpa [stmt, optionalExpr, declare, define] using quiet)
      simp only [stmt, optionalExpr, value_bind, run_pure, declare, context_enter, Stmt.sites]
      exact List.forall_mem_cons.mpr ⟨plain.1, within⟩
  | .block _ body, c, settled, plain, quiet => by
      have within := stmts_lawful body _ settled.openLocal plain (by simpa [stmt] using quiet)
      exact List.forall_mem_cons.mpr ⟨trivial, within⟩
  | .ifThen line condition thenBranch, c, settled, plain, quiet => by
      obtain ⟨plain₁, binds, plain₂⟩ := plain
      obtain ⟨quiet₁, quiet₂⟩ : (expr condition c).issues = [] ∧
        (stmt thenBranch (expr condition c).context).issues = [] := by simpa [stmt] using quiet
      have kept := expr_keeps condition c
      have first := expr_sites_lawful settled plain₁ quiet₁
      have second := stmt_lawful thenBranch _ (settled.keep kept) plain₂ quiet₂
      simp only [expr_scopes, expr_inRoutine] at second
      have here : (stmtSite (.ifThen line condition thenBranch) c).Lawful :=
        (binds_stmt thenBranch _).trans binds
      exact List.forall_mem_cons.mpr ⟨here, List.forall_mem_append.mpr ⟨first, second⟩⟩
  | .ifElse line condition thenBranch elseBranch, c, settled, plain, quiet => by
      obtain ⟨plain₁, ⟨binds₁, plain₂⟩, binds₂, plain₃⟩ := plain
      obtain ⟨quiet₁, quiet₂, quiet₃⟩ : (expr condition c).issues = [] ∧
        (stmt thenBranch (expr condition c).context).issues = [] ∧
        (stmt elseBranch (stmt thenBranch (expr condition c).context).context).issues = [] := by
          simpa [stmt] using quiet
      have kept := expr_keeps condition c
      have kept' := stmt_keeps thenBranch (expr condition c).context plain₂
      rw [Scopes.extend_of_binds_none binds₁] at kept'
      have first := expr_sites_lawful settled plain₁ quiet₁
      have second := stmt_lawful thenBranch _ (settled.keep kept) plain₂ quiet₂
      have third := stmt_lawful elseBranch _ ((settled.keep kept).keep kept') plain₃ quiet₃
      simp only [kept'.scopes, kept'.inRoutine, inRoutine_mk, isSome_enclosing, expr_scopes,
        expr_inRoutine] at second third
      have here : (stmtSite (.ifElse line condition thenBranch elseBranch) c).Lawful :=
        ⟨(binds_stmt thenBranch _).trans binds₁, (binds_stmt elseBranch _).trans binds₂⟩
      exact List.forall_mem_cons.mpr ⟨here, List.forall_mem_append.mpr
        ⟨first, List.forall_mem_append.mpr ⟨second, third⟩⟩⟩
  | .loop line condition body, c, settled, plain, quiet => by
      obtain ⟨plain₁, binds, plain₂⟩ := plain
      obtain ⟨quiet₁, quiet₂⟩ : (expr condition c).issues = [] ∧
        (stmt body (expr condition c).context).issues = [] := by simpa [stmt] using quiet
      have kept := expr_keeps condition c
      have first := expr_sites_lawful settled plain₁ quiet₁
      have second := stmt_lawful body _ (settled.keep kept) plain₂ quiet₂
      simp only [expr_scopes, expr_inRoutine] at second
      have here : (stmtSite (.loop line condition body) c).Lawful := (binds_stmt body _).trans binds
      exact List.forall_mem_cons.mpr ⟨here, List.forall_mem_append.mpr ⟨first, second⟩⟩
  | .function declaration, c, settled, plain, quiet => by
      have within := routine_lawful .function declaration _ (settled.declare plain.1) plain.2
        (by simpa [stmt, declare, define, Scopes.declare] using quiet)
      have params : ∀ p ∈ declaration.params, p.Ordinary := by
        cases declaration
        exact plain.2.1
      have here : (stmtSite (.function declaration) c).Lawful := by
        simpa [stmtSite, siteOf, stmt, Site.Lawful] using ⟨plain.1, params⟩
      refine List.forall_mem_cons.mpr ⟨here, ?_⟩
      simpa [stmt, declare, define, Scopes.declare] using within
  | .classDecl name none methods, c, settled, plain, quiet => by
      have within := routines_lawful methods _ (settled.declare plain.1).methods plain.2
        (by simpa [stmt, declare, define, Scopes.declare] using quiet)
      have here : (stmtSite (.classDecl name none methods) c).Lawful :=
        ⟨plain.1, params_routines methods _ plain.2⟩
      refine List.forall_mem_cons.mpr ⟨here, ?_⟩
      simpa [stmt, declare, define, Scopes.declare] using within
  | .classDecl name (some parent) methods, c, settled, plain, quiet => by
      let d : Context := ⟨Scopes.declare c.scopes name.text, c.enclosing, .plainClass, c.resolved⟩
      let e : Context := { (superclass name parent d).context with
        scopes := receiverScope :: inheritedScope :: (superclass name parent d).context.scopes }
      have outer := settled.declare plain.1
      obtain ⟨quiet₁, quiet₂⟩ : (superclass name parent d).issues = [] ∧
        (routines methods e).issues = [] := by
          simpa [stmt, declare, define, Scopes.declare, d, e] using quiet
      have kept := keeps_superclass name parent d
      have around : e.scopes = receiverScope :: inheritedScope :: d.scopes :=
        congrArg (receiverScope :: inheritedScope :: ·) kept.scopes
      have inner : Settled none e :=
        outer.subclassMethods.keep ⟨around, kept.enclosing, kept.surrounding⟩
      have above := superclass_lawful (c := d) outer.pending quiet₁
      have within := routines_lawful methods e inner plain.2 quiet₂
      have here : (stmtSite (.classDecl name (some parent) methods) c).Lawful :=
        ⟨plain.1, params_routines methods _ plain.2⟩
      rw [around] at within
      refine List.forall_mem_cons.mpr ⟨here, ?_⟩
      simpa [stmt, declare, define, Scopes.declare, d, e, siteOf] using
        List.forall_mem_cons.mpr ⟨above, within⟩
  | .ret pos none, c, _, _, quiet => by
      have inside := inRoutine_of_quiet quiet
      rw [value_ret]
      exact List.forall_mem_cons.mpr ⟨inside, fun _ none => absurd none List.not_mem_nil⟩
  | .ret pos (some value), c, settled, plain, quiet => by
      have inside := inRoutine_of_quiet quiet
      have within := expr_sites_lawful settled plain
        (by simpa [stmt, inside, optionalExpr] using quiet)
      rw [value_ret]
      exact List.forall_mem_cons.mpr ⟨inside, within⟩

theorem stmts_lawful : ∀ (ss : List (Stmt Unit)) (c : Context), Settled none c → plainBody ss →
    (stmts ss c).issues = [] → ∀ σ ∈ sitesOfAll c.scopes c.inRoutine (stmts ss c).value, σ.Lawful
  | [], c, _, _, _ => by simp [stmts, sitesOfAll]
  | s :: rest, c, settled, plain, quiet => by
      obtain ⟨quiet₁, quiet₂⟩ : (stmt s c).issues = [] ∧
        (stmts rest (stmt s c).context).issues = [] := by simpa [stmts] using quiet
      have kept := stmt_keeps s c plain.1
      have first := stmt_lawful s c settled plain.1 quiet₁
      have second := stmts_lawful rest _ ((settled.extend plain.1).keep kept) plain.2 quiet₂
      simp only [kept.scopes, kept.inRoutine, inRoutine_mk, isSome_enclosing] at second
      simp only [stmts, value_bind, run_pure, sitesOfAll, extend_stmt]
      exact List.forall_mem_append.mpr ⟨first, second⟩

theorem routine_lawful : ∀ (k : RoutineKind) (r : Routine Unit) (c : Context), Settled none c →
    r.Plain → (routine k r c).issues = [] →
    ∀ σ ∈ (routine k r c).value.sites c.scopes, σ.Lawful
  | k, .mk _ params body, c, settled, plain, quiet => by
      have within := stmts_lawful body _ (settled.parameters plain.1 k) plain.2
        (by simpa [routine, context_defineAll, Scopes.parameters] using quiet)
      simpa [routine, Routine.sites, context_defineAll, Scopes.parameters] using within

theorem routines_lawful : ∀ (rs : List (Routine Unit)) (c : Context), Settled none c →
    plainMethods rs → (routines rs c).issues = [] →
    ∀ σ ∈ sitesOfMethods c.scopes (routines rs c).value, σ.Lawful
  | [], c, _, _, _ => by simp [routines, sitesOfMethods]
  | r :: rest, c, settled, plain, quiet => by
      obtain ⟨quiet₁, quiet₂⟩ : (routine .method r c).issues = [] ∧
        (routines rest (routine .method r c).context).issues = [] := by
          simpa [routines] using quiet
      have kept := routine_keeps .method r c plain.1
      have first := routine_lawful .method r c settled plain.1 quiet₁
      have second := routines_lawful rest _ (settled.keep kept) plain.2 quiet₂
      rw [kept.scopes] at second
      exact List.forall_mem_append.mpr ⟨first, second⟩

end

end Walk
end LoxLang
