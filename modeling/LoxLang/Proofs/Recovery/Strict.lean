import LoxLang.Proofs.Recovery.Blame
/-! Readings that never recover: what cannot be read ends them, at any depth. Where the parser
reports nothing it reads like this, so nothing has been skipped and nothing dropped. -/
namespace LoxLang
namespace Reading
variable {α β : Type}

mutual

def strictStatement : Nat → Reading RawStmt
  | 0 => fail .expression
  | n + 1 => statementLevel (n + 1) (strictStatement n) (some <$> strictDeclaration n)

def strictDeclaration : Nat → Reading RawStmt
  | 0 => fail .expression
  | n + 1 => declarationLevel (n + 1) (strictStatement n) (some <$> strictDeclaration n)

end

/-- The statements of a program, each of them read to its end. -/
def strictProgram (budget : Nat) : Reading (List RawStmt) :=
  untilEnd (strictDeclaration budget) budget

/-- Where the first reading reports nothing, the second one comes to the same. -/
def Quietly (x y : Reading α) : Prop := ∀ ts, (x ts).issues = [] → y ts = x ts

namespace Quietly
variable {x y : Reading α} {f g : α → Reading β}

theorem refl (x : Reading α) : Quietly x x := fun _ _ => rfl

theorem bind (first : Quietly x y) (second : ∀ a, Quietly (f a) (g a)) :
    Quietly (x >>= f) (y >>= g) := by
  intro ts quiet
  cases value : (x ts).value? with
  | none =>
      simp only [Bind.bind, value] at quiet
      simp only [Bind.bind, first ts quiet, value]
  | some a =>
      simp only [Bind.bind, value] at quiet
      obtain ⟨here, behind⟩ := List.append_eq_nil_iff.mp quiet
      simp only [Bind.bind, first ts here, value, second a _ behind]

/-- Both readings begin alike. -/
theorem behind (x : Reading α) (second : ∀ a, Quietly (f a) (g a)) :
    Quietly (x >>= f) (x >>= g) := (refl x).bind second

theorem bind_pure {k : α → β} (quietly : Quietly x y) :
    Quietly (x >>= fun a => Pure.pure (k a)) (y >>= fun a => Pure.pure (k a)) :=
  quietly.bind fun a => refl (Pure.pure (k a))

theorem map {k : α → β} (quietly : Quietly x y) : Quietly (k <$> x) (k <$> y) := quietly.bind_pure

/-- An abandoned reading has reported something, so it need not be recovered here. -/
theorem recover (blames : Blames x) (quietly : Quietly x y) :
    Quietly (Reading.recover x) (some <$> y) := by
  intro ts quiet
  cases value : (x ts).value? with
  | none =>
      simp only [Reading.recover, value] at quiet
      obtain ⟨before, cause, issues⟩ := blames ts value
      simp [quiet] at issues
  | some a =>
      simp only [Reading.recover, value] at quiet ⊢
      simp [Functor.map, quietly ts quiet, value, quiet, Function.comp]

theorem untilBrace (quietly : Quietly x y) (n : Nat) :
    Quietly (Reading.untilBrace x n) (Reading.untilBrace y n) := by
  induction n with
  | zero => exact refl _
  | succ n ih =>
      intro ts quiet
      simp only [Reading.untilBrace] at quiet ⊢
      split
      · rfl
      · next more =>
          rw [if_neg more] at quiet
          exact (quietly.bind fun _ => ih.bind_pure) ts quiet

theorem untilEnd (quietly : Quietly x y) (n : Nat) :
    Quietly (Reading.untilEnd x n) (Reading.untilEnd y n) := by
  induction n with
  | zero => exact refl _
  | succ n ih =>
      intro ts quiet
      simp only [Reading.untilEnd] at quiet ⊢
      split
      · rfl
      · next more =>
          rw [if_neg more] at quiet
          exact (quietly.bind fun _ => ih.bind_pure) ts quiet

end Quietly

section
variable {budget : Nat} {statement statement' : Reading RawStmt}
  {declaration declaration' : Reading (Option RawStmt)}

theorem quietly_forLoop (quietly : Quietly statement statement') (line : Nat) :
    Quietly (forLoop budget statement line) (forLoop budget statement' line) :=
  .behind _ fun _ => .behind _ fun _ => .behind _ fun _ => .behind _ fun _ => .behind _ fun _ =>
    .behind _ fun _ => quietly.bind_pure

theorem quietly_ifStatement (quietly : Quietly statement statement') (line : Nat) :
    Quietly (ifStatement budget statement line) (ifStatement budget statement' line) := by
  refine .behind _ fun _ => .behind _ fun _ => .behind _ fun _ => quietly.bind fun _ =>
    .behind _ fun word => ?_
  cases word with
  | none => exact .refl _
  | some _ => exact quietly.bind_pure

theorem quietly_whileStatement (quietly : Quietly statement statement') (line : Nat) :
    Quietly (whileStatement budget statement line) (whileStatement budget statement' line) :=
  .behind _ fun _ => .behind _ fun _ => .behind _ fun _ => quietly.bind_pure

theorem quietly_block (quietly : Quietly declaration declaration') :
    Quietly (block budget declaration) (block budget declaration') :=
  (quietly.untilBrace budget).bind fun _ => .refl _

theorem quietly_routine (quietly : Quietly declaration declaration') (kind : RoutineKind) :
    Quietly (routine budget declaration kind) (routine budget declaration' kind) := by
  have behind (x : Reading (List Name)) (name : Name) :
      Quietly
        (do
          let params ← x
          let _ ← expect .rightParen .parametersEnd
          let _ ← expect .leftBrace (.routineBodyStart kind)
          let body ← block budget declaration
          Pure.pure (Routine.mk name params body))
        (do
          let params ← x
          let _ ← expect .rightParen .parametersEnd
          let _ ← expect .leftBrace (.routineBodyStart kind)
          let body ← block budget declaration'
          Pure.pure (Routine.mk name params body)) :=
    .behind _ fun _ => .behind _ fun _ => .behind _ fun _ => (quietly_block quietly).bind_pure
  refine .behind _ fun name => .behind _ fun _ => .behind _ fun close => ?_
  cases close with
  | true => exact behind (Pure.pure []) name
  | false => exact behind _ name

theorem quietly_classDeclaration (quietly : Quietly declaration declaration') :
    Quietly (classDeclaration budget declaration) (classDeclaration budget declaration') :=
  .behind _ fun _ => .behind _ fun _ => .behind _ fun _ =>
    ((quietly_routine quietly .method).untilBrace budget).bind fun _ => .refl _

theorem quietly_statementLevel (statements : Quietly statement statement')
    (declarations : Quietly declaration declaration') :
    Quietly (statementLevel budget statement declaration)
      (statementLevel budget statement' declaration') := by
  intro ts quiet
  unfold statementLevel at quiet ⊢
  split
  · rfl
  · split <;> simp only [*] at quiet
    · exact quietly_forLoop statements _ _ quiet
    · exact quietly_ifStatement statements _ _ quiet
    · rfl
    · rfl
    · exact quietly_whileStatement statements _ _ quiet
    · exact (quietly_block declarations).map _ quiet
    · rfl

theorem quietly_declarationLevel (statements : Quietly statement statement')
    (declarations : Quietly declaration declaration') :
    Quietly (declarationLevel budget statement declaration)
      (declarationLevel budget statement' declaration') := by
  intro ts quiet
  unfold declarationLevel at quiet ⊢
  split
  · exact quietly_statementLevel statements declarations [] quiet
  · split <;> simp only [*] at quiet
    · exact quietly_classDeclaration declarations _ quiet
    · exact (quietly_routine declarations .function).map _ quiet
    · rfl
    · exact quietly_statementLevel statements declarations _ quiet

end

theorem quietly_statement_declaration (n : Nat) :
    Quietly (statement n) (strictStatement n) ∧
      Quietly (declaration n) (some <$> strictDeclaration n) := by
  induction n with
  | zero => exact ⟨.refl _, .recover .fail (.refl _)⟩
  | succ n ih =>
      obtain ⟨blames, blames'⟩ := blames_statement_declaration n
      exact ⟨quietly_statementLevel ih.1 ih.2, .recover (blames_declarationLevel blames blames')
        (quietly_declarationLevel ih.1 ih.2)⟩

end Reading
end LoxLang
