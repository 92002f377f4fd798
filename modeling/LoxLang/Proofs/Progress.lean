import LoxLang.Proofs.Naming
import LoxLang.Tree.Statement
/-! Rules for readings, whatever they report: a reading takes tokens from the front, also where
it is abandoned, and what it yields is made of these tokens. -/
namespace LoxLang
namespace Reading
variable {α β : Type}

/-- From these tokens on, an outcome has left the tokens at the end, and its value, if it has
one, is as `D` says of the tokens before them. -/
def Outcome.Consumed (o : Outcome α) (ts : List Token) (D : α → List Token → Prop) : Prop :=
  ∃ used, ts = used ++ o.rest ∧ ∀ a, o.value? = some a → D a used

def Consumes (x : Reading α) (D : α → List Token → Prop) : Prop := ∀ ts, (x ts).Consumed ts D

namespace Outcome.Consumed
variable {o : Outcome α} {ts : List Token} {D E : α → List Token → Prop}

theorem cons {t : Token} (consumed : o.Consumed ts fun a used => D a (t :: used)) :
    o.Consumed (t :: ts) D := by
  obtain ⟨used, split, d⟩ := consumed
  exact ⟨t :: used, congrArg (t :: ·) split, d⟩

theorem imp (consumed : o.Consumed ts D) (imp : ∀ a used, D a used → E a used) :
    o.Consumed ts E := by
  obtain ⟨used, split, d⟩ := consumed
  exact ⟨used, split, fun a value => imp a used (d a value)⟩

theorem nothing {a : α} {issues : List Issue} (d : D a []) :
    Outcome.Consumed ⟨some a, ts, issues⟩ ts D := by
  refine ⟨[], rfl, ?_⟩
  rintro _ ⟨⟩
  exact d

theorem one {a : α} {t : Token} (d : D a [t]) : Outcome.Consumed ⟨some a, ts, []⟩ (t :: ts) D :=
  cons (nothing d)

theorem fail {cause : SyntaxError} : (Reading.fail cause ts : Outcome α).Consumed ts D := by
  refine ⟨[], rfl, ?_⟩
  rintro _ ⟨⟩

/-- Where the tokens of a value are some, fewer are left. -/
theorem length_lt (consumed : o.Consumed ts D) (some : ∀ a used, D a used → used ≠ []) {a : α}
    (value : o.value? = .some a) : o.rest.length < ts.length := by
  obtain ⟨used, split, d⟩ := consumed
  have taken := List.length_pos_iff.mpr (some a used (d a value))
  rw [split, List.length_append]
  exact Nat.lt_add_of_pos_left taken

end Outcome.Consumed

namespace Consumes
variable {D : α → List Token → Prop} {E : β → List Token → Prop}

theorem imp {D' : α → List Token → Prop} {x : Reading α} (consumes : Consumes x D)
    (imp : ∀ a used, D a used → D' a used) : Consumes x D' := fun ts => (consumes ts).imp imp

theorem pure {a : α} (d : D a []) : Consumes (Pure.pure a : Reading α) D := fun _ => .nothing d

theorem fail {cause : SyntaxError} : Consumes (Reading.fail cause : Reading α) D := fun _ => .fail

theorem reportAt {site : Option Token} {cause : SyntaxError} {D : Unit → List Token → Prop}
    (d : D () []) : Consumes (Reading.reportAt site cause) D := fun _ => .nothing d

theorem report {cause : SyntaxError} {D : Unit → List Token → Prop} (d : D () []) :
    Consumes (Reading.report cause) D := fun _ => .nothing d

theorem bind {x : Reading α} {f : α → Reading β} (first : Consumes x D)
    (second : ∀ a used, D a used → Consumes (f a) fun b more => E b (used ++ more)) :
    Consumes (x >>= f) E := by
  intro ts
  obtain ⟨used, split, d⟩ := first ts
  cases value : (x ts).value? with
  | none =>
      refine ⟨used, ?_, ?_⟩
      · simpa only [Bind.bind, value] using split
      · intro b there
        simp only [Bind.bind, value] at there
        cases there
  | some a =>
      obtain ⟨more, split', e⟩ := second a used (d a value) (x ts).rest
      refine ⟨used ++ more, ?_, ?_⟩
      · simp only [Bind.bind, value]
        rw [List.append_assoc, ← split', ← split]
      · intro b there
        simp only [Bind.bind, value] at there
        exact e b there

theorem map {x : Reading α} {g : α → β} (consumes : Consumes x fun a used => E (g a) used) :
    Consumes (g <$> x) E :=
  consumes.bind fun a used e => pure (by rwa [List.append_nil])

theorem nextIs {kind : Kind} {E : Bool → List Token → Prop} (e : ∀ b, E b []) :
    Consumes (Reading.nextIs kind) E := fun _ => .nothing (e _)

theorem acceptWith? {choice : Kind → Option α} : Consumes (Reading.acceptWith? choice)
    fun o used => used = (o.map Prod.snd).toList := by
  intro ts
  cases ts with
  | nil => exact .nothing rfl
  | cons t ts =>
      cases found : choice t.kind with
      | none =>
          simp only [Reading.acceptWith?, found]
          exact .nothing rfl
      | some a =>
          simp only [Reading.acceptWith?, found]
          exact .one rfl

theorem accept? {kind : Kind} : Consumes (Reading.accept? kind) fun o used => used = o.toList := by
  intro ts
  cases ts with
  | nil => exact .nothing rfl
  | cons t ts =>
      by_cases same : t.kind = kind
      · simp only [Reading.accept?, if_pos same]
        exact .one rfl
      · simp only [Reading.accept?, if_neg same]
        exact .nothing rfl

theorem expect {kind : Kind} {cause : SyntaxError} :
    Consumes (Reading.expect kind cause) fun t used => used = [t] ∧ t.kind = kind := by
  intro ts
  cases ts with
  | nil => exact .fail
  | cons t ts =>
      by_cases same : t.kind = kind
      · simp only [Reading.expect, if_pos same]
        exact .one ⟨rfl, same⟩
      · simp only [Reading.expect, if_neg same]
        exact .fail

/-- A name is drawn from its own token. -/
theorem expectName {cause : SyntaxError} :
    Consumes (Reading.expectName cause) fun n used => used ≠ [] ∧ Drawn [n] used := by
  refine expect.bind ?_
  rintro t _ ⟨rfl, same⟩
  exact pure ⟨List.cons_ne_nil _ _, Drawn.name same⟩

theorem untilBrace {item : Reading α} (consumes : Consumes item D)
    {E : List α → List Token → Prop} (nil : E [] [])
    (cons : ∀ a as used more, D a used → E as more → E (a :: as) (used ++ more)) (n : Nat) :
    Consumes (Reading.untilBrace item n) E := by
  induction n with
  | zero => exact pure nil
  | succ n ih =>
      intro ts
      simp only [Reading.untilBrace]
      split
      · exact .nothing nil
      · exact (consumes.bind fun a used d => ih.bind fun as more e =>
          pure (by simpa only [List.append_nil] using cons a as used more d e)) ts

theorem untilEnd {item : Reading α} (consumes : Consumes item D)
    {E : List α → List Token → Prop} (nil : E [] [])
    (cons : ∀ a as used more, D a used → E as more → E (a :: as) (used ++ more)) (n : Nat) :
    Consumes (Reading.untilEnd item n) E := by
  induction n with
  | zero => exact pure nil
  | succ n ih =>
      intro ts
      simp only [Reading.untilEnd]
      split
      · exact .nothing nil
      · exact (consumes.bind fun a used d => ih.bind fun as more e =>
          pure (by simpa only [List.append_nil] using cons a as used more d e)) ts

theorem entry {tooMany : SyntaxError} {item : Reading α} {count : Nat}
    (consumes : Consumes item D) : Consumes (Reading.entry tooMany item count) D := by
  by_cases full : maxEntries ≤ count
  · simp only [Reading.entry, if_pos full]
    refine (report (D := fun _ used => used = []) rfl).bind ?_
    rintro _ _ rfl
    exact consumes
  · simpa only [Reading.entry, if_neg full] using consumes

theorem entries {tooMany : SyntaxError} {item : Reading α} (consumes : Consumes item D)
    {E : List α → List Token → Prop} (single : ∀ a used, D a used → E [a] used)
    (cons : ∀ a as used t more, D a used → E as more → E (a :: as) (used ++ t :: more)) (n : Nat) :
    ∀ count, Consumes (Reading.entries tooMany item n count) E := by
  induction n with
  | zero =>
      intro count
      refine consumes.entry.bind fun a used d => pure ?_
      rw [List.append_nil]
      exact single a used d
  | succ n ih =>
      intro count
      refine consumes.entry.bind fun a used d => accept?.bind ?_
      rintro o _ rfl
      cases o with
      | none =>
          apply pure
          simp only [Option.toList_none, List.append_nil]
          exact single a used d
      | some t =>
          refine (ih (count + 1)).bind fun as more e => pure ?_
          simpa using cons a as used t more d e

end Consumes

/-! Where a reading is abandoned. -/

theorem resumeAfter_suffix (previous : Token) (ts : List Token) : resumeAfter previous ts <:+ ts := by
  induction ts generalizing previous with
  | nil => exact List.suffix_refl _
  | cons t ts ih =>
      simp only [resumeAfter]
      split
      · exact List.suffix_refl _
      · exact (ih t).trans (List.suffix_cons t ts)

/-- Some tokens are skipped, unless there are none. -/
theorem resume_cons (t : Token) (ts : List Token) : resume (t :: ts) <:+ ts :=
  resumeAfter_suffix t ts

theorem resume_suffix (ts : List Token) : resume ts <:+ ts := by
  cases ts with
  | nil => exact List.suffix_refl _
  | cons t ts => exact (resume_cons t ts).trans (List.suffix_cons t ts)

/-- A reading that is recovered is never abandoned. -/
theorem Consumes.recover {x : Reading α} {D : α → List Token → Prop} (consumes : Consumes x D) :
    Consumes (Reading.recover x) fun o used => ∀ a, o = some a → D a used := by
  intro ts
  obtain ⟨used, split, d⟩ := consumes ts
  cases value : (x ts).value? with
  | none =>
      simp only [Reading.recover, value]
      obtain ⟨skipped, rest⟩ := resume_suffix (x ts).rest
      refine ⟨used ++ skipped, ?_, ?_⟩
      · rw [List.append_assoc, rest, ← split]
      · rintro _ ⟨⟩ a ⟨⟩
  | some a =>
      simp only [Reading.recover, value]
      refine ⟨used, split, ?_⟩
      rintro _ ⟨⟩ _ ⟨⟩
      exact d a value

/-- A reading that takes a token with each value takes one or skips one. -/
theorem recover_taken {x : Reading α} {D : α → List Token → Prop} (consumes : Consumes x D)
    (some : ∀ a used, D a used → used ≠ []) (t : Token) (ts : List Token) :
    ∃ used, used ≠ [] ∧ t :: ts = used ++ (Reading.recover x (t :: ts)).rest := by
  obtain ⟨used, split, d⟩ := consumes (t :: ts)
  cases value : (x (t :: ts)).value? with
  | none =>
      simp only [Reading.recover, value]
      cases left : (x (t :: ts)).rest with
      | nil =>
          refine ⟨t :: ts, List.cons_ne_nil t ts, ?_⟩
          rw [resume, List.append_nil]
      | cons u us =>
          obtain ⟨skipped, rest⟩ := resume_cons u us
          refine ⟨used ++ u :: skipped, by simp, ?_⟩
          rw [List.append_assoc, List.cons_append, rest, ← left, ← split]
  | some a =>
      simp only [Reading.recover, value]
      exact ⟨used, some a used (d a value), split⟩

end Reading
end LoxLang
