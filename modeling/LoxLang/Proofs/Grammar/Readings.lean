import LoxLang.Proofs.Addressing
import LoxLang.Proofs.Grammar
/-! Rules for readings: what a reading that reports nothing has taken from the tokens, and what
it made of that. -/
namespace LoxLang

/-- Identifiers among the tokens are no reserved names. -/
def Named (used : List Token) : Prop :=
  ∀ t ∈ used, t.kind = .identifier → t.lexeme ≠ "this" ∧ t.lexeme ≠ "super"

/-- The identifier that a token spells. -/
def Token.name (t : Token) : Name := ⟨t.lexeme, t.pos⟩

/-- The kinds of tokens. -/
def kinds (used : List Token) : List Kind := used.map Token.kind

@[simp] theorem kinds_nil : kinds [] = [] := rfl

@[simp] theorem kinds_cons (t : Token) (used : List Token) :
    kinds (t :: used) = t.kind :: kinds used := rfl

@[simp] theorem kinds_append (used more : List Token) :
    kinds (used ++ more) = kinds used ++ kinds more := List.map_append

@[simp] theorem named_append {used more : List Token} :
    Named (used ++ more) ↔ Named used ∧ Named more := List.forall_mem_append

@[simp] theorem named_cons {t : Token} {used : List Token} : Named (t :: used) ↔
    (t.kind = .identifier → t.lexeme ≠ "this" ∧ t.lexeme ≠ "super") ∧ Named used :=
  List.forall_mem_cons

/-- Lists of tokens with a comma between each two. -/
inductive Joined : List (List Token) → List Token → Prop
  | none : Joined [] []
  | one (us : List Token) : Joined [us] us
  | more {us vs : List Token} {t : Token} {others : List (List Token)} :
    t.kind = .comma → others ≠ [] → Joined others vs → Joined (us :: others) (us ++ t :: vs)

namespace Joined
variable {list : List (List Token)} {used : List Token}

theorem kinds (joined : Joined list used) :
    LoxLang.kinds used = [Kind.comma].intercalate (list.map LoxLang.kinds) := by
  induction joined with
  | none => rfl
  | one us => simp
  | more same some _ ih => simp [same, ih, List.intercalate_cons_of_ne_nil, some]

theorem mem (joined : Joined list used) : ∀ us ∈ list, ∀ t ∈ us, t ∈ used := by
  induction joined with
  | none => simp
  | one us => simp
  | @more us vs t others _ _ _ ih =>
      intro ws member v inside
      rcases List.mem_cons.mp member with rfl | later
      · exact List.mem_append_left _ inside
      · exact List.mem_append_right _ (List.mem_cons_of_mem _ (ih ws later v inside))

theorem first {us : List Token} (joined : Joined (us :: list) used) : ∃ more, used = us ++ more := by
  generalize whole : us :: list = all at joined
  cases joined with
  | none => cases whole
  | one vs =>
      cases whole
      exact ⟨[], by simp⟩
  | more =>
      cases whole
      exact ⟨_, rfl⟩

end Joined

namespace Reading
variable {α β : Type}

/-- From these tokens on, an outcome without issues has a value and has taken tokens from the
front, both as `D` says. -/
def Outcome.Took (o : Outcome α) (ts : List Token) (D : α → List Token → Prop) : Prop :=
  o.issues = [] → ∃ a used, o.value? = some a ∧ ts = used ++ o.rest ∧ D a used

/-- Whatever the tokens are, a reading without issues takes what `D` says. -/
def Takes (x : Reading α) (D : α → List Token → Prop) : Prop := ∀ ts, (x ts).Took ts D

theorem Outcome.Took.cons {o : Outcome α} {t : Token} {ts : List Token}
    {D : α → List Token → Prop} (took : o.Took ts fun a used => D a (t :: used)) :
    o.Took (t :: ts) D := by
  intro quiet
  obtain ⟨a, used, value, split, d⟩ := took quiet
  exact ⟨a, t :: used, value, congrArg (t :: ·) split, d⟩

theorem Outcome.Took.imp {o : Outcome α} {ts : List Token} {D E : α → List Token → Prop}
    (took : o.Took ts D) (imp : ∀ a used, D a used → E a used) : o.Took ts E := by
  intro quiet
  obtain ⟨a, used, value, split, d⟩ := took quiet
  exact ⟨a, used, value, split, imp a used d⟩

/-- An outcome that takes nothing. -/
theorem Outcome.took_nothing {a : α} {ts : List Token} {D : α → List Token → Prop} (d : D a []) :
    Outcome.Took ⟨some a, ts, []⟩ ts D := fun _ => ⟨a, [], rfl, rfl, d⟩

/-- An outcome that takes one token. -/
theorem Outcome.took_one {a : α} {t : Token} {ts : List Token} {D : α → List Token → Prop}
    (d : D a [t]) : Outcome.Took ⟨some a, ts, []⟩ (t :: ts) D := fun _ => ⟨a, [t], rfl, rfl, d⟩

/-- A reading that fails reports so. -/
theorem took_fail {cause : SyntaxError} {ts us : List Token} {D : α → List Token → Prop} :
    (fail cause us : Outcome α).Took ts D := fun quiet => absurd quiet (by simp [fail])

theorem bind_run (x : Reading α) (f : α → Reading β) (ts : List Token) {a : α}
    (value : (x ts).value? = some a) : (x >>= f) ts =
      ⟨(f a (x ts).rest).value?, (f a (x ts).rest).rest,
        (x ts).issues ++ (f a (x ts).rest).issues⟩ := by
  simp only [bind, value]

theorem bind_pure_run (x : Reading α) (g : α → β) (ts : List Token) :
    (x >>= fun a => pure (g a)) ts = ⟨(x ts).value?.map g, (x ts).rest, (x ts).issues⟩ := by
  simp only [bind]
  cases (x ts).value? <;> simp [pure]

/-- What a reading leaves, where it has a value, stands to that value as `L` says. -/
def Leaves (x : Reading α) (L : α → List Token → Prop) : Prop :=
  ∀ ts a, (x ts).value? = some a → L a (x ts).rest

namespace Takes
variable {D : α → List Token → Prop} {E : β → List Token → Prop}

theorem imp {D' : α → List Token → Prop} {x : Reading α} (takes : Takes x D)
    (imp : ∀ a used, D a used → D' a used) : Takes x D' := fun ts => (takes ts).imp imp

theorem pure {a : α} (d : D a []) : Takes (Pure.pure a : Reading α) D := fun _ =>
  Outcome.took_nothing d

theorem fail {cause : SyntaxError} : Takes (Reading.fail cause : Reading α) D := fun _ => took_fail

/-- What follows may rely on what the first reading leaves. -/
theorem bind_leaves {x : Reading α} {f : α → Reading β} {L : α → List Token → Prop}
    (first : Takes x D) (leaves : Leaves x L) (second : ∀ a used ts, D a used → L a ts →
      (f a ts).Took ts fun b more => E b (used ++ more)) : Takes (x >>= f) E := by
  intro ts quiet
  cases value : (x ts).value? with
  | none =>
      have issues : ((x >>= f) ts).issues = (x ts).issues := by simp only [Bind.bind, value]
      rw [issues] at quiet
      obtain ⟨a, _, some, -⟩ := first ts quiet
      rw [value] at some
      cases some
  | some a =>
      rw [bind_run x f ts value] at quiet ⊢
      obtain ⟨quiet₁, quiet₂⟩ := List.append_eq_nil_iff.mp quiet
      obtain ⟨a', used, value', split, d⟩ := first ts quiet₁
      cases value.symm.trans value'
      obtain ⟨b, more, some, split', e⟩ := second a used _ d (leaves ts a value) quiet₂
      refine ⟨b, used ++ more, some, ?_, e⟩
      rw [List.append_assoc, ← split', ← split]

theorem bind {x : Reading α} {f : α → Reading β} (first : Takes x D)
    (second : ∀ a used, D a used → Takes (f a) fun b more => E b (used ++ more)) :
    Takes (x >>= f) E :=
  first.bind_leaves (L := fun _ _ => True) (fun _ _ _ => trivial) fun a used ts d _ =>
    second a used d ts

theorem map {x : Reading α} {g : α → β} (takes : Takes x fun a used => E (g a) used) :
    Takes (g <$> x) E :=
  takes.bind fun a used e => pure (by rwa [List.append_nil])

theorem nextIs {kind : Kind} {E : Bool → List Token → Prop} (e : ∀ b, E b []) :
    Takes (Reading.nextIs kind) E := fun _ => Outcome.took_nothing (e _)

theorem acceptWith? {choice : Kind → Option α} : Takes (Reading.acceptWith? choice) fun o used =>
    match o with
    | none => used = []
    | some (a, t) => used = [t] ∧ choice t.kind = some a := by
  intro ts
  cases ts with
  | nil => exact Outcome.took_nothing rfl
  | cons t ts =>
      cases found : choice t.kind with
      | none =>
          simp only [Reading.acceptWith?, found]
          exact Outcome.took_nothing rfl
      | some a =>
          simp only [Reading.acceptWith?, found]
          exact Outcome.took_one ⟨rfl, found⟩

theorem accept? {kind : Kind} : Takes (Reading.accept? kind) fun o used =>
    match o with
    | none => used = []
    | some t => used = [t] ∧ t.kind = kind := by
  intro ts
  cases ts with
  | nil => exact Outcome.took_nothing rfl
  | cons t ts =>
      by_cases same : t.kind = kind
      · simp only [Reading.accept?, if_pos same]
        exact Outcome.took_one ⟨rfl, same⟩
      · simp only [Reading.accept?, if_neg same]
        exact Outcome.took_nothing rfl

theorem expect {kind : Kind} {cause : SyntaxError} :
    Takes (Reading.expect kind cause) fun t used => used = [t] ∧ t.kind = kind := by
  intro ts
  cases ts with
  | nil => exact took_fail
  | cons t ts =>
      by_cases same : t.kind = kind
      · simp only [Reading.expect, if_pos same]
        exact Outcome.took_one ⟨rfl, same⟩
      · simp only [Reading.expect, if_neg same]
        exact took_fail

/-- A name is taken from one token. -/
theorem name {cause : SyntaxError} : Takes (Reading.expectName cause) fun n used =>
    ∃ t, used = [t] ∧ t.kind = .identifier ∧ n = t.name := by
  refine expect.bind ?_
  rintro t _ ⟨rfl, same⟩
  exact pure ⟨t, rfl, same, rfl⟩

theorem expectName {cause : SyntaxError} : Takes (Reading.expectName cause) fun n used =>
    kinds used = [.identifier] ∧ (Named used → n.Ordinary) := by
  refine name.imp ?_
  rintro _ _ ⟨t, rfl, same, rfl⟩
  exact ⟨by simp [same], fun named => (named_cons.mp named).1 same⟩

/-- Where a reading stands between others, the tokens that it takes stand between theirs. -/
theorem untilBrace {item : Reading α} (takes : Takes item D) {E : List α → List Token → Prop}
    (nil : E [] []) (cons : ∀ a as used more, D a used → E as more → E (a :: as) (used ++ more))
    (n : Nat) : Takes (Reading.untilBrace item n) E := by
  induction n with
  | zero => exact pure nil
  | succ n ih =>
      intro ts
      simp only [Reading.untilBrace]
      split
      · exact Outcome.took_nothing nil
      · exact (takes.bind fun a used d => ih.bind fun as more e =>
          pure (by simpa only [List.append_nil] using cons a as used more d e)) ts

theorem untilEnd {item : Reading α} (takes : Takes item D) {E : List α → List Token → Prop}
    (nil : E [] []) (cons : ∀ a as used more, D a used → E as more → E (a :: as) (used ++ more))
    (n : Nat) : Takes (Reading.untilEnd item n) E := by
  induction n with
  | zero => exact pure nil
  | succ n ih =>
      intro ts
      simp only [Reading.untilEnd]
      split
      · exact Outcome.took_nothing nil
      · exact (takes.bind fun a used d => ih.bind fun as more e =>
          pure (by simpa only [List.append_nil] using cons a as used more d e)) ts

theorem entry {tooMany : SyntaxError} {item : Reading α} {count : Nat} (takes : Takes item D) :
    Takes (Reading.entry tooMany item count) fun a used => count < maxEntries ∧ D a used := by
  by_cases full : maxEntries ≤ count
  · intro ts quiet
    simp [Reading.entry, full, report, Bind.bind] at quiet
  · have same : Reading.entry tooMany item count = item := by
      simp only [Reading.entry, if_neg full]
    rw [same]
    exact takes.imp fun _ _ d => ⟨Nat.lt_of_not_le full, d⟩

end Takes

/-- Entries that are read stand with commas between them, no more than there is room for. -/
theorem Takes.entriesJoined {tooMany : SyntaxError} {item : Reading α} {D : α → List Token → Prop}
    (takes : Takes item D) (n : Nat) : ∀ count,
      Takes (Reading.entries tooMany item n count) fun as used =>
        ∃ parts : List (α × List Token), parts ≠ [] ∧ count + parts.length ≤ maxEntries ∧
          as = parts.map Prod.fst ∧ Joined (parts.map Prod.snd) used ∧
          ∀ part ∈ parts, D part.1 part.2 := by
  induction n with
  | zero =>
      intro count
      refine (takes.entry).bind fun a used d => .pure ?_
      rw [List.append_nil]
      exact ⟨[(a, used)], by simp, d.1, rfl, .one used, by simpa using d.2⟩
  | succ n ih =>
      intro count
      refine (takes.entry).bind fun a used d => Takes.accept?.bind fun o more taken => ?_
      cases o with
      | none =>
          subst taken
          refine .pure ?_
          simp only [List.append_nil]
          exact ⟨[(a, used)], by simp, d.1, rfl, .one used, by simpa using d.2⟩
      | some t =>
          obtain ⟨rfl, same⟩ := taken
          refine (ih (count + 1)).bind fun as others listed => .pure ?_
          obtain ⟨parts, some, room, rfl, joined, all⟩ := listed
          refine ⟨(a, used) :: parts, by simp, by simp only [List.length_cons]; omega, rfl, ?_,
            List.forall_mem_cons.mpr ⟨d.2, all⟩⟩
          simpa using Joined.more same (by simpa using some) joined

/-- Entries of a list, of which `count` stand before, with the tokens of each. -/
def Listed (D : α → List Token → Prop) (count : Nat) (as : List α) (used : List Token) : Prop :=
  ∃ parts : List (α × List Token), parts ≠ [] ∧ count + parts.length ≤ maxEntries ∧
    as = parts.map Prod.fst ∧
    kinds used = [Kind.comma].intercalate (parts.map fun part => kinds part.2) ∧
    (∀ part ∈ parts, D part.1 part.2) ∧ (Named used → ∀ part ∈ parts, Named part.2)

theorem Takes.entries {tooMany : SyntaxError} {item : Reading α} {D : α → List Token → Prop}
    (takes : Takes item D) (n count : Nat) :
    Takes (Reading.entries tooMany item n count) (Listed D count) := by
  refine (takes.entriesJoined n count).imp ?_
  rintro _ used ⟨parts, some, room, rfl, joined, all⟩
  refine ⟨parts, some, room, rfl, ?_, all, fun named part member t inside => ?_⟩
  · rw [joined.kinds, List.map_map]
    rfl
  · exact named t (joined.mem _ (List.mem_map_of_mem member) t inside)

/-- A reading that is recovered and reports nothing has not been abandoned. -/
theorem Takes.recover {x : Reading α} {D : α → List Token → Prop} (takes : Takes x D) :
    Takes (Reading.recover x) fun o used => ∃ a, o = some a ∧ D a used := by
  intro ts quiet
  cases value : (x ts).value? with
  | none =>
      simp only [Reading.recover, value] at quiet
      obtain ⟨a, _, some, -⟩ := takes ts quiet
      rw [value] at some
      cases some
  | some a =>
      simp only [Reading.recover, value] at quiet ⊢
      obtain ⟨a', used, value', split, d⟩ := takes ts quiet
      cases value.symm.trans value'
      exact ⟨_, used, rfl, split, a, rfl, d⟩

end Reading
end LoxLang
