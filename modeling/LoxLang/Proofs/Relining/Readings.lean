import LoxLang.Proofs.Grammar.Exact
import LoxLang.Proofs.Relining
/-! Readings of tokens that stand on other lines, with other tokens behind them. A reading that
has not come to the end takes the same tokens there. Where it has come to the end it depends on
what stands there. -/
namespace LoxLang

/-- The tokens on other lines. -/
abbrev relineTokens (f : Nat → Nat) (ts : List Token) : List Token := ts.map (Token.reline f)

theorem Ends.reline {opens : List Kind} {ts : List Token} (ends : Ends opens ts) (f : Nat → Nat) :
    Ends opens (relineTokens f ts) := by
  cases ts with
  | nil => exact Ends.nil
  | cons t ts => exact Ends.cons (ends t rfl)

namespace Reading
variable {α β : Type}

/-- A reading of two parts gives what its second part gives. -/
theorem Gives.of_bind {x : Reading α} {F : α → Reading β} {ts rest : List Token} {b : β}
    (gives : Gives (x >>= F) ts b rest) :
    ∃ a mid, Gives x ts a mid ∧ Gives (F a) mid b rest := by
  unfold Gives at gives
  cases value : (x ts).value? with
  | none =>
      simp only [Bind.bind, value] at gives
      cases congrArg Outcome.value? gives
  | some a =>
      rw [bind_run x F ts value] at gives
      obtain ⟨value', rest', issues⟩ := Outcome.mk.inj gives
      obtain ⟨quiet, quiet'⟩ := List.append_eq_nil_iff.mp issues
      exact ⟨a, (x ts).rest, by rw [Gives, ← value, ← quiet], by rw [Gives, ← value', ← rest', ← quiet']⟩

/-- What the first reading gives, from no more tokens than the budget, the second one gives on
other lines. It does so with more tokens behind as well, which must be such as may follow if the
first reading has come to the end. A solid reading takes a token. -/
def Carries (f : Nat → Nat) (follow : List Token → Prop) (budget : Nat) (solid : Bool) (g : α → α)
    (x x' : Reading α) : Prop :=
  ∀ ts a rest, ts.length ≤ budget → Gives x ts a rest →
    rest.length + solid.toNat ≤ ts.length ∧
      ∀ more, (rest = [] → follow more) →
        Gives x' (relineTokens f ts ++ more) (g a) (relineTokens f rest ++ more)

/-- Nothing may follow. -/
def AtEnd (more : List Token) : Prop := more = []

theorem Ends.of_atEnd {opens : List Kind} {more : List Token} (atEnd : AtEnd more) :
    Ends opens more := by
  subst atEnd
  exact Ends.nil

namespace Carries
variable {f : Nat → Nat} {follow follow' : List Token → Prop} {budget budget' : Nat}
  {solid solid' : Bool} {g : α → α} {h : β → β} {x x' : Reading α} {F F' : α → Reading β}
  {kind : Kind}

theorem eq_nil_of_taken {rest : List Token} {n : Nat}
    (taken : rest.length + n ≤ ([] : List Token).length) : rest = [] :=
  List.length_eq_zero_iff.mp (Nat.le_zero.mp (Nat.le_of_add_right_le taken))

theorem mono (carries : Carries f follow budget solid g x x') (le : budget' ≤ budget) :
    Carries f follow budget' solid g x x' :=
  fun ts a rest short => carries ts a rest (Nat.le_trans short le)

theorem weaken (carries : Carries f follow budget solid g x x') :
    Carries f follow budget false g x x' := fun ts a rest short gives =>
  ⟨Nat.le_of_add_right_le (carries ts a rest short gives).1, (carries ts a rest short gives).2⟩

theorem follows (carries : Carries f follow budget solid g x x')
    (less : ∀ more, follow' more → follow more) : Carries f follow' budget solid g x x' :=
  fun ts a rest short gives => ⟨(carries ts a rest short gives).1,
    fun more allowed => (carries ts a rest short gives).2 more fun ends => less more (allowed ends)⟩

theorem pure {a b : α} (same : b = g a) :
    Carries f follow budget false g (Pure.pure a) (Pure.pure b) := by
  rintro ts _ _ _ ⟨⟩
  exact ⟨Nat.le_refl _, fun more _ => same ▸ Gives.pure⟩

theorem fail {cause : SyntaxError} : Carries f follow budget solid g (Reading.fail cause) x' := by
  rintro ts _ _ _ ⟨⟩

/-- The second part takes a token, so the first one has not come to the end. -/
theorem bind_solid (first : Carries f AtEnd budget solid g x x')
    (second : ∀ a, Carries f follow budget true h (F a) (F' (g a))) :
    Carries f follow budget true h (x >>= F) (x' >>= F') := by
  intro ts b rest short gives
  obtain ⟨a, mid, gives, gives'⟩ := gives.of_bind
  obtain ⟨taken, carries⟩ := first ts a mid short gives
  obtain ⟨taken', carries'⟩ := second a mid b rest (by omega) gives'
  have some : mid ≠ [] := by
    rintro rfl
    cases taken'
  exact ⟨by simp only [Bool.toNat_true] at taken' ⊢; omega, fun more allowed =>
    (carries more (absurd · some)).bind (carries' more allowed)⟩

/-- Where the first part has come to the end, what may follow the whole may follow it. Behind a
token that it has taken the second part needs less. -/
theorem bind_within (first : Carries f follow budget solid g x x')
    (second : ∀ a, Carries f follow budget' solid' h (F a) (F' (g a)))
    (le : budget ≤ budget' + solid.toNat) :
    Carries f follow budget (solid || solid') h (x >>= F) (x' >>= F') := by
  intro ts b rest short gives
  obtain ⟨a, mid, gives, gives'⟩ := gives.of_bind
  obtain ⟨taken, carries⟩ := first ts a mid short gives
  obtain ⟨taken', carries'⟩ := second a mid b rest (by omega) gives'
  refine ⟨?_, fun more allowed => (carries more fun ends => allowed ?_).bind (carries' more allowed)⟩
  · cases solid <;> cases solid' <;> simp at taken taken' ⊢ <;> omega
  · subst ends
    exact eq_nil_of_taken taken'

theorem bind (first : Carries f follow budget solid g x x')
    (second : ∀ a, Carries f follow budget solid' h (F a) (F' (g a))) :
    Carries f follow budget (solid || solid') h (x >>= F) (x' >>= F') :=
  first.bind_within second (Nat.le_add_right _ _)

theorem bind_thin (first : Carries f follow budget solid g x x')
    (second : ∀ a, Carries f follow budget false h (F a) (F' (g a))) :
    Carries f follow budget false h (x >>= F) (x' >>= F') := first.weaken.bind second

theorem bind_pure {k k' : α → β} (carries : Carries f follow budget solid g x x')
    (same : ∀ a, k' (g a) = h (k a)) :
    Carries f follow budget solid h (x >>= fun a => Pure.pure (k a))
      (x' >>= fun a => Pure.pure (k' a)) := by
  have whole : Carries f follow budget (solid || false) h (x >>= fun a => Pure.pure (k a))
      (x' >>= fun a => Pure.pure (k' a)) := carries.bind fun a => pure (same a)
  rwa [Bool.or_false] at whole

theorem bind_behind (first : Carries f follow budget true g x x')
    (second : ∀ a, Carries f follow budget false h (F a) (F' (g a))) :
    Carries f follow budget true h (x >>= F) (x' >>= F') := first.bind second

/-! Single tokens. -/

theorem expect {cause : SyntaxError} : Carries f follow budget true (Token.reline f)
    (Reading.expect kind cause) (Reading.expect kind cause) := by
  intro ts t rest _ gives
  cases ts with
  | nil => cases gives
  | cons u ts =>
      by_cases same : u.kind = kind
      · obtain ⟨rfl, rfl⟩ : u = t ∧ ts = rest := by simpa [Gives, Reading.expect, same] using gives
        exact ⟨Nat.le_refl _, fun more _ => Gives.expect (t := u.reline f) same⟩
      · simp [Gives, Reading.expect, same, Reading.fail] at gives

theorem expectName {cause : SyntaxError} : Carries f follow budget true (Name.reline f)
    (Reading.expectName cause) (Reading.expectName cause) := expect.bind_pure fun _ => rfl

theorem accept {F F' : Option Token → Reading β}
    (looks : solid = true ∨ ∀ more, follow more → Ends [kind] more)
    (none : Carries f follow budget solid h (F none) (F' none))
    (some : ∀ t, Carries f follow (budget - 1) false h (F (some t)) (F' (some (t.reline f)))) :
    Carries f follow budget solid h (accept? kind >>= F) (accept? kind >>= F') := by
  intro ts b rest short gives
  obtain ⟨o, mid, gives, gives'⟩ := gives.of_bind
  have stays (other : ∀ t, ts.head? = .some t → t.kind ≠ kind) : o = .none ∧ mid = ts := by
    have whole := gives.symm.trans (Gives.accept_none other)
    simpa using whole
  cases ts with
  | nil =>
      obtain ⟨rfl, rfl⟩ := stays (by simp)
      obtain ⟨taken, carries⟩ := none [] b rest short gives'
      refine ⟨taken, fun more allowed => ?_⟩
      obtain rfl | looks := looks
      · cases taken
      have ends := looks more (allowed (eq_nil_of_taken taken))
      exact (Gives.accept_none fun t head => ends.ne List.mem_cons_self t head).bind
        (carries more allowed)
  | cons u ts =>
      by_cases same : u.kind = kind
      · obtain ⟨rfl, rfl⟩ : .some u = o ∧ ts = mid := by simpa [Gives, accept?, same] using gives
        rw [List.length_cons] at short
        obtain ⟨taken, carries⟩ := some u ts b rest (by omega) gives'
        refine ⟨?_, fun more allowed =>
          (Gives.accept (t := u.reline f) same).bind (carries more allowed)⟩
        cases solid <;> simp <;> omega
      · obtain ⟨rfl, rfl⟩ := stays (by simpa using same)
        obtain ⟨taken, carries⟩ := none (u :: ts) b rest short gives'
        refine ⟨taken, fun more allowed => ?_⟩
        have other : ∀ t, (u.reline f :: (relineTokens f ts ++ more)).head? = .some t →
            t.kind ≠ kind := by simpa using same
        exact (Gives.accept_none other).bind (carries more allowed)

theorem acceptWith {ω : Type} {choice : Kind → Option ω} {F F' : Option (ω × Token) → Reading β}
    (none : Carries f AtEnd budget solid h (F none) (F' none))
    (some : ∀ op t, Carries f AtEnd (budget - 1) false h (F (some (op, t)))
      (F' (some (op, t.reline f)))) :
    Carries f AtEnd budget solid h (acceptWith? choice >>= F) (acceptWith? choice >>= F') := by
  intro ts b rest short gives
  obtain ⟨o, mid, gives, gives'⟩ := gives.of_bind
  have stays (other : ∀ t, ts.head? = .some t → choice t.kind = .none) : o = .none ∧ mid = ts := by
    have whole := gives.symm.trans (Gives.acceptWith_none other)
    simpa using whole
  cases ts with
  | nil =>
      obtain ⟨rfl, rfl⟩ := stays (by simp)
      obtain ⟨taken, carries⟩ := none [] b rest short gives'
      refine ⟨taken, fun more allowed => ?_⟩
      obtain rfl : more = [] := allowed (eq_nil_of_taken taken)
      exact (Gives.acceptWith_none (by simp)).bind (carries [] allowed)
  | cons u ts =>
      cases same : choice u.kind with
      | none =>
          obtain ⟨rfl, rfl⟩ := stays (by simpa using same)
          obtain ⟨taken, carries⟩ := none (u :: ts) b rest short gives'
          refine ⟨taken, fun more allowed => ?_⟩
          have other : ∀ t, (u.reline f :: (relineTokens f ts ++ more)).head? = .some t →
              choice t.kind = .none := by simpa using same
          exact (Gives.acceptWith_none other).bind (carries more allowed)
      | some op =>
          obtain ⟨rfl, rfl⟩ : .some (op, u) = o ∧ ts = mid := by
            simpa [Gives, acceptWith?, same] using gives
          rw [List.length_cons] at short
          obtain ⟨taken, carries⟩ := some op u ts b rest (by omega) gives'
          refine ⟨?_, fun more allowed =>
            (Gives.acceptWith (t := u.reline f) same).bind (carries more allowed)⟩
          cases solid <;> simp <;> omega

theorem nextIs : Carries f AtEnd budget false id (Reading.nextIs kind) (Reading.nextIs kind) := by
  rintro ts _ _ _ ⟨⟩
  refine ⟨Nat.le_refl _, fun more allowed => ?_⟩
  cases ts with
  | nil =>
      obtain rfl : more = [] := allowed rfl
      rfl
  | cons t ts => rfl

/-! Lists. -/

theorem untilBrace_next {item : Reading α} {n : Nat} {t : Token} {ts : List Token}
    (goes : t.kind ≠ .rightBrace) : Reading.untilBrace item (n + 1) (t :: ts) = (do
      let first ← item
      let others ← Reading.untilBrace item n
      Pure.pure (first :: others)) (t :: ts) := by
  simp [Reading.untilBrace, goes]

theorem untilBrace {item item' : Reading α} (n : Nat) : ∀ {n' budget}, n ≤ n' → budget ≤ n →
    Carries f AtEnd budget true g item item' →
      Carries f AtEnd budget false (List.map g) (Reading.untilBrace item n)
        (Reading.untilBrace item' n') := by
  induction n with
  | zero =>
      rintro n' budget - none - ts _ _ short ⟨⟩
      obtain rfl : ts = [] := List.length_eq_zero_iff.mp (by omega)
      refine ⟨Nat.le_refl _, fun more allowed => ?_⟩
      obtain rfl : more = [] := allowed rfl
      cases n' <;> rfl
  | succ n ih =>
      intro n' budget le enough carries
      obtain ⟨n', rfl⟩ : ∃ k, n' = k + 1 := ⟨n' - 1, by omega⟩
      have others : Carries f AtEnd (budget - 1) false (List.map g) (Reading.untilBrace item n)
          (Reading.untilBrace item' n') := ih (by omega) (by omega) (carries.mono (by omega))
      have goes : Carries f AtEnd budget true (List.map g)
          (do
            let first ← item
            let others ← Reading.untilBrace item n
            Pure.pure (first :: others))
          (do
            let first ← item'
            let others ← Reading.untilBrace item' n'
            Pure.pure (first :: others)) :=
        carries.bind_within (fun _ => others.bind_pure fun _ => rfl) (by simp; omega)
      intro ts as rest short gives
      cases ts with
      | nil =>
          obtain ⟨rfl, rfl⟩ : [] = as ∧ [] = rest := by
            simpa [Gives, Reading.untilBrace] using gives
          refine ⟨Nat.le_refl _, fun more allowed => ?_⟩
          obtain rfl : more = [] := allowed rfl
          rfl
      | cons t ts =>
          by_cases close : t.kind = .rightBrace
          · obtain ⟨rfl, rfl⟩ : [] = as ∧ t :: ts = rest := by
              simpa [Gives, Reading.untilBrace, close] using gives
            exact ⟨Nat.le_refl _, fun more _ => by simp [Gives, Reading.untilBrace, close]⟩
          · rw [Gives, untilBrace_next close] at gives
            obtain ⟨taken, carries'⟩ := goes (t :: ts) as rest short gives
            refine ⟨Nat.le_of_add_right_le taken, fun more allowed => ?_⟩
            exact (untilBrace_next (t := t.reline f) close).trans (carries' more allowed)

theorem entry {tooMany : SyntaxError} {item item' : Reading α} {count : Nat}
    (carries : Carries f follow budget solid g item item') :
    Carries f follow budget solid g (Reading.entry tooMany item count)
      (Reading.entry tooMany item' count) := by
  by_cases full : maxEntries ≤ count
  · intro ts a rest _ gives
    simp [Gives, Reading.entry, full, report, Bind.bind] at gives
  · simpa only [Reading.entry, if_neg full] using carries

theorem entries {tooMany : SyntaxError} {item item' : Reading α} (n : Nat) :
    ∀ {n' budget} (count), n ≤ n' → budget ≤ n → Carries f AtEnd budget solid g item item' →
      Carries f AtEnd budget false (List.map g) (Reading.entries tooMany item n count)
        (Reading.entries tooMany item' n' count) := by
  induction n with
  | zero =>
      intro n' budget count _ none carries
      cases n' with
      | zero => exact carries.entry.weaken.bind_pure fun _ => rfl
      | succ n' =>
          refine carries.entry.bind_thin fun a => ?_
          rintro ts _ _ short ⟨⟩
          obtain rfl : ts = [] := List.length_eq_zero_iff.mp (by omega)
          refine ⟨Nat.le_refl _, fun more allowed => ?_⟩
          obtain rfl : more = [] := allowed rfl
          rfl
  | succ n ih =>
      intro n' budget count le enough carries
      obtain ⟨n', rfl⟩ : ∃ k, n' = k + 1 := ⟨n' - 1, by omega⟩
      refine carries.entry.bind_thin fun a => ?_
      refine accept (.inr fun _ => Ends.of_atEnd) (pure rfl) fun t => ?_
      exact (ih (count + 1) (by omega) (by omega) (carries.mono (by omega))).bind_pure fun _ => rfl

/-- A reading that is recovered and reports nothing was not abandoned. -/
theorem recover {D : α → List Token → Prop} (takes : Takes x D)
    (carries : Carries f follow budget solid g x x') :
    Carries f follow budget solid (Option.map g) (Reading.recover x) (Reading.recover x') := by
  intro ts o rest short gives
  have quiet : (x ts).issues = [] := by
    have issues := congrArg Outcome.issues gives
    simp only [Reading.recover] at issues
    split at issues <;> exact issues
  obtain ⟨a, used, value, -⟩ := takes ts quiet
  have given : Gives x ts a (x ts).rest := by rw [Gives, ← value, ← quiet]
  obtain ⟨rfl, rfl⟩ : some a = o ∧ (x ts).rest = rest := by
    simpa [Gives, Reading.recover, value, quiet] using gives
  obtain ⟨taken, carries⟩ := carries ts a _ short given
  exact ⟨taken, fun more allowed => (carries more allowed).recover⟩

end Carries

end Reading
end LoxLang
