import LoxLang.Proofs.Progress
import LoxLang.Proofs.Respelling
/-! Rules for readings of the same phrase, from respelled tokens and with more budget. A budget
of at least the number of tokens left has no influence on a reading. -/
namespace LoxLang

def Issue.respell (τ : Respelling) (i : Issue) : Issue := { i with site := i.site.map (Token.respell τ) }

@[simp] theorem Issue.respell_same (i : Issue) : i.respell .same = i := by
  simp [respell, funext Token.respell_same]

namespace Reading
variable {α β : Type}

/-- The outcome on respelled tokens. -/
def Outcome.respell (τ : Respelling) (g : α → α) (o : Outcome α) : Outcome α :=
  ⟨o.value?.map g, o.rest.map (Token.respell τ), o.issues.map (Issue.respell τ)⟩

/-- From no more tokens than the budget, the second reading comes to what the first one comes to,
on respelled tokens. -/
def Alike (τ : Respelling) (budget : Nat) (g : α → α) (x y : Reading α) : Prop :=
  ∀ ts, ts.length ≤ budget → y (ts.map (Token.respell τ)) = (x ts).respell τ g

namespace Alike
variable {τ : Respelling} {n m : Nat} {g : α → α} {h : β → β} {x y : Reading α}
  {F F' : α → Reading β} {D : α → List Token → Prop} {kind : Kind}

theorem mono (alike : Alike τ n g x y) (le : m ≤ n) : Alike τ m g x y :=
  fun ts short => alike ts (Nat.le_trans short le)

theorem pure {a b : α} (same : b = g a) : Alike τ n g (Pure.pure a) (Pure.pure b) := by
  intro ts _
  simp only [Pure.pure, same]
  rfl

theorem fail {cause : SyntaxError} :
    Alike τ n g (Reading.fail cause) (Reading.fail cause) := by
  intro ts _
  simp [Reading.fail, Outcome.respell, Issue.respell]

/-- The second part reads what the first part has left. -/
theorem bind (consumes : Consumes x D) (first : Alike τ n g x y)
    (second : ∀ a used, D a used → Alike τ (n - used.length) h (F a) (F' (g a))) :
    Alike τ n h (x >>= F) (y >>= F') := by
  intro ts short
  have here := first ts short
  obtain ⟨used, split, d⟩ := consumes ts
  have whole := congrArg List.length split
  rw [List.length_append] at whole
  cases value : (x ts).value? with
  | none => simp [Bind.bind, here, Outcome.respell, value]
  | some a =>
      have behind := second a used (d a value) (x ts).rest (by omega)
      simp [Bind.bind, here, Outcome.respell, value, behind]

theorem bind_any (consumes : Consumes x D) (first : Alike τ n g x y)
    (second : ∀ a, Alike τ n h (F a) (F' (g a))) : Alike τ n h (x >>= F) (y >>= F') :=
  bind consumes first fun a used _ => (second a).mono (Nat.sub_le n used.length)

/-- Behind a token less budget is needed. -/
theorem bind_behind (consumes : Consumes x D) (some : ∀ a used, D a used → used ≠ [])
    (first : Alike τ n g x y) (second : ∀ a, Alike τ (n - 1) h (F a) (F' (g a))) :
    Alike τ n h (x >>= F) (y >>= F') := by
  refine bind consumes first fun a used d => (second a).mono ?_
  have taken := List.length_pos_iff.mpr (some a used d)
  omega

theorem bind_pure {k k' : α → β} (first : Alike τ n g x y) (same : ∀ a, k' (g a) = h (k a)) :
    Alike τ n h (x >>= fun a => Pure.pure (k a)) (y >>= fun a => Pure.pure (k' a)) := by
  intro ts short
  have here := first ts short
  cases value : (x ts).value? <;>
    simp [Bind.bind, Pure.pure, here, Outcome.respell, value, same]

theorem map {k k' : α → β} (first : Alike τ n g x y) (same : ∀ a, k' (g a) = h (k a)) :
    Alike τ n h (k <$> x) (k' <$> y) := first.bind_pure same

theorem reportAt (site : Option Token) (cause : SyntaxError) : Alike τ n id
    (Reading.reportAt site cause) (Reading.reportAt (site.map (Token.respell τ)) cause) :=
  fun _ _ => rfl

theorem report (cause : SyntaxError) :
    Alike τ n id (Reading.report cause) (Reading.report cause) := by
  intro ts _
  simp [Reading.report, Outcome.respell, Issue.respell]

/-! Single tokens. -/

theorem nextIs : Alike τ n id (Reading.nextIs kind) (Reading.nextIs kind) := by
  intro ts _
  cases ts <;> simp [Reading.nextIs, Outcome.respell]

theorem acceptWith? {ω : Type} {choice : Kind → Option ω} :
    Alike τ n (Option.map (Prod.map id (Token.respell τ))) (Reading.acceptWith? choice)
      (Reading.acceptWith? choice) := by
  intro ts _
  cases ts with
  | nil => rfl
  | cons t ts =>
      simp only [List.map_cons, Reading.acceptWith?, Token.kind_respell]
      cases choice t.kind <;> rfl

theorem accept? : Alike τ n (Option.map (Token.respell τ)) (Reading.accept? kind)
    (Reading.accept? kind) := by
  intro ts _
  cases ts with
  | nil => rfl
  | cons t ts =>
      simp only [List.map_cons, Reading.accept?, Token.kind_respell]
      split <;> rfl

theorem expect {cause : SyntaxError} : Alike τ n (Token.respell τ) (Reading.expect kind cause)
    (Reading.expect kind cause) := by
  intro ts _
  cases ts with
  | nil => rfl
  | cons t ts =>
      simp only [List.map_cons, Reading.expect, Token.kind_respell]
      split <;> rfl

/-- Behind a token that is expected. -/
theorem expecting {cause : SyntaxError} {F F' : Token → Reading β}
    (second : ∀ t, t.kind = kind → Alike τ (n - 1) h (F t) (F' (t.respell τ))) :
    Alike τ n h (Reading.expect kind cause >>= F) (Reading.expect kind cause >>= F') := by
  refine bind Consumes.expect expect ?_
  rintro t _ ⟨rfl, same⟩
  exact second t same

theorem expectName {cause : SyntaxError} : Alike τ n (Name.respell τ) (Reading.expectName cause)
    (Reading.expectName cause) :=
  expecting fun t same => pure (by simp [Token.respell_identifier same, Name.token, Name.respell])

theorem naming {cause : SyntaxError} {F F' : Name → Reading β}
    (second : ∀ name, Alike τ (n - 1) h (F name) (F' (name.respell τ))) :
    Alike τ n h (Reading.expectName cause >>= F) (Reading.expectName cause >>= F') :=
  bind_behind Consumes.expectName (fun _ _ drawn => drawn.1) expectName second

/-- A token may be there or not. -/
theorem accepting {F F' : Option Token → Reading β} (none : Alike τ n h (F none) (F' none))
    (some : ∀ t, Alike τ (n - 1) h (F (some t)) (F' (some (t.respell τ)))) :
    Alike τ n h (Reading.accept? kind >>= F) (Reading.accept? kind >>= F') := by
  refine bind Consumes.accept? accept? ?_
  rintro o _ rfl
  cases o with
  | none => exact none
  | some t => exact some t

theorem acceptingWith {ω : Type} {choice : Kind → Option ω} {F F' : Option (ω × Token) → Reading β}
    (none : Alike τ n h (F none) (F' none))
    (some : ∀ op t, Alike τ (n - 1) h (F (some (op, t))) (F' (some (op, t.respell τ)))) :
    Alike τ n h (Reading.acceptWith? choice >>= F) (Reading.acceptWith? choice >>= F') := by
  refine bind Consumes.acceptWith? acceptWith? ?_
  rintro o _ rfl
  cases o with
  | none => exact none
  | some pair => exact some pair.1 pair.2

theorem looking {F F' : Bool → Reading β} (second : ∀ b, Alike τ n h (F b) (F' b)) :
    Alike τ n h (Reading.nextIs kind >>= F) (Reading.nextIs kind >>= F') :=
  bind_any (D := fun _ _ => True) (Consumes.nextIs fun _ => trivial) nextIs second

/-! Lists. -/

/-- With every value fewer tokens are left than there were, if there were some. -/
def Shrinks (item : Reading α) : Prop :=
  ∀ t ts a, (item (t :: ts)).value? = some a → (item (t :: ts)).rest.length ≤ ts.length

theorem Shrinks.of_consumes (consumes : Consumes x D) (some : ∀ a used, D a used → used ≠ []) :
    Shrinks x :=
  fun t ts _ value => Nat.le_of_lt_succ ((consumes (t :: ts)).length_lt some value)

/-- One more item, and those behind it. -/
theorem next {others others' : Reading (List α)} (first : Alike τ n g x y) (shrinks : Shrinks x)
    (behind : ∀ k, k < n → Alike τ k (List.map g) others others') (t : Token) (ts : List Token)
    (short : (t :: ts).length ≤ n) :
    (do
      let a ← y
      let as ← others'
      Pure.pure (a :: as)) ((t :: ts).map (Token.respell τ)) =
    ((do
      let a ← x
      let as ← others
      Pure.pure (a :: as)) (t :: ts)).respell τ (List.map g) := by
  have here := first (t :: ts) short
  cases value : (x (t :: ts)).value? with
  | none => simp only [Bind.bind, here, Outcome.respell, value, Option.map_none]
  | some a =>
      have fewer := shrinks t ts a value
      have whole : Alike τ ts.length (List.map g) (others >>= fun as => Pure.pure (a :: as))
          (others' >>= fun as => Pure.pure (g a :: as)) :=
        (behind ts.length short).bind_pure fun _ => rfl
      have last := whole (x (t :: ts)).rest fewer
      simp only [Bind.bind] at last ⊢
      simp only [here, Outcome.respell, value, Option.map_some, last, List.map_append]

theorem untilBrace (n : Nat) (shrinks : Shrinks x) : ∀ n' k, n ≤ n' → k ≤ n → Alike τ k g x y →
    Alike τ k (List.map g) (Reading.untilBrace x n) (Reading.untilBrace y n') := by
  induction n with
  | zero =>
      intro n' k _ none _ ts short
      obtain rfl : ts = [] := List.length_eq_zero_iff.mp (by omega)
      cases n' <;> rfl
  | succ n ih =>
      intro n' k le enough alike ts short
      obtain ⟨n', rfl⟩ : ∃ k, n' = k + 1 := ⟨n' - 1, by omega⟩
      cases ts with
      | nil => rfl
      | cons t ts =>
          by_cases close : t.kind = .rightBrace
          · simp [Reading.untilBrace, close, Outcome.respell]
          · have step := next alike shrinks
              (fun j less => ih n' j (by omega) (by omega) (alike.mono (by omega))) t ts short
            simpa [Reading.untilBrace, close] using step

theorem untilEnd (n : Nat) (shrinks : Shrinks x) : ∀ n' k, n ≤ n' → k ≤ n → Alike τ k g x y →
    Alike τ k (List.map g) (Reading.untilEnd x n) (Reading.untilEnd y n') := by
  induction n with
  | zero =>
      intro n' k _ none _ ts short
      obtain rfl : ts = [] := List.length_eq_zero_iff.mp (by omega)
      cases n' <;> rfl
  | succ n ih =>
      intro n' k le enough alike ts short
      obtain ⟨n', rfl⟩ : ∃ k, n' = k + 1 := ⟨n' - 1, by omega⟩
      cases ts with
      | nil => rfl
      | cons t ts =>
          have step := next alike shrinks
            (fun j less => ih n' j (by omega) (by omega) (alike.mono (by omega))) t ts short
          simpa [Reading.untilEnd] using step

theorem entry {tooMany : SyntaxError} {count : Nat} (alike : Alike τ n g x y) :
    Alike τ n g (Reading.entry tooMany x count) (Reading.entry tooMany y count) := by
  by_cases full : maxEntries ≤ count
  · simp only [Reading.entry, if_pos full]
    exact bind_any (D := fun _ _ => True) (Consumes.report trivial) (report tooMany) fun _ => alike
  · simpa only [Reading.entry, if_neg full] using alike

theorem entries {tooMany : SyntaxError} (consumes : Consumes x D) (n : Nat) : ∀ n' k count,
    n ≤ n' → k ≤ n → Alike τ k g x y → Alike τ k (List.map g) (Reading.entries tooMany x n count)
      (Reading.entries tooMany y n' count) := by
  induction n with
  | zero =>
      intro n' k count _ none alike
      cases n' with
      | zero => exact alike.entry.bind_pure fun _ => rfl
      | succ n' =>
          refine bind_any consumes.entry alike.entry fun a => ?_
          intro ts short
          obtain rfl : ts = [] := List.length_eq_zero_iff.mp (by omega)
          rfl
  | succ n ih =>
      intro n' k count le enough alike
      obtain ⟨n', rfl⟩ : ∃ k, n' = k + 1 := ⟨n' - 1, by omega⟩
      refine bind_any consumes.entry alike.entry fun a => ?_
      refine accepting (pure rfl) fun t => ?_
      exact (ih n' (k - 1) (count + 1) (by omega) (by omega) (alike.mono (by omega))).bind_pure
        fun _ => rfl

theorem resumeAfter (previous : Token) (ts : List Token) :
    Reading.resumeAfter (previous.respell τ) (ts.map (Token.respell τ)) =
      (Reading.resumeAfter previous ts).map (Token.respell τ) := by
  induction ts generalizing previous with
  | nil => rfl
  | cons t ts ih =>
      simp only [List.map_cons, Reading.resumeAfter, Token.kind_respell, ih]
      split <;> rfl

theorem resume (ts : List Token) : Reading.resume (ts.map (Token.respell τ)) =
    (Reading.resume ts).map (Token.respell τ) := by
  cases ts with
  | nil => rfl
  | cons t ts => exact resumeAfter t ts

theorem recover (alike : Alike τ n g x y) :
    Alike τ n (Option.map g) (Reading.recover x) (Reading.recover y) := by
  intro ts short
  have here := alike ts short
  cases value : (x ts).value? <;>
    simp [Reading.recover, here, Outcome.respell, value, resume]

end Alike

end Reading
end LoxLang
