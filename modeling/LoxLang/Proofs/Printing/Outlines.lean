import LoxLang.Tree.Outline
import Mathlib.Data.List.Basic
/-! Outlines as texts. No two readable outlines have the same text: the text is cut where a space
or a closing parenthesis stands outside of all lists that are open. -/
namespace LoxLang.Outline

/-- A word without spaces, parentheses and line ends. -/
def Solid (cs : List Char) : Prop := cs ≠ [] ∧ ∀ c ∈ cs, c ∉ [' ', '(', ')', '\n']

instance (cs : List Char) : Decidable (Solid cs) :=
  @instDecidableAnd _ _ _ (List.decidableBAll _ cs)

/-- No part goes on here. -/
def Seam (rest : List Char) : Prop := ∀ c tail, rest = c :: tail → c ∈ [' ', ')', '\n']

/-- Words are solid, but for the name of a routine with its parameters behind it. -/
inductive Readable : Outline → Prop
  | word {cs : List Char} : Solid cs → Readable (word cs)
  | signature {cs : List Char} {params : List (List Char)} : Solid cs → (∀ p ∈ params, Solid p) →
    Readable (word (cs ++ chars (list (params.map Outline.word))))
  | list {parts : List Outline} : (∀ o ∈ parts, Readable o) → Readable (list parts)

/-- Between outlines of the family, the text of this one ends where it ends. -/
def Clear (P : Outline → Prop) (o : Outline) : Prop :=
  ∀ o' rest rest', P o' → Seam rest → Seam rest' → o.chars ++ rest = o'.chars ++ rest' →
    o = o' ∧ rest = rest'

/-- The text of an outline starts with a character that parts nothing. -/
def Starts (cs : List Char) : Prop := ∃ c tail, cs = c :: tail ∧ c ∉ [' ', ')', '\n']

variable {cs ds rest rest' : List Char}

theorem seam_nil : Seam [] := by rintro _ _ ⟨⟩

theorem seam_cons {c : Char} (parts : c ∈ [' ', ')', '\n']) (tail : List Char) :
    Seam (c :: tail) := by
  rintro _ _ ⟨⟩
  exact parts

theorem Solid.starts (solid : Solid cs) : Starts cs := by
  obtain ⟨c, tail, rfl⟩ := List.exists_cons_of_ne_nil solid.1
  have inside := solid.2 c (by simp)
  exact ⟨c, tail, rfl, by simp_all⟩

theorem Readable.starts {o : Outline} (readable : Readable o) : Starts o.chars := by
  cases readable with
  | word solid => exact solid.starts
  | signature solid _ =>
    obtain ⟨c, tail, rfl, inside⟩ := solid.starts
    exact ⟨c, _, rfl, inside⟩
  | list _ => exact ⟨'(', _, rfl, by decide⟩

/-- What stands behind the first part of a list. -/
def behind (ps : List Outline) (tail : List Char) : List Char :=
  if ps.isEmpty then tail else ' ' :: (partsChars ps ++ tail)

theorem partsChars_cons (p : Outline) (ps : List Outline) (tail : List Char) :
    partsChars (p :: ps) ++ tail = p.chars ++ behind ps tail := by
  cases ps with
  | nil => rfl
  | cons q qs => simp [partsChars, behind]

theorem behind_seam (ps : List Outline) (rest : List Char) : Seam (behind ps (')' :: rest)) := by
  unfold behind
  split
  · exact seam_cons (by decide) _
  · exact seam_cons (by decide) _

/-- A closing parenthesis is no part. -/
theorem close_ne {o : Outline} (starts : Starts o.chars) (ps : List Outline) (tail : List Char) :
    ')' :: rest ≠ partsChars (o :: ps) ++ tail := by
  obtain ⟨c, cs, whole, inside⟩ := starts
  rw [partsChars_cons, whole]
  intro same
  exact inside ((List.cons.inj same).1 ▸ by decide)

/-- The parts of a list, up to the parenthesis that closes it. -/
theorem parts_clear {P : Outline → Prop} (starts : ∀ o, P o → Starts o.chars) {ps qs : List Outline}
    (each : ∀ o ∈ ps, P o ∧ Clear P o) (others : ∀ o ∈ qs, P o)
    (same : partsChars ps ++ ')' :: rest = partsChars qs ++ ')' :: rest') :
    ps = qs ∧ rest = rest' := by
  induction ps generalizing qs with
  | nil =>
    cases qs with
    | nil => exact ⟨rfl, (List.cons.inj same).2⟩
    | cons q qs => exact absurd same (close_ne (starts q (others q (by simp))) qs _)
  | cons p ps ih =>
    obtain ⟨⟨member, clear⟩, each⟩ := List.forall_mem_cons.mp each
    cases qs with
    | nil => exact absurd same.symm (close_ne (starts p member) ps _)
    | cons q qs =>
      obtain ⟨other, more⟩ := List.forall_mem_cons.mp others
      rw [partsChars_cons, partsChars_cons] at same
      obtain ⟨equal, later⟩ := clear q _ _ other (behind_seam ps rest) (behind_seam qs rest') same
      subst equal
      cases ps with
      | nil =>
        cases qs with
        | nil => exact ⟨rfl, (List.cons.inj later).2⟩
        | cons q' qs => exact absurd (List.cons.inj later).1 (by decide)
      | cons p' ps =>
        cases qs with
        | nil => exact absurd (List.cons.inj later).1 (by decide)
        | cons q' qs =>
          obtain ⟨equal, ends⟩ := ih each more (List.cons.inj later).2
          exact ⟨congrArg _ equal, ends⟩

/-- A solid word ends where the next space or parenthesis stands. -/
theorem solid_unique (solid : Solid cs) (solid' : Solid ds)
    (ends : ∀ c tail, rest = c :: tail → c ∈ [' ', '(', ')', '\n'])
    (ends' : ∀ c tail, rest' = c :: tail → c ∈ [' ', '(', ')', '\n'])
    (same : cs ++ rest = ds ++ rest') : cs = ds ∧ rest = rest' := by
  replace solid := solid.2
  replace solid' := solid'.2
  induction cs generalizing ds with
  | nil =>
    cases ds with
    | nil => exact ⟨rfl, same⟩
    | cons d ds => exact absurd (ends d _ same) (solid' d (by simp))
  | cons c cs ih =>
    cases ds with
    | nil => exact absurd (ends' c _ same.symm) (solid c (by simp))
    | cons d ds =>
      obtain ⟨rfl, next⟩ := List.cons.inj same
      obtain ⟨rfl, later⟩ := ih next (fun e member => solid e (by simp [member]))
        fun e member => solid' e (by simp [member])
      exact ⟨rfl, later⟩

theorem Seam.ends (seam : Seam rest) : ∀ c tail, rest = c :: tail → c ∈ [' ', '(', ')', '\n'] := by
  intro c tail cons
  have := seam c tail cons
  simp_all
  tauto

/-- The outlines of solid words. -/
def SolidWord (o : Outline) : Prop := ∃ cs, Solid cs ∧ o = word cs

theorem SolidWord.starts {o : Outline} : SolidWord o → Starts o.chars := by
  rintro ⟨cs, solid, rfl⟩
  exact solid.starts

theorem solid_clear (solid : Solid cs) : Clear SolidWord (word cs) := by
  rintro _ rest rest' ⟨ds, solid', rfl⟩ seam seam' same
  obtain ⟨rfl, ends⟩ := solid_unique solid solid' seam.ends seam'.ends same
  exact ⟨rfl, ends⟩

/-- The parameters of a routine, up to the parenthesis behind them. -/
theorem params_unique {ps qs : List (List Char)} (each : ∀ p ∈ ps, Solid p)
    (others : ∀ q ∈ qs, Solid q)
    (same : partsChars (ps.map word) ++ ')' :: rest = partsChars (qs.map word) ++ ')' :: rest') :
    ps = qs ∧ rest = rest' := by
  obtain ⟨params, ends⟩ := parts_clear (P := SolidWord) (fun _ => SolidWord.starts)
    (by
      rintro _ member
      obtain ⟨p, inside, rfl⟩ := List.mem_map.mp member
      exact ⟨⟨p, each p inside, rfl⟩, solid_clear (each p inside)⟩)
    (by
      rintro _ member
      obtain ⟨q, inside, rfl⟩ := List.mem_map.mp member
      exact ⟨q, others q inside, rfl⟩) same
  exact ⟨List.map_injective_iff.mpr (fun _ _ => Outline.word.inj) params, ends⟩

theorem chars_list (parts : List Outline) (rest : List Char) :
    chars (list parts) ++ rest = '(' :: (partsChars parts ++ ')' :: rest) := by
  simp [chars]

/-- A solid word does not open a list. -/
theorem solid_ne_list (solid : Solid cs) (parts : List Outline) :
    cs ++ rest ≠ (list parts).chars ++ rest' := by
  obtain ⟨c, tail, rfl⟩ := List.exists_cons_of_ne_nil solid.1
  rw [chars_list]
  intro same
  have opening : c = '(' := (List.cons.inj same).1
  exact solid.2 c (by simp) (by simp [opening])

/-- A solid word is not the name of a routine with its parameters behind it. -/
theorem solid_ne_signature (solid : Solid cs) (solid' : Solid ds) (seam : Seam rest)
    (parts : List Outline) : cs ++ rest ≠ ds ++ ((list parts).chars ++ rest') := by
  rw [chars_list]
  intro same
  obtain ⟨-, ends⟩ := solid_unique solid solid' seam.ends (by rintro _ _ ⟨⟩; decide) same
  exact absurd (seam '(' _ ends) (by decide)

/-- A readable outline is told by its text from every other one. -/
theorem Readable.clear {o : Outline} (readable : Readable o) : Clear Readable o := by
  induction readable with
  | @word cs solid =>
    rintro _ rest rest' readable seam seam' same
    cases readable with
    | word solid' =>
      obtain ⟨rfl, ends⟩ := solid_unique solid solid' seam.ends seam'.ends same
      exact ⟨rfl, ends⟩
    | signature solid' _ =>
      simp only [chars, List.append_assoc] at same
      exact absurd same (solid_ne_signature solid solid' seam _)
    | list _ => exact absurd same (solid_ne_list solid _)
  | @signature cs params solid each =>
    rintro _ rest rest' readable seam seam' same
    simp only [chars.eq_1, List.append_assoc] at same
    cases readable with
    | word solid' => exact absurd same.symm (solid_ne_signature solid' solid seam' _)
    | @signature ds params' solid' each' =>
      simp only [chars.eq_1, List.append_assoc, chars_list] at same
      obtain ⟨rfl, inner⟩ := solid_unique solid solid' (by rintro _ _ ⟨⟩; decide)
        (by rintro _ _ ⟨⟩; decide) same
      obtain ⟨rfl, ends⟩ := params_unique each each' (List.cons.inj inner).2
      exact ⟨rfl, ends⟩
    | list _ => exact absurd same (solid_ne_list solid _)
  | @list parts each ih =>
    rintro _ rest rest' readable seam seam' same
    cases readable with
    | word solid => exact absurd same.symm (solid_ne_list solid _)
    | signature solid _ =>
      simp only [chars.eq_1, List.append_assoc] at same
      exact absurd same.symm (solid_ne_list solid _)
    | list each' =>
      rw [chars_list, chars_list] at same
      obtain ⟨rfl, ends⟩ := parts_clear (P := Readable) (fun _ => Readable.starts)
        (fun o member => ⟨each o member, ih o member⟩) each' (List.cons.inj same).2
      exact ⟨rfl, ends⟩

end LoxLang.Outline
