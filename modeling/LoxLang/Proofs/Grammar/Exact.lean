import LoxLang.Proofs.Grammar.Readings
import LoxLang.Proofs.Grammar.Starts
/-! Tokens that spell phrases, and readings that take exactly such tokens, whatever follows that
could not belong to the phrase. -/
namespace LoxLang

/-- The tokens spell a phrase of the rule. -/
def Spelt (rule : Rule) (ts : List Token) : Prop := Derives (· ≤ maxEntries) rule (kinds ts)

section
variable {part : Rule} {parts : List Rule} {ts : List Token}

theorem spelt_token {kind : Kind} : Spelt (.token kind) ts ↔ ∃ t, ts = [t] ∧ t.kind = kind :=
  Derives.token_iff.trans List.map_eq_singleton_iff

theorem spelt_ref {n : Nonterminal} : Spelt (.ref n) ts ↔ Spelt n.rule ts := Derives.ref_iff

theorem spelt_nil : Spelt (.sequence []) ts ↔ ts = [] :=
  Derives.empty_iff.trans List.map_eq_nil_iff

theorem spelt_cons : Spelt (.sequence (part :: parts)) ts ↔
    ∃ us vs, ts = us ++ vs ∧ Spelt part us ∧ Spelt (.sequence parts) vs := by
  constructor
  · intro spelt
    obtain ⟨first, second, split, head, tail⟩ := Derives.sequence_iff.mp spelt
    obtain ⟨us, vs, rfl, rfl, rfl⟩ := List.map_eq_append_iff.mp split
    exact ⟨us, vs, rfl, head, tail⟩
  · rintro ⟨us, vs, rfl, head, tail⟩
    exact (Derives.sequence head tail).cast (kinds_append us vs)

theorem spelt_choice : Spelt (.choice parts) ts ↔ ∃ part ∈ parts, Spelt part ts :=
  Derives.choice_iff

theorem spelt_optional : Spelt (.optional part) ts ↔ ts = [] ∨ Spelt part ts :=
  Derives.optional_iff.trans (or_congr_left List.map_eq_nil_iff)

/-- A token in front of a sequence. -/
theorem spelt_token_cons {kind : Kind} : Spelt (.sequence (.token kind :: parts)) ts ↔
    ∃ t vs, ts = t :: vs ∧ t.kind = kind ∧ Spelt (.sequence parts) vs := by
  constructor
  · intro spelt
    obtain ⟨us, vs, rfl, head, tail⟩ := spelt_cons.mp spelt
    obtain ⟨t, rfl, same⟩ := spelt_token.mp head
    exact ⟨t, vs, rfl, same, tail⟩
  · rintro ⟨t, vs, rfl, same, tail⟩
    exact spelt_cons.mpr ⟨[t], vs, rfl, spelt_token.mpr ⟨t, rfl, same⟩, tail⟩

/-- A sequence of one part is that part. -/
theorem spelt_single : Spelt (.sequence [part]) ts ↔ Spelt part ts := by
  constructor
  · intro spelt
    obtain ⟨us, vs, rfl, head, tail⟩ := spelt_cons.mp spelt
    obtain rfl := spelt_nil.mp tail
    rwa [List.append_nil]
  · exact fun spelt => spelt_cons.mpr ⟨ts, [], (List.append_nil ts).symm, spelt, spelt_nil.mpr rfl⟩

theorem spelt_append {others : List Rule} : Spelt (.sequence (parts ++ others)) ts ↔
    ∃ us vs, ts = us ++ vs ∧ Spelt (.sequence parts) us ∧ Spelt (.sequence others) vs := by
  induction parts generalizing ts with
  | nil =>
      constructor
      · exact fun spelt => ⟨[], ts, rfl, spelt_nil.mpr rfl, spelt⟩
      · rintro ⟨us, vs, rfl, none, spelt⟩
        obtain rfl := spelt_nil.mp none
        exact spelt
  | cons part parts ih =>
      constructor
      · intro spelt
        obtain ⟨us, vs, rfl, head, tail⟩ := spelt_cons.mp spelt
        obtain ⟨vs, ws, rfl, middle, last⟩ := ih.mp tail
        exact ⟨us ++ vs, ws, (List.append_assoc us vs ws).symm,
          spelt_cons.mpr ⟨us, vs, rfl, head, middle⟩, last⟩
      · rintro ⟨us, ws, rfl, first, last⟩
        obtain ⟨us, vs, rfl, head, middle⟩ := spelt_cons.mp first
        exact spelt_cons.mpr ⟨us, vs ++ ws, List.append_assoc us vs ws, head,
          ih.mpr ⟨vs, ws, rfl, middle, last⟩⟩

/-- Tokens whose kinds are joined from lists are joined from tokens of these kinds. -/
theorem kinds_eq_flatten {list : List (List Kind)} (whole : kinds ts = list.flatten) :
    ∃ pieces : List (List Token), ts = pieces.flatten ∧ pieces.map kinds = list := by
  induction list generalizing ts with
  | nil => exact ⟨[], List.map_eq_nil_iff.mp whole, rfl⟩
  | cons ks list ih =>
      obtain ⟨us, vs, rfl, rfl, rest⟩ := List.map_eq_append_iff.mp whole
      obtain ⟨pieces, rfl, same⟩ := ih rest
      exact ⟨us :: pieces, rfl, congrArg (kinds us :: ·) same⟩

theorem Derives.many_flatten {rule : Rule} {ks : List Kind}
    (derives : Derives (· ≤ maxEntries) rule ks) : rule = .many part →
      ∃ list : List (List Kind), ks = list.flatten ∧
        ∀ ls ∈ list, Derives (· ≤ maxEntries) part ls := by
  induction derives with
  | none => exact fun _ => ⟨[], rfl, by simp⟩
  | @more _ ks ls head _ _ ih =>
      intro same
      cases same
      obtain ⟨list, rfl, all⟩ := ih rfl
      exact ⟨ks :: list, rfl, List.forall_mem_cons.mpr ⟨head, all⟩⟩
  | _ => rintro ⟨⟩

/-- Tokens spell many parts if they are joined from tokens that spell one part each. -/
theorem spelt_many (spelt : Spelt (.many part) ts) :
    ∃ pieces : List (List Token), ts = pieces.flatten ∧ ∀ us ∈ pieces, Spelt part us := by
  obtain ⟨list, whole, all⟩ := spelt.many_flatten rfl
  obtain ⟨pieces, rfl, rfl⟩ := kinds_eq_flatten whole
  exact ⟨pieces, rfl, fun us member => all _ (List.mem_map_of_mem member)⟩

theorem intercalate_comma (ks : List Kind) (rest : List (List Kind)) :
    [Kind.comma].intercalate (ks :: rest) = ks ++ (rest.map (Kind.comma :: ·)).flatten := by
  induction rest generalizing ks with
  | nil => simp
  | cons ls rest ih => simp [List.intercalate_cons_of_ne_nil, ih]

/-- Tokens that spell entries: those of the first, then those of each other behind a comma. -/
theorem spelt_entries (spelt : Spelt (.entries part) ts) :
    ∃ (first : List Token) (others : List (List Token)), ts = first ++ others.flatten ∧
      others.length < maxEntries ∧ Spelt part first ∧
        ∀ us ∈ others, ∃ t vs, us = t :: vs ∧ t.kind = .comma ∧ Spelt part vs := by
  obtain ⟨list, some, whole, count, all⟩ : ∃ list : List (List Kind), list ≠ [] ∧
      kinds ts = [Kind.comma].intercalate list ∧ list.length ≤ maxEntries ∧
      ∀ ks ∈ list, Derives (· ≤ maxEntries) part ks := by
    unfold Spelt at spelt
    generalize kinds ts = ks at spelt
    cases spelt with
    | entries some count all => exact ⟨_, some, rfl, count, all⟩
  cases list with
  | nil => exact absurd rfl some
  | cons ks rest =>
      rw [intercalate_comma] at whole
      obtain ⟨first, vs, rfl, rfl, behind⟩ := List.map_eq_append_iff.mp whole
      obtain ⟨others, rfl, same⟩ := kinds_eq_flatten behind
      have sizes := congrArg List.length same
      simp only [List.length_map] at sizes
      rw [List.length_cons] at count
      refine ⟨first, others, rfl, by omega, all _ List.mem_cons_self, fun us member => ?_⟩
      have here : kinds us ∈ rest.map (Kind.comma :: ·) := same ▸ List.mem_map_of_mem member
      obtain ⟨ls, inside, split⟩ := List.mem_map.mp here
      obtain ⟨t, vs, rfl, comma, rfl⟩ := List.map_eq_cons_iff.mp split.symm
      exact ⟨t, vs, rfl, comma, all _ (List.mem_cons_of_mem _ inside)⟩

end

/-- What follows does not begin with a token of these kinds. -/
def Ends (opens : List Kind) (rest : List Token) : Prop :=
  ∀ t, rest.head? = some t → t.kind ∉ opens

namespace Ends
variable {opens opens' : List Kind} {rest : List Token}

theorem nil : Ends opens [] := fun _ head => nomatch head

theorem cons {t : Token} (other : t.kind ∉ opens) : Ends opens (t :: rest) := by
  rintro _ ⟨⟩
  exact other

theorem sub (ends : Ends opens rest) (sub : ∀ k ∈ opens', k ∈ opens) : Ends opens' rest :=
  fun t head member => ends t head (sub _ member)

theorem ne (ends : Ends opens rest) {kind : Kind} (member : kind ∈ opens) :
    ∀ t, rest.head? = some t → t.kind ≠ kind :=
  fun t head same => ends t head (same ▸ member)

/-- Pieces that begin otherwise stand in front of what follows. -/
theorem pieces (ends : Ends opens rest) {list : List (List Token)}
    (heads : ∀ us ∈ list, ∃ t vs, us = t :: vs ∧ t.kind ∉ opens) :
    Ends opens (list.flatten ++ rest) := by
  cases list with
  | nil => exact ends
  | cons us list =>
      obtain ⟨t, vs, rfl, other⟩ := heads us List.mem_cons_self
      exact cons other

end Ends

/-- Tokens that spell a phrase begin with one of its starts. -/
theorem Spelt.starts {rule : Rule} {us : List Token} (spelt : Spelt rule us)
    (solid : rule.solid = true) : ∃ t vs, us = t :: vs ∧ t.kind ∈ rule.starts := by
  cases us with
  | nil => exact absurd rfl (spelt.ne_nil solid)
  | cons t vs => exact ⟨t, vs, rfl, Derives.starts spelt t.kind rfl⟩

namespace Reading
variable {α β : Type}

/-- Read from `ts` on, `x` yields `a`, leaves `rest` and reports nothing. -/
def Gives (x : Reading α) (ts : List Token) (a : α) (rest : List Token) : Prop :=
  x ts = ⟨some a, rest, []⟩

namespace Gives
variable {x : Reading α} {ts mid rest : List Token} {a : α} {b : β} {t : Token} {kind : Kind}

theorem bind {f : α → Reading β} (first : Gives x ts a mid) (second : Gives (f a) mid b rest) :
    Gives (x >>= f) ts b rest := by
  unfold Gives at first second ⊢
  simp only [Bind.bind, first, second, List.append_nil]

/-- What a reading yields is handed on. -/
theorem bind_eq {f : α → Reading β} (first : Gives x ts a mid) : (x >>= f) ts = f a mid := by
  unfold Gives at first
  simp only [Bind.bind, first, List.nil_append]

theorem pure : Gives (Pure.pure a : Reading α) ts a ts := rfl

theorem map {g : α → β} (gives : Gives x ts a rest) : Gives (g <$> x) ts (g a) rest :=
  gives.bind pure

theorem expect {cause : SyntaxError} (same : t.kind = kind) :
    Gives (Reading.expect kind cause) (t :: ts) t ts := by
  simp only [Gives, Reading.expect, if_pos same]

theorem expectName {cause : SyntaxError} (same : t.kind = .identifier) :
    Gives (Reading.expectName cause) (t :: ts) ⟨t.lexeme, t.pos⟩ ts :=
  (expect same).bind pure

theorem accept (same : t.kind = kind) : Gives (Reading.accept? kind) (t :: ts) (some t) ts := by
  simp only [Gives, Reading.accept?, if_pos same]

theorem accept_none (other : ∀ t, ts.head? = some t → t.kind ≠ kind) :
    Gives (Reading.accept? kind) ts none ts := by
  cases ts with
  | nil => rfl
  | cons t ts => simp only [Gives, Reading.accept?, if_neg (other t rfl)]

theorem acceptWith {choice : Kind → Option α} (found : choice t.kind = some a) :
    Gives (Reading.acceptWith? choice) (t :: ts) (some (a, t)) ts := by
  simp only [Gives, Reading.acceptWith?, found]

theorem acceptWith_none {choice : Kind → Option α}
    (other : ∀ t, ts.head? = some t → choice t.kind = none) :
    Gives (Reading.acceptWith? choice) ts none ts := by
  cases ts with
  | nil => rfl
  | cons t ts => simp only [Gives, Reading.acceptWith?, other t rfl]

theorem nextIs (same : t.kind = kind) : Gives (Reading.nextIs kind) (t :: ts) true (t :: ts) := by
  simp [Gives, Reading.nextIs, same]

theorem nextIs_not (other : t.kind ≠ kind) :
    Gives (Reading.nextIs kind) (t :: ts) false (t :: ts) := by
  simp [Gives, Reading.nextIs, other]

theorem entry {tooMany : SyntaxError} {count : Nat} (room : count < maxEntries)
    (gives : Gives x ts a rest) : Gives (Reading.entry tooMany x count) ts a rest := by
  simp only [Gives, Reading.entry, if_neg (Nat.not_le_of_lt room)]
  exact gives

theorem recover (gives : Gives x ts a rest) : Gives (Reading.recover x) ts (some a) rest := by
  unfold Gives at gives ⊢
  simp only [Reading.recover, gives]

end Gives

/-- The reading takes exactly these tokens, unless what follows could go on with them. -/
def Reads (x : Reading α) (opens : List Kind) (ts : List Token) : Prop :=
  ∀ rest, Ends opens rest → ∃ a, Gives x (ts ++ rest) a rest

/-- The reading takes exactly what spells the phrase, up to some length. -/
def Complete (x : Reading α) (n : Nonterminal) (opens : List Kind) (size : Nat) : Prop :=
  ∀ ts : List Token, ts.length ≤ size → Spelt (.ref n) ts → Reads x opens ts

variable {item : Reading α} {opens : List Kind}

/-- Read from these tokens, unless what follows could go on with them, `x` takes exactly them and
yields something that `R` admits. -/
def ReadsAs (x : Reading α) (opens : List Kind) (ts : List Token) (R : α → Prop) : Prop :=
  ∀ rest, Ends opens rest → ∃ a, R a ∧ Gives x (ts ++ rest) a rest

section
variable {ι : Type} {tokens : ι → List Token} {R : ι → α → Prop} {E : List ι → List α → Prop}
  {parts : List ι}

/-- Items in braces are read one after the other. -/
theorem untilBrace_each (nil : E [] [])
    (cons : ∀ i a is as, R i a → E is as → E (i :: is) (a :: as))
    (items : ∀ i ∈ parts, ReadsAs item opens (tokens i) (R i) ∧
      ∃ t vs, tokens i = t :: vs ∧ t.kind ≠ .rightBrace ∧ t.kind ∉ opens)
    {t : Token} (close : t.kind = .rightBrace) (other : t.kind ∉ opens) (rest : List Token) :
    ∀ n, parts.length ≤ n → ∃ as, E parts as ∧
      Gives (untilBrace item n) ((parts.map tokens).flatten ++ t :: rest) as (t :: rest) := by
  induction parts with
  | nil =>
      intro n _
      cases n with
      | zero => exact ⟨[], nil, rfl⟩
      | succ n => exact ⟨[], nil, by simp [Gives, untilBrace, close]⟩
  | cons i parts ih =>
      intro n enough
      obtain ⟨⟨reads, u, vs, same, start, -⟩, tail⟩ := List.forall_mem_cons.mp items
      cases n with
      | zero => cases enough
      | succ n =>
          obtain ⟨as, all, others⟩ := ih tail n (Nat.le_of_succ_le_succ enough)
          have ends : Ends opens ((parts.map tokens).flatten ++ t :: rest) :=
            (Ends.cons other).pieces fun us member => by
              obtain ⟨j, inside, rfl⟩ := List.mem_map.mp member
              obtain ⟨-, w, ws, same, -, outside⟩ := tail j inside
              exact ⟨w, ws, same, outside⟩
          obtain ⟨a, r, first⟩ := reads _ ends
          refine ⟨a :: as, cons _ _ _ _ r all, ?_⟩
          have goes : Gives (do
              let first ← item
              let others ← untilBrace item n
              pure (first :: others)) (tokens i ++ ((parts.map tokens).flatten ++ t :: rest))
              (a :: as) (t :: rest) := first.bind (others.bind .pure)
          rw [List.map_cons, List.flatten_cons, List.append_assoc]
          rw [same] at goes ⊢
          simpa [Gives, untilBrace, start] using goes

/-- Items up to the end are read one after the other. -/
theorem untilEnd_each (nil : E [] [])
    (cons : ∀ i a is as, R i a → E is as → E (i :: is) (a :: as))
    (items : ∀ i ∈ parts, ReadsAs item opens (tokens i) (R i) ∧
      ∃ t vs, tokens i = t :: vs ∧ t.kind ∉ opens) :
    ∀ n, parts.length ≤ n → ∃ as, E parts as ∧
      Gives (untilEnd item n) (parts.map tokens).flatten as [] := by
  induction parts with
  | nil =>
      intro n _
      cases n with
      | zero => exact ⟨[], nil, rfl⟩
      | succ n => exact ⟨[], nil, by simp [Gives, untilEnd]⟩
  | cons i parts ih =>
      intro n enough
      obtain ⟨⟨reads, u, vs, same, -⟩, tail⟩ := List.forall_mem_cons.mp items
      cases n with
      | zero => cases enough
      | succ n =>
          obtain ⟨as, all, others⟩ := ih tail n (Nat.le_of_succ_le_succ enough)
          have ends : Ends opens ((parts.map tokens).flatten ++ []) :=
            Ends.nil.pieces fun us member => by
              obtain ⟨j, inside, rfl⟩ := List.mem_map.mp member
              exact (tail j inside).2
          rw [List.append_nil] at ends
          obtain ⟨a, r, first⟩ := reads _ ends
          refine ⟨a :: as, cons _ _ _ _ r all, ?_⟩
          have goes : Gives (do
              let first ← item
              let others ← untilEnd item n
              pure (first :: others)) (tokens i ++ (parts.map tokens).flatten) (a :: as) [] :=
            first.bind (others.bind .pure)
          rw [List.map_cons, List.flatten_cons]
          rw [same] at goes ⊢
          simpa [Gives, untilEnd] using goes

end

theorem Reads.as {x : Reading α} {ts : List Token} (reads : Reads x opens ts) :
    ReadsAs x opens ts fun _ => True := fun rest ends => by
  obtain ⟨a, gives⟩ := reads rest ends
  exact ⟨a, trivial, gives⟩

theorem untilBrace_gives {list : List (List Token)}
    (items : ∀ us ∈ list, Reads item opens us ∧
      ∃ t vs, us = t :: vs ∧ t.kind ≠ .rightBrace ∧ t.kind ∉ opens)
    {t : Token} (close : t.kind = .rightBrace) (other : t.kind ∉ opens) (rest : List Token)
    (n : Nat) (enough : list.length ≤ n) :
    ∃ as, Gives (untilBrace item n) (list.flatten ++ t :: rest) as (t :: rest) := by
  have each : ∀ us ∈ list, ReadsAs item opens (id us) (fun _ => True) ∧
      ∃ t vs, id us = t :: vs ∧ t.kind ≠ .rightBrace ∧ t.kind ∉ opens :=
    fun us member => ⟨(items us member).1.as, (items us member).2⟩
  obtain ⟨as, -, gives⟩ := untilBrace_each (E := fun _ _ => True) trivial
    (fun _ _ _ _ _ _ => trivial) each close other rest n enough
  exact ⟨as, by rwa [List.map_id] at gives⟩

theorem untilEnd_gives {list : List (List Token)}
    (items : ∀ us ∈ list, Reads item opens us ∧ ∃ t vs, us = t :: vs ∧ t.kind ∉ opens) (n : Nat)
    (enough : list.length ≤ n) : ∃ as, Gives (untilEnd item n) list.flatten as [] := by
  have each : ∀ us ∈ list, ReadsAs item opens (id us) (fun _ => True) ∧
      ∃ t vs, id us = t :: vs ∧ t.kind ∉ opens :=
    fun us member => ⟨(items us member).1.as, (items us member).2⟩
  obtain ⟨as, -, gives⟩ := untilEnd_each (E := fun _ _ => True) trivial
    (fun _ _ _ _ _ _ => trivial) each n enough
  exact ⟨as, by rwa [List.map_id] at gives⟩

/-- Entries are read one after the other, as long as there is room for them. -/
theorem entries_gives {tooMany : SyntaxError} (outside : Kind.comma ∉ opens)
    {others : List (List Token)}
    (behind : ∀ us ∈ others, ∃ t vs, us = t :: vs ∧ t.kind = .comma ∧ Reads item opens vs)
    {rest : List Token} (ends : Ends (.comma :: opens) rest) :
    ∀ first count n, Reads item opens first → count + others.length < maxEntries →
      others.length ≤ n →
      ∃ as, Gives (entries tooMany item n count) (first ++ (others.flatten ++ rest)) as rest := by
  induction others with
  | nil =>
      intro first count n reads room _
      obtain ⟨a, gives⟩ := reads rest (ends.sub fun k => List.mem_cons_of_mem _)
      have head : Gives (entry tooMany item count) (first ++ rest) a rest := gives.entry room
      refine ⟨[a], ?_⟩
      cases n with
      | zero => exact head.bind .pure
      | succ n => exact head.bind ((Gives.accept_none (ends.ne List.mem_cons_self)).bind .pure)
  | cons us others ih =>
      intro first count n reads room enough
      obtain ⟨⟨t, vs, rfl, comma, later⟩, tail⟩ := List.forall_mem_cons.mp behind
      simp only [List.length_cons] at room enough
      cases n with
      | zero => cases enough
      | succ n =>
          obtain ⟨a, gives⟩ := reads (t :: (vs ++ (others.flatten ++ rest)))
            (.cons (comma ▸ outside))
          have head : Gives (entry tooMany item count) _ a _ := gives.entry (by omega)
          obtain ⟨as, more⟩ := ih tail vs (count + 1) n later (by omega) (by omega)
          refine ⟨a :: as, ?_⟩
          rw [List.flatten_cons, List.append_assoc, List.cons_append]
          exact head.bind ((Gives.accept comma).bind (more.bind .pure))

end Reading
end LoxLang
