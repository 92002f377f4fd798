import LoxLang.Proofs.Writing.Giving.Statements
/-! The branch of a conditional between its question mark and its colon. An assignment is read
there. An expression with a comma is cut off at that comma, where the colon is missing. -/
namespace LoxLang

/-- An expression that is no assignment has one in front of a comma. -/
theorem spelt_expression {ts : List Token} (spelt : Spelt (.ref .expression) ts) :
    Spelt (.ref .assignment) ts ∨ ∃ us comma vs, ts = us ++ comma :: vs ∧
      Spelt (.ref .assignment) us ∧ comma.kind = .comma := by
  obtain ⟨us, vs, rfl, first, others⟩ := spelt_cons.mp (spelt_ref.mp spelt)
  obtain ⟨list, rfl, all⟩ := spelt_many (spelt_single.mp others)
  cases list with
  | nil =>
      rw [List.flatten_nil, List.append_nil]
      exact .inl first
  | cons ws list =>
      obtain ⟨xs, vs, rfl, sign, -⟩ := spelt_cons.mp (all ws List.mem_cons_self)
      obtain ⟨part, some, word⟩ := spelt_choice.mp sign
      obtain rfl := List.mem_singleton.mp some
      obtain ⟨comma, rfl, same⟩ := spelt_token.mp word
      exact .inr ⟨us, comma, vs ++ list.flatten, by simp, first, same⟩

namespace Reading
variable {α β : Type}

/-- Read from `ts` on, `x` is abandoned at `rest` with this issue there. -/
def Abandons (x : Reading α) (ts rest : List Token) (cause : SyntaxError) : Prop :=
  x ts = fail cause rest

namespace Abandons
variable {x : Reading α} {f : α → Reading β} {ts mid rest : List Token} {a : α}
  {cause : SyntaxError}

theorem bind (abandons : Abandons x ts rest cause) : Abandons (x >>= f) ts rest cause := by
  unfold Abandons at abandons ⊢
  simp only [Bind.bind, abandons, fail]

theorem bind_behind (first : Gives x ts a mid) (second : Abandons (f a) mid rest cause) :
    Abandons (x >>= f) ts rest cause := first.bind_eq.trans second

theorem expect {t : Token} {kind : Kind} (other : t.kind ≠ kind) :
    Abandons (Reading.expect kind cause) (t :: ts) (t :: ts) cause := by
  simp only [Abandons, Reading.expect, if_neg other]

end Abandons

section
variable {n : Nat} {cs : List Token} {question : Token}

/-- Between question mark and colon nothing is read beyond a comma. -/
theorem conditional_cut {us vs : List Token} {comma : Token} (condition : Spelt (.ref .logicOr) cs)
    (asked : question.kind = .question) (branch : Spelt (.ref .assignment) us)
    (same : comma.kind = .comma) (short : cs.length ≤ n + 1) (within : us.length ≤ n) (m : Nat) :
    Abandons (conditional (n + 1) (assignment n) (m + 1))
      (cs ++ question :: (us ++ comma :: vs)) (comma :: vs) .conditionalColon := by
  have nested := assignment_complete n
  obtain ⟨c, first⟩ := disjunction_complete nested (Nat.le_refl (n + 1)) cs short condition
    (question :: (us ++ comma :: vs)) (.cons (by rw [asked]; decide))
  obtain ⟨b, second⟩ := nested us within branch (comma :: vs) (.cons (by rw [same]; decide))
  exact .bind_behind first (.bind_behind (.accept asked) (.bind_behind second
    (Abandons.expect (by rw [same]; decide)).bind))

end

end Reading

namespace Reading
variable {α : Type} {item : Reading α} {t : Token} {ts : List Token} {a : α}

/-- The issues of the first item come first. -/
theorem untilEnd_issues (value : (item (t :: ts)).value? = some a) (n : Nat) :
    (item (t :: ts)).issues <+: (untilEnd item (n + 1) (t :: ts)).issues := by
  have step : untilEnd item (n + 1) (t :: ts) = (do
      let first ← item
      let others ← untilEnd item n
      pure (first :: others)) (t :: ts) := rfl
  rw [step, bind_run _ _ _ value]
  exact List.prefix_append _ _

/-- Tokens behind a disjunction are tokens of an expression statement. -/
theorem opening {cs : List Token} (spelt : Spelt (.ref .logicOr) cs) (rest : List Token) :
    ∃ t ts, cs ++ rest = t :: ts ∧ t.kind ∈ expressionStarts := by
  obtain ⟨t, vs, rfl, start⟩ := spelt.starts rfl
  exact ⟨t, vs ++ rest, rfl, start⟩

/-- What starts like an expression is read as a statement that is one. -/
theorem declaration_expression (start : t.kind ∈ expressionStarts) (n : Nat) :
    declaration (n + 1) (t :: ts) = recover (expressionStatement (n + 1)) (t :: ts) := by
  have inside : t.kind ∈ statementStarts := List.mem_append_right _ start
  simp only [declaration, recover, declarationLevel_statement inside,
    statementLevel_expression start]

end Reading

namespace Reading
variable {x : Reading RawExpr} {phrase : Nonterminal} {level : Level} {opens : List Kind}
  {us : List Token} {size : Nat}

/-- What spells a phrase that is read in full writes the expression that it is read as. -/
theorem Complete.written (complete : Complete x phrase opens size) (short : us.length ≤ size)
    (takes : Takes x (WrittenAt level)) (spelt : Spelt (.ref phrase) us) :
    ∃ e, WrittenAt level e us := by
  obtain ⟨a, gives⟩ := complete us short spelt [] .nil
  obtain ⟨e, used, -, split, stands⟩ := takes (us ++ []) (congrArg Outcome.issues gives)
  have left : (x (us ++ [])).rest = [] := congrArg Outcome.rest gives
  rw [left, List.append_nil, List.append_nil] at split
  exact ⟨e, split ▸ stands⟩

theorem disjunction_written (spelt : Spelt (.ref .logicOr) us) :
    ∃ e, WrittenAt .disjunction e us :=
  (disjunction_complete (assignment_complete us.length) (Nat.le_refl _)).written (Nat.le_succ _)
    (written_disjunction (written_assignment us.length)) spelt

theorem assignment_written (spelt : Spelt (.ref .assignment) us) :
    ∃ e, WrittenAt .assignment e us :=
  (assignment_complete us.length).written (Nat.le_refl _) (written_assignment us.length) spelt

theorem conditional_written (spelt : Spelt (.ref .conditional) us) :
    ∃ e, WrittenAt .conditional e us := by
  have room := Nat.le_succ us.length
  exact (conditional_complete (assignment_complete us.length) (Nat.le_refl _) us.length us.length
    (Nat.le_refl _) room).written (Nat.le_refl _)
      (written_conditional (written_assignment us.length) us.length) spelt

end Reading

/-- With a semicolon behind it an expression is read back from its tokens. -/
theorem parse_expression {e : RawExpr} {us : List Token} {close : Token} (written : Written e us)
    (closed : close.kind = .semicolon) : parse (us ++ [close]) = ⟨[.expression e], []⟩ := by
  have all : ∀ part ∈ [((.expression e : RawStmt), us ++ [close])], WrittenStmt part.1 part.2 :=
    List.forall_mem_singleton.mpr (.expression written closed)
  simpa using parse_of_written all

section
open Reading
variable {cs bs es : List Token} {question colon close : Token}

/-- A statement of that form is read as one conditional if an assignment stands before its
colon. Condition and branches are what they are read as by themselves. -/
theorem parse_conditional (condition : Spelt (.ref .logicOr) cs)
    (asked : question.kind = .question) (branch : Spelt (.ref .assignment) bs)
    (parted : colon.kind = .colon) (other : Spelt (.ref .conditional) es)
    (closed : close.kind = .semicolon) : ∃ c b e,
      parse (cs ++ [close]) = ⟨[.expression c], []⟩ ∧
      parse (bs ++ [close]) = ⟨[.expression b], []⟩ ∧
      parse (es ++ [close]) = ⟨[.expression e], []⟩ ∧
      parse (cs ++ question :: (bs ++ colon :: (es ++ [close]))) =
        ⟨[.expression (.conditional c b e)], []⟩ := by
  obtain ⟨c, first, sits⟩ := disjunction_written condition
  obtain ⟨b, second, sits'⟩ := assignment_written branch
  obtain ⟨e, third, sits''⟩ := conditional_written other
  have whole := parse_expression (.conditional first sits asked second sits' parted third sits'')
    closed
  simp only [List.append_assoc, List.cons_append] at whole
  exact ⟨c, b, e, parse_expression first closed, parse_expression second closed,
    parse_expression third closed, whole⟩

/-- Behind an assignment a comma is reported, whatever follows it. -/
theorem parse_comma {comma : Token} (condition : Spelt (.ref .logicOr) cs)
    (asked : question.kind = .question) (branch : Spelt (.ref .assignment) bs)
    (same : comma.kind = .comma) (rest : List Token) : [⟨some comma, .conditionalColon⟩] <+:
      (parse (cs ++ question :: (bs ++ comma :: rest))).issues := by
  obtain ⟨t, ts, whole, start⟩ := opening condition (question :: (bs ++ comma :: rest))
  have sizes := congrArg List.length whole
  simp only [List.length_append, List.length_cons] at sizes
  have cut : Abandons (conditional (ts.length + 1) (assignment ts.length) (ts.length + 1))
      (cs ++ question :: (bs ++ comma :: rest)) (comma :: rest) .conditionalColon :=
    conditional_cut condition asked branch same (by omega) (by omega) ts.length
  rw [whole] at cut ⊢
  have value : Abandons (expressionStatement (ts.length + 1)) (t :: ts) (comma :: rest)
    .conditionalColon := cut.bind.bind.bind
  have declared : declaration (ts.length + 1) (t :: ts) =
      ⟨some none, resume (comma :: rest), [⟨some comma, .conditionalColon⟩]⟩ := by
    unfold Abandons at value
    rw [declaration_expression start]
    simp only [recover, value, fail, List.head?_cons]
  have issues := untilEnd_issues (congrArg Outcome.value? declared) ts.length
  have read : (parse (t :: ts)).issues =
      (untilEnd (declaration (ts.length + 1)) (ts.length + 1) (t :: ts)).issues := by
    rw [parse, List.length_cons, program, bind_pure_run]
  rw [declared] at issues
  rwa [read]

/-- A conditional statement is read without issues exactly if an assignment stands before its
colon. Then it is read as the one conditional of what its condition and its branches are read as by
themselves. Any other expression there is cut off at a comma, and that is reported first. -/
theorem branch_quiet_iff (condition : Spelt (.ref .logicOr) cs) (asked : question.kind = .question)
    (branch : Spelt (.ref .expression) bs) (parted : colon.kind = .colon)
    (other : Spelt (.ref .conditional) es) (closed : close.kind = .semicolon) :
    let read := parse (cs ++ question :: (bs ++ colon :: (es ++ [close])))
    (read.issues = [] ↔ Spelt (.ref .assignment) bs) ∧
      (read.issues = [] → ∃ c b e, parse (cs ++ [close]) = ⟨[.expression c], []⟩ ∧
        parse (bs ++ [close]) = ⟨[.expression b], []⟩ ∧
        parse (es ++ [close]) = ⟨[.expression e], []⟩ ∧
        read.program = [.expression (.conditional c b e)]) ∧
      (read.issues ≠ [] → ∃ comma ∈ bs, comma.kind = .comma ∧
        [⟨some comma, .conditionalColon⟩] <+: read.issues) := by
  intro read
  have whole (assigned : Spelt (.ref .assignment) bs) :=
    parse_conditional condition asked assigned parted other closed
  rcases spelt_expression branch with assigned | ⟨us, comma, vs, rfl, first, same⟩
  · obtain ⟨c, b, e, first, second, third, done⟩ := whole assigned
    have quiet : read.issues = [] := congrArg Parse.issues done
    exact ⟨iff_of_true quiet assigned,
      fun _ => ⟨c, b, e, first, second, third, congrArg Parse.program done⟩, absurd quiet⟩
  · have cut : [⟨some comma, .conditionalColon⟩] <+: read.issues := by
      have issues := parse_comma condition asked first same (vs ++ colon :: (es ++ [close]))
      simpa only [read, List.append_assoc, List.cons_append] using issues
    have loud : read.issues ≠ [] := fun quiet => by
      rw [quiet] at cut
      cases List.prefix_nil.mp cut
    refine ⟨iff_of_false loud fun assigned => ?_, fun quiet => absurd quiet loud, fun _ =>
      ⟨comma, by simp, same, cut⟩⟩
    obtain ⟨c, b, e, -, -, -, done⟩ := whole assigned
    exact loud (congrArg Parse.issues done)

end

/-- A constant or a name by itself is a phrase of every level. -/
theorem spelt_word {t : Token} (known : t.kind ∈ [Kind.trueWord, .falseWord, .nilWord, .thisWord,
    .number, .text, .identifier]) : Spelt (.ref .logicOr) [t] ∧ Spelt (.ref .conditional) [t] ∧
      Spelt (.ref .assignment) [t] := by
  have call : Phrase .call [t.kind] := .ref
    ((Derives.sequence (Reading.phrase_primary known) (.sequence .none .empty)).cast (by simp))
  have unary : Phrase .unary [t.kind] := .ref (.choice (p := .ref .call) (by simp) call)
  have factor : Phrase .factor [t.kind] := .operand_first rfl unary
  have term : Phrase .term [t.kind] := .operand_first rfl factor
  have comparison : Phrase .comparison [t.kind] := .operand_first rfl term
  have equality : Phrase .equality [t.kind] := .operand_first rfl comparison
  have logicAnd : Phrase .logicAnd [t.kind] := .operand_first rfl equality
  have logicOr : Phrase .logicOr [t.kind] := .operand_first rfl logicAnd
  have conditional : Phrase .conditional [t.kind] := .ref
    ((Derives.sequence logicOr (.sequence .absent .empty)).cast (by simp))
  exact ⟨logicOr, conditional, .ref (.choice (p := .ref .conditional) (by simp) conditional)⟩

/-- Two words with a comma between them are an expression. -/
theorem spelt_comma {t comma u : Token} (same : comma.kind = .comma)
    (known : ∀ v ∈ [t, u], v.kind ∈ [Kind.trueWord, .falseWord, .nilWord, .thisWord, .number, .text,
      .identifier]) : Spelt (.ref .expression) [t, comma, u] := by
  obtain ⟨first, second, -⟩ := by simpa only [List.forall_mem_cons] using known
  have left : Phrase .expression [t.kind] := .operand_first rfl (spelt_word first).2.2
  have whole : Phrase .expression ([t.kind] ++ Kind.comma :: [u.kind]) :=
    .operand_next rfl left List.mem_cons_self (spelt_word second).2.2
  exact whole.cast (by simp [same])

/-- The tokens of `true ? false, nil : nil;`. -/
def commaBranch : List Token :=
  [⟨.trueWord, "true", ⟨1, 1⟩⟩, ⟨.question, "?", ⟨1, 6⟩⟩, ⟨.falseWord, "false", ⟨1, 8⟩⟩,
    ⟨.comma, ",", ⟨1, 13⟩⟩, ⟨.nilWord, "nil", ⟨1, 15⟩⟩, ⟨.colon, ":", ⟨1, 19⟩⟩,
    ⟨.nilWord, "nil", ⟨1, 21⟩⟩, ⟨.semicolon, ";", ⟨1, 24⟩⟩]

theorem branch_quiet_iff_comma : ¬Spelt (.ref .assignment) ((commaBranch.drop 2).take 3) := by
  have loud : (parse commaBranch).issues ≠ [] := by decide +kernel
  have condition : Spelt (.ref .logicOr) (commaBranch.take 1) := (spelt_word (by decide)).1
  have other : Spelt (.ref .conditional) ((commaBranch.drop 6).take 1) :=
    (spelt_word (by decide)).2.1
  have comma : Spelt (.ref .expression) ((commaBranch.drop 2).take 3) :=
    spelt_comma rfl (by decide)
  exact fun assigned =>
    loud ((branch_quiet_iff condition rfl comma rfl other rfl).1.mpr assigned)

/-- An expression before the colon is not always read. -/
theorem branch_cut_off : Spelt (.ref .logicOr) (commaBranch.take 1) ∧
    Spelt (.ref .expression) ((commaBranch.drop 2).take 3) ∧
    Spelt (.ref .conditional) ((commaBranch.drop 6).take 1) ∧
    parse commaBranch = ⟨[], [⟨commaBranch[3]?, .conditionalColon⟩]⟩ := by
  refine ⟨(spelt_word (by decide)).1, spelt_comma rfl (by decide), (spelt_word (by decide)).2.1, ?_⟩
  rfl

end LoxLang
