import LoxLang.Proofs.Grammar.Exact.Statements
import LoxLang.Proofs.Writing.Giving
import LoxLang.Proofs.Writing.Taking.Statements
/-! Statements and programs are read back from the tokens they are written by. -/
namespace LoxLang
namespace Reading

section
variable {budget : Nat}

theorem expression_written {e : RawExpr} {us : List Token} (written : Written e us)
    (short : us.length ≤ budget) {t : Token} {k : Kind} (same : t.kind = k)
    (outside : k ∉ expressionOpens) (rest : List Token) :
    Gives (expression budget) (us ++ t :: rest) e (t :: rest) :=
  expression_exact budget e us ⟨written, Nat.zero_le _⟩ short (t :: rest) (.cons (same ▸ outside))

end

/-- Items in braces are read back one after the other. -/
theorem untilBrace_exact {α : Type} {item : Reading α} {β : Type} {value : β → α}
    (opens : List Kind) {tokens : β → List Token} {parts : List β}
    (items : ∀ i ∈ parts, (∀ rest, Ends opens rest → Gives item (tokens i ++ rest) (value i) rest) ∧
      ∃ t vs, tokens i = t :: vs ∧ t.kind ≠ .rightBrace ∧ t.kind ∉ opens)
    {t : Token} (close : t.kind = .rightBrace) (other : t.kind ∉ opens) (rest : List Token)
    {n : Nat} (enough : parts.length ≤ n) : Gives (untilBrace item n)
      ((parts.map tokens).flatten ++ t :: rest) (parts.map value) (t :: rest) := by
  have each : ∀ i ∈ parts, ReadsAs item opens (tokens i) (· = value i) ∧
      ∃ t vs, tokens i = t :: vs ∧ t.kind ≠ .rightBrace ∧ t.kind ∉ opens :=
    fun i member => ⟨fun rest ends => ⟨_, rfl, (items i member).1 rest ends⟩, (items i member).2⟩
  obtain ⟨as, rfl, gives⟩ := untilBrace_each (E := fun is as => as = is.map value) rfl
    (by rintro i _ is _ rfl rfl; rfl) each close other rest n enough
  exact gives

theorem untilEnd_exact {α : Type} {item : Reading α} {β : Type} {value : β → α}
    (opens : List Kind) {tokens : β → List Token} {parts : List β}
    (items : ∀ i ∈ parts, (∀ rest, Ends opens rest → Gives item (tokens i ++ rest) (value i) rest) ∧
      ∃ t vs, tokens i = t :: vs ∧ t.kind ∉ opens) {n : Nat} (enough : parts.length ≤ n) :
    Gives (untilEnd item n) (parts.map tokens).flatten (parts.map value) [] := by
  have each : ∀ i ∈ parts, ReadsAs item opens (tokens i) (· = value i) ∧
      ∃ t vs, tokens i = t :: vs ∧ t.kind ∉ opens :=
    fun i member => ⟨fun rest ends => ⟨_, rfl, (items i member).1 rest ends⟩, (items i member).2⟩
  obtain ⟨as, rfl, gives⟩ := untilEnd_each (E := fun is as => as = is.map value) rfl
    (by rintro i _ is _ rfl rfl; rfl) each n enough
  exact gives

/-- From tokens that write a statement, no declaration, the reading makes that statement. -/
def ExactStmt (x : Reading RawStmt) (size : Nat) : Prop :=
  ∀ s us, WrittenStmt s us → s.binds = none → us.length ≤ size → ∀ rest, Trails s rest →
    Gives x (us ++ rest) s rest

/-- From tokens that write a declaration or statement the reading makes that. -/
def ExactDecl (x : Reading (Option RawStmt)) (size : Nat) : Prop :=
  ∀ s us, WrittenStmt s us → us.length ≤ size → ∀ rest, Trails s rest →
    Gives x (us ++ rest) (some s) rest

section
variable {budget size : Nat} {declaration : Reading (Option RawStmt)}

/-- What a statement starts with closes no block and goes on with no `if`. -/
theorem start_apart {s : RawStmt} {us : List Token} (written : WrittenStmt s us) :
    ∃ t vs, us = t :: vs ∧ t.kind ≠ .rightBrace ∧ t.kind ∉ [Kind.elseWord] := by
  obtain ⟨t, vs, rfl, start, -⟩ := written.starts
  refine ⟨t, vs, rfl, fun same => absurd (same ▸ start) (by decide), fun same => ?_⟩
  exact absurd (List.mem_singleton.mp same ▸ start) (by decide)

/-- The pieces of a list of tokens, and how many there are. -/
theorem parts_length {β : Type} (tokens : β → List Token) (parts : List β)
    (some : ∀ i ∈ parts, tokens i ≠ []) : parts.length ≤ (parts.map tokens).flatten.length ∧
      ∀ i ∈ parts, (tokens i).length ≤ (parts.map tokens).flatten.length := by
  constructor
  · have count : (parts.map tokens).length ≤ _ := length_le_flatten fun us member => by
      obtain ⟨i, inside, rfl⟩ := List.mem_map.mp member
      exact some i inside
    rwa [List.length_map] at count
  · exact fun i member => length_le_of_mem (List.mem_map_of_mem member)

theorem block_exact (inner : ExactDecl declaration size) {parts : List (RawStmt × List Token)}
    (all : ∀ part ∈ parts, WrittenStmt part.1 part.2) {stop : Token}
    (closed : stop.kind = .rightBrace) (short : (parts.map Prod.snd).flatten.length ≤ size)
    (enough : size ≤ budget) (rest : List Token) :
    Gives (block budget declaration) ((parts.map Prod.snd).flatten ++ stop :: rest)
      (parts.map Prod.fst) rest := by
  obtain ⟨count, within⟩ := parts_length Prod.snd parts fun part member => by
    obtain ⟨t, vs, same, -⟩ := (all part member).starts
    simp [same]
  have items : ∀ part ∈ parts, (∀ rest, Ends [.elseWord] rest →
      Gives declaration (part.2 ++ rest) (some part.1) rest) ∧
        ∃ t vs, part.2 = t :: vs ∧ t.kind ≠ .rightBrace ∧ t.kind ∉ [Kind.elseWord] :=
    fun part member => ⟨fun rest ends => inner _ _ (all part member)
      (Nat.le_trans (within part member) short) rest fun _ => ends, start_apart (all part member)⟩
  have found := untilBrace_exact [.elseWord] items closed (by rw [closed]; decide) rest
    (Nat.le_trans count (Nat.le_trans short enough))
  have body : (parts.map fun part => some part.1).filterMap id = parts.map Prod.fst := by
    simp [List.filterMap_map]
  rw [← body]
  exact found.bind ((Gives.expect closed).bind .pure)

/-- The parameters of a routine are read up to the closing parenthesis. -/
theorem parameters_exact {r : RoutineText} (formed : r.Formed) (short : r.list.length ≤ budget)
    (rest : List Token) {α : Type} {f : List Name → Reading α} {a : α} {rest' : List Token}
    (after : Gives (f (r.params.map Token.name)) (r.closing :: rest) a rest') :
    Gives (nextIs .rightParen >>= fun none => if none then pure [] >>= f
      else entries .tooManyParameters (expectName .parameterName) budget 0 >>= f)
      (r.list ++ r.closing :: rest) a rest' := by
  obtain ⟨-, -, params, room, joined, closing, -, -⟩ := formed
  generalize r.params = ts, r.list = list at *
  cases ts with
  | nil =>
      cases joined
      exact (Gives.nextIs closing).bind (Gives.pure.bind after)
  | cons t ts =>
      have pieces : Joined (((t :: ts).map fun t => (t.name, [t])).map Prod.snd) list := by
        rw [List.map_map]
        exact joined
      obtain ⟨count, -⟩ := joined_length pieces (by simp)
      rw [List.length_map] at count
      have items : ∀ part ∈ (t :: ts).map fun t => (t.name, [t]), ∀ rest, Ends [] rest →
          Gives (expectName .parameterName) (part.2 ++ rest) part.1 rest := by
        rintro _ member rest -
        obtain ⟨u, inside, rfl⟩ := List.mem_map.mp member
        exact .expectName (params u inside)
      have names : Gives (entries .tooManyParameters (expectName .parameterName) budget 0)
          (list ++ r.closing :: rest) _ (r.closing :: rest) :=
        entries_exact (by decide) items pieces (.cons (by rw [closing]; decide)) 0 budget (by simp)
          (by rw [List.length_map]; omega) (by rw [List.length_map]; omega)
      rw [List.map_map] at names
      obtain ⟨more, rfl⟩ := joined.first
      have other : t.kind ≠ .rightParen := by
        rw [params t List.mem_cons_self]
        decide
      exact (Gives.nextIs_not other).bind (names.bind after)

theorem routine_exact (inner : ExactDecl declaration size) {r : RoutineText} (formed : r.Formed)
    (all : ∀ part ∈ r.parts, WrittenStmt part.1 part.2) (short : r.tokens.length ≤ size + 1)
    (enough : size ≤ budget) (kind : RoutineKind) (rest : List Token) :
    Gives (routine budget declaration kind) (r.tokens ++ rest) r.routine rest := by
  simp only [RoutineText.tokens, List.length_cons, List.length_append] at short
  have body := block_exact inner all formed.stop (by omega) enough rest
  simp only [RoutineText.tokens, List.cons_append, List.append_assoc, List.nil_append]
  exact (Gives.expectName formed.name).bind ((Gives.expect formed.opening).bind
    (parameters_exact formed (by omega) _ ((Gives.expect formed.closing).bind
      ((Gives.expect formed.start).bind (body.bind .pure)))))

theorem superclass_exact {parent : Option (Superclass Unit)} {above : List Token}
    (written : WrittenAbove parent above) {t : Token} (other : t.kind ≠ .less)
    (rest : List Token) : Gives superclass (above ++ t :: rest) parent (t :: rest) := by
  cases written with
  | none =>
      refine (Gives.accept_none ?_).bind .pure
      rintro _ ⟨⟩
      exact other
  | some less name => exact (Gives.accept less).bind ((Gives.expectName name).bind .pure)

theorem methods_exact (inner : ExactDecl declaration size) {methods : List RoutineText}
    (formed : ∀ r ∈ methods, r.Formed)
    (all : ∀ r ∈ methods, ∀ part ∈ r.parts, WrittenStmt part.1 part.2) {stop : Token}
    (closed : stop.kind = .rightBrace)
    (short : (methods.map RoutineText.tokens).flatten.length ≤ size) (enough : size ≤ budget)
    (rest : List Token) : Gives (untilBrace (routine budget declaration .method) budget)
      ((methods.map RoutineText.tokens).flatten ++ stop :: rest)
      (methods.map RoutineText.routine) (stop :: rest) := by
  obtain ⟨count, within⟩ := parts_length RoutineText.tokens methods
    fun r _ => by simp [RoutineText.tokens]
  refine untilBrace_exact [] (fun r member => ⟨fun rest _ => ?_, ?_⟩) closed
    List.not_mem_nil rest (Nat.le_trans count (Nat.le_trans short enough))
  · have part := within r member
    exact routine_exact inner (formed r member) (all r member) (by omega) enough .method rest
  · exact ⟨_, _, rfl, by rw [(formed r member).name]; decide, List.not_mem_nil⟩

end

/-! Statements and declarations inside each other. -/

section
variable {statement : Reading RawStmt} {declaration : Reading (Option RawStmt)} {n : Nat}

theorem statementLevel_exact (statements : ExactStmt statement n)
    (declarations : ExactDecl declaration n) :
    ExactStmt (statementLevel (n + 1) statement declaration) (n + 1) := by
  intro s us written binds short rest trails
  cases written with
  | @expression e us stop value ended =>
      simp only [List.length_append, List.length_singleton] at short
      have gives := expression_written value (show us.length ≤ n + 1 by omega) ended
        (by decide) rest
      have whole : Gives (expressionStatement (n + 1)) (us ++ stop :: rest) (.expression e) rest :=
        gives.bind ((Gives.expect ended).bind .pure)
      obtain ⟨t, vs, rfl, start, -⟩ := value.starts
      rw [List.append_assoc]
      exact (statementLevel_expression start _).trans whole
  | @print word stop e us same value ended =>
      simp only [List.length_cons, List.length_append] at short
      have gives := expression_written value (show us.length ≤ n + 1 by omega) ended
        (by decide) rest
      have whole : Gives (printStatement (n + 1) word.pos.line) (us ++ stop :: rest)
        (.print word.pos.line e) rest := gives.bind ((Gives.expect ended).bind .pure)
      simpa [Gives, statementLevel, same] using whole
  | @block start stop parts same all closed =>
      simp only [List.length_cons, List.length_append] at short
      have gives := block_exact declarations all closed (by omega) (Nat.le_succ n) rest
      have whole : Gives (Stmt.block start.pos.line <$> block (n + 1) declaration)
        ((parts.map Prod.snd).flatten ++ stop :: rest) _ rest := gives.map
      simpa [Gives, statementLevel, same] using whole
  | @ifThen word start stop c s us vs same opened condition closed branch plain =>
      simp only [List.length_cons, List.length_append] at short
      have test := expression_written condition (show us.length ≤ n + 1 by omega) closed
        (by decide) (vs ++ rest)
      have stops : Ends [.elseWord] rest := trails rfl
      have first := statements s vs branch plain (by omega) rest fun _ => stops
      have whole : Gives (ifStatement (n + 1) statement word.pos.line)
          (start :: (us ++ stop :: (vs ++ rest))) (.ifThen word.pos.line c s) rest :=
        (Gives.expect opened).bind (test.bind ((Gives.expect closed).bind (first.bind
          ((Gives.accept_none (stops.ne List.mem_cons_self)).bind .pure))))
      simpa [Gives, statementLevel, same] using whole
  | @ifElse word start stop other c s s' us vs ws same opened condition closed branch plain shut
      elsewise branch' plain' =>
      simp only [List.length_cons, List.length_append] at short
      have test := expression_written condition (show us.length ≤ n + 1 by omega) closed
        (by decide) (vs ++ other :: (ws ++ rest))
      have first := statements s vs branch plain (by omega) (other :: (ws ++ rest))
        (Trails.shut shut _)
      have second := statements s' ws branch' plain' (by omega) rest trails
      have whole : Gives (ifStatement (n + 1) statement word.pos.line)
          (start :: (us ++ stop :: (vs ++ other :: (ws ++ rest))))
          (.ifElse word.pos.line c s s') rest :=
        (Gives.expect opened).bind (test.bind ((Gives.expect closed).bind (first.bind
          ((Gives.accept elsewise).bind (second.bind .pure)))))
      simpa [Gives, statementLevel, same] using whole
  | @loop word start stop c s us vs same opened condition closed body plain =>
      simp only [List.length_cons, List.length_append] at short
      have test := expression_written condition (show us.length ≤ n + 1 by omega) closed
        (by decide) (vs ++ rest)
      have inner := statements s vs body plain (by omega) rest trails
      have whole : Gives (whileStatement (n + 1) statement word.pos.line)
          (start :: (us ++ stop :: (vs ++ rest))) (.loop word.pos.line c s) rest :=
        (Gives.expect opened).bind (test.bind ((Gives.expect closed).bind (inner.bind .pure)))
      simpa [Gives, statementLevel, same] using whole
  | @exit word stop same ended =>
      have absent : Gives (optionalExpression (n + 1) .semicolon) (stop :: rest) none
        (stop :: rest) := (Gives.nextIs ended).bind .pure
      have whole : Gives (returnStatement (n + 1) word.pos) (stop :: rest) (.ret word.pos none)
        rest := absent.bind ((Gives.expect ended).bind .pure)
      simpa [Gives, statementLevel, same] using whole
  | @ret word stop e us same value ended =>
      simp only [List.length_cons, List.length_append] at short
      have gives := expression_written value (show us.length ≤ n + 1 by omega) ended
        (by decide) rest
      obtain ⟨t, vs, rfl, start, -⟩ := value.starts
      have other : t.kind ≠ .semicolon := fun same => absurd (same ▸ start) (by decide)
      have found : Gives (optionalExpression (n + 1) .semicolon) (t :: vs ++ stop :: rest) (some e)
          (stop :: rest) := (Gives.nextIs_not other).bind gives.map
      have whole : Gives (returnStatement (n + 1) word.pos) (t :: vs ++ stop :: rest)
        (.ret word.pos (some e)) rest := found.bind ((Gives.expect ended).bind .pure)
      simpa [Gives, statementLevel, same] using whole
  | declare | define | function | classDecl => cases binds

theorem declarationLevel_exact (statements : ExactStmt statement n)
    (declarations : ExactDecl declaration n) {s : RawStmt} {us : List Token}
    (written : WrittenStmt s us) (short : us.length ≤ n + 1) (rest : List Token)
    (trails : Trails s rest) :
    Gives (declarationLevel (n + 1) statement declaration) (us ++ rest) s rest := by
  cases binds : s.binds with
  | none =>
      have gives := statementLevel_exact statements declarations s us written binds short rest trails
      obtain ⟨t, vs, rfl, -, start⟩ := written.starts
      exact (declarationLevel_statement (start binds) _).trans gives
  | some name =>
      cases written with
      | @declare word name stop same identifier ended =>
          have absent : Gives (accept? .equal) (stop :: rest) none (stop :: rest) :=
            .accept_none fun _ head => by cases head; rw [ended]; decide
          have whole : Gives (variableDeclaration (n + 1)) (name :: stop :: rest)
              (.var name.name none) rest :=
            (Gives.expectName identifier).bind (absent.bind ((Gives.expect ended).bind .pure))
          simpa [Gives, declarationLevel, same] using whole
      | @define word name equals stop e us same identifier sign value ended =>
          simp only [List.length_cons, List.length_append] at short
          have gives := expression_written value (show us.length ≤ n + 1 by omega) ended
            (by decide) rest
          have whole : Gives (variableDeclaration (n + 1))
              (name :: equals :: (us ++ stop :: rest)) (.var name.name (some e)) rest :=
            (Gives.expectName identifier).bind ((Gives.accept sign).bind (gives.bind
              ((Gives.expect ended).bind .pure)))
          simpa [Gives, declarationLevel, same] using whole
      | @function word r same formed all =>
          rw [List.length_cons] at short
          have gives := routine_exact declarations formed all (by omega) (Nat.le_succ n) .function
            rest
          have whole : Gives (Stmt.function <$> routine (n + 1) declaration .function)
            (r.tokens ++ rest) (.function r.routine) rest := gives.map
          simpa [Gives, declarationLevel, same] using whole
      | @classDecl word name start stop parent above methods same identifier inherits opened formed
          all closed =>
          simp only [List.length_cons, List.length_append] at short
          have gives := methods_exact declarations formed all closed (by omega) (Nat.le_succ n) rest
          have parents := superclass_exact inherits (show start.kind ≠ .less by rw [opened]; decide)
            ((methods.map RoutineText.tokens).flatten ++ stop :: rest)
          have whole : Gives (classDeclaration (n + 1) declaration) (name :: (above ++ start ::
              ((methods.map RoutineText.tokens).flatten ++ stop :: rest)))
              (.classDecl name.name parent (methods.map RoutineText.routine)) rest :=
            (Gives.expectName identifier).bind (parents.bind ((Gives.expect opened).bind
              (gives.bind ((Gives.expect closed).bind .pure))))
          simpa [Gives, declarationLevel, same] using whole
      | _ => cases binds

end

theorem statement_declaration_exact (n : Nat) :
    ExactStmt (statement n) n ∧ ExactDecl (declaration n) n := by
  induction n with
  | zero =>
      have none {s : RawStmt} {us : List Token} (written : WrittenStmt s us)
          (short : us.length ≤ 0) : False := by
        obtain ⟨t, vs, rfl, -⟩ := written.starts
        cases short
      exact ⟨fun s us written _ short => (none written short).elim,
        fun s us written short => (none written short).elim⟩
  | succ n ih =>
      exact ⟨statementLevel_exact ih.1 ih.2, fun s us written short rest trails =>
        (declarationLevel_exact ih.1 ih.2 written short rest trails).recover⟩

end Reading

/-- A program is read back from the tokens that its statements are written by. -/
theorem parse_of_written {parts : List (RawStmt × List Token)}
    (all : ∀ part ∈ parts, WrittenStmt part.1 part.2) :
    parse (parts.map Prod.snd).flatten = ⟨parts.map Prod.fst, []⟩ := by
  obtain ⟨count, within⟩ := Reading.parts_length Prod.snd parts fun part member => by
    obtain ⟨t, vs, same, -⟩ := (all part member).starts
    simp [same]
  have found := Reading.untilEnd_exact [.elseWord] (fun part member =>
    ⟨fun rest ends => (Reading.statement_declaration_exact _).2 _ _ (all part member)
      (within part member) rest fun _ => ends, by
        obtain ⟨t, vs, same, -, apart⟩ := Reading.start_apart (all part member)
        exact ⟨t, vs, same, apart⟩⟩) count
  have whole : Reading.Gives (Reading.program _) _ _ [] := found.bind .pure
  rw [parse, whole]
  simp [List.filterMap_map]

end LoxLang
