import LoxLang.Proofs.Printing.Readable
import LoxLang.Proofs.Writing.Parsing
/-! The printed tree determines the program. Its lines are the texts of readable outlines, so that
they give the outlines back, and these are read back as the statements. -/
namespace LoxLang

/-! ### Lines -/

namespace Outline

theorem intercalate_line (cs : List Char) (rest : List (List Char)) :
    ['\n'].intercalate (cs :: rest)
      = cs ++ if rest.isEmpty then [] else '\n' :: ['\n'].intercalate rest := by
  cases rest with
  | nil => simp
  | cons ds rest => simp [List.intercalate_cons_cons]

theorem line_seam (rest : List (List Char)) :
    Seam (if rest.isEmpty then [] else '\n' :: ['\n'].intercalate rest) := by
  split
  · exact seam_nil
  · exact seam_cons (by decide) _

/-- Lines of readable outlines are the lines of no other ones. -/
theorem lines_unique {ps qs : List Outline} (each : ∀ o ∈ ps, Readable o)
    (others : ∀ o ∈ qs, Readable o)
    (same : ['\n'].intercalate (ps.map chars) = ['\n'].intercalate (qs.map chars)) : ps = qs := by
  induction ps generalizing qs with
  | nil =>
    cases qs with
    | nil => rfl
    | cons q qs =>
      obtain ⟨c, tail, whole, -⟩ := (others q (by simp)).starts
      rw [List.map_cons, intercalate_line, whole] at same
      cases same
  | cons p ps ih =>
    obtain ⟨readable, each⟩ := List.forall_mem_cons.mp each
    cases qs with
    | nil =>
      obtain ⟨c, tail, whole, -⟩ := readable.starts
      rw [List.map_cons, intercalate_line, whole] at same
      cases same
    | cons q qs =>
      obtain ⟨other, more⟩ := List.forall_mem_cons.mp others
      rw [List.map_cons, List.map_cons, intercalate_line, intercalate_line] at same
      obtain ⟨equal, later⟩ := readable.clear q _ _ other (line_seam _) (line_seam _) same
      cases ps with
      | nil =>
        cases qs with
        | nil => rw [equal]
        | cons q' qs => cases later
      | cons p' ps =>
        cases qs with
        | nil => cases later
        | cons q' qs => rw [equal, ih each more (List.cons.inj later).2]

end Outline

open Outline

theorem outlineBody_eq (ss : List RawStmt) : outlineBody ss = ss.map Stmt.outline := by
  induction ss with
  | nil => rfl
  | cons s rest ih => rw [outlineBody, ih, List.map_cons]

theorem programText_toList (ss : List RawStmt) :
    (programText ss).toList = ['\n'].intercalate ((outlineBody ss).map chars) := by
  have lines : (ss.map Stmt.text).map String.toList = (outlineBody ss).map chars := by
    simp [outlineBody_eq, Stmt.text]
  rw [programText, String.toList_intercalate, lines]
  rfl

/-- Programs of printable parts with one text are the same but for their places. -/
theorem programText_unique {ss tt : List RawStmt} (printable : Printable (partsOfBody ss))
    (printable' : Printable (partsOfBody tt)) (same : programText ss = programText tt) :
    unplacedBody ss = unplacedBody tt := by
  have lines := congrArg String.toList same
  rw [programText_toList, programText_toList] at lines
  have outlines := lines_unique (readable_body ss printable) (readable_body tt printable') lines
  have read := gather_outlineBody ss printable
  rw [outlines, gather_outlineBody tt printable', Option.some.injEq] at read
  exact read.symm

/-! ### Sources -/

/-- A source that is parsed without a message, with no string and no infinite number in it. -/
structure PrintableSource (source : String) : Prop where
  parsed : (parse (scan source).tokens).issues = []
  textless : ∀ t ∈ (scan source).tokens, t.kind ≠ .text
  finite : ∀ t ∈ (scan source).tokens, ∀ x, t.literal? = some (.number x) →
    ∀ negative, Parts.ofFloat x ≠ .infinite negative

namespace PrintableSource

variable {source : String}

theorem constant {t : Token} {v : Literal} (printable : PrintableSource source)
    (member : t ∈ (scan source).tokens) (found : Reading.constant? t = some v) : v.Printable := by
  have textless := printable.textless t member
  have finite := printable.finite t member
  unfold Reading.constant? Token.literal? at found
  unfold Token.literal? at finite
  split at found
  · cases found
    trivial
  · cases found
    trivial
  · cases found
    trivial
  split at found
  · next number =>
    cases found
    rw [number] at finite
    rcases ofScientific_positive _ true _ with infinite | held
    · exact absurd infinite (finite _ rfl false)
    · exact held
  · next text => exact absurd text textless
  · cases found

theorem stem {ps : List Part} (printable : PrintableSource source)
    (stem : Stem (· ∈ (scan source).tokens) ps) : Printable ps := by
  intro p member
  have origin := stem p member
  cases p with
  | token t =>
    intro identifier
    have spelt := scan_lexeme origin
    rwa [identifier] at spelt
  | constant v =>
    rcases origin with rfl | ⟨t, inside, found⟩
    · trivial
    · exact printable.constant inside found

end PrintableSource

/-- Two printable sources whose programs have one text have the same program, in its nodes, names,
operators and the values of its constants, but for lines and columns. -/
theorem programText_determines {p q : String} (left : PrintableSource p) (right : PrintableSource q)
    (same : programText (parse (scan p).tokens).program = programText (parse (scan q).tokens).program) :
    unplacedBody (parse (scan p).tokens).program = unplacedBody (parse (scan q).tokens).program :=
  programText_unique
    (left.stem (parse_stem (scan_spelled p) (fun _ member => member) left.parsed))
    (right.stem (parse_stem (scan_spelled q) (fun _ member => member) right.parsed)) same

/-- A method with another layout and another spelling of the number in it. -/
theorem programText_determines_respelled :
    let p := "class A < B { f(a, b) { this.x = -1.50; return a(b); } }"
    let q := "class A<B\n{f(a,b){this.x=- 01.5;return a(b) ;}}"
    PrintableSource p ∧ PrintableSource q ∧
      programText (parse (scan p).tokens).program = programText (parse (scan q).tokens).program ∧
      unplacedBody (parse (scan p).tokens).program = unplacedBody (parse (scan q).tokens).program := by
  intro p q
  have number : ∀ lexeme ∈ ["1.50", "01.5"],
      Parts.ofFloat (readNumber lexeme.toList) = .finite false (Binary.ofFields 1023 (2 ^ 51)) := by
    decide +kernel
  have finite {source : String} (among : ∀ t ∈ (scan source).tokens,
      t.kind = .number → t.lexeme ∈ ["1.50", "01.5"]) : ∀ t ∈ (scan source).tokens, ∀ x,
      t.literal? = some (.number x) → ∀ negative, Parts.ofFloat x ≠ .infinite negative := by
    intro t member x found negative infinite
    unfold Token.literal? at found
    split at found
    · next kind =>
      cases found
      rw [number _ (among t member kind)] at infinite
      cases infinite
    · cases found
    · cases found
  have left : PrintableSource p :=
    ⟨by decide +kernel, by decide +kernel, finite (by decide +kernel)⟩
  have right : PrintableSource q :=
    ⟨by decide +kernel, by decide +kernel, finite (by decide +kernel)⟩
  have same : programText (parse (scan p).tokens).program
      = programText (parse (scan q).tokens).program := by decide +kernel
  exact ⟨left, right, same, programText_determines left right same⟩

end LoxLang
