import LoxLang.Proofs.Addressing.Balance
import LoxLang.Proofs.Lexical.Erasure
import LoxLang.Proofs.Respelling.Statements
import LoxLang.Proofs.Scanning.Division
import LoxLang.Session
/-! Scanning, parsing and resolving come to an end with every source text, whatever is wrong with
it, and each gets ahead with every step. -/
namespace LoxLang

/-- What the scan yields is no more than the text has room for. As it is listed, the end comes last
and nowhere else. -/
structure Scan.Ends (source : String) : Prop where
  last : (Session.listing (scan source)).getLast? = some (endLabel ++ " ")
  only : ∀ line ∈ (Session.listing (scan source)).dropLast, ¬endLabel.toList <+: line.toList
  room : (scan source).tokens.length ≤ source.toList.length
  stop : (scan source).stop = Pos.start.after source.toList

/-- The tokens are read up to their end. Neither this nor what is read depends on the budget
beyond their number. -/
structure Parse.Ends (tokens : List Token) : Prop where
  reads : (Reading.program tokens.length tokens).value? = some (parse tokens).program ∧
    (Reading.program tokens.length tokens).rest = []
  budget : ∀ n, tokens.length ≤ n →
    Reading.program n tokens = Reading.program tokens.length tokens

/-- A declaration that starts at a token goes on behind one, also where it cannot be read. -/
structure Reading.Advances (n : Nat) (t : Token) (ts : List Token) : Prop where
  goes_on : (Reading.declaration n (t :: ts)).value? ≠ none
  takes : ∃ used, used ≠ [] ∧ t :: ts = used ++ (Reading.declaration n (t :: ts)).rest
  budget : (t :: ts).length ≤ n →
    Reading.declaration n (t :: ts) = Reading.declaration (t :: ts).length (t :: ts)

/-- The walk comes by every statement. Wherever it closes a scope one is open, and it leaves none
open. -/
structure Resolution.Ends (program : List RawStmt) : Prop where
  whole : eraseBody (resolve program).program = program
  intact : (resolve program).overdrawn = false
  closed : (resolve program).openScopes = 0

theorem Token.listing_toList (t : Token) :
    ∃ rest, t.listing.toList = t.kind.label.toList ++ ' ' :: rest := by
  unfold listing
  split <;> simp [String.toList_append]

/-- No token is listed as the end is. -/
theorem Token.listing_other (t : Token) : ¬endLabel.toList <+: t.listing.toList := by
  obtain ⟨rest, same⟩ := t.listing_toList
  rw [same]
  cases t.kind <;> simp [endLabel, Kind.label]

theorem Scan.length_place (p : Pos) (ss : List Span) :
    (place p ss).tokens.length ≤ ss.length := by
  induction ss generalizing p with
  | nil => exact Nat.le_refl 0
  | cons s ss ih =>
      have later := ih (p.after s.text)
      cases piece : s.piece <;> simp only [place, piece, List.length_cons] <;> omega

theorem Scan.length_spans (cs : List Char) : (spans cs).length ≤ cs.length := by
  induction cs using spans.induct with
  | case1 => simp [spans]
  | case2 c cs ih =>
      have taken := cut_rest_length c cs
      rw [spans, List.length_cons, List.length_cons]
      omega

theorem scan_ends (source : String) : Scan.Ends source where
  last := List.getLast?_concat
  only line listed := by
    rw [Session.listing, List.dropLast_concat] at listed
    obtain ⟨t, -, rfl⟩ := List.mem_map.mp listed
    exact t.listing_other
  room := by
    rw [scan_eq_place]
    exact Nat.le_trans (Scan.length_place _ _) (Scan.length_spans _)
  stop := by rw [scan_eq_place, Scan.stop_place, Scan.text_spans]

theorem parse_ends (tokens : List Token) : Parse.Ends tokens where
  reads := by
    obtain ⟨statements, value, rest⟩ := Reading.program_total tokens
    rw [parse, value]
    exact ⟨rfl, rest⟩
  budget _ le := Reading.program_budget le

theorem declaration_advances (n : Nat) (t : Token) (ts : List Token) :
    Reading.Advances n t ts where
  goes_on := (Reading.declaration_takes n t ts).1
  takes := (Reading.declaration_takes n t ts).2
  budget := Reading.declaration_budget

theorem resolve_ends (program : List RawStmt) : Resolution.Ends program where
  whole := erase_resolve program
  intact := overdrawn_resolve program
  closed := (Walk.stmts_balance program Walk.start).depth

/-- The front end is done with every source text, and each part of it with whatever the part before
could yield. -/
theorem front_end_total : (∀ source : String, Scan.Ends source) ∧
    (∀ tokens : List Token, Parse.Ends tokens ∧ Resolution.Ends (parse tokens).program) ∧
    ∀ (n : Nat) (t : Token) (ts : List Token), Reading.Advances n t ts :=
  ⟨scan_ends, fun tokens => ⟨parse_ends tokens, resolve_ends _⟩, declaration_advances⟩

end LoxLang
