import LoxLang.Proofs.Grammar.Readings
import LoxLang.Proofs.Scanning.Lines
/-! Words of a source text: what the scan takes for an identifier is no reserved word. -/
namespace LoxLang
namespace Scan

theorem single?_ne {c : Char} {kind : Kind} (single : single? c = some kind) :
    kind ≠ .identifier := by
  revert single
  unfold single?
  split <;> simp +contextual [eq_comm]

theorem comparison?_ne {c : Char} {alone withEqual : Kind}
    (pair : comparison? c = some (alone, withEqual)) :
    alone ≠ .identifier ∧ withEqual ≠ .identifier := by
  revert pair
  unfold comparison?
  split <;> simp +contextual [eq_comm]

/-- Only words can be identifiers, and reserved words are not. -/
theorem cut_identifier {c : Char} {cs : List Char} (same : (cut c cs).piece = .token .identifier) :
    Kind.ofWord (String.ofList (cut c cs).text) = .identifier := by
  unfold cut at same ⊢
  split at same
  · next single => exact absurd (Piece.token.inj same) (single?_ne single)
  · next pair =>
      split at same
      · exact absurd (Piece.token.inj same) (comparison?_ne pair).2
      · exact absurd (Piece.token.inj same) (comparison?_ne pair).1
  · split at same
    · unfold cutSlash at same
      split at same
      · cases same
      · split at same <;> cases same
      · cases same
    split at same
    · cases same
    split at same
    · unfold cutString at same
      dsimp only at same
      split at same <;> cases same
    split at same
    · unfold cutNumber at same
      dsimp only at same
      split at same
      · split at same <;> cases same
      · cases same
    split at same
    · next notSlash notBlank notQuote notDigit word =>
        simp only [cutWord, if_neg notSlash, if_neg notBlank, if_neg notQuote, if_neg notDigit,
          if_pos word] at same ⊢
        exact Piece.token.inj same
    · cases same

/-- A span that is an identifier spells no reserved word. -/
theorem spans_identifier (cs : List Char) : ∀ s ∈ spans cs, s.piece = .token .identifier →
    Kind.ofWord (String.ofList s.text) = .identifier := by
  induction cs using spans.induct with
  | case1 => simp [spans]
  | case2 c cs ih =>
      rw [spans]
      intro s member same
      rcases List.mem_cons.mp member with rfl | later
      · exact cut_identifier same
      · exact ih s later same

/-- Every token comes from a span of its kind and its text. -/
theorem mem_place {p : Pos} {ss : List Span} {t : Token} (member : t ∈ (place p ss).tokens) :
    ∃ s ∈ ss, s.piece = .token t.kind ∧ t.lexeme = String.ofList s.text := by
  induction ss generalizing p with
  | nil => cases member
  | cons s rest ih =>
      have later (member : t ∈ (place (p.after s.text) rest).tokens) :
          ∃ s' ∈ s :: rest, s'.piece = .token t.kind ∧ t.lexeme = String.ofList s'.text := by
        obtain ⟨s', found, same⟩ := ih member
        exact ⟨s', List.mem_cons_of_mem s found, same⟩
      cases piece : s.piece with
      | token kind =>
          simp only [place, piece] at member
          rcases List.mem_cons.mp member with rfl | found
          · exact ⟨s, List.mem_cons_self, piece, rfl⟩
          · exact later found
      | _ =>
          simp only [place, piece] at member
          exact later member

end Scan

/-- An identifier of a source text spells no reserved word. -/
theorem scan_named (source : String) : Named (scan source).tokens := by
  intro t member same
  rw [scan_eq_place] at member
  obtain ⟨s, found, piece, lexeme⟩ := Scan.mem_place member
  have word := Scan.spans_identifier source.toList s found (same ▸ piece)
  rw [← lexeme] at word
  constructor <;> intro reserved <;> rw [reserved] at word <;> cases word

end LoxLang
