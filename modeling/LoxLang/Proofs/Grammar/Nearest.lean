import LoxLang.Proofs.Grammar.Exact
/-! The grammar leaves open to which `if` an `else` belongs. Every statement can be derived so
that each `else` belongs to the nearest one. -/
namespace LoxLang

section
open Rule

def ifHeader : List Rule :=
  [token .ifWord, token .leftParen, ref .expression, token .rightParen]

def whileHeader : List Rule :=
  [token .whileWord, token .leftParen, ref .expression, token .rightParen]

def forHeader : List Rule :=
  [token .forWord, token .leftParen, choice [ref .varDecl, ref .exprStmt, token .semicolon],
    optional (ref .expression), token .semicolon, optional (ref .expression), token .rightParen]

end

/-- Tokens of a statement in which each `else` belongs to the nearest `if`. It is shut if no
`else` behind it could belong to an `if` in it. -/
inductive Nearest : Bool → List Token → Prop
  | simple {n : Nonterminal} {ts : List Token} :
    n ∈ [.exprStmt, .printStmt, .returnStmt, .block] → Spelt (.ref n) ts → Nearest true ts
  | loop {shut : Bool} {header : List Rule} {hs ts : List Token} :
    header ∈ [whileHeader, forHeader] → Spelt (.sequence header) hs → Nearest shut ts →
    Nearest shut (hs ++ ts)
  | ifThen {shut : Bool} {hs ts : List Token} :
    Spelt (.sequence ifHeader) hs → Nearest shut ts → Nearest false (hs ++ ts)
  | ifElse {shut : Bool} {hs ts us : List Token} {t : Token} :
    Spelt (.sequence ifHeader) hs → Nearest true ts → t.kind = .elseWord → Nearest shut us →
    Nearest shut (hs ++ (ts ++ t :: us))

namespace Nearest
variable {shut shut' : Bool} {ts us : List Token} {t : Token}

/-- An `else` behind a statement that is not shut finds an `if` in it. -/
theorem follow (open' : Nearest shut ts) (same : t.kind = .elseWord) (other : Nearest shut' us) :
    shut = false → ∃ b, Nearest b (ts ++ t :: us) := by
  induction open' with
  | simple => rintro ⟨⟩
  | loop header spelt _ ih =>
      intro unshut
      obtain ⟨b, whole⟩ := ih unshut
      exact ⟨b, by simpa only [List.append_assoc] using loop header spelt whole⟩
  | @ifThen inner hs ts spelt body ih =>
      intro _
      cases inner with
      | true => exact ⟨shut', by simpa only [List.append_assoc] using ifElse spelt body same other⟩
      | false =>
          obtain ⟨b, whole⟩ := ih rfl
          exact ⟨false, by simpa only [List.append_assoc] using ifThen spelt whole⟩
  | ifElse spelt first here _ _ ih =>
      intro unshut
      obtain ⟨b, whole⟩ := ih unshut
      refine ⟨b, ?_⟩
      simpa only [List.append_assoc, List.cons_append] using ifElse spelt first here whole

/-- An `if` with an `else`, wherever the `else` of its branch belongs. -/
theorem conditional {hs : List Token} (spelt : Spelt (.sequence ifHeader) hs)
    (first : Nearest shut ts) (same : t.kind = .elseWord) (second : Nearest shut' us) :
    ∃ b, Nearest b (hs ++ (ts ++ t :: us)) := by
  cases shut with
  | true => exact ⟨shut', ifElse spelt first same second⟩
  | false =>
      obtain ⟨b, whole⟩ := follow first same second rfl
      exact ⟨false, ifThen spelt whole⟩

end Nearest

theorem Nearest.ne_nil {shut : Bool} {ts : List Token} (nearest : Nearest shut ts) : ts ≠ [] := by
  rintro rfl
  have whole {shut : Bool} {ts : List Token} (nearest : Nearest shut ts) : 0 < ts.length := by
    induction nearest with
    | @simple n ts known spelt =>
        have solid : (Rule.ref n).solid = true := by
          simp only [List.mem_cons, List.not_mem_nil, or_false] at known
          rcases known with rfl | rfl | rfl | rfl <;> rfl
        obtain ⟨t, vs, rfl, -⟩ := spelt.starts solid
        exact Nat.succ_pos _
    | loop _ _ _ ih => rw [List.length_append]; omega
    | ifThen _ _ ih => rw [List.length_append]; omega
    | ifElse _ _ _ _ ih => simp only [List.length_append]; omega
  exact absurd (whole nearest) (Nat.lt_irrefl 0)

/-- A phrase that ends with a statement, behind a header. -/
theorem spelt_header {header : List Rule} {n : Nonterminal} {part : Rule} {ts : List Token}
    (rule : n.rule = .sequence (header ++ [part])) (spelt : Spelt (.ref n) ts) :
    ∃ hs us, ts = hs ++ us ∧ Spelt (.sequence header) hs ∧ Spelt part us := by
  rw [spelt_ref, rule] at spelt
  obtain ⟨hs, us, rfl, head, tail⟩ := spelt_append.mp spelt
  exact ⟨hs, us, rfl, head, spelt_single.mp tail⟩

theorem nearest_of_length (size : Nat) : ∀ ts : List Token, ts.length ≤ size →
    Spelt (.ref .statement) ts → ∃ shut, Nearest shut ts := by
  induction size with
  | zero =>
      intro ts short spelt
      obtain ⟨t, vs, rfl, -⟩ := spelt.starts rfl
      cases short
  | succ size ih =>
      intro ts short spelt
      obtain ⟨part, some, inside⟩ := spelt_choice.mp (spelt_ref.mp spelt)
      simp only [List.mem_cons, List.not_mem_nil, or_false] at some
      have loop (header : List Rule) (n : Nonterminal) (known : header ∈ [whileHeader, forHeader])
          (rule : n.rule = .sequence (header ++ [.ref .statement])) (spelt : Spelt (.ref n) ts) :
          ∃ shut, Nearest shut ts := by
        obtain ⟨hs, us, rfl, head, body⟩ := spelt_header rule spelt
        have taken : 0 < hs.length := List.length_pos_iff.mpr fun none => by
          simp only [List.mem_cons, List.not_mem_nil, or_false] at known
          rcases known with rfl | rfl <;> exact head.ne_nil rfl (by rw [none]; rfl)
        rw [List.length_append] at short
        obtain ⟨shut, nearest⟩ := ih us (by omega) body
        exact ⟨shut, .loop known head nearest⟩
      rcases some with rfl | rfl | rfl | rfl | rfl | rfl | rfl
      · exact ⟨true, .simple (by simp) inside⟩
      · exact loop forHeader .forStmt (by simp) rfl inside
      · rw [spelt_ref] at inside
        obtain ⟨hs, us, rfl, head, tail⟩ : ∃ hs us, ts = hs ++ us ∧
            Spelt (.sequence ifHeader) hs ∧ Spelt (.sequence _) us := spelt_append.mp inside
        obtain ⟨ts, vs, rfl, branch, behind⟩ := spelt_cons.mp tail
        have taken : 0 < hs.length := List.length_pos_iff.mpr fun none =>
          head.ne_nil rfl (by rw [none]; rfl)
        simp only [List.length_append] at short
        obtain ⟨shut, first⟩ := ih ts (by omega) branch
        rcases spelt_optional.mp (spelt_single.mp behind) with rfl | other
        · rw [List.append_nil]
          exact ⟨false, .ifThen head first⟩
        · obtain ⟨t, us, rfl, same, other⟩ := spelt_token_cons.mp other
          rw [List.length_cons] at short
          obtain ⟨shut', second⟩ := ih us (by omega) (spelt_single.mp other)
          exact Nearest.conditional head first same second
      · exact ⟨true, .simple (by simp) inside⟩
      · exact ⟨true, .simple (by simp) inside⟩
      · exact loop whileHeader .whileStmt (by simp) rfl inside
      · exact ⟨true, .simple (by simp) inside⟩

/-- Every statement can be derived so that each `else` belongs to the nearest `if`. -/
theorem nearest_of_spelt {ts : List Token} (spelt : Spelt (.ref .statement) ts) :
    ∃ shut, Nearest shut ts := nearest_of_length ts.length ts (Nat.le_refl _) spelt

end LoxLang
