import SysrepoAugeas.Pattern.Qm

/-!
# Patterns of alternatives and groups

A pattern is a sequence of characters, groups and bars.  The alternatives of a
pattern are cut at its bars; its tokens are the alternatives that remain when no
alternative is a group as a whole.
-/

namespace SysrepoAugeas.Pattern

open SysrepoAugeas.Label (Text)

/-- Letter, digit, `-`, `_`, blank or `#`. -/
def isNameChar (char : Char) : Bool := isPlainChar char || char == '#'

abbrev NameChar := { char : Char // isNameChar char = true }

/-- A balanced pattern without `?` and without brackets. -/
inductive Patt where
  | nil
  | letter (char : NameChar) (rest : Patt)
  | bar (rest : Patt)
  | group (inner rest : Patt)
  deriving DecidableEq

namespace Patt

def print : Patt → Text
  | nil => []
  | letter char rest => char.1 :: rest.print
  | bar rest => '|' :: rest.print
  | group inner rest => '(' :: (inner.print ++ ')' :: rest.print)

/-- The words of the alternative that starts here, and of those behind it. -/
def sides : Patt → Language Char × Language Char
  | nil => (1, 0)
  | letter char rest => ({[char.1]} * rest.sides.1, rest.sides.2)
  | bar rest => (1, rest.sides.1 + rest.sides.2)
  | group inner rest => ((inner.sides.1 + inner.sides.2) * rest.sides.1, rest.sides.2)

def language (patt : Patt) : Language Char := patt.sides.1 + patt.sides.2

/-- The alternative that starts here is not empty. -/
def starts : Patt → Bool
  | nil | bar _ => false
  | letter _ _ | group _ _ => true

/-- No other alternative is empty. -/
def othersStart : Patt → Bool
  | nil => true
  | letter _ rest => rest.othersStart
  | bar rest => rest.starts && rest.othersStart
  | group inner rest => inner.starts && inner.othersStart && rest.othersStart

/-- Alternatives are not empty. -/
def Proper (patt : Patt) : Prop := patt.starts = true ∧ patt.othersStart = true

instance (patt : Patt) : Decidable patt.Proper := inferInstanceAs (Decidable (_ ∧ _))

/-- The alternative that starts here. -/
def head : Patt → Patt
  | nil | bar _ => nil
  | letter char rest => letter char rest.head
  | group inner rest => group inner rest.head

/-- The alternatives behind it. -/
def behind : Patt → List Patt
  | nil => []
  | letter _ rest | group _ rest => rest.behind
  | bar rest => rest.head :: rest.behind

def alternatives (patt : Patt) : List Patt := patt.head :: patt.behind

/-- The tokens of the alternative that starts here, and of those behind it. -/
def unwrapped : Patt → List Patt × List Patt
  | nil => ([nil], [])
  | letter char rest => ([letter char rest.head], rest.unwrapped.2)
  | bar rest => ([nil], rest.unwrapped.1 ++ rest.unwrapped.2)
  | group inner rest =>
      (if rest.head = nil then inner.unwrapped.1 ++ inner.unwrapped.2
        else [group inner rest.head], rest.unwrapped.2)

/-- What is left of the alternatives without needless parentheses. -/
def tokens (patt : Patt) : List Patt := patt.unwrapped.1 ++ patt.unwrapped.2

/-- The number of groups, with those in groups. -/
def groups : Patt → Nat
  | nil => 0
  | letter _ rest | bar rest => rest.groups
  | group inner rest => inner.groups + 1 + rest.groups

/-- There is no bar outside of the groups. -/
def IsSingle (patt : Patt) : Prop := patt.behind = []

/-- Every alternative after a bar. -/
def bars (patts : List Patt) : Text := patts.flatMap fun patt => '|' :: patt.print

/-- Alternatives with bars in between. -/
def join : List Patt → Text
  | [] => []
  | patt :: patts => patt.print ++ bars patts

theorem print_eq (patt : Patt) : patt.print = join patt.alternatives := by
  unfold alternatives join
  induction patt with
  | nil => rfl
  | letter char rest inductionHypothesis =>
      rw [print, inductionHypothesis]
      rfl
  | bar rest inductionHypothesis =>
      rw [print, inductionHypothesis]
      rfl
  | group inner rest _ ofRest =>
      rw [print, ofRest]
      simp [head, behind, print]

theorem eq_nil_of_print {patt : Patt} (empty : patt.print = []) : patt = nil := by
  cases patt with
  | nil => rfl
  | letter _ _ | bar _ | group _ _ => cases empty

theorem behind_head (patt : Patt) : patt.head.behind = [] := by
  induction patt with
  | nil => rfl
  | bar rest _ => rfl
  | letter char rest inductionHypothesis => exact inductionHypothesis
  | group inner rest _ ofRest => exact ofRest

theorem head_head (patt : Patt) : patt.head.head = patt.head := by
  induction patt with
  | nil => rfl
  | bar rest _ => rfl
  | letter char rest inductionHypothesis => rw [head, head, inductionHypothesis]
  | group inner rest _ ofRest => rw [head, head, ofRest]

theorem isSingle_of_mem_behind {patt branch : Patt} (member : branch ∈ patt.behind) :
    branch.IsSingle := by
  induction patt with
  | nil => cases member
  | letter char rest inductionHypothesis => exact inductionHypothesis member
  | group inner rest _ ofRest => exact ofRest member
  | bar rest inductionHypothesis =>
      obtain rfl | member := List.mem_cons.mp member
      · exact behind_head rest
      · exact inductionHypothesis member

theorem isSingle_of_mem {patt branch : Patt} (member : branch ∈ patt.alternatives) :
    branch.IsSingle := by
  obtain rfl | member := List.mem_cons.mp member
  · exact behind_head patt
  · exact isSingle_of_mem_behind member

theorem IsSingle.head_eq {patt : Patt} (single : patt.IsSingle) : patt.head = patt := by
  induction patt with
  | nil => rfl
  | bar rest _ => cases single
  | letter char rest inductionHypothesis => rw [head, inductionHypothesis single]
  | group inner rest _ ofRest => rw [head, ofRest single]

theorem starts_head (patt : Patt) : patt.head.starts = patt.starts := by
  cases patt <;> rfl

theorem othersStart_head {patt : Patt} (proper : patt.othersStart = true) :
    patt.head.othersStart = true := by
  induction patt with
  | nil => rfl
  | bar rest _ => rfl
  | letter char rest inductionHypothesis => exact inductionHypothesis proper
  | group inner rest _ ofRest =>
      simp only [othersStart, Bool.and_eq_true] at proper
      simp [head, othersStart, proper.1, ofRest proper.2]

theorem proper_of_mem_behind {patt branch : Patt} (proper : patt.othersStart = true)
    (member : branch ∈ patt.behind) : branch.Proper := by
  induction patt with
  | nil => cases member
  | letter char rest inductionHypothesis => exact inductionHypothesis proper member
  | group inner rest _ ofRest =>
      simp only [othersStart, Bool.and_eq_true] at proper
      exact ofRest proper.2 member
  | bar rest inductionHypothesis =>
      simp only [othersStart, Bool.and_eq_true] at proper
      obtain rfl | member := List.mem_cons.mp member
      · exact ⟨(starts_head rest).trans proper.1, othersStart_head proper.2⟩
      · exact inductionHypothesis proper.2 member

theorem Proper.of_mem {patt branch : Patt} (proper : patt.Proper)
    (member : branch ∈ patt.alternatives) : branch.Proper := by
  obtain rfl | member := List.mem_cons.mp member
  · exact ⟨(starts_head patt).trans proper.1, othersStart_head proper.2⟩
  · exact proper_of_mem_behind proper.2 member

theorem unwrapped_head (patt : Patt) : patt.head.unwrapped = (patt.unwrapped.1, []) := by
  induction patt with
  | nil => rfl
  | bar rest _ => rfl
  | letter char rest inductionHypothesis =>
      rw [head, unwrapped, inductionHypothesis, head_head, unwrapped]
  | group inner rest _ ofRest => rw [head, unwrapped, ofRest, head_head, unwrapped]

theorem tokens_head (patt : Patt) : patt.head.tokens = patt.unwrapped.1 := by
  rw [tokens, unwrapped_head, List.append_nil]

theorem tokens_eq (patt : Patt) : patt.tokens = patt.alternatives.flatMap tokens := by
  rw [alternatives, List.flatMap_cons, tokens_head, tokens]
  congr 1
  induction patt with
  | nil => rfl
  | letter char rest inductionHypothesis => exact inductionHypothesis
  | group inner rest _ ofRest => exact ofRest
  | bar rest inductionHypothesis =>
      rw [unwrapped, behind, List.flatMap_cons, tokens_head, inductionHypothesis]

theorem unwrapped_ne_nil (patt : Patt) : patt.unwrapped.1 ≠ [] := by
  induction patt with
  | nil | letter _ _ _ | bar _ _ => simp [unwrapped]
  | group inner rest ofInner _ =>
      rw [unwrapped]
      split
      · exact List.append_ne_nil_of_left_ne_nil ofInner _
      · exact List.cons_ne_nil _ _

theorem tokens_ne_nil (patt : Patt) : patt.tokens ≠ [] :=
  List.append_ne_nil_of_left_ne_nil (unwrapped_ne_nil patt) _

theorem bars_eq_join {patts : List Patt} (nonempty : patts ≠ []) : bars patts = '|' :: join patts := by
  cases patts with
  | nil => exact absurd rfl nonempty
  | cons patt patts => rfl

theorem join_append {first : List Patt} (nonempty : first ≠ []) (second : List Patt) :
    join (first ++ second) = join first ++ bars second := by
  cases first with
  | nil => exact absurd rfl nonempty
  | cons patt patts => simp [join, bars]

theorem sides_head (patt : Patt) : patt.head.sides = (patt.sides.1, 0) := by
  induction patt with
  | nil => rfl
  | bar rest _ => rfl
  | letter char rest inductionHypothesis => rw [head, sides, inductionHypothesis, sides]
  | group inner rest _ ofRest => rw [head, sides, ofRest, sides]

theorem language_head (patt : Patt) : patt.head.language = patt.sides.1 := by
  rw [language, sides_head, add_zero]

theorem mem_unwrapped (patt : Patt) (word : Text) :
    (word ∈ patt.sides.1 ↔ ∃ token ∈ patt.unwrapped.1, word ∈ token.language) ∧
    (word ∈ patt.sides.2 ↔ ∃ token ∈ patt.unwrapped.2, word ∈ token.language) := by
  have ofHead : ∀ patt : Patt, word ∈ patt.sides.1 ↔
      ∃ token ∈ [patt.head], word ∈ token.language := by
    intro patt
    simp only [List.mem_singleton, exists_eq_left, language_head]
  induction patt with
  | nil => exact ⟨ofHead nil, by simp [sides, unwrapped, Language.notMem_zero]⟩
  | letter char rest inductionHypothesis =>
      exact ⟨ofHead (letter char rest), inductionHypothesis.2⟩
  | bar rest inductionHypothesis =>
      refine ⟨ofHead (bar rest), ?_⟩
      rw [sides, Language.mem_add, inductionHypothesis.1, inductionHypothesis.2, unwrapped]
      simp only [List.mem_append, or_and_right, exists_or]
  | group inner rest ofInner ofRest =>
      refine ⟨?_, ofRest.2⟩
      by_cases alone : rest.head = nil
      · have empty : rest.sides.1 = 1 := by
          have sidesHead := sides_head rest
          rw [alone, sides, Prod.mk.injEq] at sidesHead
          exact sidesHead.1.symm
        rw [sides, empty, mul_one, Language.mem_add, ofInner.1, ofInner.2, unwrapped, if_pos alone]
        simp only [List.mem_append, or_and_right, exists_or]
      · rw [unwrapped, if_neg alone]
        exact ofHead (group inner rest)

/-- The words of a pattern are those of its tokens. -/
theorem mem_tokens {patt : Patt} {word : Text} :
    word ∈ patt.language ↔ ∃ token ∈ patt.tokens, word ∈ token.language := by
  have sidesMem := mem_unwrapped patt word
  rw [language, Language.mem_add, sidesMem.1, sidesMem.2, tokens]
  simp only [List.mem_append, or_and_right, exists_or]

theorem tokens_group (inner : Patt) : (group inner nil).tokens = inner.tokens := by
  have alone : nil.head = nil := rfl
  rw [tokens, unwrapped, if_pos alone]
  exact List.append_nil _

theorem IsSingle.tokens_eq {patt : Patt} (single : patt.IsSingle)
    (notGroup : ∀ inner, patt ≠ group inner nil) : patt.tokens = [patt] := by
  have only : patt.unwrapped = (patt.unwrapped.1, []) := by
    rw [← unwrapped_head, single.head_eq]
  rw [tokens, only, List.append_nil]
  cases patt with
  | nil => rfl
  | bar rest => cases single
  | letter char rest =>
      have restSingle : rest.IsSingle := single
      rw [unwrapped, restSingle.head_eq]
  | group inner rest =>
      have restSingle : rest.IsSingle := single
      have more : rest ≠ nil := fun same => notGroup inner (same ▸ rfl)
      rw [unwrapped, restSingle.head_eq, if_neg more]

theorem unwrapped_proper (patt : Patt) :
    (patt.Proper → ∀ token ∈ patt.unwrapped.1, token.Proper ∧ token.IsSingle) ∧
    (patt.othersStart = true → ∀ token ∈ patt.unwrapped.2, token.Proper ∧ token.IsSingle) := by
  have ofHead : ∀ patt : Patt, patt.Proper →
      ∀ token ∈ [patt.head], token.Proper ∧ token.IsSingle := by
    intro patt proper token member
    rw [List.mem_singleton.mp member]
    exact ⟨proper.of_mem List.mem_cons_self, behind_head patt⟩
  induction patt with
  | nil => exact ⟨ofHead nil, fun _ token member => absurd member List.not_mem_nil⟩
  | letter char rest inductionHypothesis =>
      exact ⟨ofHead (letter char rest), inductionHypothesis.2⟩
  | bar rest inductionHypothesis =>
      refine ⟨ofHead (bar rest), ?_⟩
      intro proper token member
      simp only [othersStart, Bool.and_eq_true] at proper
      obtain member | member := List.mem_append.mp member
      · exact inductionHypothesis.1 proper token member
      · exact inductionHypothesis.2 proper.2 token member
  | group inner rest ofInner ofRest =>
      constructor
      · intro proper
        rw [unwrapped]
        split
        · intro token member
          have others := proper.2
          simp only [othersStart, Bool.and_eq_true] at others
          obtain member | member := List.mem_append.mp member
          · exact ofInner.1 others.1 token member
          · exact ofInner.2 others.1.2 token member
        · exact ofHead (group inner rest) proper
      · intro proper
        simp only [othersStart, Bool.and_eq_true] at proper
        exact ofRest.2 proper.2

theorem Proper.of_mem_tokens {patt token : Patt} (proper : patt.Proper)
    (member : token ∈ patt.tokens) : token.Proper ∧ token.IsSingle := by
  obtain member | member := List.mem_append.mp member
  · exact (unwrapped_proper patt).1 proper token member
  · exact (unwrapped_proper patt).2 proper.2 token member

end Patt

end SysrepoAugeas.Pattern
