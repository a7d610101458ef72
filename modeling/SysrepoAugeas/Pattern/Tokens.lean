import SysrepoAugeas.Pattern.Patt
import SysrepoAugeas.Pattern.Union

/-!
# Tokens of a pattern

What the scans of the text mean for the pattern that it is printed from, and
what is left of the pattern when needless parentheses are removed.
-/

namespace SysrepoAugeas.Pattern

open SysrepoAugeas.Label (Text)
open Patt (bars join)

theorem nameChar_ne (char : NameChar) : char.1 ≠ '(' ∧ char.1 ≠ ')' ∧ char.1 ≠ '|' := by
  refine ⟨?_, ?_, ?_⟩ <;> intro same <;> exact absurd char.2 (by rw [same]; decide)

section Print

variable {text : Text}

theorem isBalanced_print (patt : Patt) (par : Nat) :
    isBalanced par (patt.print ++ text) = isBalanced par text := by
  induction patt generalizing text par with
  | nil => rfl
  | letter char rest inductionHypothesis =>
      obtain ⟨notOpen, notClose, -⟩ := nameChar_ne char
      rw [Patt.print, List.cons_append, isBalanced, if_neg notOpen, if_neg notClose,
        inductionHypothesis]
  | bar rest inductionHypothesis =>
      rw [Patt.print, List.cons_append, isBalanced, if_neg (by decide), if_neg (by decide),
        inductionHypothesis]
  | group inner rest ofInner ofRest =>
      rw [Patt.print, List.cons_append, isBalanced, if_pos rfl, List.append_assoc, ofInner,
        List.cons_append, isBalanced, if_neg (by decide), if_pos rfl, Nat.add_sub_cancel, ofRest]
      rfl

theorem balanced_print (patt : Patt) : isBalanced 0 patt.print = true := by
  have whole := @isBalanced_print [] patt 0
  rw [List.append_nil] at whole
  exact whole

/-- Nothing happens within an alternative. -/
theorem isPiece_print {patt : Patt} (single : patt.IsSingle) : isPiece 0 patt.print = true := by
  induction patt with
  | nil => rfl
  | bar rest _ => cases single
  | letter char rest inductionHypothesis =>
      obtain ⟨notOpen, notClose, notBar⟩ := nameChar_ne char
      rw [Patt.print, isPiece, if_neg notOpen, if_neg notClose, inductionHypothesis single]
      simp [notBar]
  | group inner rest _ ofRest =>
      rw [Patt.print, isPiece, if_pos rfl, isPiece_group (balanced_print inner)]
      exact ofRest single

theorem print_starts {patt : Patt} (starting : patt.starts = true) (text : Text) :
    patt.print ≠ [] ∧ (patt.print ++ text).head? ≠ some '|' := by
  cases patt with
  | nil | bar _ => cases starting
  | letter char rest => exact ⟨List.cons_ne_nil _ _, fun same =>
      (nameChar_ne char).2.2 (Option.some.inj same)⟩
  | group inner rest => exact ⟨List.cons_ne_nil _ _, by simp [Patt.print]⟩

theorem isAlternative_print {patt : Patt} (starting : patt.starts = true) (single : patt.IsSingle) :
    IsAlternative patt.print :=
  ⟨isPiece_print single, (print_starts starting []).1⟩

theorem bars_eq (patts : List Patt) : bars patts = withBars (patts.map Patt.print) := by
  rw [bars, withBars, List.flatMap_map]

theorem bars_cons (patt : Patt) (patts : List Patt) :
    bars (patt :: patts) ++ text = '|' :: (patt.print ++ (bars patts ++ text)) := by
  rw [bars_eq, List.map_cons, withBars_cons, bars_eq]

theorem ends_bars (ends : text = [] ∨ text.head? = some ')') (patts : List Patt) :
    Ends (bars patts ++ text) := by
  rw [bars_eq]
  exact ends_withBars ends _

variable {before : Text} {first : Patt} {patts : List Patt}

theorem unionToken_zero (lead : IsLead before) (starting : first.starts = true)
    (single : first.IsSingle) (ends : Ends text) :
    ayPatternUnionToken (before ++ (first.print ++ text)) 0 =
      some (some (first.print ++ text, first.print.length)) :=
  unionToken_first lead (isAlternative_print starting single) ends

theorem unionToken_succ (lead : IsLead before) (starting : first.starts = true)
    (single : first.IsSingle) (singles : ∀ patt ∈ patts, patt.IsSingle ∧ patt.starts = true)
    (ends : text = [] ∨ text.head? = some ')') {steps : Nat} {patt : Patt}
    (nth : patts[steps]? = some patt) :
    ayPatternUnionToken (before ++ (first.print ++ (bars patts ++ text))) (steps + 1) =
      some (some (patt.print ++ (bars (patts.drop (steps + 1)) ++ text), patt.print.length)) := by
  have alternatives : ∀ piece ∈ patts.map Patt.print, IsAlternative piece := by
    intro piece member
    obtain ⟨patt, inPatts, rfl⟩ := List.mem_map.mp member
    exact isAlternative_print (singles patt inPatts).2 (singles patt inPatts).1
  have found := unionToken_later lead (isAlternative_print starting single) alternatives ends
    (show (patts.map Patt.print)[steps]? = some patt.print by rw [List.getElem?_map, nth]; rfl)
  rw [bars_eq, bars_eq, List.map_drop]
  exact found

theorem unionToken_missing (lead : IsLead before) (starting : first.starts = true)
    (single : first.IsSingle) (singles : ∀ patt ∈ patts, patt.IsSingle)
    (ends : text = [] ∨ text.head? = some ')') {idx : Nat} (beyond : patts.length < idx) :
    ayPatternUnionToken (before ++ (first.print ++ (bars patts ++ text))) idx = some none := by
  have whole : ∀ piece ∈ patts.map Patt.print, isPiece 0 piece = true := by
    intro piece member
    obtain ⟨patt, inPatts, rfl⟩ := List.mem_map.mp member
    exact isPiece_print (singles patt inPatts)
  rw [bars_eq]
  exact unionToken_none lead (isAlternative_print starting single) whole ends
    (by rw [List.length_map]; exact beyond)

end Print

section Parentheses

/-- Only a group as a whole has its parentheses around all the rest. -/
theorem not_isGroup {patt : Patt} (notGroup : ∀ inner, patt ≠ .group inner .nil) :
    ¬ IsGroup patt.print := by
  intro isGroup
  cases patt with
  | nil | bar _ =>
      obtain ⟨inside, same, -⟩ := isGroup
      cases same
  | letter char rest =>
      obtain ⟨inside, same, -⟩ := isGroup
      exact (nameChar_ne char).1 (List.cons.inj same).1
  | group inner rest =>
      apply notGroup inner
      rw [Patt.eq_nil_of_print (rest_of_isGroup (balanced_print inner) isGroup)]

/-- Wherever the pattern stands, its tokens are left of it. -/
def Unwraps (patt : Patt) : Prop :=
  ∀ {before text : Text}, IsLead before → (text = [] ∨ text.head? = some '|') →
    ayPatternRemoveParentheses (before ++ (patt.print ++ text)) =
      (ayPatternRemoveParentheses text).map (before ++ join patt.tokens ++ ·)

theorem bars_head {text : Text} (ends : text = [] ∨ text.head? = some '|') (patts : List Patt) :
    bars patts ++ text = [] ∨ (bars patts ++ text).head? = some '|' := by
  cases patts with
  | nil => exact ends
  | cons patt patts => exact Or.inr rfl

theorem removeParentheses_bars {patts : List Patt} (each : ∀ branch ∈ patts, Unwraps branch)
    {text : Text} (ends : text = [] ∨ text.head? = some '|') :
    ayPatternRemoveParentheses (bars patts ++ text) =
      (ayPatternRemoveParentheses text).map (bars (patts.flatMap Patt.tokens) ++ ·) := by
  induction patts with
  | nil => simp [bars]
  | cons branch patts inductionHypothesis =>
      have others : ∀ branch ∈ patts, Unwraps branch := fun other member =>
        each other (List.mem_cons_of_mem branch member)
      have step := each branch List.mem_cons_self (Or.inr rfl : IsLead ['|'])
        (bars_head ends patts)
      have first : ['|'] ++ join branch.tokens = bars branch.tokens :=
        (Patt.bars_eq_join branch.tokens_ne_nil).symm
      rw [bars_cons, ← List.singleton_append, step, inductionHypothesis others, Option.map_map,
        first]
      congr 1
      funext rest
      simp [bars]

/-- The alternatives of a pattern are unwrapped from the left. -/
theorem unwraps_of_alternatives {patt : Patt} (each : ∀ branch ∈ patt.alternatives, Unwraps branch) :
    Unwraps patt := by
  intro before text lead ends
  have ofHead := each patt.head List.mem_cons_self lead (bars_head ends patt.behind)
  have ofBehind := removeParentheses_bars
    (fun branch member => each branch (List.mem_cons_of_mem _ member)) ends
  rw [Patt.print_eq, Patt.alternatives, join, List.append_assoc, ofHead, ofBehind, Option.map_map,
    Patt.tokens_eq patt, Patt.alternatives, List.flatMap_cons,
    Patt.join_append patt.head.tokens_ne_nil]
  congr 1
  funext rest
  simp

theorem length_bars_drop {patts : List Patt} {steps : Nat} {patt : Patt}
    (nth : patts[steps]? = some patt) :
    patt.print.length + (bars (patts.drop (steps + 1))).length < (bars patts).length := by
  have shorter := length_withBars_drop
    (show (patts.map Patt.print)[steps]? = some patt.print by rw [List.getElem?_map, nth]; rfl)
  rw [bars_eq, bars_eq, List.map_drop]
  exact shorter

theorem print_le_of_mem {patt branch : Patt} (member : branch ∈ patt.alternatives) :
    branch.print.length ≤ patt.print.length := by
  rw [Patt.print_eq patt, Patt.alternatives, join, List.length_append]
  obtain rfl | member := List.mem_cons.mp member
  · exact Nat.le_add_right _ _
  · obtain ⟨steps, nth⟩ := List.mem_iff_getElem?.mp member
    have shorter := length_bars_drop nth
    omega

theorem unwraps (bound : Nat) {patt : Patt} (proper : patt.Proper)
    (small : patt.print.length < bound) : Unwraps patt := by
  induction bound generalizing patt with
  | zero => exact absurd small (Nat.not_lt_zero _)
  | succ bound inductionHypothesis =>
      apply unwraps_of_alternatives
      intro branch member before text lead ends
      have branchProper := proper.of_mem member
      have single := Patt.isSingle_of_mem member
      have textEnds : Ends text := ends.imp_right Or.inr
      by_cases group : ∃ inner, branch = .group inner .nil
      · obtain ⟨inner, rfl⟩ := group
        have innerProper : inner.Proper := by
          have others := branchProper.2
          simp only [Patt.othersStart, Bool.and_eq_true] at others
          exact others.1
        have shorter : inner.print.length < bound := by
          have within := print_le_of_mem member
          simp only [Patt.print, List.length_cons, List.length_append] at within
          omega
        have unwrapped := removeParentheses_group lead (balanced_print inner) textEnds
        rw [Patt.tokens_group]
        exact unwrapped.trans (inductionHypothesis innerProper shorter lead ends)
      · have notGroup : ∀ inner, branch ≠ .group inner .nil := fun inner same =>
          group ⟨inner, same⟩
        rw [removeParentheses_kept lead (isAlternative_print branchProper.1 single)
          (not_isGroup notGroup) textEnds, single.tokens_eq notGroup]
        simp [join, bars]

/-- What is left of a pattern are its tokens. -/
theorem removeParentheses_print {patt : Patt} (proper : patt.Proper) :
    ayPatternRemoveParentheses patt.print = some (join patt.tokens) := by
  have alone := unwraps _ proper (Nat.lt_succ_self _) (Or.inl rfl : IsLead []) (Or.inl rfl)
  simpa [removeParentheses_nil] using alone

end Parentheses

end SysrepoAugeas.Pattern
