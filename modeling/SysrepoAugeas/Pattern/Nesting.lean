import Mathlib.Computability.Language
import SysrepoAugeas.Pattern.Union

/-!
# Needless parentheses

Removing the parentheses around a whole alternative merges the alternatives in
them with those around, which does not change the words of the pattern.  What
the other characters mean is left open: an alternative is read from its
characters and the words of its groups.  Parentheses and bars are operators
wherever they stand; between brackets an accepted pattern has none.
-/

namespace SysrepoAugeas.Pattern

open SysrepoAugeas.Label (Text)

/-- Any character that is no operator of the scans and no escape. -/
def isFreeChar (char : Char) : Bool := char != '(' && char != ')' && char != '|' && char != '\\'

abbrev FreeChar := { char : Char // isFreeChar char = true }

/-- A balanced pattern without escapes. -/
inductive Nesting where
  | nil
  | letter (char : FreeChar) (rest : Nesting)
  | bar (rest : Nesting)
  | group (inner rest : Nesting)
  deriving DecidableEq

/-- What an alternative consists of. -/
inductive Item where
  | char (char : Char)
  | group (words : Language Char)

/-- What alternatives mean: `?`, `*`, brackets and the like are up to the reading, but a group
alone means what is in it. -/
structure Reading where
  words : List Item → Language Char
  alone : ∀ language, words [.group language] = language

namespace Nesting

def print : Nesting → Text
  | nil => []
  | letter char rest => char.1 :: rest.print
  | bar rest => '|' :: rest.print
  | group inner rest => '(' :: (inner.print ++ ')' :: rest.print)

/-- Items of the alternative that starts here, and the words of those behind it. -/
def sides (reading : Reading) : Nesting → List Item × Language Char
  | nil => ([], 0)
  | letter char rest => (.char char.1 :: (rest.sides reading).1, (rest.sides reading).2)
  | bar rest => ([], reading.words (rest.sides reading).1 + (rest.sides reading).2)
  | group inner rest =>
      (.group (reading.words (inner.sides reading).1 + (inner.sides reading).2) ::
        (rest.sides reading).1, (rest.sides reading).2)

def language (reading : Reading) (patt : Nesting) : Language Char :=
  reading.words (patt.sides reading).1 + (patt.sides reading).2

/-- The alternative that starts here is not empty. -/
def starts : Nesting → Bool
  | nil | bar _ => false
  | letter _ _ | group _ _ => true

/-- No other alternative is empty. -/
def othersStart : Nesting → Bool
  | nil => true
  | letter _ rest => rest.othersStart
  | bar rest => rest.starts && rest.othersStart
  | group inner rest => inner.starts && inner.othersStart && rest.othersStart

/-- Alternatives are not empty, at any level. -/
structure Proper (patt : Nesting) : Prop where
  starts : patt.starts = true
  others : patt.othersStart = true

def append : Nesting → Nesting → Nesting
  | nil, other => other
  | letter char rest, other => letter char (rest.append other)
  | bar rest, other => bar (rest.append other)
  | group inner rest, other => group inner (rest.append other)

/-- There is no bar outside of the groups. -/
def single : Nesting → Bool
  | nil => true
  | bar _ => false
  | letter _ rest | group _ rest => rest.single

/-- The end of an alternative. -/
def IsEnd (patt : Nesting) : Prop := patt = nil ∨ ∃ rest, patt = bar rest

section Shape

variable {patt other : Nesting}

theorem print_append (patt other : Nesting) : (patt.append other).print = patt.print ++ other.print := by
  induction patt with
  | nil => rfl
  | letter char rest inductionHypothesis | bar rest inductionHypothesis =>
      rw [append, print, print, inductionHypothesis, List.cons_append]
  | group inner rest _ ofRest =>
      rw [append, print, print, ofRest, List.cons_append, List.append_assoc, List.cons_append]

theorem freeChar_ne (char : FreeChar) : char.1 ≠ '(' ∧ char.1 ≠ ')' ∧ char.1 ≠ '|' := by
  have free := char.2
  simp only [isFreeChar, Bool.and_eq_true, bne_iff_ne] at free
  tauto

theorem isBalanced_print (patt : Nesting) (par : Nat) (text : Text) :
    isBalanced par (patt.print ++ text) = isBalanced par text := by
  induction patt generalizing text par with
  | nil => rfl
  | letter char rest inductionHypothesis =>
      obtain ⟨notOpen, notClose, -⟩ := freeChar_ne char
      rw [print, List.cons_append, isBalanced, if_neg notOpen, if_neg notClose, inductionHypothesis]
  | bar rest inductionHypothesis =>
      rw [print, List.cons_append, isBalanced, if_neg (by decide), if_neg (by decide),
        inductionHypothesis]
  | group inner rest ofInner ofRest =>
      rw [print, List.cons_append, isBalanced, if_pos rfl, List.append_assoc, ofInner,
        List.cons_append, isBalanced, if_neg (by decide), if_pos rfl, Nat.add_sub_cancel, ofRest]
      rfl

theorem balanced_print (patt : Nesting) : isBalanced 0 patt.print = true := by
  have whole := isBalanced_print patt 0 []
  rw [List.append_nil] at whole
  exact whole

theorem isPiece_print (isSingle : patt.single = true) : isPiece 0 patt.print = true := by
  induction patt with
  | nil => rfl
  | bar rest _ => cases isSingle
  | letter char rest inductionHypothesis =>
      obtain ⟨notOpen, notClose, notBar⟩ := freeChar_ne char
      rw [print, isPiece, if_neg notOpen, if_neg notClose, inductionHypothesis isSingle]
      simp [notBar]
  | group inner rest _ ofRest =>
      rw [print, isPiece, if_pos rfl, isPiece_group (balanced_print inner)]
      exact ofRest isSingle

theorem isAlternative_print (starting : patt.starts = true) (isSingle : patt.single = true) :
    IsAlternative patt.print := by
  refine ⟨isPiece_print isSingle, ?_⟩
  cases patt with
  | nil | bar _ => cases starting
  | letter _ _ | group _ _ => exact List.cons_ne_nil _ _

theorem ends_print (isEnd : IsEnd other) : Ends other.print := by
  rcases isEnd with rfl | ⟨rest, rfl⟩
  · exact .inl rfl
  · exact .inr (.inr rfl)

/-- The first alternative ends somewhere. -/
theorem exists_cut (patt : Nesting) :
    ∃ first other : Nesting, patt = first.append other ∧ first.single = true ∧ IsEnd other := by
  induction patt with
  | nil => exact ⟨nil, nil, rfl, rfl, .inl rfl⟩
  | bar rest _ => exact ⟨nil, bar rest, rfl, rfl, .inr ⟨rest, rfl⟩⟩
  | letter char rest inductionHypothesis =>
      obtain ⟨first, other, rfl, isSingle, isEnd⟩ := inductionHypothesis
      exact ⟨letter char first, other, rfl, isSingle, isEnd⟩
  | group inner rest _ ofRest =>
      obtain ⟨first, other, rfl, isSingle, isEnd⟩ := ofRest
      exact ⟨group inner first, other, rfl, isSingle, isEnd⟩

theorem starts_append (isEnd : IsEnd other) : (patt.append other).starts = patt.starts := by
  cases patt with
  | nil =>
      rcases isEnd with rfl | ⟨rest, rfl⟩
      · rfl
      · rfl
  | bar _ | letter _ _ | group _ _ => rfl

theorem othersStart_append (isEnd : IsEnd other) :
    (patt.append other).othersStart = (patt.othersStart && other.othersStart) := by
  induction patt with
  | nil => rfl
  | letter char rest inductionHypothesis => exact inductionHypothesis
  | bar rest inductionHypothesis =>
      rw [append, othersStart, starts_append isEnd, inductionHypothesis, othersStart, Bool.and_assoc]
  | group inner rest _ ofRest =>
      rw [append, othersStart, ofRest, othersStart]
      simp only [Bool.and_assoc]

variable (reading : Reading)

theorem sides_append (isEnd : IsEnd other) :
    (patt.append other).sides reading =
      ((patt.sides reading).1, (patt.sides reading).2 + (other.sides reading).2) := by
  induction patt with
  | nil =>
      rcases isEnd with rfl | ⟨rest, rfl⟩
      · simp [append, sides]
      · simp [append, sides]
  | letter char rest inductionHypothesis => rw [append, sides, inductionHypothesis, sides]
  | bar rest inductionHypothesis => rw [append, sides, inductionHypothesis, sides, add_assoc]
  | group inner rest _ ofRest => rw [append, sides, ofRest, sides]

/-- A group alone and its alternatives in its place have the same words. -/
theorem language_group (inner : Nesting) (isEnd : IsEnd other) :
    ((group inner nil).append other).language reading = (inner.append other).language reading := by
  rw [language, language, sides_append reading isEnd, sides_append reading isEnd, sides,
    sides, reading.alone, zero_add, add_assoc]

theorem not_isGroup (notGroup : ∀ inner, patt ≠ group inner nil) : ¬ IsGroup patt.print := by
  intro isGroup
  cases patt with
  | nil | bar _ =>
      obtain ⟨inside, same, -⟩ := isGroup
      cases same
  | letter char rest =>
      obtain ⟨inside, same, -⟩ := isGroup
      exact (freeChar_ne char).1 (List.cons.inj same).1
  | group inner rest =>
      apply notGroup inner
      have noRest := rest_of_isGroup (balanced_print inner) isGroup
      cases rest with
      | nil => rfl
      | bar _ | letter _ _ | group _ _ => cases noRest

/-- No alternative of the text is one group. -/
def Unwrapped (patt : Nesting) : Prop := ∀ piece ∈ topAlternatives patt.print, ¬ IsGroup piece

theorem unwrapped_cons {first rest : Nesting} (isSingle : first.single = true)
    (notGroup : ¬ IsGroup first.print) (unwrapped : rest.Unwrapped) :
    (first.append (bar rest)).Unwrapped := by
  have cut : topAlternatives (first.append (bar rest)).print =
      first.print :: topAlternatives rest.print := by
    rw [print_append, topAlternatives, cutAtBars_append (isPiece_print isSingle) (.inr rfl)]
    rfl
  intro piece member
  rw [cut, List.mem_cons] at member
  rcases member with rfl | inRest
  · exact notGroup
  · exact unwrapped piece inRest

theorem unwrapped_single (isSingle : patt.single = true) (notGroup : ¬ IsGroup patt.print) :
    patt.Unwrapped := by
  have cut : topAlternatives patt.print = [patt.print] := by
    have whole := cutAtBars_append (isPiece_print isSingle) (.inl rfl : ([] : Text) = [] ∨ _)
    rw [List.append_nil] at whole
    exact whole
  intro piece member
  rw [cut, List.mem_singleton] at member
  rw [member]
  exact notGroup

/-- What becomes of a pattern. -/
structure Unwraps (patt result : Nesting) : Prop where
  unwrapped : result.Unwrapped
  language : ∀ reading, result.language reading = patt.language reading

theorem append_nil (patt : Nesting) : patt.append nil = patt := by
  induction patt with
  | nil => rfl
  | letter char rest inductionHypothesis | bar rest inductionHypothesis =>
      rw [append, inductionHypothesis]
  | group inner rest _ ofRest => rw [append, ofRest]

/-- Wherever a pattern stands, needless parentheses are removed from the left. -/
theorem exists_unwraps (bound : Nat) {before : Text} (lead : IsLead before) (proper : patt.Proper)
    (small : patt.print.length < bound) :
    ∃ result : Nesting, ayPatternRemoveParentheses (before ++ patt.print) =
      some (before ++ result.print) ∧ Unwraps patt result := by
  induction bound generalizing patt before with
  | zero => exact absurd small (Nat.not_lt_zero _)
  | succ bound inductionHypothesis =>
      obtain ⟨first, other, rfl, isSingle, isEnd⟩ := exists_cut patt
      have starting : first.starts = true := (starts_append isEnd).symm.trans proper.starts
      have others := proper.others
      rw [othersStart_append isEnd, Bool.and_eq_true] at others
      rw [print_append, List.length_append] at small
      rw [print_append]
      by_cases group : ∃ inner, first = .group inner nil
      · obtain ⟨inner, rfl⟩ := group
        have innerProper := others.1
        rw [othersStart, Bool.and_eq_true, Bool.and_eq_true] at innerProper
        have nextProper : (inner.append other).Proper := by
          refine ⟨(starts_append isEnd).trans innerProper.1.1, ?_⟩
          rw [othersStart_append isEnd, innerProper.1.2, others.2]
          rfl
        have shorter : (inner.append other).print.length < bound := by
          rw [print, print, List.length_cons, List.length_append, List.length_singleton] at small
          rw [print_append, List.length_append]
          omega
        obtain ⟨result, removed, unwraps⟩ := inductionHypothesis lead nextProper shorter
        rw [print_append] at removed
        refine ⟨result, ?_, unwraps.unwrapped, fun reading => ?_⟩
        · rw [← removed]
          exact removeParentheses_group lead (balanced_print inner) (ends_print isEnd)
        · rw [unwraps.language, language_group reading inner isEnd]
      · have notGroup := not_isGroup (fun inner same => group ⟨inner, same⟩)
        have kept := removeParentheses_kept lead (isAlternative_print starting isSingle) notGroup
          (ends_print isEnd)
        rw [kept]
        rcases isEnd with rfl | ⟨rest, rfl⟩
        · refine ⟨first, ?_, unwrapped_single isSingle notGroup, fun reading => ?_⟩
          · rw [print, removeParentheses_nil, Option.map_some, List.append_nil]
          · rw [append_nil]
        · rw [othersStart, Bool.and_eq_true] at others
          obtain ⟨result, removed, unwraps⟩ := @inductionHypothesis rest ['|'] (.inr rfl)
            ⟨others.2.1, others.2.2⟩ (by
              rw [print, List.length_cons] at small
              omega)
          refine ⟨first.append (bar result), ?_, unwrapped_cons isSingle notGroup unwraps.unwrapped,
            fun reading => ?_⟩
          · rw [print, ← List.singleton_append, removed, Option.map_some, print_append, print]
            simp
          · have same := unwraps.language reading
            rw [language, language] at same
            rw [language, language, sides_append reading (.inr ⟨result, rfl⟩),
              sides_append reading (.inr ⟨rest, rfl⟩), sides, sides, same]

/-- Needless parentheses are removed and nothing else changes. -/
theorem ayPatternRemoveParentheses_unwraps (proper : patt.Proper) :
    ∃ result : Nesting, ayPatternRemoveParentheses patt.print = some result.print ∧
      isBalanced 0 result.print = true ∧
      (∀ reading, result.language reading = patt.language reading) ∧
      ∀ piece ∈ topAlternatives result.print, ¬ IsGroup piece := by
  obtain ⟨result, removed, unwraps⟩ := @exists_unwraps patt _ [] (.inl rfl) proper
    (Nat.lt_succ_self _)
  exact ⟨result, removed, balanced_print result, unwraps.language, unwraps.unwrapped⟩

end Shape

/-- `?`, `*` and `+` apply to the item in front of them. -/
def readFrom (done last : Language Char) : List Item → Language Char
  | [] => done * last
  | .group words :: rest => readFrom (done * last) words rest
  | .char char :: rest =>
      if char = '?' then readFrom done (last + 1) rest
      else if char = '*' then readFrom done (KStar.kstar last) rest
      else if char = '+' then readFrom done (last * KStar.kstar last) rest
      else readFrom (done * last) {[char]} rest

def marks : Reading where
  words := readFrom 1 1
  alone language := by rw [readFrom, readFrom, one_mul, one_mul]

/-- `((a)|((b)(c)))` becomes `a|(b)(c)`. -/
theorem ayPatternRemoveParentheses_unwraps_group :
    let letter (char : Char) (free : isFreeChar char = true) : Nesting := .letter ⟨char, free⟩ nil
    let factors : Nesting := .group (letter 'b' rfl) (.group (letter 'c' rfl) nil)
    let patt : Nesting := .group (.group (letter 'a' rfl) (.bar (.group factors nil))) nil
    ∃ result : Nesting, ayPatternRemoveParentheses patt.print = some result.print ∧
      result.language marks = patt.language marks := by
  intro letter factors patt
  obtain ⟨result, removed, -, same, -⟩ := @ayPatternRemoveParentheses_unwraps patt ⟨rfl, rfl⟩
  exact ⟨result, removed, same marks⟩

/-- With open groups: there is a pattern in front of every parenthesis that closes one. -/
theorem exists_opened {text : Text} {par : Nat} (balanced : isBalanced par text = true)
    (noEscape : '\\' ∉ text) :
    ∃ (first : Nesting) (others : List Nesting), others.length = par ∧
      text = first.print ++ others.flatMap (fun patt => ')' :: patt.print) := by
  induction text generalizing par with
  | nil =>
      obtain rfl : par = 0 := by simpa [isBalanced] using balanced
      exact ⟨nil, [], rfl, rfl⟩
  | cons char rest inductionHypothesis =>
      rw [List.mem_cons, not_or] at noEscape
      rw [isBalanced] at balanced
      by_cases isOpen : char = '('
      · rw [if_pos isOpen] at balanced
        obtain ⟨first, others, count, same⟩ := inductionHypothesis balanced noEscape.2
        cases others with
        | nil => cases count
        | cons second others =>
            refine ⟨group first second, others, Nat.succ.inj count, ?_⟩
            rw [isOpen, same, print, List.flatMap_cons]
            simp
      · rw [if_neg isOpen] at balanced
        by_cases isClose : char = ')'
        · rw [if_pos isClose, Bool.and_eq_true, bne_iff_ne] at balanced
          obtain ⟨first, others, count, same⟩ := inductionHypothesis balanced.2 noEscape.2
          refine ⟨nil, first :: others, ?_, ?_⟩
          · rw [List.length_cons]
            omega
          · rw [isClose, same]
            rfl
        · rw [if_neg isClose] at balanced
          obtain ⟨first, others, count, same⟩ := inductionHypothesis balanced noEscape.2
          by_cases isBar : char = '|'
          · exact ⟨bar first, others, count, by rw [isBar, same]; rfl⟩
          · have free : isFreeChar char = true := by
              simp only [isFreeChar, Bool.and_eq_true, bne_iff_ne]
              exact ⟨⟨⟨isOpen, isClose⟩, isBar⟩, fun escape => noEscape.1 escape.symm⟩
            exact ⟨letter ⟨char, free⟩ first, others, count, by rw [same]; rfl⟩

/-- Every balanced text without escapes is a pattern. -/
theorem exists_print {text : Text} (balanced : isBalanced 0 text = true) (noEscape : '\\' ∉ text) :
    ∃ patt : Nesting, patt.print = text := by
  obtain ⟨patt, others, count, same⟩ := exists_opened balanced noEscape
  obtain rfl := List.length_eq_zero_iff.mp count
  refine ⟨patt, ?_⟩
  rw [same, List.flatMap_nil, List.append_nil]

end Nesting

end SysrepoAugeas.Pattern
