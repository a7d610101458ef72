import SysrepoAugeas.Term.Language

/-!
# Types for a difference of regular expressions

A minus becomes a pattern and a second one with `invert-match`.  References are
resolved, so that a term that is referred to twice has two subtrees here.
-/

namespace SysrepoAugeas.Term

open SysrepoAugeas.Data
open SysrepoAugeas.Label (Text)

section Code

/-- Subtree of pnodes when repetitions were swapped with what they repeat. -/
inductive Swapped where
  | union (left right : Swapped)
  | reference (target : Swapped)
  /-- Data of `A_MINUS` over data of `A_REP` over both operands. -/
  | minusRep (left right : Regex) (quant : Quant)
  | kept (regex : Regex)

/-- `ay_pnode_ref_apply` -/
def ayPnodeRefApply : Regex → Regex
  | .reference target => ayPnodeRefApply target
  | regex => regex

/-- `ay_pnode_swap_rep_minus` -/
def ayPnodeSwapRepMinus : Regex → Swapped
  | .union left right => .union (ayPnodeSwapRepMinus left) (ayPnodeSwapRepMinus right)
  | .reference target => .reference (ayPnodeSwapRepMinus target)
  | .rep (.minus left right) quant => .minusRep left right quant
  | regex => .kept regex

/-- `ay_pnode_minus_count` -/
def ayPnodeMinusCount : Regex → Nat
  | .minus left right => 1 + ayPnodeMinusCount left + ayPnodeMinusCount right
  | .union left right | .concat left right | .pair _ left right =>
      ayPnodeMinusCount left + ayPnodeMinusCount right
  | .rep child _ | .outer _ child => ayPnodeMinusCount child
  | .reference target => ayPnodeMinusCount target
  | .string _ | .regexp _ | .compiled _ | .test => 0

/-- `ay_pnode_is_simple_minus_regex` where nothing was swapped. -/
def ayPnodeIsSimpleMinusRegex : Regex → Bool
  | .reference target => ayPnodeIsSimpleMinusRegex target
  | .rep child _ => ayPnodeIsSimpleMinusRegex child
  | .union left right => ayPnodeIsSimpleMinusRegex left || ayPnodeIsSimpleMinusRegex right
  | .minus left right => ayPnodeMinusCount (.minus left right) == 1
  | _ => false

namespace Swapped

def refApply : Swapped → Swapped
  | reference target => refApply target
  | regex => regex

def tag : Swapped → TermTag
  | union _ _ => .aUnion
  | reference _ => .aIdent
  | minusRep _ _ _ => .aMinus
  | kept regex => regex.tag

/-- `ay_pnode_is_simple_minus_regex` -/
def isSimpleMinus : Swapped → Bool
  | reference target => isSimpleMinus target
  | union left right => isSimpleMinus left || isSimpleMinus right
  | minusRep left right _ => 1 + ayPnodeMinusCount left + ayPnodeMinusCount right == 1
  | kept regex => ayPnodeIsSimpleMinusRegex regex

/-- `ay_pnode_peek` -/
def peek (tag : TermTag) : Swapped → Bool
  | reference target => tag == .aIdent || peek tag target
  | kept regex => ayPnodePeek tag regex
  | regex => regex.tag == tag

end Swapped

/-- `ay_pnode_for_regex` for the right child of an application. -/
def ayPnodeForRegex (regex : Regex) : Option Swapped :=
  let pnode := ayPnodeSwapRepMinus (ayPnodeRefApply regex)
  if pnode.isSimpleMinus then some pnode else none

/-- A pattern with the text that is handed to `ay_print_regex_standardized`. -/
structure Pattern where
  text : Text
  /-- `(?i)` -/
  nocase : Bool
  /-- `modifier invert-match` -/
  invert : Bool

variable (makeRegexpLiteral : Text → Text) (nocase : Text → Bool)

/-- `ay_pnode_regexp_has_nocase` where nothing was swapped; `nocase` is the flag of a regexp. -/
def ayPnodeRegexpHasNocase : Regex → Bool
  | .reference target => ayPnodeRegexpHasNocase target
  | .regexp pattern => nocase pattern
  | .union left right => ayPnodeRegexpHasNocase left && ayPnodeRegexpHasNocase right
  | _ => false

namespace Swapped

/-- `ay_pnode_regexp_has_nocase` -/
def hasNocase : Swapped → Bool
  | reference target => hasNocase target
  | union left right => hasNocase left && hasNocase right
  | minusRep _ _ _ => false
  | kept regex => ayPnodeRegexpHasNocase nocase regex

/-- `ay_pnode_print_regex`; of the operands under a swapped repetition only the first is printed. -/
def text : Swapped → Text
  | union left right => text left ++ '|' :: text right
  | reference target => text target
  | minusRep left _ quant =>
      '(' :: (ayPnodePrintRegex makeRegexpLiteral left).text ++ [')'] ++ [quant.char]
  | kept regex => (ayPnodePrintRegex makeRegexpLiteral regex).text

end Swapped

/-- `ay_print_yang_pattern_by_pnode_regex` -/
def ayPrintYangPatternByPnodeRegex (regex : Swapped) (invert : Bool) : Pattern where
  text := regex.text makeRegexpLiteral
  nocase := regex.hasNocase nocase
  invert := invert

/-- `ay_print_yang_pattern_minus`; a swapped repetition is the only child. -/
def ayPrintYangPatternMinus : Swapped → Option (List Pattern)
  | .kept (.minus left right) =>
      some [ayPrintYangPatternByPnodeRegex makeRegexpLiteral nocase (.kept left) false,
        ayPrintYangPatternByPnodeRegex makeRegexpLiteral nocase (.kept right) true]
  | _ => none

/-- `ay_print_yang_type_union_item_from_regex` -/
def ayPrintYangTypeUnionItemFromRegex (regex : Swapped) : Option (List Pattern) :=
  if regex.peek .aMinus && regex.refApply.tag == .aMinus then
    ayPrintYangPatternMinus makeRegexpLiteral nocase regex.refApply
  else some [ayPrintYangPatternByPnodeRegex makeRegexpLiteral nocase regex false]

/-- `ay_print_yang_type_union_items_from_regex` for a union, `ay_print_yang_pattern` for a minus.
The loop that looks for the first union ends at once, so that there are two items. -/
def printYangType : Swapped → Option (List (List Pattern))
  | .union left right =>
      (ayPrintYangTypeUnionItemFromRegex makeRegexpLiteral nocase left).bind fun first =>
        (ayPrintYangTypeUnionItemFromRegex makeRegexpLiteral nocase right).map fun second =>
          [first, second]
  | regex => (ayPrintYangPatternMinus makeRegexpLiteral nocase regex).map fun only => [only]

end Code

section Meaning

variable (dialects : Bool → Dialect) (nocase : Text → Bool)

/-- Words of a term, with minus as a difference of sets. -/
def Regex.meaning : Regex → Language Char
  | .union left right => left.meaning + right.meaning
  | .concat left right => left.meaning * right.meaning
  | .minus left right => fun word => word ∈ left.meaning ∧ word ∉ right.meaning
  | .rep child quant => quant.apply child.meaning
  | .string text => {text}
  | .regexp pattern | .compiled pattern => patternLanguage (dialects (nocase pattern)) pattern
  | .reference target => target.meaning
  | .outer _ _ | .pair _ _ _ | .test => 0

def Pattern.Accepts (pattern : Pattern) (word : Text) : Prop :=
  word ∈ patternLanguage (dialects pattern.nocase) pattern.text ↔ pattern.invert = false

/-- One member of a union has to accept with all of its patterns. -/
def typeLanguage (members : List (List Pattern)) : Language Char :=
  fun word => ∃ member ∈ members, ∀ pattern ∈ member, pattern.Accepts dialects word

/-- Every regexp in the term has the flag, and no string has it. -/
def SameCase (flag : Bool) : Regex → Prop
  | .union left right | .concat left right | .minus left right | .pair _ left right =>
      SameCase flag left ∧ SameCase flag right
  | .rep child _ | .outer _ child => SameCase flag child
  | .string _ => flag = false
  | .regexp pattern | .compiled pattern => nocase pattern = flag
  | .reference target => SameCase flag target
  | .test => True

/-- One pattern can express the term. -/
structure Printable (regex : Regex) : Prop where
  minusFree : MinusFree (dialects (ayPnodeRegexpHasNocase nocase regex)) regex
  closed : OperandsClosed (dialects (ayPnodeRegexpHasNocase nocase regex)) regex
  sameCase : SameCase nocase (ayPnodeRegexpHasNocase nocase regex) regex

/-- A minus of terms that one pattern each can express, also through references. -/
def IsMinus : Regex → Prop
  | .minus left right => Printable dialects nocase left ∧ Printable dialects nocase right
  | .reference target => IsMinus target
  | _ => False

/-- A minus stands at the root or is one of the two branches of a union at the root. -/
def DirectMinus : Regex → Prop
  | .union left right =>
      (IsMinus dialects nocase left ∨ Printable dialects nocase left) ∧
        (IsMinus dialects nocase right ∨ Printable dialects nocase right)
  | .reference target => DirectMinus target
  | regex => IsMinus dialects nocase regex

end Meaning

theorem mem_typeLanguage {dialects : Bool → Dialect} {members : List (List Pattern)} {word : Text} :
    word ∈ typeLanguage dialects members ↔
      ∃ member ∈ members, ∀ pattern ∈ member, pattern.Accepts dialects word := Iff.rfl

section Prints

variable {dialects : Bool → Dialect} {makeRegexpLiteral : Text → Text} {nocase : Text → Bool}
  {regex left right : Regex} {dialect : Dialect} {flag : Bool}

theorem meaning_eq (minusFree : MinusFree dialect regex) (sameCase : SameCase nocase flag regex) :
    regex.meaning dialects nocase = regex.language (dialects flag) := by
  induction regex with
  | union left right leftHypothesis rightHypothesis =>
      rw [Regex.meaning, leftHypothesis minusFree.1 sameCase.1,
        rightHypothesis minusFree.2 sameCase.2]
      rfl
  | concat left right leftHypothesis rightHypothesis =>
      rw [Regex.meaning, leftHypothesis minusFree.1 sameCase.1,
        rightHypothesis minusFree.2 sameCase.2]
      rfl
  | rep child quant inductionHypothesis =>
      rw [Regex.meaning, inductionHypothesis minusFree sameCase]
      rfl
  | string text => rfl
  | regexp pattern =>
      have same : nocase pattern = flag := sameCase
      rw [Regex.meaning, same]
      rfl
  | reference target inductionHypothesis => exact inductionHypothesis minusFree sameCase
  | compiled pattern =>
      have same : nocase pattern = flag := sameCase
      rw [Regex.meaning, same]
      rfl
  | minus left right => exact minusFree.elim
  | outer tag child => exact minusFree.elim
  | pair tag left right => exact minusFree.elim
  | test => exact minusFree.elim

/-- A term that is case-insensitive consists of unions and regexps. -/
theorem reads_nocase (isNocase : ayPnodeRegexpHasNocase nocase regex = true)
    (minusFree : MinusFree dialect regex) :
    ∃ level, Reads dialect (printed makeRegexpLiteral regex) level ∧
      level.language = regex.language dialect := by
  induction regex with
  | union left right leftHypothesis rightHypothesis =>
      rw [ayPnodeRegexpHasNocase, Bool.and_eq_true] at isNocase
      obtain ⟨level, reads, language⟩ := leftHypothesis isNocase.1 minusFree.1
      obtain ⟨other, readsRight, languageRight⟩ := rightHypothesis isNocase.2 minusFree.2
      refine ⟨_, reads.bar readsRight, ?_⟩
      rw [Level.language_bar_over, language, languageRight]
      rfl
  | regexp pattern =>
      obtain ⟨level, reads⟩ := minusFree
      exact ⟨level, reads, (patternLanguage_eq reads).symm⟩
  | reference target inductionHypothesis => exact inductionHypothesis isNocase minusFree
  | concat left right => cases isNocase
  | rep child quant => cases isNocase
  | string text => cases isNocase
  | compiled pattern => cases isNocase
  | minus left right => cases isNocase
  | outer tag child => cases isNocase
  | pair tag left right => cases isNocase
  | test => cases isNocase

theorem text_printRegex (regex : Regex) :
    (ayPnodePrintRegex makeRegexpLiteral regex).text = printed makeRegexpLiteral regex := by
  have text := @text_printRegexToBuffer makeRegexpLiteral regex ⟨[], 0⟩
  unfold ayPnodePrintRegex Buffer.terminate
  rw [text]
  rfl

/-- The pattern of a term matches the words of the term. -/
theorem Printable.language (exactLiteral : LiteralExact (dialects false) makeRegexpLiteral)
    (printable : Printable dialects nocase regex) :
    patternLanguage (dialects (ayPnodeRegexpHasNocase nocase regex))
        (ayPnodePrintRegex makeRegexpLiteral regex).text = regex.meaning dialects nocase := by
  obtain ⟨minusFree, closed, sameCase⟩ := printable
  rw [meaning_eq minusFree sameCase]
  cases flag : ayPnodeRegexpHasNocase nocase regex with
  | true =>
      rw [flag] at minusFree
      obtain ⟨level, reads, language⟩ := @reads_nocase makeRegexpLiteral _ _ _ flag minusFree
      rw [text_printRegex, patternLanguage_eq reads, language]
  | false =>
      rw [flag] at minusFree closed
      obtain ⟨level, reads, language⟩ := ayPnodePrintRegex_denotes exactLiteral minusFree closed
      rw [patternLanguage_eq reads, language]

/-- Nothing is swapped in a term without minus. -/
structure Unswapped (makeRegexpLiteral : Text → Text) (nocase : Text → Bool) (regex : Regex)
    (swapped : Swapped) : Prop where
  text : swapped.text makeRegexpLiteral = (ayPnodePrintRegex makeRegexpLiteral regex).text
  hasNocase : swapped.hasNocase nocase = ayPnodeRegexpHasNocase nocase regex
  peek : swapped.peek .aMinus = false

theorem unswapped_kept (noMinus : ayPnodePeek .aMinus regex = false) :
    Unswapped makeRegexpLiteral nocase regex (.kept regex) :=
  ⟨rfl, rfl, noMinus⟩

theorem unswapped (minusFree : MinusFree dialect regex) :
    Unswapped makeRegexpLiteral nocase regex (ayPnodeSwapRepMinus regex) := by
  induction regex with
  | union left right leftHypothesis rightHypothesis =>
      have ofLeft := leftHypothesis minusFree.1
      have ofRight := rightHypothesis minusFree.2
      refine ⟨?_, ?_, rfl⟩
      · rw [ayPnodeSwapRepMinus, Swapped.text, ofLeft.text, ofRight.text, text_printRegex,
          text_printRegex, text_printRegex, printed]
      · rw [ayPnodeSwapRepMinus, Swapped.hasNocase, ofLeft.hasNocase, ofRight.hasNocase,
          ayPnodeRegexpHasNocase]
  | reference target inductionHypothesis =>
      have ofTarget := inductionHypothesis minusFree
      refine ⟨?_, ?_, ?_⟩
      · rw [ayPnodeSwapRepMinus, Swapped.text, ofTarget.text, text_printRegex, text_printRegex,
          printed]
      · rw [ayPnodeSwapRepMinus, Swapped.hasNocase, ofTarget.hasNocase, ayPnodeRegexpHasNocase]
      · rw [ayPnodeSwapRepMinus, Swapped.peek, ofTarget.peek]
        rfl
  | rep child quant =>
      cases child with
      | minus left right => exact minusFree.elim
      | _ => exact unswapped_kept rfl
  | minus left right => exact minusFree.elim
  | outer tag child => exact minusFree.elim
  | pair tag left right => exact minusFree.elim
  | test => exact minusFree.elim
  | concat left right => exact unswapped_kept rfl
  | string text => exact unswapped_kept rfl
  | regexp pattern => exact unswapped_kept rfl
  | compiled pattern => exact unswapped_kept rfl

/-- The patterns are those of a member that accepts the words of the term. -/
def Expresses (dialects : Bool → Dialect) (nocase : Text → Bool) (patterns : List Pattern)
    (regex : Regex) : Prop :=
  ∀ word, (∀ pattern ∈ patterns, pattern.Accepts dialects word) ↔
    word ∈ regex.meaning dialects nocase

variable (exactLiteral : LiteralExact (dialects false) makeRegexpLiteral)
include exactLiteral

theorem Printable.accepts (printable : Printable dialects nocase regex) {swapped : Swapped}
    (text : swapped.text makeRegexpLiteral = (ayPnodePrintRegex makeRegexpLiteral regex).text)
    (hasNocase : swapped.hasNocase nocase = ayPnodeRegexpHasNocase nocase regex) (invert : Bool)
    (word : Text) :
    (ayPrintYangPatternByPnodeRegex makeRegexpLiteral nocase swapped invert).Accepts dialects word ↔
      (word ∈ regex.meaning dialects nocase ↔ invert = false) := by
  rw [Pattern.Accepts, ← printable.language exactLiteral, ← text, ← hasNocase]
  rfl

theorem expresses_minus (ofLeft : Printable dialects nocase left)
    (ofRight : Printable dialects nocase right) :
    Expresses dialects nocase
      [ayPrintYangPatternByPnodeRegex makeRegexpLiteral nocase (.kept left) false,
        ayPrintYangPatternByPnodeRegex makeRegexpLiteral nocase (.kept right) true]
      (.minus left right) := by
  intro word
  rw [List.forall_mem_cons, List.forall_mem_singleton, ofLeft.accepts exactLiteral rfl rfl,
    ofRight.accepts exactLiteral rfl rfl]
  simp only [iff_true, reduceCtorEq, iff_false]
  rfl

theorem unionItem_minus (isMinus : IsMinus dialects nocase regex) :
    ∃ patterns, ayPrintYangTypeUnionItemFromRegex makeRegexpLiteral nocase
        (ayPnodeSwapRepMinus regex) = some patterns ∧ Expresses dialects nocase patterns regex := by
  induction regex with
  | minus left right => exact ⟨_, rfl, expresses_minus exactLiteral isMinus.1 isMinus.2⟩
  | reference target inductionHypothesis =>
      obtain ⟨patterns, item, expresses⟩ := inductionHypothesis isMinus
      exact ⟨patterns, item, expresses⟩
  | union left right => exact isMinus.elim
  | concat left right => exact isMinus.elim
  | rep child quant => exact isMinus.elim
  | string text => exact isMinus.elim
  | regexp pattern => exact isMinus.elim
  | compiled pattern => exact isMinus.elim
  | outer tag child => exact isMinus.elim
  | pair tag left right => exact isMinus.elim
  | test => exact isMinus.elim

theorem unionItem_printable (printable : Printable dialects nocase regex) :
    ∃ patterns, ayPrintYangTypeUnionItemFromRegex makeRegexpLiteral nocase
        (ayPnodeSwapRepMinus regex) = some patterns ∧ Expresses dialects nocase patterns regex := by
  have same := @unswapped makeRegexpLiteral nocase _ _ printable.minusFree
  refine ⟨[ayPrintYangPatternByPnodeRegex makeRegexpLiteral nocase (ayPnodeSwapRepMinus regex)
    false], ?_, fun word => ?_⟩
  · rw [ayPrintYangTypeUnionItemFromRegex, same.peek]
    rfl
  · rw [List.forall_mem_singleton, printable.accepts exactLiteral same.text same.hasNocase]
    exact iff_true_right rfl

theorem unionItem_expresses
    (branch : IsMinus dialects nocase regex ∨ Printable dialects nocase regex) :
    ∃ patterns, ayPrintYangTypeUnionItemFromRegex makeRegexpLiteral nocase
        (ayPnodeSwapRepMinus regex) = some patterns ∧ Expresses dialects nocase patterns regex :=
  branch.elim (unionItem_minus exactLiteral) (unionItem_printable exactLiteral)

theorem printYangType_expresses (direct : DirectMinus dialects nocase regex) :
    ∃ members, printYangType makeRegexpLiteral nocase
        (ayPnodeSwapRepMinus (ayPnodeRefApply regex)) = some members ∧
      typeLanguage dialects members = regex.meaning dialects nocase := by
  induction regex with
  | union left right =>
      obtain ⟨first, ofFirst, isLeft⟩ := unionItem_expresses exactLiteral direct.1
      obtain ⟨second, ofSecond, isRight⟩ := unionItem_expresses exactLiteral direct.2
      refine ⟨[first, second], ?_, ?_⟩
      · have swapped : ayPnodeSwapRepMinus (ayPnodeRefApply (.union left right)) =
            .union (ayPnodeSwapRepMinus left) (ayPnodeSwapRepMinus right) := rfl
        rw [swapped, printYangType, ofFirst, Option.bind_some, ofSecond, Option.map_some]
      · ext word
        rw [mem_typeLanguage, Regex.meaning, Language.mem_add, ← isLeft word, ← isRight word]
        simp only [List.mem_cons, List.not_mem_nil, or_false, exists_eq_or_imp, exists_eq_left]
  | reference target inductionHypothesis => exact inductionHypothesis direct
  | minus left right =>
      refine ⟨_, rfl, ?_⟩
      ext word
      rw [mem_typeLanguage, ← expresses_minus exactLiteral direct.1 direct.2 word]
      simp only [List.mem_singleton, exists_eq_left]
  | concat left right => exact direct.elim
  | rep child quant => exact direct.elim
  | string text => exact direct.elim
  | regexp pattern => exact direct.elim
  | compiled pattern => exact direct.elim
  | outer tag child => exact direct.elim
  | pair tag left right => exact direct.elim
  | test => exact direct.elim

end Prints

section Examples

theorem printable_string (text : Text) :
    Printable (fun _ => simpleDialect) (fun _ => false) (.string text) :=
  ⟨trivial, trivial, rfl⟩

end Examples

end SysrepoAugeas.Term
