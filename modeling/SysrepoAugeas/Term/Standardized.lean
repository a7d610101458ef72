import SysrepoAugeas.Data.Bracket
import SysrepoAugeas.Term.Language

/-!
# Patterns for YANG

A regular expression of Augeas is printed as a pattern in double quotes.
Groups that are empty are left out, and so is a group around the whole pattern.
-/

namespace SysrepoAugeas.Term

open SysrepoAugeas.Data
open SysrepoAugeas.Label (Text)

section Code

/-- `ay_replace_substr` -/
def ayReplaceSubstr (target replace : Text) : Text → Text
  | [] => []
  | char :: rest =>
      if _hit : target.isPrefixOf (char :: rest) ∧ replace.length < target.length then
        ayReplaceSubstr target replace (replace ++ (char :: rest).drop target.length)
      else char :: ayReplaceSubstr target replace rest
termination_by text => text.length
decreasing_by
  · have within := (List.isPrefixOf_iff_prefix.mp _hit.1).length_le
    rw [List.length_append, List.length_drop]
    omega
  · exact Nat.lt_succ_self _

/-- Loop of `ay_regex_remove_parentheses`. -/
def outerLevel : Text → Nat → Nat
  | [], level => level
  | char :: rest, level =>
      let level := if char = '(' then level + 1 else if char = ')' then level - 1 else level
      if level = 0 then 0 else outerLevel rest level

/-- The first and the last character are removed. -/
def removesParentheses (src : Text) : Bool :=
  (src.head? == some '(' || src.getLast? == some ')') && outerLevel (src.drop 1).dropLast 1 == 1

/-- `ay_regex_remove_parentheses` -/
def ayRegexRemoveParentheses (src : Text) : Text :=
  if removesParentheses src then (src.drop 1).dropLast else src

/-- Loop of `ay_regex_try_skip` with the number of characters that it has passed and of the
parentheses that are open: `Sum.inl` when it stops at a `)` without a `(`. -/
def skipScan : Text → Nat → Nat → Nat ⊕ (Nat × Nat × Text)
  | [], count, par => .inr (count, par, [])
  | char :: rest, count, par =>
      if char = '(' then skipScan rest (count + 1) (par + 1)
      else if char = ')' then
        if par = 0 then .inl count else skipScan rest (count + 1) (par - 1)
      else if char = '\r' then skipScan rest (count + 1) par
      else .inr (count, par, char :: rest)

/-- End of `ay_regex_try_skip`; a repetition is skipped with what it repeats.  None of the characters
that were passed is a `|`. -/
def skipEnd : Nat ⊕ (Nat × Nat × Text) → Nat
  | .inl count => count
  | .inr (count, par, rest) =>
      if par ≠ 0 then 0
      else if count ≠ 0 ∧ (rest.head? = some '?' ∨ rest.head? = some '*' ∨ rest.head? = some '+') then
        count + 1
      else count

/-- `ay_regex_try_skip`: the number of characters. -/
def ayRegexTrySkip (curr : Text) : Nat :=
  if ['|', '(', ')'].isPrefixOf curr ∨ ['(', ')'].isPrefixOf curr then 0
  else skipEnd (skipScan curr 0 0)

/-- Loop of `ay_print_regex_standardized` with `charClassExpr` and `charClassEmpty`. -/
def standardizedFrom (expr empty : Bool) : Text → Text
  | [] => []
  | char :: rest =>
      if _skipped : ayRegexTrySkip (char :: rest) ≠ 0 then
        standardizedFrom expr empty ((char :: rest).drop (ayRegexTrySkip (char :: rest)))
      else if char = '[' then
        if expr then ['\\', '\\', '['] ++ standardizedFrom expr empty rest
        else '[' :: standardizedFrom true true rest
      else if char = ']' then
        if expr && empty then ['\\', '\\', ']'] ++ standardizedFrom expr empty rest
        else ']' :: standardizedFrom false empty rest
      else if char = '^' then '^' :: standardizedFrom expr empty rest
      else if char = '\n' then ['\\', 'n'] ++ standardizedFrom expr false rest
      else if char = '\t' then ['\\', 't'] ++ standardizedFrom expr false rest
      else if char = '"' then ['\\', '"'] ++ standardizedFrom expr false rest
      else if char = '\\' then
        if rest.head? = some '$' then '$' :: standardizedFrom expr false rest.tail
        else if rest.head? = some '\\' then
          List.replicate (if expr then 8 else 4) '\\' ++ standardizedFrom expr false rest.tail
        else if expr then List.replicate 4 '\\' ++ standardizedFrom expr false rest
        else if rest.head? = some '[' ∨ rest.head? = some ']' then
          ['\\', '\\'] ++ rest.take 1 ++ standardizedFrom expr empty rest.tail
        else if rest.head? = some '^' then standardizedFrom expr false rest
        else ['\\', '\\'] ++ standardizedFrom expr false rest
      else char :: standardizedFrom expr false rest
termination_by text => text.length
decreasing_by
  all_goals simp only [List.length_drop, List.length_cons, List.length_tail]
  all_goals omega

/-- `"\n                  "` -/
def hostnameBlanks : Text := '\n' :: List.replicate 18 ' '

def minclock : Text := ['m', 'i', 'n', 'c', 'l', 'o', 'c', 'k']

/-- `ay_print_regex_standardized` -/
def ayPrintRegexStandardized (patt : Text) : Text :=
  if patt = [] then []
  else
    let src := ayReplaceSubstr hostnameBlanks [] patt
    let src := ayReplaceSubstr (List.replicate 4 ' ' ++ minclock) minclock src
    standardizedFrom false false (ayRegexRemoveParentheses src)

end Code

/-- What a YANG string in double quotes stands for. -/
def yangUnquoted : Text → Text
  | '\\' :: 'n' :: rest => '\n' :: yangUnquoted rest
  | '\\' :: 't' :: rest => '\t' :: yangUnquoted rest
  | '\\' :: '"' :: rest => '"' :: yangUnquoted rest
  | '\\' :: '\\' :: rest => '\\' :: yangUnquoted rest
  | char :: rest => char :: yangUnquoted rest
  | [] => []

section Skip

variable {char : Char} {rest : Text}

theorem skipScan_stop (notOpen : char ≠ '(') (notClose : char ≠ ')') (noReturn : char ≠ '\r')
    (count par : Nat) : skipScan (char :: rest) count par = .inr (count, par, char :: rest) := by
  rw [skipScan, if_neg notOpen, if_neg notClose, if_neg noReturn]

theorem trySkip_plain (notOpen : char ≠ '(') (notClose : char ≠ ')') (noReturn : char ≠ '\r') :
    ayRegexTrySkip (char :: rest) = 0 := by
  rw [ayRegexTrySkip, skipScan_stop notOpen notClose noReturn]
  simp [skipEnd]

theorem trySkip_close : ayRegexTrySkip (')' :: rest) = 0 := by
  rw [ayRegexTrySkip, skipScan]
  simp [skipEnd]

end Skip

section Emit

variable {char : Char} {rest : Text} {expr empty : Bool}

theorem unquoted_plain (plain : char ≠ '\\') (text : Text) :
    yangUnquoted (char :: text) = char :: yangUnquoted text := by
  rw [yangUnquoted]
  all_goals
    rintro other rfl
    exact absurd rfl plain

theorem unquoted_backslash (text : Text) :
    yangUnquoted ('\\' :: '\\' :: text) = '\\' :: yangUnquoted text := rfl

/-- What the printed pattern stands for. -/
def emitted (expr empty : Bool) (text : Text) : Text :=
  yangUnquoted (standardizedFrom expr empty text)

theorem emitted_skip (skips : ayRegexTrySkip (char :: rest) ≠ 0) :
    emitted expr empty (char :: rest) =
      emitted expr empty ((char :: rest).drop (ayRegexTrySkip (char :: rest))) := by
  rw [emitted, standardizedFrom, dif_pos skips]
  rfl

/-- A character without a meaning of its own stays as it is. -/
theorem emitted_plain (kept : ayRegexTrySkip (char :: rest) = 0)
    (plain : char ≠ '[' ∧ char ≠ ']' ∧ char ≠ '^' ∧ char ≠ '\\') :
    emitted expr empty (char :: rest) = char :: emitted expr false rest := by
  obtain ⟨notOpen, notClose, notCaret, notBackslash⟩ := plain
  rw [emitted, standardizedFrom, dif_neg (not_not.mpr kept), if_neg notOpen, if_neg notClose,
    if_neg notCaret]
  split_ifs with newline tab quote
  · rw [newline]
    rfl
  · rw [tab]
    rfl
  · rw [quote]
    rfl
  · exact unquoted_plain notBackslash _

theorem emitted_caret : emitted expr empty ('^' :: rest) = '^' :: emitted expr empty rest := by
  rw [emitted, standardizedFrom, dif_neg (not_not.mpr (trySkip_plain (by decide) (by decide)
    (by decide))), if_neg (by decide), if_neg (by decide), if_pos rfl]
  rfl

theorem emitted_open : emitted false empty ('[' :: rest) = '[' :: emitted true true rest := by
  rw [emitted, standardizedFrom, dif_neg (not_not.mpr (trySkip_plain (by decide) (by decide)
    (by decide))), if_pos rfl]
  rfl

theorem emitted_openInside :
    emitted true empty ('[' :: rest) = '\\' :: '[' :: emitted true empty rest := by
  rw [emitted, standardizedFrom, dif_neg (not_not.mpr (trySkip_plain (by decide) (by decide)
    (by decide))), if_pos rfl]
  rfl

theorem emitted_closeInside :
    emitted true true (']' :: rest) = '\\' :: ']' :: emitted true true rest := by
  rw [emitted, standardizedFrom, dif_neg (not_not.mpr (trySkip_plain (by decide) (by decide)
    (by decide))), if_neg (by decide), if_pos rfl]
  rfl

theorem emitted_close : emitted true false (']' :: rest) = ']' :: emitted false false rest := by
  rw [emitted, standardizedFrom, dif_neg (not_not.mpr (trySkip_plain (by decide) (by decide)
    (by decide))), if_neg (by decide), if_pos rfl]
  rfl

theorem emitted_backslash :
    emitted expr empty ('\\' :: rest) = yangUnquoted
      (if rest.head? = some '$' then '$' :: standardizedFrom expr false rest.tail
      else if rest.head? = some '\\' then
        List.replicate (if expr then 8 else 4) '\\' ++ standardizedFrom expr false rest.tail
      else if expr then List.replicate 4 '\\' ++ standardizedFrom expr false rest
      else if rest.head? = some '[' ∨ rest.head? = some ']' then
        ['\\', '\\'] ++ rest.take 1 ++ standardizedFrom expr empty rest.tail
      else if rest.head? = some '^' then standardizedFrom expr false rest
      else ['\\', '\\'] ++ standardizedFrom expr false rest) := by
  rw [emitted, standardizedFrom, dif_neg (not_not.mpr (trySkip_plain (by decide) (by decide)
    (by decide))), if_neg (by decide), if_neg (by decide), if_neg (by decide), if_neg (by decide),
    if_neg (by decide), if_neg (by decide), if_pos rfl]

/-- Two backslashes between brackets are printed together. -/
theorem emitted_backslashes : emitted true empty ('\\' :: '\\' :: rest) =
    '\\' :: '\\' :: '\\' :: '\\' :: emitted true false rest := by
  rw [emitted_backslash]
  rfl

theorem emitted_backslashInside (notDollar : rest.head? ≠ some '$')
    (notBackslash : rest.head? ≠ some '\\') :
    emitted true empty ('\\' :: rest) = '\\' :: '\\' :: emitted true false rest := by
  rw [emitted_backslash, if_neg notDollar, if_neg notBackslash]
  rfl

/-- Characters with a meaning of their own outside of brackets. -/
def isMeta (char : Char) : Bool :=
  ['.', '[', ']', '\\', '(', ')', '*', '+', '?', '\x7b', '\x7d', '^', '$', '|'].contains char

/-- What an escaped character becomes. -/
def escapedOutside (char : Char) : Text := if char = '$' ∨ char = '^' then [char] else ['\\', char]

theorem emitted_escaped (kept : ayRegexTrySkip (char :: rest) = 0) :
    ∃ emptyAfter, emitted false empty ('\\' :: char :: rest) =
      escapedOutside char ++ emitted false emptyAfter rest := by
  rw [emitted_backslash, escapedOutside]
  simp only [List.head?_cons, Option.some.injEq, List.tail_cons, Bool.false_eq_true, if_false]
  by_cases dollar : char = '$'
  · rw [if_pos dollar, if_pos (.inl dollar), dollar]
    exact ⟨_, rfl⟩
  · rw [if_neg dollar]
    by_cases backslash : char = '\\'
    · rw [if_pos backslash, backslash]
      exact ⟨_, rfl⟩
    · rw [if_neg backslash]
      by_cases bracket : char = '[' ∨ char = ']'
      · rw [if_pos bracket]
        have plain : ¬ (char = '$' ∨ char = '^') := by
          rintro (rfl | rfl)
          · exact dollar rfl
          · exact absurd bracket (by decide)
        rw [if_neg plain]
        exact ⟨empty, congrArg ('\\' :: ·) (unquoted_plain backslash _)⟩
      · rw [if_neg bracket]
        by_cases caret : char = '^'
        · rw [if_pos caret, if_pos (.inr caret), caret]
          exact ⟨false, emitted_caret⟩
        · rw [if_neg caret, if_neg (by rw [not_or]; exact ⟨dollar, caret⟩)]
          rw [not_or] at bracket
          refine ⟨false, ?_⟩
          have others := @emitted_plain char rest false false kept
            ⟨bracket.1, bracket.2, caret, backslash⟩
          rw [List.cons_append, List.cons_append, unquoted_backslash]
          exact congrArg ('\\' :: ·) others

/-- Members behind which `charClassEmpty` is as before. -/
def keepsEmpty (char : Char) : Bool := char = '[' ∨ char = ']' ∨ char = '^'

/-- No parenthesis in a text is skipped. -/
def KeepsParens (text rest : Text) : Prop :=
  ∀ front behind, text = front ++ '(' :: behind → ayRegexTrySkip ('(' :: behind ++ rest) = 0

theorem KeepsParens.of_append (front : Text) {text : Text} (keeps : KeepsParens (front ++ text) rest) :
    KeepsParens text rest :=
  fun before behind same => keeps (front ++ before) behind (by rw [same, List.append_assoc])

theorem KeepsParens.of_not_mem {text : Text} (noOpen : '(' ∉ text) : KeepsParens text rest := by
  rintro front behind rfl
  exact absurd (List.mem_append_right front List.mem_cons_self) noOpen

theorem KeepsParens.kept {text : Text} (keeps : KeepsParens (char :: text) rest)
    (noReturn : char ≠ '\r') : ayRegexTrySkip (char :: text ++ rest) = 0 := by
  by_cases isOpen : char = '('
  · rw [isOpen] at keeps ⊢
    exact keeps [] text rfl
  · by_cases isClose : char = ')'
    · rw [isClose]
      exact trySkip_close
    · exact trySkip_plain isOpen isClose noReturn

/-- One member of a bracket expression, with other behaviour only for two backslashes. -/
theorem emitted_member (notClose : char ≠ ']') (kept : ayRegexTrySkip (char :: rest) = 0)
    (single : char = '\\' → rest.head? ≠ some '$' ∧ rest.head? ≠ some '\\') :
    emitted true empty (char :: rest) =
      escapedMember char ++ emitted true (empty && keepsEmpty char) rest := by
  by_cases isOpen : char = '['
  · rw [isOpen, emitted_openInside]
    exact congrArg (fun flag => '\\' :: '[' :: emitted true flag rest) (Bool.and_true _).symm
  · by_cases isCaret : char = '^'
    · rw [isCaret, emitted_caret]
      exact congrArg (fun flag => '^' :: emitted true flag rest) (Bool.and_true _).symm
    · have resets : keepsEmpty char = false := by
        simp [keepsEmpty, isOpen, notClose, isCaret]
      rw [resets, Bool.and_false]
      by_cases isBackslash : char = '\\'
      · rw [isBackslash, emitted_backslashInside (single isBackslash).1 (single isBackslash).2]
        rfl
      · have alone : escapedMember char = [char] := by
          simp [escapedMember, isOpen, notClose, isBackslash]
        rw [emitted_plain kept ⟨isOpen, notClose, isCaret, isBackslash⟩, alone]
        rfl

/-- All members are printed so that they stand for themselves. -/
theorem emitted_members {chars : Text} (noClose : ']' ∉ chars) (noReturn : '\r' ∉ chars)
    (noDollar : ¬['\\', '$'] <:+: chars) (keeps : KeepsParens chars (']' :: rest)) :
    emitted true empty (chars ++ ']' :: rest) =
      chars.flatMap escapedMember ++
        emitted true (empty && chars.all keepsEmpty) (']' :: rest) := by
  have below : ∀ bound, ∀ chars : Text, chars.length < bound → ∀ empty, ']' ∉ chars →
      '\r' ∉ chars → ¬['\\', '$'] <:+: chars → KeepsParens chars (']' :: rest) →
      emitted true empty (chars ++ ']' :: rest) =
        chars.flatMap escapedMember ++
          emitted true (empty && chars.all keepsEmpty) (']' :: rest) := by
    intro bound
    induction bound with
    | zero => exact fun chars small => absurd small (Nat.not_lt_zero _)
    | succ bound inductionHypothesis =>
        intro chars small empty noClose noReturn noDollar keeps
        cases chars with
        | nil => simp
        | cons char others =>
            rw [List.length_cons] at small
            rw [List.mem_cons, not_or] at noClose noReturn
            have dollarBehind (front : Text) {behind : Text} (split : char :: others = front ++ behind) :
                ¬['\\', '$'] <:+: behind := by
              rintro inside
              rw [split] at noDollar
              exact noDollar (inside.trans (List.suffix_append _ _).isInfix)
            by_cases pair : char = '\\' ∧ ∃ behind, others = '\\' :: behind
            · obtain ⟨rfl, behind, rfl⟩ := pair
              rw [List.mem_cons, not_or] at noClose noReturn
              rw [List.length_cons] at small
              have ofBehind := inductionHypothesis behind (by omega) false noClose.2.2 noReturn.2.2
                (dollarBehind ['\\', '\\'] rfl)
                (KeepsParens.of_append ['\\', '\\'] keeps)
              rw [List.cons_append, List.cons_append, emitted_backslashes, ofBehind]
              simp [escapedMember, keepsEmpty]
            · have ofOthers := inductionHypothesis others (by omega) (empty && keepsEmpty char)
                noClose.2 noReturn.2 (dollarBehind [char] rfl)
                (KeepsParens.of_append [char] keeps)
              have kept : ayRegexTrySkip (char :: (others ++ ']' :: rest)) = 0 :=
                keeps.kept (Ne.symm noReturn.1)
              rw [List.cons_append, emitted_member (Ne.symm noClose.1) kept, ofOthers,
                List.flatMap_cons, List.all_cons, List.append_assoc, Bool.and_assoc]
              rintro rfl
              cases others with
              | nil => simp
              | cons next behind =>
                  simp only [List.cons_append, List.head?_cons, ne_eq, Option.some.injEq]
                  refine ⟨?_, ?_⟩
                  · rintro rfl
                    exact noDollar (List.prefix_append ['\\', '$'] behind).isInfix
                  · rintro rfl
                    exact pair ⟨rfl, behind, rfl⟩
  exact below _ chars (Nat.lt_succ_self _) empty noClose noReturn noDollar keeps

end Emit

end SysrepoAugeas.Term
