import SysrepoAugeas.Term.Standardized

/-!
# Regular expressions of Augeas

The printed pattern has the same words as the regular expression as long as a
bracket expression is closed where it ends, only groups are skipped, and only a
group around everything is removed.
-/

namespace SysrepoAugeas.Term

open SysrepoAugeas.Data
open SysrepoAugeas.Label (Text)

/-- Bracket expression without classes such as `[:alpha:]`. -/
structure Brackets where
  negated : Bool
  first : Char
  others : Text
  noClose : ']' ∉ others
  noReturn : '\r' ∉ first :: others
  notNegation : negated = false → first ≠ '^'
  noClass : ∀ kind ∈ [':', '.', '='], ¬['[', kind] <:+: first :: others

/-- Parts of a regular expression that match one character. -/
inductive Atom where
  | literal (char : Char) (plain : isMeta char = false) (noReturn : char ≠ '\r')
  | escaped (char : Char) (special : isMeta char = true)
  | bracket (content : Brackets)

/-- Regular expression: atoms and groups that may be repeated, and bars. -/
inductive Posix where
  | nil
  | atom (part : Atom) (times : Option Quant) (rest : Posix)
  | group (inner : Posix) (times : Option Quant) (rest : Posix)
  | bar (rest : Posix)

section Meaning

namespace Brackets

def caret (content : Brackets) : Text := if content.negated then ['^'] else []

def chars (content : Brackets) : Text := content.first :: content.others

def print (content : Brackets) : Text := '[' :: content.caret ++ content.chars ++ [']']

/-- All characters stand for themselves, except for a circumflex in front and the ranges. -/
def language (content : Brackets) : Language Char :=
  bracketLanguage ((content.caret ++ content.chars).map fun char => (char, false))

def xsd (content : Brackets) : Text :=
  '[' :: content.caret ++ content.chars.flatMap escapedMember ++ [']']

end Brackets

namespace Atom

def print : Atom → Text
  | literal char _ _ => [char]
  | escaped char _ => ['\\', char]
  | bracket content => content.print

theorem print_pos (part : Atom) : 0 < part.print.length := by
  cases part <;> exact Nat.succ_pos _

def language : Atom → Language Char
  | literal char _ _ => {[char]}
  | escaped char _ => {[char]}
  | bracket content => content.language

/-- The atom in a pattern of XSD. -/
def xsd : Atom → Text
  | literal char _ _ => [char]
  | escaped char _ => escapedOutside char
  | bracket content => content.xsd

end Atom

def timesText (times : Option Quant) : Text := times.elim [] fun quant => [quant.char]

def timesApply (times : Option Quant) (language : Language Char) : Language Char :=
  times.elim language fun quant => quant.apply language

namespace Posix

def print : Posix → Text
  | nil => []
  | atom part times rest => part.print ++ timesText times ++ print rest
  | group inner times rest => '(' :: print inner ++ ')' :: timesText times ++ print rest
  | bar rest => '|' :: print rest

/-- Words of the first alternative, and words of the others. -/
def sides : Posix → Language Char × Language Char
  | nil => (1, 0)
  | atom part times rest => (timesApply times part.language * (sides rest).1, (sides rest).2)
  | group inner times rest =>
      (timesApply times ((sides inner).1 + (sides inner).2) * (sides rest).1, (sides rest).2)
  | bar rest => (1, (sides rest).1 + (sides rest).2)

def language (regex : Posix) : Language Char := regex.sides.1 + regex.sides.2

/-- The regular expression as a pattern of XSD. -/
def xsd : Posix → Text
  | nil => []
  | atom part times rest => part.xsd ++ timesText times ++ xsd rest
  | group inner times rest => '(' :: xsd inner ++ ')' :: timesText times ++ xsd rest
  | bar rest => '|' :: xsd rest

end Posix

end Meaning

section Reading

variable {bound : List Char → Language Char → Language Char} {outer : List Level}

theorem meta_ne {char : Char} (plain : isMeta char = false) :
    char ≠ '.' ∧ char ≠ '[' ∧ char ≠ ']' ∧ char ≠ '\\' ∧ char ≠ '(' ∧ char ≠ ')' ∧ char ≠ '*' ∧
      char ≠ '+' ∧ char ≠ '?' ∧ char ≠ '\x7b' ∧ char ≠ '\x7d' ∧ char ≠ '^' ∧ char ≠ '$' ∧
      char ≠ '|' := by
  simpa [isMeta] using plain

theorem step_plain {dialect : Dialect} (char : Char) (levels : List Level) :
    Reading.step dialect ⟨.plain, levels⟩ char =
      if char = '\\' then some ⟨.escape, levels⟩
      else if char = '[' then some ⟨.bracket [], levels⟩
      else if char = '\x7b' then some ⟨.bound [], levels⟩
      else (plainStep dialect char levels).map (⟨.plain, ·⟩) := rfl

/-- A character without a meaning of its own. -/
theorem run_literal {char : Char} (plain : isMeta char = false) (level : Level) (rest : Text) :
    Reading.run (xsdDialect bound) (char :: rest) ⟨.plain, level :: outer⟩ =
      Reading.run (xsdDialect bound) rest ⟨.plain, level.push {[char]} :: outer⟩ := by
  obtain ⟨dot, bracket, -, backslash, opens, closes, star, plus, maybe, brace, -, -, -, bar⟩ :=
    meta_ne plain
  have single : (xsdDialect bound).single char = {[char]} := if_neg dot
  rw [Reading.run, step_plain, if_neg backslash, if_neg bracket, if_neg brace, plainStep,
    if_neg opens, if_neg closes, if_neg bar, if_neg star, if_neg plus, if_neg maybe, single]
  rfl

theorem run_escaped {char : Char} (special : isMeta char = true) (level : Level) (rest : Text) :
    Reading.run (xsdDialect bound) (escapedOutside char ++ rest) ⟨.plain, level :: outer⟩ =
      Reading.run (xsdDialect bound) rest ⟨.plain, level.push {[char]} :: outer⟩ := by
  rw [escapedOutside]
  split
  · rename_i alone
    obtain rfl | rfl := alone
    · rfl
    · rfl
  · have noLetter : char.isAlphanum = false := by
      simp only [isMeta, List.contains_cons, List.contains_nil, Bool.or_false, Bool.or_eq_true,
        beq_iff_eq] at special
      obtain rfl | rfl | rfl | rfl | rfl | rfl | rfl | rfl | rfl | rfl | rfl | rfl | rfl | rfl :=
        special <;> rfl
    have escaped : (xsdDialect bound).escaped char = {[char]} := by
      simp [xsdDialect, noLetter]
    rw [List.cons_append, List.singleton_append, Reading.run, step_plain, if_pos rfl,
      Option.bind_some, Reading.run, ← escaped]
    rfl

theorem Brackets.language_eq (content : Brackets) :
    bracketLanguage (unescapedMembers (content.caret ++ content.chars.flatMap escapedMember)) =
      content.language := by
  have sameMembers (char : Char) :
      Within char (content.chars.map fun other => (other, isEscapedMember other)) ↔
        Within char (content.chars.map fun other => (other, false)) :=
    within_map rfl content.chars
  ext word
  rw [Brackets.language, mem_bracketLanguage, mem_bracketLanguage, Brackets.caret]
  cases negated : content.negated with
  | true =>
      have members : unescapedMembers (['^'] ++ content.chars.flatMap escapedMember) =
          ('^', false) :: content.chars.map fun char => (char, isEscapedMember char) := by
        rw [List.singleton_append, unescapedMembers_plain (by decide), unescapedMembers_flatMap]
      rw [if_pos rfl, members]
      simp only [List.singleton_append, List.map_cons, List.head?_cons, if_true, List.tail_cons,
        sameMembers]
  | false =>
      have first : (content.chars.map fun char => (char, isEscapedMember char)).head? ≠
          some ('^', false) := by
        simp [Brackets.chars, content.notNegation negated]
      have firstPlain : (content.chars.map fun char => (char, false)).head? ≠
          some ('^', false) := by
        simp [Brackets.chars, content.notNegation negated]
      rw [if_neg (by decide), List.nil_append, List.nil_append, unescapedMembers_flatMap]
      simp only [if_neg first, if_neg firstPlain, sameMembers]

theorem run_bracket (content : Brackets) (level : Level) (rest : Text) :
    Reading.run (xsdDialect bound) (content.xsd ++ rest) ⟨.plain, level :: outer⟩ =
      Reading.run (xsdDialect bound) rest ⟨.plain, level.push content.language :: outer⟩ := by
  have closed : isDangling content.caret = false := by
    rw [Brackets.caret]
    split <;> rfl
  have opened (text : Text) : Reading.run (xsdDialect bound) ('[' :: content.caret ++ text)
      ⟨.plain, level :: outer⟩ =
      Reading.run (xsdDialect bound) text ⟨.bracket content.caret, level :: outer⟩ := by
    rw [Brackets.caret]
    split <;> rfl
  rw [Brackets.xsd, List.append_assoc, List.append_assoc, opened, List.singleton_append,
    run_members content.chars closed, content.language_eq]
  rfl

theorem run_atom (part : Atom) (level : Level) (rest : Text) :
    Reading.run (xsdDialect bound) (part.xsd ++ rest) ⟨.plain, level :: outer⟩ =
      Reading.run (xsdDialect bound) rest ⟨.plain, level.push part.language :: outer⟩ := by
  cases part with
  | literal char plain noReturn => exact run_literal plain level rest
  | escaped char special => exact run_escaped special level rest
  | bracket content => exact run_bracket content level rest

theorem run_times (times : Option Quant) (level : Level) (part : Language Char) (rest : Text) :
    Reading.run (xsdDialect bound) (timesText times ++ rest) ⟨.plain, level.push part :: outer⟩ =
      Reading.run (xsdDialect bound) rest
        ⟨.plain, level.push (timesApply times part) :: outer⟩ := by
  cases times with
  | none => rfl
  | some quant => cases quant <;> rfl

/-- The level behind a regular expression. -/
def Posix.advance : Posix → Level → Level
  | nil, level => level
  | atom part times rest, level => rest.advance (level.push (timesApply times part.language))
  | group inner times rest, level =>
      rest.advance (level.push (timesApply times (inner.advance .start).language))
  | bar rest, level => rest.advance level.bar

theorem run_xsd (regex : Posix) (level : Level) (rest : Text) :
    Reading.run (xsdDialect bound) (regex.xsd ++ rest) ⟨.plain, level :: outer⟩ =
      Reading.run (xsdDialect bound) rest ⟨.plain, regex.advance level :: outer⟩ := by
  induction regex generalizing level rest outer with
  | nil => rfl
  | atom part times others inductionHypothesis =>
      rw [Posix.xsd, List.append_assoc, List.append_assoc, run_atom, run_times, inductionHypothesis]
      rfl
  | group inner times others ofInner ofOthers =>
      have opened : Reading.run (xsdDialect bound) ('(' :: (inner.xsd ++ (')' :: (timesText times ++
          (others.xsd ++ rest))))) ⟨.plain, level :: outer⟩ =
          Reading.run (xsdDialect bound) (inner.xsd ++ (')' :: (timesText times ++
            (others.xsd ++ rest)))) ⟨.plain, .start :: level :: outer⟩ := rfl
      have closed (top : Level) : Reading.run (xsdDialect bound) (')' :: (timesText times ++
          (others.xsd ++ rest))) ⟨.plain, top :: level :: outer⟩ =
          Reading.run (xsdDialect bound) (timesText times ++ (others.xsd ++ rest))
            ⟨.plain, level.push top.language :: outer⟩ := rfl
      rw [Posix.xsd]
      simp only [List.cons_append, List.append_assoc]
      rw [opened, ofInner, closed, run_times, ofOthers]
      rfl
  | bar others inductionHypothesis =>
      have next : Reading.run (xsdDialect bound) ('|' :: (others.xsd ++ rest))
          ⟨.plain, level :: outer⟩ =
          Reading.run (xsdDialect bound) (others.xsd ++ rest) ⟨.plain, level.bar :: outer⟩ := rfl
      rw [Posix.xsd, List.cons_append, next, inductionHypothesis]
      rfl

theorem language_advance (regex : Posix) (level : Level) :
    (regex.advance level).language =
      closedLanguage level.closed + sequenceLanguage level.parts * regex.sides.1 + regex.sides.2 := by
  induction regex generalizing level with
  | nil =>
      rw [Posix.advance, Posix.sides, mul_one, add_zero]
      rfl
  | atom part times others inductionHypothesis =>
      rw [Posix.advance, inductionHypothesis, Posix.sides]
      simp only [Level.push, sequenceLanguage, mul_assoc]
  | group inner times others ofInner ofOthers =>
      rw [Posix.advance, ofOthers, ofInner, Posix.sides]
      simp only [Level.push, Level.start, sequenceLanguage, closedLanguage, mul_assoc, one_mul,
        zero_add]
  | bar others inductionHypothesis =>
      rw [Posix.advance, inductionHypothesis, Posix.sides]
      simp only [Level.bar, sequenceLanguage, closedLanguage, mul_one, one_mul, add_assoc]

/-- The pattern of XSD has the words of the regular expression. -/
theorem denotes_xsd (regex : Posix) : Denotes (xsdDialect bound) regex.xsd regex.language := by
  refine ⟨regex.advance .start, ?_, ?_⟩
  · have whole := @run_xsd bound [] regex .start []
    rw [List.append_nil] at whole
    exact whole
  · rw [language_advance]
    simp only [Level.start, closedLanguage, sequenceLanguage, one_mul, zero_add]
    rfl

end Reading

section Kept

/-- The bracket expression is closed where it ends, and nothing in it is left out. -/
structure Brackets.Kept (content : Brackets) (rest : Text) : Prop where
  closes : content.chars.all keepsEmpty = false
  noDollar : ¬['\\', '$'] <:+: content.chars
  keeps : KeepsParens content.chars (']' :: rest)

/-- No character of the atom is left out. -/
def Atom.Kept (rest : Text) : Atom → Prop
  | literal _ _ _ => True
  | escaped char _ => ayRegexTrySkip (char :: rest) = 0
  | bracket content => content.Kept rest

/-- No character of an atom is left out, whatever happens to groups. -/
def Posix.Kept (more : Text) : Posix → Prop
  | nil => True
  | atom part times rest => part.Kept (timesText times ++ (rest.print ++ more)) ∧ rest.Kept more
  | group inner times rest =>
      inner.Kept (')' :: (timesText times ++ (rest.print ++ more))) ∧ rest.Kept more
  | bar rest => rest.Kept more

variable {empty : Bool} {rest : Text}

theorem emitted_bracket {content : Brackets} (kept : content.Kept rest) :
    emitted false empty (content.print ++ rest) = content.xsd ++ emitted false false rest := by
  have opened (text : Text) : emitted false empty ('[' :: content.caret ++ text) =
      '[' :: content.caret ++ emitted true true text := by
    rw [Brackets.caret]
    split
    · rw [List.cons_append, List.cons_append, emitted_open, emitted_caret]
      rfl
    · exact emitted_open
  have members : emitted true true (content.chars ++ ']' :: rest) =
      content.chars.flatMap escapedMember ++ emitted true false (']' :: rest) := by
    have noReturn := content.noReturn
    rw [List.mem_cons, not_or] at noReturn
    by_cases firstCloses : content.first = ']'
    · have noDollar : ¬['\\', '$'] <:+: content.others := fun inside =>
        kept.noDollar (inside.trans (List.suffix_cons _ _).isInfix)
      have others := @emitted_members rest true _ content.noClose noReturn.2 noDollar
        (KeepsParens.of_append [content.first] kept.keeps)
      have closes : content.others.all keepsEmpty = false := by
        have all := kept.closes
        rw [Brackets.chars, firstCloses, List.all_cons] at all
        exact all
      rw [closes, Bool.and_false] at others
      rw [Brackets.chars, firstCloses, List.cons_append, emitted_closeInside, others]
      rfl
    · have noClose : ']' ∉ content.chars := by
        rw [Brackets.chars, List.mem_cons, not_or]
        exact ⟨Ne.symm firstCloses, content.noClose⟩
      rw [emitted_members noClose content.noReturn kept.noDollar kept.keeps, kept.closes]
      rfl
  rw [Brackets.print, List.append_assoc, List.append_assoc, opened, List.singleton_append, members,
    emitted_close, Brackets.xsd]
  simp only [List.append_assoc, List.singleton_append]

theorem emitted_atom {part : Atom} (kept : part.Kept rest) :
    ∃ emptyAfter, emitted false empty (part.print ++ rest) =
      part.xsd ++ emitted false emptyAfter rest := by
  cases part with
  | literal char plain noReturn =>
      obtain ⟨-, bracket, closeBracket, backslash, opens, closes, -, -, -, -, -, caret, -⟩ :=
        meta_ne plain
      exact ⟨false, emitted_plain (trySkip_plain opens closes noReturn)
        ⟨bracket, closeBracket, caret, backslash⟩⟩
  | escaped char special => exact emitted_escaped kept
  | bracket content => exact ⟨false, emitted_bracket kept⟩

theorem emitted_times (times : Option Quant) :
    ∃ emptyAfter, emitted false empty (timesText times ++ rest) =
      timesText times ++ emitted false emptyAfter rest := by
  cases times with
  | none => exact ⟨empty, rfl⟩
  | some quant =>
      refine ⟨false, ?_⟩
      cases quant <;>
        exact emitted_plain (trySkip_plain (by decide) (by decide) (by decide)) (by decide)

/-- Only groups without anything in them. -/
def Posix.IsHollow : Posix → Prop
  | nil => True
  | group inner none rest => inner.IsHollow ∧ rest.IsHollow
  | _ => False

theorem Posix.IsHollow.sides {regex : Posix} (hollow : regex.IsHollow) : regex.sides = (1, 0) := by
  induction regex with
  | nil => rfl
  | atom part times rest => exact hollow.elim
  | bar rest => exact hollow.elim
  | group inner times rest ofInner ofRest =>
      cases times with
      | some quant => exact hollow.elim
      | none =>
          rw [Posix.sides, ofInner hollow.1, ofRest hollow.2]
          simp [timesApply]

/-- Behind an atom's first character the search for what is left out stops. -/
theorem skipScan_atom (part : Atom) (text : Text) (count par : Nat) :
    skipScan (part.print ++ text) count par = .inr (count, par, part.print ++ text) := by
  cases part with
  | literal char plain noReturn =>
      obtain ⟨-, -, -, -, opens, closes, -⟩ := meta_ne plain
      exact skipScan_stop opens closes noReturn count par
  | escaped char special => exact skipScan_stop (by decide) (by decide) (by decide) count par
  | bracket content => exact skipScan_stop (by decide) (by decide) (by decide) count par

theorem skipScan_quant (quant : Quant) (text : Text) (count par : Nat) :
    skipScan (quant.char :: text) count par = .inr (count, par, quant.char :: text) := by
  cases quant <;> exact skipScan_stop (by decide) (by decide) (by decide) count par

theorem group_print_append (inner rest : Posix) (times : Option Quant) (more : Text) :
    (Posix.group inner times rest).print ++ more =
      '(' :: (inner.print ++ ')' :: (timesText times ++ (rest.print ++ more))) := by
  rw [Posix.print]
  simp only [List.cons_append, List.append_assoc]

/-- Inside of a group the search passes hollow groups or stops for good. -/
theorem skipScan_inner (regex : Posix) (text : Text) (count par : Nat) :
    regex.IsHollow ∧ skipScan (regex.print ++ text) count (par + 1) =
        skipScan text (count + regex.print.length) (par + 1) ∨
      ∃ final behind, skipScan (regex.print ++ text) count (par + 1) =
        .inr (final, behind) ∧ behind.1 ≠ 0 := by
  induction regex generalizing text count par with
  | nil => exact .inl ⟨trivial, rfl⟩
  | atom part times rest =>
      rw [Posix.print, List.append_assoc, List.append_assoc, skipScan_atom]
      exact .inr ⟨_, _, rfl, Nat.succ_ne_zero par⟩
  | bar rest =>
      exact .inr ⟨_, _, skipScan_stop (by decide) (by decide) (by decide) count _,
        Nat.succ_ne_zero par⟩
  | group inner times rest ofInner ofRest =>
      have opened : skipScan ((Posix.group inner times rest).print ++ text) count (par + 1) =
          skipScan (inner.print ++ (')' :: (timesText times ++ (rest.print ++ text)))) (count + 1)
            (par + 1 + 1) := by
        rw [group_print_append]
        rfl
      rw [opened]
      obtain ⟨hollow, passed⟩ | stopped :=
        ofInner (')' :: (timesText times ++ (rest.print ++ text))) (count + 1) (par + 1)
      · have closed (text : Text) (count : Nat) : skipScan (')' :: text) count (par + 1 + 1) =
            skipScan text (count + 1) (par + 1) := rfl
        rw [passed, closed]
        cases times with
        | some quant =>
            exact .inr ⟨_, _, skipScan_quant quant _ _ _, Nat.succ_ne_zero par⟩
        | none =>
            obtain ⟨others, passedRest⟩ | stopped := ofRest text
              (count + 1 + inner.print.length + 1) par
            · refine .inl ⟨⟨hollow, others⟩, ?_⟩
              rw [timesText, Option.elim_none, List.nil_append, passedRest, Posix.print, timesText,
                Option.elim_none]
              simp only [List.length_cons, List.length_append, List.length_nil]
              congr 1
              omega
            · exact .inr stopped
      · exact .inr stopped

/-- What is left of a regular expression when hollow groups at its front are dropped. -/
structure Posix.Leaves (regex : Posix) (dropped : Text) (tail : Posix) : Prop where
  text : regex.print = dropped ++ tail.print
  sides : tail.sides = regex.sides
  kept : ∀ more, regex.Kept more → tail.Kept more

theorem quant_apply_one (quant : Quant) : quant.apply (1 : Language Char) = 1 := by
  cases quant with
  | qStar => exact kstar_one
  | qPlus =>
      change (1 : Language Char) * KStar.kstar 1 = 1
      rw [kstar_one, one_mul]
  | qMaybe => exact add_idem (1 : Language Char)

theorem skipEnd_stop {count : Nat} {char : Char} {text : Text}
    (noTimes : char ≠ '?' ∧ char ≠ '*' ∧ char ≠ '+') :
    skipEnd (.inr (count, 0, char :: text)) = count := by
  simp [skipEnd, noTimes]

theorem skipEnd_quant {count : Nat} (passed : count ≠ 0) (quant : Quant) (text : Text) :
    skipEnd (.inr (count, 0, quant.char :: text)) = count + 1 := by
  cases quant <;> simp [skipEnd, passed, Quant.char]

/-- The search inside of a group that starts, and behind it if the group is hollow. -/
theorem skipScan_group (inner : Posix) (text : Text) (count : Nat) :
    inner.IsHollow ∧ skipScan ('(' :: (inner.print ++ ')' :: text)) count 0 =
        skipScan text (count + (inner.print.length + 2)) 0 ∨
      skipEnd (skipScan ('(' :: (inner.print ++ ')' :: text)) count 0) = 0 := by
  have opened : skipScan ('(' :: (inner.print ++ ')' :: text)) count 0 =
      skipScan (inner.print ++ ')' :: text) (count + 1) (0 + 1) := rfl
  rw [opened]
  obtain ⟨hollow, passed⟩ | ⟨final, behind, stopped, someOpen⟩ :=
    skipScan_inner inner (')' :: text) (count + 1) 0
  · refine .inl ⟨hollow, ?_⟩
    have length : count + (inner.print.length + 2) = count + 1 + inner.print.length + 1 := by omega
    rw [passed, length]
    rfl
  · refine .inr ?_
    rw [stopped]
    exact if_pos someOpen

/-- What the search passes from a group on, when that is known for what is behind the group. -/
theorem skipEnd_group {inner rest : Posix} {times : Option Quant} {more : Text}
    (ofRest : ∀ count, count ≠ 0 → skipEnd (skipScan (rest.print ++ more) count 0) = 0 ∨
      ∃ dropped tail, rest.Leaves dropped tail ∧
        skipEnd (skipScan (rest.print ++ more) count 0) = count + dropped.length) (count : Nat) :
    skipEnd (skipScan ((Posix.group inner times rest).print ++ more) count 0) = 0 ∨
      ∃ dropped tail, (Posix.group inner times rest).Leaves ('(' :: dropped) tail ∧
        skipEnd (skipScan ((Posix.group inner times rest).print ++ more) count 0) =
          count + ('(' :: dropped).length := by
  rw [group_print_append]
  obtain ⟨hollow, behind⟩ | stopped :=
    skipScan_group inner (timesText times ++ (rest.print ++ more)) count
  · have one : timesApply times (inner.sides.1 + inner.sides.2) = 1 := by
      rw [hollow.sides, add_zero]
      cases times with
      | none => rfl
      | some quant => exact quant_apply_one quant
    have sides : rest.sides = (Posix.group inner times rest).sides := by
      rw [Posix.sides, one, one_mul]
    rw [behind]
    cases times with
    | some quant =>
        refine .inr ⟨inner.print ++ [')', quant.char], rest,
          ⟨?_, sides, fun more kept => kept.2⟩, ?_⟩
        · rw [Posix.print]
          simp [timesText]
        · rw [timesText, Option.elim_some, List.singleton_append, skipScan_quant,
            skipEnd_quant (by omega)]
          simp only [List.length_cons, List.length_append, List.length_nil]
          omega
    | none =>
        obtain isZero | ⟨dropped, tail, leaves, skipped⟩ :=
          ofRest (count + (inner.print.length + 2)) (by omega)
        · exact .inl isZero
        · refine .inr ⟨inner.print ++ ')' :: dropped, tail,
            ⟨?_, leaves.sides.trans sides, fun more kept => leaves.kept more kept.2⟩, ?_⟩
          · rw [Posix.print, leaves.text]
            simp [timesText]
          · rw [timesText, Option.elim_none, List.nil_append, skipped]
            simp only [List.length_cons, List.length_append]
            omega
  · exact .inl stopped

/-- Outside of all groups the search passes hollow groups. -/
theorem skipEnd_leaves (regex : Posix) {more : Text} (ends : more = [] ∨ more.head? = some ')')
    (count : Nat) (passed : count ≠ 0) :
    skipEnd (skipScan (regex.print ++ more) count 0) = 0 ∨
      ∃ dropped tail, regex.Leaves dropped tail ∧
        skipEnd (skipScan (regex.print ++ more) count 0) = count + dropped.length := by
  induction regex generalizing count with
  | nil =>
      refine .inr ⟨[], .nil, ⟨rfl, rfl, fun _ => id⟩, ?_⟩
      obtain rfl | isClose := ends
      · simp [Posix.print, skipScan, skipEnd]
      · cases more with
        | nil => cases isClose
        | cons char rest =>
            obtain rfl := Option.some.inj isClose
            rfl
  | atom part times rest =>
      refine .inr ⟨[], .atom part times rest, ⟨rfl, rfl, fun _ => id⟩, ?_⟩
      rw [Posix.print, List.append_assoc, List.append_assoc, skipScan_atom]
      cases part with
      | literal char plain noReturn =>
          obtain ⟨-, -, -, -, -, -, star, plus, maybe, -⟩ := meta_ne plain
          exact skipEnd_stop ⟨maybe, star, plus⟩
      | escaped char special => exact skipEnd_stop (by decide)
      | bracket content => exact skipEnd_stop (by decide)
  | bar rest =>
      refine .inr ⟨[], .bar rest, ⟨rfl, rfl, fun _ => id⟩, ?_⟩
      have stopped : skipScan ((Posix.bar rest).print ++ more) count 0 =
          .inr (count, 0, (Posix.bar rest).print ++ more) :=
        skipScan_stop (by decide) (by decide) (by decide) count 0
      rw [stopped]
      exact skipEnd_stop (by decide)
  | group inner times rest ofInner ofRest =>
      obtain isZero | ⟨dropped, tail, leaves, skipped⟩ :=
        @skipEnd_group inner rest times more ofRest count
      · exact .inl isZero
      · exact .inr ⟨_, tail, leaves, skipped⟩

theorem trySkip_group {inner rest : Posix} {times : Option Quant} {more : Text}
    (ends : more = [] ∨ more.head? = some ')')
    (passed : ayRegexTrySkip ((Posix.group inner times rest).print ++ more) ≠ 0) :
    ∃ dropped tail, (Posix.group inner times rest).Leaves ('(' :: dropped) tail ∧
      ayRegexTrySkip ((Posix.group inner times rest).print ++ more) =
        ('(' :: dropped).length := by
  rw [ayRegexTrySkip] at passed ⊢
  split at passed
  · exact absurd rfl passed
  · rename_i notEmpty
    rw [if_neg notEmpty]
    obtain isZero | ⟨dropped, tail, leaves, skipped⟩ :=
      skipEnd_group (skipEnd_leaves rest ends) 0
    · exact absurd isZero passed
    · exact ⟨dropped, tail, leaves, by rw [skipped, Nat.zero_add]⟩

/-- A regular expression with the same words is printed. -/
def Posix.Prints (regex : Posix) (more : Text) : Prop :=
  ∀ empty, ∃ same emptyAfter, Posix.sides same = regex.sides ∧
    emitted false empty (regex.print ++ more) = same.xsd ++ emitted false emptyAfter more

section Prints

variable {inner others tail : Posix} {times : Option Quant} {more : Text}

theorem Posix.Prints.atom {part : Atom}
    (kept : part.Kept (timesText times ++ (others.print ++ more))) (prints : others.Prints more) :
    (Posix.atom part times others).Prints more := by
  intro empty
  obtain ⟨afterAtom, ofAtom⟩ := @emitted_atom empty _ part kept
  obtain ⟨afterTimes, ofTimes⟩ := @emitted_times afterAtom (others.print ++ more) times
  obtain ⟨same, emptyAfter, sides, ofOthers⟩ := prints afterTimes
  refine ⟨.atom part times same, emptyAfter, ?_, ?_⟩
  · rw [Posix.sides, sides]
    rfl
  · rw [Posix.print, List.append_assoc, List.append_assoc, ofAtom, ofTimes, ofOthers, Posix.xsd]
    simp only [List.append_assoc]

theorem Posix.Prints.bar (prints : others.Prints more) : (Posix.bar others).Prints more := by
  intro empty
  obtain ⟨same, emptyAfter, sides, ofOthers⟩ := prints false
  refine ⟨.bar same, emptyAfter, ?_, ?_⟩
  · rw [Posix.sides, sides]
    rfl
  · rw [Posix.print, List.cons_append, emitted_plain (trySkip_plain (by decide) (by decide)
      (by decide)) (by decide), ofOthers]
    rfl

/-- The group is kept. -/
theorem Posix.Prints.group
    (stays : ayRegexTrySkip ((Posix.group inner times others).print ++ more) = 0)
    (ofInner : inner.Prints (')' :: (timesText times ++ (others.print ++ more))))
    (ofOthers : others.Prints more) : (Posix.group inner times others).Prints more := by
  intro empty
  obtain ⟨same, afterInner, sides, innerPrinted⟩ := ofInner false
  obtain ⟨afterTimes, timesPrinted⟩ := @emitted_times false (others.print ++ more) times
  obtain ⟨behind, emptyAfter, behindSides, othersPrinted⟩ := ofOthers afterTimes
  refine ⟨.group same times behind, emptyAfter, ?_, ?_⟩
  · rw [Posix.sides, sides, behindSides]
    rfl
  · rw [group_print_append] at stays ⊢
    rw [emitted_plain stays (by decide), innerPrinted, emitted_plain trySkip_close (by decide),
      timesPrinted, othersPrinted, Posix.xsd]
    simp only [List.cons_append, List.append_assoc]

/-- The group is skipped, maybe with some that follow. -/
theorem Posix.Prints.skip {dropped : Text}
    (leaves : (Posix.group inner times others).Leaves ('(' :: dropped) tail)
    (skipped : ayRegexTrySkip ((Posix.group inner times others).print ++ more) =
      ('(' :: dropped).length)
    (prints : tail.Prints more) : (Posix.group inner times others).Prints more := by
  intro empty
  have text : (Posix.group inner times others).print ++ more =
      '(' :: (dropped ++ (tail.print ++ more)) := by
    rw [leaves.text, List.append_assoc, List.cons_append]
  have passed : ayRegexTrySkip ('(' :: (dropped ++ (tail.print ++ more))) ≠ 0 := by
    rw [← text, skipped]
    exact Nat.succ_ne_zero _
  obtain ⟨same, emptyAfter, sides, tailPrinted⟩ := prints empty
  refine ⟨same, emptyAfter, sides.trans leaves.sides, ?_⟩
  rw [text] at skipped ⊢
  rw [emitted_skip passed, skipped, ← List.cons_append, List.drop_left, tailPrinted]

end Prints

/-- Without the hollow groups that are skipped, a pattern for the same words is printed. -/
theorem Posix.Kept.prints (regex : Posix) {more : Text} (ends : more = [] ∨ more.head? = some ')')
    (kept : regex.Kept more) : regex.Prints more := by
  have below : ∀ bound, ∀ regex : Posix, regex.print.length < bound → ∀ more : Text,
      more = [] ∨ more.head? = some ')' → regex.Kept more → regex.Prints more := by
    intro bound
    induction bound with
    | zero => exact fun regex small => absurd small (Nat.not_lt_zero _)
    | succ bound inductionHypothesis =>
        intro regex small more ends kept
        cases regex with
        | nil => exact fun empty => ⟨.nil, empty, rfl, rfl⟩
        | atom part times others =>
            have shorter : others.print.length < bound := by
              have nonempty := part.print_pos
              simp only [Posix.print, List.length_append] at small
              omega
            exact .atom kept.1 (inductionHypothesis others shorter more ends kept.2)
        | bar others =>
            exact .bar (inductionHypothesis others (Nat.lt_of_succ_lt_succ small) more ends kept)
        | group inner times others =>
            have shorter : inner.print.length < bound ∧ others.print.length < bound := by
              simp only [Posix.print, List.length_append, List.length_cons] at small
              omega
            by_cases stays : ayRegexTrySkip ((Posix.group inner times others).print ++ more) = 0
            · exact .group stays (inductionHypothesis inner shorter.1 _ (.inr rfl) kept.1)
                (inductionHypothesis others shorter.2 more ends kept.2)
            · obtain ⟨dropped, tail, leaves, skipped⟩ := trySkip_group ends stays
              have tailShorter : tail.print.length < bound := by
                rw [leaves.text, List.length_append, List.length_cons] at small
                omega
              exact .skip leaves skipped
                (inductionHypothesis tail tailShorter more ends (leaves.kept more kept))
  exact below _ regex (Nat.lt_succ_self _) more ends kept

end Kept

section Printed

variable {bound : List Char → Language Char → Language Char}

theorem ayReplaceSubstr_absent {target text : Text} (replace : Text)
    (absent : ¬target <:+: text) : ayReplaceSubstr target replace text = text := by
  induction text with
  | nil => rw [ayReplaceSubstr]
  | cons char rest inductionHypothesis =>
      have noHit : ¬(target.isPrefixOf (char :: rest) ∧ replace.length < target.length) :=
        fun hit => absent (List.isPrefixOf_iff_prefix.mp hit.1).isInfix
      rw [ayReplaceSubstr, dif_neg noHit, inductionHypothesis fun inside =>
        absent (inside.trans (List.suffix_cons char rest).isInfix)]

theorem ayPrintRegexStandardized_plain {patt : Text} (noHostname : ¬hostnameBlanks <:+: patt)
    (noMinclock : ¬(List.replicate 4 ' ' ++ minclock) <:+: patt) :
    ayPrintRegexStandardized patt = standardizedFrom false false (ayRegexRemoveParentheses patt) := by
  rw [ayPrintRegexStandardized]
  split
  · rename_i isEmpty
    rw [isEmpty]
    exact (standardizedFrom.eq_1 false false).symm
  · simp only [ayReplaceSubstr_absent [] noHostname, ayReplaceSubstr_absent minclock noMinclock]

/-- One group around everything. -/
def Posix.IsGroup (regex : Posix) : Prop := ∃ inner, regex = .group inner none .nil

/-- What is in such a group. -/
def Posix.ungrouped : Posix → Posix
  | group inner none nil => inner
  | other => other

/-- What is printed of a regular expression. -/
def Posix.core (regex : Posix) : Posix :=
  if removesParentheses regex.print then regex.ungrouped else regex

theorem Posix.core_print {regex : Posix}
    (removed : removesParentheses regex.print = true → regex.IsGroup) :
    ayRegexRemoveParentheses regex.print = regex.core.print := by
  rw [ayRegexRemoveParentheses, Posix.core]
  split
  · rename_i removes
    obtain ⟨inner, rfl⟩ := removed removes
    have outside : (Posix.group inner none .nil).print = '(' :: (inner.print ++ [')']) := by
      rw [Posix.print, Posix.print, List.append_nil]
      rfl
    rw [outside]
    exact List.dropLast_concat
  · rfl

theorem Posix.core_language {regex : Posix}
    (removed : removesParentheses regex.print = true → regex.IsGroup) :
    regex.core.language = regex.language := by
  rw [Posix.core]
  split
  · rename_i removes
    obtain ⟨inner, rfl⟩ := removed removes
    have outside : (Posix.group inner none .nil).sides = (inner.language, 0) :=
      congrArg (·, 0) (mul_one _)
    rw [Posix.language, Posix.language, outside]
    exact (add_zero _).symm
  · rfl

/-- A bracket expression with other members than brackets and circumflexes, where a backslash does
not stand in front of a dollar, is closed where it ends.  If no parenthesis of an atom is skipped and
only a group around everything is removed, the pattern has the words of the regular expression. -/
theorem ayPrintRegexStandardized_denotes {regex : Posix}
    (noHostname : ¬hostnameBlanks <:+: regex.print)
    (noMinclock : ¬(List.replicate 4 ' ' ++ minclock) <:+: regex.print)
    (removed : removesParentheses regex.print = true → regex.IsGroup)
    (kept : regex.core.Kept []) :
    Denotes (xsdDialect bound) (yangUnquoted (ayPrintRegexStandardized regex.print))
      regex.language := by
  obtain ⟨same, emptyAfter, sides, printed⟩ := Posix.Kept.prints regex.core (.inl rfl) kept false
  have standardized : yangUnquoted (ayPrintRegexStandardized regex.print) = same.xsd := by
    rw [List.append_nil] at printed
    rw [ayPrintRegexStandardized_plain noHostname noMinclock, Posix.core_print removed]
    rw [← emitted, printed, emitted, standardizedFrom]
    exact List.append_nil _
  have language : same.language = regex.language := by
    rw [← Posix.core_language removed, Posix.language, sides]
    rfl
  rw [standardized, ← language]
  exact denotes_xsd same

theorem not_infix_of_not_mem {char : Char} {target text : Text} (isIn : char ∈ target)
    (absent : char ∉ text) : ¬target <:+: text :=
  fun inside => absent (inside.subset isIn)

/-- `[a-c]` in parentheses, which are removed. -/
def groupedRange : Posix :=
  .group (.atom (.bracket ⟨false, 'a', ['-', 'c'], by decide, by decide, by decide,
    fun _ _ => not_infix_of_not_mem List.mem_cons_self (by decide)⟩) (some .qStar) .nil) none .nil

theorem ayPrintRegexStandardized_denotes_range :
    Denotes (xsdDialect fun _ => id) (yangUnquoted (ayPrintRegexStandardized groupedRange.print))
      groupedRange.language :=
  ayPrintRegexStandardized_denotes (not_infix_of_not_mem List.mem_cons_self (by decide))
    (not_infix_of_not_mem List.mem_cons_self (by decide)) (fun _ => ⟨_, rfl⟩)
    ⟨⟨by decide, not_infix_of_not_mem List.mem_cons_self (by decide), KeepsParens.of_not_mem (by decide)⟩, trivial⟩

/-- `[]]` -/
def closeBracket : Posix :=
  .atom (.bracket ⟨false, ']', [], by decide, by decide, by decide,
    fun _ _ => not_infix_of_not_mem List.mem_cons_self (by decide)⟩) none .nil

/-- Both brackets behind the first are escaped, so the bracket expression is never closed. -/
theorem closeBracket_lost :
    ¬∃ bound, Denotes (xsdDialect bound)
      (yangUnquoted (ayPrintRegexStandardized closeBracket.print)) closeBracket.language := by
  rintro ⟨bound, level, reads, -⟩
  have printed : yangUnquoted (ayPrintRegexStandardized closeBracket.print) =
      ['[', '\\', ']', '\\', ']'] := by
    have src : ayRegexRemoveParentheses closeBracket.print = ['[', ']', ']'] := by decide
    rw [ayPrintRegexStandardized_plain (not_infix_of_not_mem List.mem_cons_self (by decide))
      (not_infix_of_not_mem List.mem_cons_self (by decide)), src, ← emitted, emitted_open,
      emitted_closeInside, emitted_closeInside, emitted, standardizedFrom]
    rfl
  rw [printed] at reads
  cases reads

end Printed

end SysrepoAugeas.Term
