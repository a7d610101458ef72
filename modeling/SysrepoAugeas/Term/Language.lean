import SysrepoAugeas.Data.Reading
import SysrepoAugeas.Term.Regex

/-!
# Meaning of a printed regular expression

An operand of a concatenation is put in parentheses if its term is a union, but
not if it is a pattern that was compiled elsewhere and has several alternatives.
-/

namespace SysrepoAugeas.Term

open SysrepoAugeas.Data
open SysrepoAugeas.Label (Text)

section Text

variable (makeRegexpLiteral : Text → Text)

/-- What is printed. -/
def printed : Regex → Text
  | .union left right => printed left ++ '|' :: printed right
  | .concat left right =>
      (if ayPnodePeek .aUnion left then '(' :: printed left ++ [')'] else printed left) ++
        if ayPnodePeek .aUnion right then '(' :: printed right ++ [')'] else printed right
  | .rep child quant => '(' :: printed child ++ [')'] ++ [quant.char]
  | .string text => makeRegexpLiteral text
  | .regexp pattern => pattern
  | .reference target => printed target
  | .compiled pattern => pattern
  | .minus left right => printed left ++ printed right
  | .outer _ child => printed child
  | .pair _ left right => printed left ++ printed right
  | .test => []

variable {makeRegexpLiteral}

theorem text_operand {print : Buffer → Buffer} {text : Text}
    (prints : ∀ buffer, (print buffer).text = buffer.text ++ text) (parenthesized : Bool)
    (buffer : Buffer) :
    (if parenthesized then (print (buffer.put '(')).put ')' else print buffer).text =
      buffer.text ++ if parenthesized then '(' :: text ++ [')'] else text := by
  split
  · simp only [Buffer.put, prints, List.append_assoc]
    rfl
  · exact prints buffer

theorem text_printRegexToBuffer (regex : Regex) (buffer : Buffer) :
    (ayPnodePrintRegexToBuffer makeRegexpLiteral regex buffer).text =
      buffer.text ++ printed makeRegexpLiteral regex := by
  induction regex generalizing buffer with
  | union left right leftHypothesis rightHypothesis =>
      simp only [ayPnodePrintRegexToBuffer, Buffer.put, leftHypothesis, rightHypothesis, printed,
        List.append_assoc]
      rfl
  | concat left right leftHypothesis rightHypothesis =>
      simp only [ayPnodePrintRegexToBuffer, printed]
      rw [text_operand rightHypothesis, text_operand leftHypothesis, List.append_assoc]
  | rep child quant inductionHypothesis =>
      simp only [ayPnodePrintRegexToBuffer, Buffer.put, inductionHypothesis, printed,
        List.append_assoc]
      rfl
  | string text => rfl
  | regexp pattern => rfl
  | reference target inductionHypothesis => exact inductionHypothesis buffer
  | compiled pattern => rfl
  | minus left right leftHypothesis rightHypothesis =>
      simp only [ayPnodePrintRegexToBuffer, leftHypothesis, rightHypothesis, printed,
        List.append_assoc]
  | outer tag child inductionHypothesis => exact inductionHypothesis buffer
  | pair tag left right leftHypothesis rightHypothesis =>
      simp only [ayPnodePrintRegexToBuffer, leftHypothesis, rightHypothesis, printed,
        List.append_assoc]
  | test => exact (List.append_nil _).symm

end Text

section Language

variable (dialect : Dialect)

/-- Language of a compiled pattern. -/
def patternLanguage (pattern : Text) : Language Char :=
  fun word => ∃ level, Reads dialect pattern level ∧ word ∈ level.language

def Quant.apply (quant : Quant) (language : Language Char) : Language Char :=
  match quant with
  | .qStar => KStar.kstar language
  | .qPlus => language * KStar.kstar language
  | .qMaybe => language + 1

/-- Language of a term without minus. -/
def Regex.language : Regex → Language Char
  | .union left right => left.language + right.language
  | .concat left right => left.language * right.language
  | .rep child quant => quant.apply child.language
  | .string text => {text}
  | .regexp pattern => patternLanguage dialect pattern
  | .reference target => target.language
  | .compiled pattern => patternLanguage dialect pattern
  | .minus _ _ | .outer _ _ | .pair _ _ _ | .test => 0

/-- Only the tags with a language, and patterns that can be read. -/
def MinusFree : Regex → Prop
  | .union left right | .concat left right => MinusFree left ∧ MinusFree right
  | .rep child _ => MinusFree child
  | .string _ => True
  | .regexp pattern | .compiled pattern => ∃ level, Reads dialect pattern level
  | .reference target => MinusFree target
  | .minus _ _ | .outer _ _ | .pair _ _ _ | .test => False

/-- A compiled pattern with several alternatives, also through references. -/
def IsOpenPattern : Regex → Prop
  | .regexp pattern | .compiled pattern => ∃ level, Reads dialect pattern level ∧ level.closed ≠ []
  | .reference target => IsOpenPattern target
  | _ => False

/-- No operand of a concatenation is a pattern with several alternatives. -/
def OperandsClosed : Regex → Prop
  | .union left right => OperandsClosed left ∧ OperandsClosed right
  | .concat left right =>
      (¬IsOpenPattern dialect left ∧ ¬IsOpenPattern dialect right) ∧
        OperandsClosed left ∧ OperandsClosed right
  | .rep child _ => OperandsClosed child
  | .reference target => OperandsClosed target
  | _ => True

/-- The pattern for a string matches the string only, and its special characters are escaped. -/
def LiteralExact (makeRegexpLiteral : Text → Text) : Prop :=
  ∀ text, ∃ level, Reads dialect (makeRegexpLiteral text) level ∧ level.closed = [] ∧
    level.language = {text}

end Language

section Denotes

variable {dialect : Dialect} {makeRegexpLiteral : Text → Text} {regex left right : Regex}
  {pattern : Text} {level : Level}

theorem patternLanguage_eq (reads : Reads dialect pattern level) :
    patternLanguage dialect pattern = level.language := by
  ext word
  constructor
  · rintro ⟨other, readsOther, member⟩
    rwa [readsOther.unique reads] at member
  · exact fun member => ⟨level, reads, member⟩

/-- The level of a printed term; it has one alternative unless there is a reason. -/
structure ReadsAs (dialect : Dialect) (regex : Regex) (text : Text) (level : Level) : Prop where
  reads : Reads dialect text level
  language : level.language = regex.language dialect
  single : ayPnodePeek .aUnion regex = false → ¬IsOpenPattern dialect regex → level.closed = []

/-- An operand of a concatenation has one alternative. -/
theorem ReadsAs.operand {text : Text} (readsAs : ReadsAs dialect regex text level)
    (closed : ¬IsOpenPattern dialect regex) :
    ∃ level, Reads dialect
        (if ayPnodePeek .aUnion regex then '(' :: text ++ [')'] else text) level ∧
      level.closed = [] ∧ level.language = regex.language dialect := by
  split
  · exact ⟨_, readsAs.reads.group, rfl, (Level.language_push _).trans readsAs.language⟩
  · rename_i noUnion
    exact ⟨level, readsAs.reads, readsAs.single (by simpa using noUnion) closed, readsAs.language⟩

theorem readsAs_pattern (isPattern : ∃ level, Reads dialect pattern level)
    (language : regex.language dialect = patternLanguage dialect pattern)
    (isOpen : ∀ level, Reads dialect pattern level → level.closed ≠ [] →
      IsOpenPattern dialect regex) :
    ∃ level, ReadsAs dialect regex pattern level := by
  obtain ⟨level, reads⟩ := isPattern
  refine ⟨level, reads, ?_, fun _ notOpen => ?_⟩
  · rw [language, patternLanguage_eq reads]
  · by_contra several
    exact notOpen (isOpen level reads several)

theorem readsAs_printed (exactLiteral : LiteralExact dialect makeRegexpLiteral) (regex : Regex)
    (minusFree : MinusFree dialect regex) (closed : OperandsClosed dialect regex) :
    ∃ level, ReadsAs dialect regex (printed makeRegexpLiteral regex) level := by
  induction regex with
  | union left right leftHypothesis rightHypothesis =>
      obtain ⟨level, readsAs⟩ := leftHypothesis minusFree.1 closed.1
      obtain ⟨other, readsAsRight⟩ := rightHypothesis minusFree.2 closed.2
      refine ⟨_, readsAs.reads.bar readsAsRight.reads, ?_, fun noUnion => ?_⟩
      · rw [Level.language_bar_over, readsAs.language, readsAsRight.language]
        rfl
      · cases noUnion
  | concat left right leftHypothesis rightHypothesis =>
      obtain ⟨_, ofLeft⟩ := leftHypothesis minusFree.1 closed.2.1
      obtain ⟨_, ofRight⟩ := rightHypothesis minusFree.2 closed.2.2
      obtain ⟨level, reads, single, language⟩ := ofLeft.operand closed.1.1
      obtain ⟨other, readsRight, singleRight, languageRight⟩ := ofRight.operand closed.1.2
      refine ⟨_, reads.append readsRight singleRight, ?_, fun _ _ => ?_⟩
      · rw [Level.language_over single singleRight, language, languageRight]
        rfl
      · simp [Level.onto, single, singleRight]
  | rep child quant inductionHypothesis =>
      obtain ⟨level, readsAs⟩ := inductionHypothesis minusFree closed
      have quantified : Reads dialect (printed makeRegexpLiteral (.rep child quant))
          (Level.start.push (quant.apply level.language)) := by
        cases quant with
        | qStar => exact readsAs.reads.quantified fun levels => rfl
        | qPlus => exact readsAs.reads.quantified fun levels => rfl
        | qMaybe => exact readsAs.reads.quantified fun levels => rfl
      refine ⟨_, quantified, ?_, fun _ _ => rfl⟩
      rw [Level.language_push, readsAs.language]
      rfl
  | string text =>
      obtain ⟨level, reads, single, language⟩ := exactLiteral text
      exact ⟨level, reads, language, fun _ _ => single⟩
  | regexp pattern =>
      exact readsAs_pattern minusFree rfl fun level reads several => ⟨level, reads, several⟩
  | reference target inductionHypothesis =>
      obtain ⟨level, readsAs⟩ := inductionHypothesis minusFree closed
      refine ⟨level, readsAs.reads, readsAs.language, fun noUnion notOpen =>
        readsAs.single ?_ notOpen⟩
      simpa [ayPnodePeek] using noUnion
  | compiled pattern =>
      exact readsAs_pattern minusFree rfl fun level reads several => ⟨level, reads, several⟩
  | minus left right => exact minusFree.elim
  | outer tag child => exact minusFree.elim
  | pair tag left right => exact minusFree.elim
  | test => exact minusFree.elim

/-- The printed string denotes the language of the term if no operand of a concatenation is a
pattern with several alternatives. -/
theorem ayPnodePrintRegex_denotes (exactLiteral : LiteralExact dialect makeRegexpLiteral)
    (minusFree : MinusFree dialect regex) (closed : OperandsClosed dialect regex) :
    Denotes dialect (ayPnodePrintRegex makeRegexpLiteral regex).text (regex.language dialect) := by
  obtain ⟨level, readsAs⟩ := readsAs_printed exactLiteral regex minusFree closed
  refine ⟨level, ?_, readsAs.language⟩
  have text := @text_printRegexToBuffer makeRegexpLiteral regex ⟨[], 0⟩
  unfold ayPnodePrintRegex Buffer.terminate
  rw [text]
  exact readsAs.reads

end Denotes

section Examples

/-- Characters match themselves, bracket expressions the characters in them. -/
def simpleDialect : Dialect where
  single char := {[char]}
  escaped char := {[char]}
  bracket content := fun word => ∃ char ∈ content, word = [char]
  closes content := !content.isEmpty
  bound _ language := language

theorem mem_word {word other : Text} : word ∈ ({other} : Language Char) ↔ word = other := Iff.rfl

theorem reads_single {char : Char} (isPlain : char.isAlphanum) :
    Reads simpleDialect [char] ⟨[], [{[char]}]⟩ := by
  have differs (special : Char) (isSpecial : special.isAlphanum = false) : char ≠ special := by
    rintro rfl
    rw [isSpecial] at isPlain
    cases isPlain
  have step : plainStep simpleDialect char [.start] = some [⟨[], [{[char]}]⟩] := by
    unfold plainStep
    rw [if_neg (differs '(' (by decide)), if_neg (differs ')' (by decide)),
      if_neg (differs '|' (by decide)), if_neg (differs '*' (by decide)),
      if_neg (differs '+' (by decide)), if_neg (differs '?' (by decide))]
    rfl
  simp only [Reads, Reading.run, Reading.step]
  rw [if_neg (differs '\\' (by decide)), if_neg (differs '[' (by decide)),
    if_neg (differs '\x7b' (by decide)), step]
  rfl

theorem literalExact_escaped : LiteralExact simpleDialect escapedLiteral := by
  intro text
  induction text with
  | nil => exact ⟨.start, rfl, rfl, zero_add _⟩
  | cons char text inductionHypothesis =>
      obtain ⟨level, reads, single, language⟩ := inductionHypothesis
      have first : Reads simpleDialect (if char.isAlphanum then [char] else ['\\', char])
          ⟨[], [{[char]}]⟩ := by
        split
        · rename_i isPlain
          exact reads_single isPlain
        · rfl
      refine ⟨_, first.append reads single, ?_, ?_⟩
      · simp [Level.onto, single]
      · rw [Level.language_over rfl single, language]
        simp only [Level.language, closedLanguage, sequenceLanguage, zero_add, one_mul]
        ext word
        simp only [Language.mem_mul, mem_word]
        constructor
        · rintro ⟨_, rfl, _, rfl, rfl⟩
          rfl
        · rintro rfl
          exact ⟨_, rfl, _, rfl, rfl⟩

theorem ayPnodePrintRegex_denotes_union :
    Denotes simpleDialect
      (ayPnodePrintRegex escapedLiteral
        (.concat (.union (.string ['a']) (.regexp ['b'])) (.string ['c']))).text
      (Regex.language simpleDialect
        (.concat (.union (.string ['a']) (.regexp ['b'])) (.string ['c']))) := by
  refine ayPnodePrintRegex_denotes literalExact_escaped ?_ ?_
  · exact ⟨⟨trivial, _, reads_single (by decide)⟩, trivial⟩
  · exact ⟨⟨id, id⟩, ⟨trivial, trivial⟩, trivial⟩

/-- The pattern `a|b` in front of `c` is printed as `a|bc`. -/
theorem openPattern_misprinted :
    ¬Denotes simpleDialect
      (ayPnodePrintRegex escapedLiteral (.concat (.regexp ['a', '|', 'b']) (.string ['c']))).text
      (Regex.language simpleDialect (.concat (.regexp ['a', '|', 'b']) (.string ['c']))) := by
  have readsAb : Reads simpleDialect ['a', '|', 'b'] ⟨[[{['a']}]], [{['b']}]⟩ := by
    simp [Reads, Reading.run, Reading.step, plainStep, onTop, simpleDialect, Level.push, Level.bar,
      Level.start]
  have readsAbc : Reads simpleDialect ['a', '|', 'b', 'c'] ⟨[[{['a']}]], [{['c']}, {['b']}]⟩ := by
    simp [Reads, Reading.run, Reading.step, plainStep, onTop, simpleDialect, Level.push, Level.bar,
      Level.start]
  have text : (ayPnodePrintRegex escapedLiteral
      (.concat (.regexp ['a', '|', 'b']) (.string ['c']))).text = ['a', '|', 'b', 'c'] := by decide
  rintro ⟨level, reads, language⟩
  rw [text] at reads
  rw [reads.unique readsAbc] at language
  have member : ['a', 'c'] ∈ Regex.language simpleDialect
      (.concat (.regexp ['a', '|', 'b']) (.string ['c'])) := by
    refine Language.mem_mul.mpr ⟨['a'], ?_, ['c'], rfl, rfl⟩
    rw [Regex.language, patternLanguage_eq readsAb]
    exact Or.inl (Or.inr ⟨[], rfl, ['a'], rfl, rfl⟩)
  rw [← language] at member
  simp [Level.language, closedLanguage, sequenceLanguage, Language.mem_add, Language.mem_mul,
    mem_word] at member

end Examples

end SysrepoAugeas.Term
