import Mathlib
import SysrepoAugeas.Pattern.Qm

/-!
# Names of nodes

`ay_get_ident_standardized` makes the name of a YANG node from an identifier of
a pattern.  The buffer is the text in front of the index at which the code
writes next; that index steps back only to stay where it is.
-/

namespace SysrepoAugeas.Ident

open SysrepoAugeas.Label (Text)
open SysrepoAugeas.Pattern (ayMaxIdentSize)

/-- `enum ay_ident_dst`, as far as the function accepts it. -/
inductive IdentDst where
  | nodeName
  | valueYpath
  deriving DecidableEq

inductive IdentError where
  /-- `AYE_IDENT_LIMIT` -/
  | limit
  /-- `AYE_IDENT_BAD_CHAR` -/
  | badChar
  deriving DecidableEq

section Code

/-- Write one character. -/
def putChar (buffer : Text) (char : Char) : Except IdentError Text :=
  if ayMaxIdentSize ≤ buffer.length then .error .limit else .ok (buffer ++ [char])

/-- Write a word with a terminating zero. -/
def putWord (buffer word : Text) : Except IdentError Text :=
  if ayMaxIdentSize ≤ buffer.length + word.length then .error .limit else .ok (buffer ++ word)

def plusWord : Text := ['p', 'l', 'u', 's', '-']

def minusWord : Text := ['m', 'i', 'n', 'u', 's', '-']

/-- A dash that is no first character. -/
def putDash (buffer : Text) : Except IdentError Text :=
  if buffer = [] then putWord buffer minusWord else putChar buffer '-'

/-- Loop of `ay_get_ident_standardized`. -/
def standardizedFrom (opt : IdentDst) : Text → Text → Except IdentError Text
  | [], buffer => .ok buffer
  | ' ' :: rest, buffer => do
      let buffer ← putChar buffer (if opt = .nodeName then '-' else ' ')
      standardizedFrom opt rest buffer
  | '#' :: rest, buffer => standardizedFrom opt rest buffer
  | '+' :: rest, buffer => do
      let buffer ← putWord buffer plusWord
      standardizedFrom opt rest buffer
  | '-' :: rest, buffer => do
      let buffer ← putDash buffer
      standardizedFrom opt rest buffer
  | '@' :: rest, buffer => standardizedFrom opt rest buffer
  | '\\' :: '.' :: rest, buffer =>
      if buffer = [] then standardizedFrom opt rest buffer
      else standardizedFrom opt ('.' :: rest) buffer
  | '\\' :: '+' :: rest, buffer => do
      let buffer ← putWord buffer plusWord
      standardizedFrom opt rest buffer
  | '\\' :: _, _ => .error .badChar
  | '_' :: rest, buffer =>
      if buffer = [] then standardizedFrom opt rest buffer
      else do
        let buffer ← putChar buffer '-'
        standardizedFrom opt rest buffer
  | char :: rest, buffer =>
      if buffer = [] ∧ char.isAlpha then standardizedFrom opt rest [char]
      else if buffer ≠ [] then do
        let buffer ← putChar buffer char
        standardizedFrom opt rest buffer
      else standardizedFrom opt rest buffer

/-- "Dash as the last character will be removed." -/
def trimDash (buffer : Text) : Text :=
  if buffer.getLast? = some '-' then buffer.dropLast else buffer

/-- "The abbreviation "-re" probably means regular expression." -/
def trimRe (buffer : Text) : Text :=
  if 3 < buffer.length ∧ buffer.drop (buffer.length - 3) = ['-', 'r', 'e'] then
    buffer.take (buffer.length - 3)
  else buffer

/-- `ay_ident_lowercase_dash` for the rest of a buffer with `front` characters in front of it. -/
def ayIdentLowercaseDash (front : Nat) : Text → Except IdentError Text
  | [] => .ok []
  | char :: rest =>
      if !char.isUpper && char != '-' && rest.head?.any Char.isUpper then
        if ayMaxIdentSize < front + (rest.length + 1) + 2 then .error .limit
        else (ayIdentLowercaseDash (front + 2) rest).map fun others => char :: '-' :: others
      else (ayIdentLowercaseDash (front + 1) rest).map fun others => char.toLower :: others

/-- `ay_get_ident_standardized`: the buffer when it returns 0. -/
def ayGetIdentStandardized (ident : Text) (opt : IdentDst) (internal : Bool) :
    Except IdentError Text :=
  (standardizedFrom opt ident []).bind fun written =>
    let buffer := trimRe (trimDash written)
    if ayMaxIdentSize ≤ buffer.length then .error .limit
    else
      (ayIdentLowercaseDash 0 buffer).bind fun buffer =>
        if internal then
          if ayMaxIdentSize < buffer.length + 2 then .error .limit else .ok ('_' :: buffer)
        else .ok buffer

end Code

/-- Letters, digits, blank, `-`, `_`, `#`, `@`, `+`, and an escaped `.`, `-` or `+`. -/
def isIdentText : Text → Bool
  | [] => true
  | '\\' :: char :: rest => (char == '.' || char == '-' || char == '+') && isIdentText rest
  | char :: rest =>
      (char.isAlphanum || [' ', '-', '_', '#', '@', '+'].contains char) && isIdentText rest

def isNameChar (char : Char) : Bool :=
  char.isAlphanum || char == '_' || char == '-' || char == '.'

/-- A YANG identifier that fits in the buffer. -/
structure IsYangIdentifier (text : Text) : Prop where
  short : text.length < ayMaxIdentSize
  first : ∃ char ∈ text.head?, char.isAlpha ∨ char = '_'
  chars : ∀ char ∈ text, isNameChar char

/-- What is left behind leading digits, `_`, `#`, `@` and escaped dots begins with no blank. -/
def startsName : Text → Bool
  | [] => false
  | '\\' :: '.' :: rest => startsName rest
  | char :: rest =>
      if char.isDigit || ['_', '#', '@'].contains char then startsName rest else char != ' '

section Loop

variable {ident buffer out : Text}

theorem putChar_ok {char : Char} (result : putChar buffer char = .ok out) :
    out = buffer ++ [char] := by
  unfold putChar at result
  split at result
  · cases result
  · exact (Except.ok.inj result).symm

theorem putWord_ok {word : Text} (result : putWord buffer word = .ok out) : out = buffer ++ word := by
  unfold putWord at result
  split at result
  · cases result
  · exact (Except.ok.inj result).symm

theorem putDash_ok (started : buffer ≠ []) (result : putDash buffer = .ok out) :
    out = buffer ++ ['-'] := by
  rw [putDash, if_neg started] at result
  exact putChar_ok result

theorem bind_ok {step : Except IdentError Text} {go : Text → Except IdentError Text}
    (result : step >>= go = .ok out) : ∃ next, step = .ok next ∧ go next = .ok out := by
  cases step with
  | error error => cases result
  | ok next => exact ⟨next, rfl, result⟩

/-- The buffer goes on with characters of names. -/
def GoesOn (buffer out : Text) : Prop :=
  ∃ written, out = buffer ++ written ∧ ∀ char ∈ written, isNameChar char = true

theorem GoesOn.refl (buffer : Text) : GoesOn buffer buffer := ⟨[], by simp, by simp⟩

/-- One word is written first. -/
theorem GoesOn.step {next word : Text} (rest : next ≠ [] → GoesOn next out)
    (written : next = buffer ++ word) (started : buffer ≠ [])
    (valid : word.all isNameChar = true) : GoesOn buffer out := by
  subst written
  obtain ⟨written, rfl, others⟩ := rest (by simp [started])
  refine ⟨word ++ written, List.append_assoc _ _ _, ?_⟩
  intro char member
  rcases List.mem_append.mp member with inWord | inWritten
  · exact List.all_eq_true.mp valid char inWord
  · exact others char inWritten

/-- Characters that may be left of an identifier. -/
def isIdentChar (char : Char) : Bool :=
  char.isAlphanum || [' ', '-', '_', '#', '@', '+', '.', '\\'].contains char

theorem standardizedFrom_started (accepted : ∀ char ∈ ident, isIdentChar char = true)
    (started : buffer ≠ []) (result : standardizedFrom .nodeName ident buffer = .ok out) :
    GoesOn buffer out := by
  fun_induction standardizedFrom .nodeName ident buffer with
  | case1 buffer =>
      cases result
      exact GoesOn.refl _
  | case2 rest buffer inductionHypothesis | case12 rest buffer _ inductionHypothesis =>
      rw [List.forall_mem_cons] at accepted
      obtain ⟨next, written, others⟩ := bind_ok result
      apply GoesOn.step _ (putChar_ok written) started (by decide)
      intro startedNext
      exact inductionHypothesis next accepted.2 startedNext others
  | case3 rest buffer inductionHypothesis | case6 rest buffer inductionHypothesis =>
      rw [List.forall_mem_cons] at accepted
      exact inductionHypothesis accepted.2 started result
  | case4 rest buffer inductionHypothesis =>
      rw [List.forall_mem_cons] at accepted
      obtain ⟨next, written, others⟩ := bind_ok result
      apply GoesOn.step _ (putWord_ok written) started (by decide)
      intro startedNext
      exact inductionHypothesis next accepted.2 startedNext others
  | case5 rest buffer inductionHypothesis =>
      rw [List.forall_mem_cons] at accepted
      obtain ⟨next, written, others⟩ := bind_ok result
      apply GoesOn.step _ (putDash_ok started written) started (by decide)
      intro startedNext
      exact inductionHypothesis next accepted.2 startedNext others
  | case7 | case11 => exact absurd rfl started
  | case8 rest buffer _ inductionHypothesis =>
      rw [List.forall_mem_cons] at accepted
      exact inductionHypothesis accepted.2 started result
  | case9 rest buffer inductionHypothesis =>
      rw [List.forall_mem_cons, List.forall_mem_cons] at accepted
      obtain ⟨next, written, others⟩ := bind_ok result
      apply GoesOn.step _ (putWord_ok written) started (by decide)
      intro startedNext
      exact inductionHypothesis next accepted.2.2 startedNext others
  | case10 => cases result
  | case13 char rest buffer _ _ _ _ _ _ _ _ _ first => exact absurd first.1 started
  | case14 char rest buffer notBlank notHash notPlus notMinus notAt _ _ notEscape notUnderscore _ _
      inductionHypothesis =>
      rw [List.forall_mem_cons] at accepted
      obtain ⟨next, written, others⟩ := bind_ok result
      apply GoesOn.step _ (putChar_ok written) started
      · rw [List.all_cons, List.all_nil, Bool.and_true]
        have isIdent := accepted.1
        simp only [isIdentChar, List.contains_eq_mem, List.mem_cons, List.not_mem_nil, or_false,
          Bool.or_eq_true, decide_eq_true_eq] at isIdent
        simp only [isNameChar, Bool.or_eq_true, beq_iff_eq]
        tauto
      · intro startedNext
        exact inductionHypothesis next accepted.2 startedNext others
  | case15 char rest buffer _ _ _ _ _ _ _ _ _ _ none => exact absurd started none

theorem isIdentChar_of_mem (accepted : isIdentText ident) : ∀ char ∈ ident, isIdentChar char = true := by
  fun_induction isIdentText ident with
  | case1 => simp
  | case2 char rest inductionHypothesis =>
      simp only [Bool.and_eq_true, Bool.or_eq_true, beq_iff_eq] at accepted
      rw [List.forall_mem_cons, List.forall_mem_cons]
      refine ⟨by decide, ?_, inductionHypothesis accepted.2⟩
      obtain (rfl | rfl) | rfl := accepted.1 <;> decide
  | case3 char rest _ inductionHypothesis =>
      simp only [Bool.and_eq_true] at accepted
      rw [List.forall_mem_cons]
      refine ⟨?_, inductionHypothesis accepted.2⟩
      have isIdent := accepted.1
      simp only [isIdentChar, List.contains_eq_mem, List.mem_cons, List.not_mem_nil, or_false,
        Bool.or_eq_true, decide_eq_true_eq] at isIdent ⊢
      tauto

/-- The first character that is written. -/
structure Begins (ident out : Text) : Prop where
  starts : startsName ident = true → ∃ char, char.isAlpha = true ∧ GoesOn [char] out
  fails : startsName ident = false → out = [] ∨ GoesOn ['-'] out

theorem isIdentText_tail {char : Char} {rest : Text} (notEscape : char ≠ '\\')
    (accepted : isIdentText (char :: rest)) :
    isIdentText rest ∧ (char.isAlphanum || [' ', '-', '_', '#', '@', '+'].contains char) = true := by
  rw [isIdentText] at accepted
  · rw [Bool.and_eq_true] at accepted
    exact accepted.symm
  · intro other others isEscape
    exact absurd isEscape notEscape

theorem startsName_cons {char : Char} (notEscape : char ≠ '\\') (rest : Text) :
    startsName (char :: rest) =
      if char.isDigit || ['_', '#', '@'].contains char then startsName rest else char != ' ' := by
  rw [startsName]
  intro others isEscape
  exact absurd isEscape notEscape

theorem isDigit_of_isAlpha {char : Char} (letter : char.isAlpha = true) : char.isDigit = false := by
  simp only [Char.isAlpha, Char.isUpper, Char.isLower, Bool.or_eq_true, Bool.and_eq_true,
    decide_eq_true_eq, UInt32.le_iff_toNat_le, ge_iff_le] at letter
  simp only [Char.isDigit, Bool.and_eq_false_iff, decide_eq_false_iff_not,
    UInt32.le_iff_toNat_le, ge_iff_le]
  have upper : 'A'.val.toNat = 65 ∧ 'Z'.val.toNat = 90 := ⟨rfl, rfl⟩
  have lower : 'a'.val.toNat = 97 ∧ 'z'.val.toNat = 122 := ⟨rfl, rfl⟩
  have digits : '0'.val.toNat = 48 ∧ '9'.val.toNat = 57 := ⟨rfl, rfl⟩
  omega

/-- A word whose first character is a letter. -/
theorem begins_of_word {char : Char} {word : Text} (isStart : startsName ident = true)
    (letter : char.isAlpha = true) (valid : word.all isNameChar = true)
    (rest : GoesOn (char :: word) out) : Begins ident out := by
  refine ⟨fun _ => ⟨char, letter, ?_⟩, fun isNoStart => ?_⟩
  · exact GoesOn.step (fun _ => rest) rfl (List.cons_ne_nil _ _) valid
  · rw [isStart] at isNoStart
    cases isNoStart

theorem Begins.skip {other : Text} (same : startsName other = startsName ident)
    (begins : Begins ident out) : Begins other out := by
  constructor
  · rw [same]
    exact begins.starts
  · rw [same]
    exact begins.fails

theorem standardizedFrom_begins (accepted : isIdentText ident) (empty : buffer = [])
    (result : standardizedFrom .nodeName ident buffer = .ok out) : Begins ident out := by
  fun_induction standardizedFrom .nodeName ident buffer with
  | case1 buffer =>
      cases result
      exact ⟨by simp [startsName], fun _ => .inl empty⟩
  | case2 rest buffer _ =>
      obtain ⟨next, written, others⟩ := bind_ok result
      obtain rfl := (putChar_ok written).trans (congrArg (· ++ ['-']) empty)
      have goesOn := standardizedFrom_started
        (isIdentChar_of_mem (isIdentText_tail (by decide) accepted).1) (by simp) others
      exact ⟨by simp [startsName], fun _ => .inr goesOn⟩
  | case3 rest buffer inductionHypothesis | case6 rest buffer inductionHypothesis =>
      apply (inductionHypothesis (isIdentText_tail (by decide) accepted).1 empty result).skip
      simp [startsName]
  | case4 rest buffer _ =>
      obtain ⟨next, written, others⟩ := bind_ok result
      obtain rfl := (putWord_ok written).trans (congrArg (· ++ plusWord) empty)
      have goesOn := standardizedFrom_started
        (isIdentChar_of_mem (isIdentText_tail (by decide) accepted).1) (by decide) others
      exact begins_of_word (by simp [startsName]) (by decide) (by decide) goesOn
  | case5 rest buffer _ =>
      obtain ⟨next, written, others⟩ := bind_ok result
      rw [putDash, if_pos empty] at written
      obtain rfl := (putWord_ok written).trans (congrArg (· ++ minusWord) empty)
      have goesOn := standardizedFrom_started
        (isIdentChar_of_mem (isIdentText_tail (by decide) accepted).1) (by decide) others
      exact begins_of_word (by simp [startsName]) (by decide) (by decide) goesOn
  | case7 rest inductionHypothesis =>
      rw [isIdentText, Bool.and_eq_true] at accepted
      apply (inductionHypothesis accepted.2 empty result).skip
      rw [startsName]
  | case8 rest buffer started => exact absurd empty started
  | case9 rest buffer _ =>
      rw [isIdentText, Bool.and_eq_true] at accepted
      obtain ⟨next, written, others⟩ := bind_ok result
      obtain rfl := (putWord_ok written).trans (congrArg (· ++ plusWord) empty)
      have goesOn := standardizedFrom_started (isIdentChar_of_mem accepted.2) (by decide) others
      exact begins_of_word (by simp [startsName]) (by decide) (by decide) goesOn
  | case10 => cases result
  | case11 rest inductionHypothesis =>
      apply (inductionHypothesis (isIdentText_tail (by decide) accepted).1 empty result).skip
      simp [startsName]
  | case12 rest buffer started => exact absurd empty started
  | case13 char rest buffer notBlank notHash notPlus notMinus notAt _ _ notEscape notUnderscore first _ =>
      have goesOn := standardizedFrom_started
        (isIdentChar_of_mem (isIdentText_tail notEscape accepted).1) (by simp) result
      have noDigit := isDigit_of_isAlpha first.2
      refine begins_of_word ?_ first.2 (by simp) goesOn
      rw [startsName_cons notEscape]
      simp only [noDigit, Bool.false_or, List.contains_eq_mem, List.mem_cons, List.not_mem_nil,
        or_false, decide_eq_true_eq]
      rw [if_neg (by tauto), bne_iff_ne]
      exact notBlank
  | case14 char rest buffer _ _ _ _ _ _ _ _ _ _ started => exact absurd empty started
  | case15 char rest buffer notBlank notHash notPlus notMinus notAt _ _ notEscape notUnderscore notFirst
      _ inductionHypothesis =>
      obtain ⟨overRest, isIdent⟩ := isIdentText_tail notEscape accepted
      apply (inductionHypothesis overRest empty result).skip
      have isDigit : char.isDigit = true := by
        have notAlpha : char.isAlpha ≠ true := fun letter => notFirst ⟨empty, letter⟩
        simp only [Char.isAlphanum, List.contains_eq_mem, List.mem_cons, List.not_mem_nil, or_false,
          Bool.or_eq_true, decide_eq_true_eq] at isIdent
        tauto
      rw [startsName_cons notEscape]
      simp [isDigit]

end Loop

section Finish

variable {buffer out : Text}

theorem trimDash_letter {char : Char} {rest : Text} (letter : char.isAlpha = true) :
    ∃ shorter, trimDash (char :: rest) = char :: shorter ∧ shorter ⊆ rest := by
  unfold trimDash
  split
  · rename_i isDash
    cases rest with
    | nil =>
        cases isDash
        cases letter
    | cons other rest => exact ⟨(other :: rest).dropLast, rfl, List.dropLast_subset _⟩
  · exact ⟨rest, rfl, List.Subset.refl _⟩

theorem trimRe_cons (char : Char) (rest : Text) :
    ∃ shorter, trimRe (char :: rest) = char :: shorter ∧ shorter ⊆ rest := by
  unfold trimRe
  split
  · rename_i isLong
    rw [List.length_cons] at isLong ⊢
    obtain ⟨length, eq⟩ : ∃ length, rest.length + 1 - 3 = length + 1 := ⟨rest.length - 3, by omega⟩
    rw [eq, List.take_succ_cons]
    exact ⟨_, rfl, List.take_subset _ _⟩
  · exact ⟨rest, rfl, List.Subset.refl _⟩

theorem map_ok {step : Except IdentError Text} {change : Text → Text}
    (result : step.map change = .ok out) : ∃ next, step = .ok next ∧ out = change next := by
  cases step with
  | error error => cases result
  | ok next => exact ⟨next, rfl, (Except.ok.inj result).symm⟩

/-- A step keeps its character, writes a dash behind it, or makes it lower-case. -/
theorem lowercaseDash_step {front : Nat} {char : Char} {rest : Text}
    (result : ayIdentLowercaseDash front (char :: rest) = .ok out) :
    (front + rest.length + 3 ≤ ayMaxIdentSize ∧
      ∃ others, ayIdentLowercaseDash (front + 2) rest = .ok others ∧
        out = char.toLower :: '-' :: others) ∨
    ∃ others, ayIdentLowercaseDash (front + 1) rest = .ok others ∧ out = char.toLower :: others := by
  unfold ayIdentLowercaseDash at result
  split at result
  · rename_i isBreak
    simp only [Bool.and_eq_true, Bool.not_eq_true'] at isBreak
    have same := Char.toLower_eq_of_not_isUpper (Bool.eq_false_iff.mp isBreak.1.1)
    split at result
    · cases result
    · obtain ⟨others, isOthers, isOut⟩ := map_ok result
      rw [same]
      exact .inl ⟨by omega, others, isOthers, isOut⟩
  · exact .inr (map_ok result)

theorem lowercaseDash_cons {front : Nat} {char : Char} {rest : Text}
    (result : ayIdentLowercaseDash front (char :: rest) = .ok out) :
    ∃ others, out = char.toLower :: others := by
  obtain ⟨-, others, -, isOut⟩ | ⟨others, -, isOut⟩ := lowercaseDash_step result
  · exact ⟨_, isOut⟩
  · exact ⟨_, isOut⟩

theorem isNameChar_toLower {char : Char} (valid : isNameChar char = true) :
    isNameChar char.toLower = true := by
  by_cases upper : char.isUpper
  · simp [isNameChar, Char.isAlphanum, Char.isAlpha, upper]
  · rw [Char.toLower_eq_of_not_isUpper upper]
    exact valid

theorem lowercaseDash_nameChar {front : Nat} (valid : ∀ char ∈ buffer, isNameChar char = true)
    (result : ayIdentLowercaseDash front buffer = .ok out) :
    ∀ char ∈ out, isNameChar char = true := by
  induction buffer generalizing front out with
  | nil =>
      cases result
      exact valid
  | cons char rest inductionHypothesis =>
      rw [List.forall_mem_cons] at valid
      have lower := isNameChar_toLower valid.1
      obtain ⟨-, others, isOthers, rfl⟩ | ⟨others, isOthers, rfl⟩ := lowercaseDash_step result
      · simp only [List.forall_mem_cons]
        exact ⟨lower, by decide, inductionHypothesis valid.2 isOthers⟩
      · rw [List.forall_mem_cons]
        exact ⟨lower, inductionHypothesis valid.2 isOthers⟩

theorem lowercaseDash_short {front : Nat} (short : front + buffer.length < ayMaxIdentSize)
    (result : ayIdentLowercaseDash front buffer = .ok out) :
    front + out.length < ayMaxIdentSize := by
  induction buffer generalizing front out with
  | nil =>
      cases result
      exact short
  | cons char rest inductionHypothesis =>
      rw [List.length_cons] at short
      obtain ⟨enough, others, isOthers, rfl⟩ | ⟨others, isOthers, rfl⟩ := lowercaseDash_step result
      · have := inductionHypothesis (by omega) isOthers
        simp only [List.length_cons]
        omega
      · have := inductionHypothesis (by omega) isOthers
        rw [List.length_cons]
        omega

theorem trimDash_dash (rest : Text) :
    trimDash ('-' :: rest) = [] ∨ ∃ shorter, trimDash ('-' :: rest) = '-' :: shorter := by
  unfold trimDash
  split
  · cases rest with
    | nil => exact .inl rfl
    | cons other rest => exact .inr ⟨(other :: rest).dropLast, rfl⟩
  · exact .inr ⟨rest, rfl⟩

theorem trimDash_subset (buffer : Text) : trimDash buffer ⊆ buffer := by
  unfold trimDash
  split
  · exact List.dropLast_subset _
  · exact List.Subset.refl _

theorem trimRe_subset (buffer : Text) : trimRe buffer ⊆ buffer := by
  unfold trimRe
  split
  · exact List.take_subset _ _
  · exact List.Subset.refl _

/-- The name in front of which `_` is written for an internal node. -/
structure IsName (ident name : Text) : Prop where
  short : name.length < ayMaxIdentSize
  chars : ∀ char ∈ name, isNameChar char = true
  starts : startsName ident = true → ∃ char ∈ name.head?, char.isAlpha = true
  fails : startsName ident = false → ∀ char ∈ name.head?, char = '-'

theorem GoesOn.nameChars {front : Text} (goesOn : GoesOn front out)
    (valid : ∀ char ∈ front, isNameChar char = true) : ∀ char ∈ out, isNameChar char = true := by
  obtain ⟨written, rfl, others⟩ := goesOn
  intro char member
  rcases List.mem_append.mp member with inFront | inWritten
  · exact valid char inFront
  · exact others char inWritten

theorem isNameChar_of_isAlpha {char : Char} (letter : char.isAlpha = true) :
    isNameChar char = true := by
  simp [isNameChar, Char.isAlphanum, letter]

theorem Begins.nameChars {ident : Text} (begins : Begins ident out) :
    ∀ char ∈ out, isNameChar char = true := by
  cases starts : startsName ident with
  | true =>
      obtain ⟨char, letter, goesOn⟩ := begins.starts starts
      apply goesOn.nameChars
      simpa using isNameChar_of_isAlpha letter
  | false =>
      rcases begins.fails starts with rfl | goesOn
      · simp
      · apply goesOn.nameChars
        rw [List.forall_mem_singleton]
        rfl

/-- Trimming and lower case keep the first character. -/
theorem Begins.isName {ident written name : Text} (begins : Begins ident written)
    (short : (trimRe (trimDash written)).length < ayMaxIdentSize)
    (result : ayIdentLowercaseDash 0 (trimRe (trimDash written)) = .ok name) :
    IsName ident name := by
  constructor
  · simpa using lowercaseDash_short (by simpa using short) result
  · apply lowercaseDash_nameChar _ result
    intro char member
    exact begins.nameChars char (trimDash_subset _ (trimRe_subset _ member))
  · intro starts
    obtain ⟨char, letter, rest, rfl, -⟩ := begins.starts starts
    obtain ⟨noDash, isNoDash, -⟩ := @trimDash_letter char rest letter
    obtain ⟨noRe, isNoRe, -⟩ := trimRe_cons char noDash
    rw [List.singleton_append, isNoDash, isNoRe] at result
    obtain ⟨others, rfl⟩ := lowercaseDash_cons result
    exact ⟨char.toLower, rfl, by rw [Char.isAlpha_toLower_eq_isAlpha, letter]⟩
  · intro fails
    rcases begins.fails fails with rfl | ⟨rest, rfl, -⟩
    · cases result
      simp
    · rw [List.singleton_append] at result
      rcases trimDash_dash rest with isNoDash | ⟨noDash, isNoDash⟩
      · rw [isNoDash] at result
        cases result
        simp
      · obtain ⟨noRe, isNoRe, -⟩ := trimRe_cons '-' noDash
        rw [isNoDash, isNoRe] at result
        obtain ⟨others, rfl⟩ := lowercaseDash_cons result
        intro char member
        exact (Option.some.inj member).symm

end Finish

variable {ident buffer : Text} {internal : Bool}

theorem isName_of_standardized (accepted : isIdentText ident)
    (result : ayGetIdentStandardized ident .nodeName internal = .ok buffer) :
    ∃ name, IsName ident name ∧
      (internal = true → name.length + 2 ≤ ayMaxIdentSize ∧ buffer = '_' :: name) ∧
      (internal = false → buffer = name) := by
  obtain ⟨written, loop, result⟩ := bind_ok result
  have begins := standardizedFrom_begins accepted rfl loop
  dsimp only at result
  split at result
  · cases result
  · rename_i short
    obtain ⟨name, lowered, result⟩ := bind_ok result
    refine ⟨name, begins.isName (by omega) lowered, ?_, ?_⟩
    · rintro rfl
      rw [if_pos rfl] at result
      split at result
      · cases result
      · exact ⟨by omega, (Except.ok.inj result).symm⟩
    · rintro rfl
      exact (Except.ok.inj result).symm

/-- The first character decides whether the buffer holds an identifier. -/
theorem ayGetIdentStandardized_isYangIdentifier (accepted : isIdentText ident)
    (result : ayGetIdentStandardized ident .nodeName internal = .ok buffer) :
    IsYangIdentifier buffer ↔ internal = true ∨ startsName ident = true := by
  obtain ⟨name, isName, isInternal, isNormal⟩ := isName_of_standardized accepted result
  cases internal with
  | true =>
      obtain ⟨short, rfl⟩ := isInternal rfl
      refine ⟨fun _ => .inl rfl, fun _ => ⟨?_, ?_, ?_⟩⟩
      · rw [List.length_cons]
        omega
      · exact ⟨'_', rfl, .inr rfl⟩
      · rw [List.forall_mem_cons]
        exact ⟨by decide, isName.chars⟩
  | false =>
      obtain rfl := isNormal rfl
      simp only [Bool.false_eq_true, false_or]
      constructor
      · intro isIdentifier
        obtain ⟨char, member, isFirst⟩ := isIdentifier.first
        by_contra fails
        rw [isName.fails (by simpa using fails) char member] at isFirst
        revert isFirst
        decide
      · intro starts
        obtain ⟨char, member, letter⟩ := isName.starts starts
        exact ⟨isName.short, ⟨char, member, .inl letter⟩, isName.chars⟩

theorem ayGetIdentStandardized_isYangIdentifier_word :
    IsYangIdentifier ['a', '-', 'b'] ↔ false = true ∨ startsName ['a', '_', 'B'] = true :=
  @ayGetIdentStandardized_isYangIdentifier ['a', '_', 'B'] _ _ (by decide) (by decide)

/-- Nothing is left of a number. -/
theorem ayGetIdentStandardized_number :
    isIdentText ['1', '0'] ∧ ayGetIdentStandardized ['1', '0'] .nodeName false = .ok [] ∧
      ¬ IsYangIdentifier [] := by
  refine ⟨by decide, by decide, ?_⟩
  intro isIdentifier
  obtain ⟨char, member, -⟩ := isIdentifier.first
  cases member

end SysrepoAugeas.Ident
