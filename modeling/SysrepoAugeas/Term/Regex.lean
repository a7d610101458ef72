import Mathlib.Algebra.Order.Ring.Nat
import SysrepoAugeas.Label.Path

/-!
# Regular expressions of a module

The term of a regular expression is read from the Augeas module; identifiers
refer to other terms or to a compiled regular expression.  It is printed to a
buffer whose size is computed before.  `make_regexp_literal` is a parameter,
and memory for its result is there.
-/

namespace SysrepoAugeas.Term

open SysrepoAugeas.Label (Text)

/-- `enum term_tag` -/
inductive TermTag where
  | aModule
  | aBind
  | aLet
  | aCompose
  | aUnion
  | aMinus
  | aConcat
  | aApp
  | aValue
  | aIdent
  | aBracket
  | aFunc
  | aRep
  | aTest
  deriving DecidableEq

/-- `enum quant_tag` -/
inductive Quant where
  | qStar
  | qPlus
  | qMaybe
  deriving DecidableEq

/-- Tags with one child that have no meaning in a regular expression. -/
inductive OuterTag where
  | aBind
  | aBracket
  | aFunc
  deriving DecidableEq

/-- Tags with two children that have no meaning in a regular expression. -/
inductive PairTag where
  | aLet
  | aCompose
  | aApp
  deriving DecidableEq

/-- Subtree of pnodes; references are resolved and do not lead back. -/
inductive Regex where
  | union (left right : Regex)
  | minus (left right : Regex)
  | concat (left right : Regex)
  | rep (child : Regex) (quant : Quant)
  /-- `A_VALUE` with `V_STRING` -/
  | string (text : Text)
  /-- `A_VALUE` with `V_REGEXP` -/
  | regexp (pattern : Text)
  /-- `A_IDENT` with `AY_PNODE_REF` -/
  | reference (target : Regex)
  /-- `A_IDENT` with `AY_PNODE_HAS_REGEXP` -/
  | compiled (pattern : Text)
  | outer (tag : OuterTag) (child : Regex)
  | pair (tag : PairTag) (left right : Regex)
  | test
  deriving DecidableEq

/-- Memory that a string is written to. -/
structure Buffer where
  /-- Characters up to the current index. -/
  text : Text
  /-- Number of bytes from the start up to the last one that was written. -/
  touched : Nat
  deriving DecidableEq

namespace Buffer

/-- `buffer[(*idx)++] = ch` -/
def put (char : Char) (buffer : Buffer) : Buffer where
  text := buffer.text ++ [char]
  touched := max buffer.touched (buffer.text.length + 1)

/-- `strcpy(&buffer[*idx], str)` with its terminating NUL. -/
def strcpy (str : Text) (buffer : Buffer) : Buffer where
  text := buffer.text ++ str
  touched := max buffer.touched (buffer.text.length + str.length + 1)

/-- `buffer[idx] = '\0'` -/
def terminate (buffer : Buffer) : Buffer :=
  { buffer with touched := max buffer.touched (buffer.text.length + 1) }

end Buffer

section Print

variable (makeRegexpLiteral : Text → Text)

def Regex.tag : Regex → TermTag
  | .union _ _ => .aUnion
  | .minus _ _ => .aMinus
  | .concat _ _ => .aConcat
  | .rep _ _ => .aRep
  | .string _ | .regexp _ => .aValue
  | .reference _ | .compiled _ => .aIdent
  | .outer .aBind _ => .aBind
  | .outer .aBracket _ => .aBracket
  | .outer .aFunc _ => .aFunc
  | .pair .aLet _ _ => .aLet
  | .pair .aCompose _ _ => .aCompose
  | .pair .aApp _ _ => .aApp
  | .test => .aTest

/-- `ay_pnode_peek`; the loop over the descendants never leaves the first node. -/
def ayPnodePeek (tag : TermTag) : Regex → Bool
  | .reference target => tag == .aIdent || ayPnodePeek tag target
  | regex => regex.tag == tag

def Quant.char : Quant → Char
  | .qStar => '*'
  | .qPlus => '+'
  | .qMaybe => '?'

/-- `ay_pnode_print_regex_to_buffer` -/
def ayPnodePrintRegexToBuffer : Regex → Buffer → Buffer
  | .union left right, buffer =>
      ayPnodePrintRegexToBuffer right ((ayPnodePrintRegexToBuffer left buffer).put '|')
  | .concat left right, buffer =>
      let buffer :=
        if ayPnodePeek .aUnion left then
          (ayPnodePrintRegexToBuffer left (buffer.put '(')).put ')'
        else ayPnodePrintRegexToBuffer left buffer
      if ayPnodePeek .aUnion right then
        (ayPnodePrintRegexToBuffer right (buffer.put '(')).put ')'
      else ayPnodePrintRegexToBuffer right buffer
  | .rep child quant, buffer =>
      ((ayPnodePrintRegexToBuffer child (buffer.put '(')).put ')').put quant.char
  | .string text, buffer => buffer.strcpy (makeRegexpLiteral text)
  | .regexp pattern, buffer => buffer.strcpy pattern
  | .reference target, buffer => ayPnodePrintRegexToBuffer target buffer
  | .compiled pattern, buffer => buffer.strcpy pattern
  -- the loop goes on with the descendants
  | .minus left right, buffer =>
      ayPnodePrintRegexToBuffer right (ayPnodePrintRegexToBuffer left buffer)
  | .outer _ child, buffer => ayPnodePrintRegexToBuffer child buffer
  | .pair _ left right, buffer =>
      ayPnodePrintRegexToBuffer right (ayPnodePrintRegexToBuffer left buffer)
  | .test, buffer => buffer

/-- `ay_pnode_regex_buffer_size` -/
def ayPnodeRegexBufferSize : Regex → Nat
  | .union left right => 1 + ayPnodeRegexBufferSize left + ayPnodeRegexBufferSize right
  | .concat left right => 4 + ayPnodeRegexBufferSize left + ayPnodeRegexBufferSize right
  | .rep child _ => 3 + ayPnodeRegexBufferSize child
  | .string text => 2 * text.length
  | .regexp pattern => pattern.length
  | .reference target => ayPnodeRegexBufferSize target
  | .compiled pattern => pattern.length
  | .minus left right => ayPnodeRegexBufferSize left + ayPnodeRegexBufferSize right
  | .outer _ child => ayPnodeRegexBufferSize child
  | .pair _ left right => ayPnodeRegexBufferSize left + ayPnodeRegexBufferSize right
  | .test => 0

/-- The buffer that `ay_pnode_print_regex` fills. -/
def ayPnodePrintRegex (regex : Regex) : Buffer :=
  (ayPnodePrintRegexToBuffer makeRegexpLiteral regex ⟨[], 0⟩).terminate

end Print

section Fits

variable {makeRegexpLiteral : Text → Text} {buffer middle final : Buffer} {size more : Nat}

/-- At most `size` characters were written behind what was there, and the NUL behind them. -/
structure Grows (size : Nat) (buffer final : Buffer) : Prop where
  text : final.text.length ≤ buffer.text.length + size
  longer : buffer.text.length ≤ final.text.length
  touched : final.touched ≤ max buffer.touched (final.text.length + 1)

theorem Grows.refl (buffer : Buffer) : Grows 0 buffer buffer :=
  ⟨Nat.le_refl _, Nat.le_refl _, Nat.le_max_left _ _⟩

theorem Grows.trans (first : Grows size buffer middle) (second : Grows more middle final) :
    Grows (size + more) buffer final := by
  have firstTouched := first.touched
  have secondTouched := second.touched
  have longer := second.longer
  refine ⟨?_, first.longer.trans second.longer, ?_⟩
  · have := first.text
    have := second.text
    omega
  · omega

theorem Grows.mono (grows : Grows size buffer final) (atMost : size ≤ more) :
    Grows more buffer final :=
  ⟨grows.text.trans (Nat.add_le_add_left atMost _), grows.longer, grows.touched⟩

theorem grows_put (char : Char) (buffer : Buffer) : Grows 1 buffer (buffer.put char) := by
  unfold Buffer.put
  refine ⟨?_, ?_, ?_⟩ <;> simp only [List.length_append, List.length_singleton] <;> omega

theorem grows_strcpy (str : Text) (buffer : Buffer) :
    Grows str.length buffer (buffer.strcpy str) := by
  unfold Buffer.strcpy
  refine ⟨?_, ?_, ?_⟩ <;> simp only [List.length_append] <;> omega

/-- Printing of an operand of a concatenation. -/
theorem grows_operand {print : Buffer → Buffer} (grows : ∀ buffer, Grows size buffer (print buffer))
    (parenthesized : Bool) (buffer : Buffer) :
    Grows (2 + size) buffer
      (if parenthesized then (print (buffer.put '(')).put ')' else print buffer) := by
  split
  · have inside := ((grows_put '(' buffer).trans (grows _)).trans (grows_put ')' _)
    exact inside.mono (by omega)
  · exact (grows buffer).mono (by omega)

theorem print_grows (doubles : ∀ text, (makeRegexpLiteral text).length ≤ 2 * text.length)
    (regex : Regex) (buffer : Buffer) :
    Grows (ayPnodeRegexBufferSize regex) buffer
      (ayPnodePrintRegexToBuffer makeRegexpLiteral regex buffer) := by
  induction regex generalizing buffer with
  | union left right leftHypothesis rightHypothesis =>
      have both := ((leftHypothesis buffer).trans (grows_put '|' _)).trans (rightHypothesis _)
      exact both.mono (by rw [ayPnodeRegexBufferSize]; omega)
  | concat left right leftHypothesis rightHypothesis =>
      have both := (grows_operand leftHypothesis (ayPnodePeek .aUnion left) buffer).trans
        (grows_operand rightHypothesis (ayPnodePeek .aUnion right) _)
      exact both.mono (by rw [ayPnodeRegexBufferSize]; omega)
  | rep child quant inductionHypothesis =>
      have whole := (((grows_put '(' buffer).trans (inductionHypothesis _)).trans
        (grows_put ')' _)).trans (grows_put quant.char _)
      exact whole.mono (by rw [ayPnodeRegexBufferSize]; omega)
  | string text => exact (grows_strcpy _ buffer).mono (doubles text)
  | regexp pattern => exact grows_strcpy pattern buffer
  | reference target inductionHypothesis => exact inductionHypothesis buffer
  | compiled pattern => exact grows_strcpy pattern buffer
  | minus left right leftHypothesis rightHypothesis =>
      exact (leftHypothesis buffer).trans (rightHypothesis _)
  | outer tag child inductionHypothesis => exact inductionHypothesis buffer
  | pair tag left right leftHypothesis rightHypothesis =>
      exact (leftHypothesis buffer).trans (rightHypothesis _)
  | test => exact .refl buffer

/-- The string and every write stay in the allocated bytes. -/
theorem ayPnodePrintRegex_fits
    (doubles : ∀ text, (makeRegexpLiteral text).length ≤ 2 * text.length) (regex : Regex) :
    (ayPnodePrintRegex makeRegexpLiteral regex).text.length ≤ ayPnodeRegexBufferSize regex ∧
      (ayPnodePrintRegex makeRegexpLiteral regex).touched ≤ ayPnodeRegexBufferSize regex + 1 := by
  have grows := print_grows doubles regex ⟨[], 0⟩
  have text := grows.text
  have touched := grows.touched
  simp only [List.length_nil] at text touched
  refine ⟨?_, ?_⟩
  · unfold ayPnodePrintRegex Buffer.terminate
    simp only
    omega
  · unfold ayPnodePrintRegex Buffer.terminate
    simp only
    omega

end Fits

/-- Characters that have a meaning in a pattern get a backslash. -/
def escapedLiteral (text : Text) : Text :=
  text.flatMap fun char => if char.isAlphanum then [char] else ['\\', char]

theorem ayPnodePrintRegex_fits_escaped :
    (ayPnodePrintRegex escapedLiteral (.concat (.string ['.', 'd']) (.regexp ['a', '|', 'b']))).text =
        ['\\', '.', 'd', 'a', '|', 'b'] ∧
      (ayPnodePrintRegex escapedLiteral
        (.concat (.string ['.', 'd']) (.regexp ['a', '|', 'b']))).touched ≤ 11 + 1 := by
  have doubles (text : Text) : (escapedLiteral text).length ≤ 2 * text.length := by
    induction text with
    | nil => exact Nat.le_refl 0
    | cons char text inductionHypothesis =>
        have one : (if char.isAlphanum then [char] else ['\\', char]).length ≤ 2 := by
          split <;> simp
        unfold escapedLiteral at *
        rw [List.flatMap_cons, List.length_append, List.length_cons]
        omega
  exact ⟨by decide, (ayPnodePrintRegex_fits doubles
    (.concat (.string ['.', 'd']) (.regexp ['a', '|', 'b']))).2⟩

end SysrepoAugeas.Term
