import Mathlib.Data.List.Count
import SysrepoAugeas.Data.Escape

/-!
# Texts of Augeas paths

Paths are written by the store, which escapes commas, and printed by Augeas,
which escapes every character with a meaning; the load takes the label of a
printed path apart again.  `none` as a result stands for an access outside of
initialised memory or a loop that does not end.
-/

namespace SysrepoAugeas.Label

open SysrepoAugeas.Data

abbrev Text := List Char

/-- Characters that are literal in a name only behind a backslash. -/
def pathSpecial (char : Char) : Bool :=
  "][|/=()!,\\".toList.contains char || char.isWhitespace

section Syntax

/-! The path syntax of Augeas: names with an optional position, separated by slashes. -/

structure AugStep where
  label : Text
  index : Option Nat
  deriving DecidableEq

/-- Position predicate at the front, if there is one. -/
def parseIndex : Text → Option (Option Nat × Text)
  | '[' :: rest =>
      let digits := rest.takeWhile Char.isDigit
      match rest.drop digits.length with
      | ']' :: rest =>
          if digits = [] then none else some (some (Nat.ofDigitChars 10 digits 0), rest)
      | _ => none
  | text => some (none, text)

def parseStep (text : Text) : Option (AugStep × Text) := do
  let (label, rest) ← Escape.readName '\\' pathSpecial text
  if label = [] then none
  else
    let (index, rest) ← parseIndex rest
    some (⟨label, index⟩, rest)

def parseSteps : Nat → Text → Option (List AugStep)
  | fuel + 1, text =>
      match parseStep text with
      | some (step, []) => some [step]
      | some (step, '/' :: rest) => (parseSteps fuel rest).map (step :: ·)
      | _ => none
  | 0, _ => none

/-- Every step takes at least one character. -/
def parsePath (text : Text) : Option (List AugStep) := parseSteps text.length text

/-- The node that an absolute path names. -/
def augAbsolute : Text → Option (List AugStep)
  | '/' :: rest => parsePath rest
  | _ => none

/-- The node that a path names; relative paths begin at the context. -/
def augResolve (context path : Text) : Option (List AugStep) :=
  if path.head? = some '/' then augAbsolute path
  else (augAbsolute context).bind fun base => (parsePath path).map (base ++ ·)

def indexText : Option Nat → Text
  | some index => '[' :: (Nat.toDigits 10 index ++ [']'])
  | none => []

/-- Path as `aug_match` prints it. -/
def augPrint (steps : List AugStep) : Text :=
  steps.flatMap fun step =>
    '/' :: (Escape.writeName '\\' pathSpecial step.label ++ indexText step.index)

end Syntax

section Store

/-- `augds_store_path` for a label and its index; index zero is not printed. -/
def augdsStorePath (parentAugPath : Option Text) (label : Text) (augIndex : Nat) : Text :=
  (match parentAugPath with
    | some path => path ++ ['/']
    | none => []) ++ (label ++ indexText (if augIndex = 0 then none else some augIndex))

/-- The path of a node from the labels and indices of its ancestors and its own. -/
def storePath (steps : List (Text × Nat)) : Option Text :=
  steps.foldl (fun parent step => some (augdsStorePath parent step.1 step.2)) none

/-- Loop of `augds_store_diff_apply_prepare_path`.  As long as nothing has been encoded, the
buffer is not allocated.  A second allocation measures the buffer, which is not terminated
yet. -/
def encodeCommas : Text → Text → Option Text → Option (Option Text)
  | [], _, buffer => some buffer
  | char :: rest, copied, buffer =>
      if char = ',' then
        match buffer with
        | none => encodeCommas rest (copied ++ [char]) (some (copied ++ ['\\', char]))
        | some _ => none
      else encodeCommas rest (copied ++ [char]) (buffer.map (· ++ [char]))

/-- Paths that Augeas would not take for relative ones. -/
def needsContext (path : Text) : Bool :=
  match path with
  | char :: _ => char.isDigit || char = '$'
  | [] => false

/-- `augds_store_diff_apply_prepare_path` -/
def augdsStoreDiffApplyPreparePath (context path : Text) : Option Text :=
  (encodeCommas path [] (if needsContext path then some (context ++ ['/']) else none)).map
    (·.getD path)

end Store

section Load

/-- `memmove` over the first backslash; the last character stays where it was, too. -/
def decodeStep (buffer : Text) : Text :=
  match buffer.dropWhile (· ≠ '\\') with
  | mark :: rest => buffer.takeWhile (· ≠ '\\') ++ rest ++ [(mark :: rest).getLastD mark]
  | [] => buffer

/-- Loop of `augds_get_label_node` over the backslashes. -/
def decodeLoop : Nat → Text → Nat → Option Text
  | 0, buffer, len => if '\\' ∈ buffer then none else some (buffer.take len)
  | fuel + 1, buffer, len =>
      if '\\' ∈ buffer then decodeLoop fuel (decodeStep buffer) (len - 1)
      else some (buffer.take len)

/-- `start` without its last position predicate. -/
def skipPosition (start : Text) : Option Text :=
  if start.contains '[' then some ((start.reverse.dropWhile (· ≠ '[')).drop 1).reverse else none

/-- `augds_get_label_node`.  The last character of the segment is the one of the whole path,
which is a slash if the segment is empty. -/
def augdsGetLabelNode (label : Text) : Option Text :=
  let start := (label.reverse.takeWhile (· ≠ '/')).reverse
  label.getLast?.bind fun last =>
    if '\\' ∈ start ∨ last = ']' then
      (if last = ']' then skipPosition start else some start).bind fun dyn =>
        decodeLoop dyn.length dyn dyn.length
    else some start

end Load

end SysrepoAugeas.Label
