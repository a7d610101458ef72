import SysrepoAugeas.Pattern.Union
import SysrepoAugeas.Pattern.Qm

/-!
# Identifiers of a pattern

Every token is expanded by one of four functions.  The buffer is the text in
front of its terminating zero, an assertion that fails is `none`.
-/

namespace SysrepoAugeas.Pattern

open SysrepoAugeas.Label (Text)

section Code

/-- `ay_pattern_union_token_is_valid`; the text goes on behind the token. -/
def ayPatternUnionTokenIsValid (ptoken : Text) (len : Nat) : Bool :=
  if ayIdentCharacterNocase ptoken then
    (List.range len).all fun i => i % 4 != 0 || ayIdentCharacterNocase (ptoken.drop i)
  else
    let qm := (List.range len).countP fun i =>
      ptoken[i]? == some ')' && ptoken[i + 1]? == some '?'
    let vbar := (ptoken.take len).count '|'
    let opbr := (ptoken.take len).count '('
    !(qm != 0 && qm != opbr || qm != 0 && vbar != 0 && qm != 1)

/-- What `ay_pattern_identifier_vbar_` returns, with its buffer. -/
inductive Vbar where
  | identNotFound
  | identLimit (buffer : Text)
  | ident (buffer : Text)
  deriving DecidableEq

/-- `ay_pattern_identifier_vbar_` -/
def ayPatternIdentifierVbarAt (ptoken : Text) (len idx : Nat) : Option Vbar :=
  let token := ptoken.take len
  let stop := ptoken.drop len
  if ¬(stop = [] ∨ stop.head? = some '|') then none
  else
    let prefixEnd := token.idxOf? '('
    let close := (token.idxOf? ')').map fun close =>
      if ptoken[close + 1]? = some '?' then close + 1 else close
    let postfixStart := (close.filter fun close => close + 1 < len).map (· + 1)
    if prefixEnd = none ∧ postfixStart = none then
      if idx = 0 then
        if ayMaxIdentSize ≤ len then some (.identLimit []) else some (.ident token)
      else some .identNotFound
    else
      let prefixLen := prefixEnd.getD 0
      if ayMaxIdentSize ≤ prefixLen then some (.identLimit [])
      else
        let buffer := token.take prefixLen
        (ayPatternUnionToken (ptoken.drop (prefixLen + 1)) idx).map fun variation =>
          variation.elim .identNotFound fun (variation, variLen) =>
            if ayMaxIdentSize ≤ prefixLen + variLen then .identLimit buffer
            else
              let buffer := buffer ++ variation.take variLen
              postfixStart.elim (.ident buffer) fun postfixStart =>
                if ayMaxIdentSize ≤ prefixLen + variLen + (len - postfixStart) then
                  .identLimit buffer
                else .ident (buffer ++ token.drop postfixStart)

theorem vbarAt_bound {ptoken buffer : Text} {len idx : Nat}
    (found : ayPatternIdentifierVbarAt ptoken len idx = some (.ident buffer)) :
    idx ≤ ptoken.length := by
  unfold ayPatternIdentifierVbarAt at found
  dsimp only at found
  split_ifs at found with stops whole first long prefixLong
  any_goals cases found
  · rw [first]
    exact Nat.zero_le _
  · obtain ⟨variation, token, same⟩ := Option.map_eq_some_iff.mp found
    cases variation with
    | none => cases same
    | some variation =>
        have bound := (unionToken_bounds token).2.2.2
        rw [List.length_drop] at bound
        omega

/-- Whether the loop over the variations ended without an error, the identifiers and the buffer. -/
structure Expansion where
  ok : Bool
  idents : List Text
  buffer : Text

/-- Loop of `ay_pattern_identifier_vbar`. -/
def ayPatternIdentifierVbarFrom (ptoken : Text) (len idx : Nat) (idents : List Text) :
    Option Expansion :=
  match _found : ayPatternIdentifierVbarAt ptoken len idx with
  | none => none
  | some .identNotFound => some ⟨true, idents, []⟩
  | some (.identLimit buffer) => some ⟨false, idents, buffer⟩
  | some (.ident buffer) =>
      ayPatternIdentifierVbarFrom ptoken len (idx + 1) (ayPatternIdentifierAdd idents buffer)
termination_by ptoken.length + 1 - idx
decreasing_by
  have bound := vbarAt_bound _found
  omega

/-- `ay_pattern_identifier_vbar` -/
def ayPatternIdentifierVbar (ptoken : Text) (len : Nat) (idents : List Text) : Option Expansion :=
  ayPatternIdentifierVbarFrom ptoken len 0 idents

/-- `ay_pattern_identifier_nocase` -/
def ayPatternIdentifierNocase (ptoken : Text) (len : Nat) (idents : List Text) : List Text :=
  let written (first : Nat) := (List.range len).filterMap fun i =>
    if i % 4 = first then ptoken[i]? else none
  ayPatternIdentifierAdd (ayPatternIdentifierAdd idents (written 1)) (written 2)

/-- `ay_pattern_identifier_vbar_qm`; an error of the loop over the variations is ignored. -/
def ayPatternIdentifierVbarQm (ptoken : Text) (len : Nat) (idents : List Text) :
    Option (List Text) :=
  ((ptoken.take len).idxOf? '?').bind fun qm =>
    (ayPatternIdentifierVbar ptoken len idents).bind fun expansion =>
      if qm + 1 = len then
        ((ptoken.take len).idxOf? '(').bind fun par =>
          if ayMaxIdentSize ≤ par then none
          else
            some (ayPatternIdentifierAdd expansion.idents (expansion.buffer ++ ptoken.take par))
      else if ayMaxIdentSize ≤ len - (qm + 1) then none
      else
        some (ayPatternIdentifierAdd expansion.idents
          (expansion.buffer ++ (ptoken.take len).drop (qm + 1)))

/-- The choice of `ay_transl_create_substr` between the expansions of a valid token. -/
def expandToken (ptoken : Text) (len : Nat) (idents : List Text) : Option (List Text) :=
  let token := ptoken.take len
  if '?' ∈ token ∧ '|' ∈ token then ayPatternIdentifierVbarQm ptoken len idents
  else if '?' ∈ token then ayPatternIdentifierQm token idents
  else if ayIdentCharacterNocase ptoken then some (ayPatternIdentifierNocase ptoken len idents)
  else
    (ayPatternIdentifierVbar ptoken len idents).bind fun expansion =>
      if expansion.ok then some expansion.idents else none

/-- Loop of `ay_transl_create_substr`. -/
def createSubstrFrom (patt : Text) (idents : List Text) : Option (List Text) :=
  match _found : ayPatternUnionToken patt 0 with
  | none => none
  | some none => some idents
  | some (some (ptoken, len)) =>
      if ayPatternUnionTokenIsValid ptoken len then
        (expandToken ptoken len idents).bind fun idents => createSubstrFrom (ptoken.drop len) idents
      else none
termination_by patt.length
decreasing_by
  have bounds := unionToken_bounds _found
  rw [List.length_drop]
  omega

/-- `ay_transl_create_substr`: the identifiers when it returns 0. -/
def ayTranslCreateSubstr (origin : Text) : Option (List Text) :=
  (ayPatternRemoveParentheses origin).bind fun pattern => createSubstrFrom pattern []

end Code

end SysrepoAugeas.Pattern
