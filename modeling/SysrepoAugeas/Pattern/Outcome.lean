import SysrepoAugeas.Pattern.Vbar

/-!
# What is left behind

The functions that expand a token with all that they leave behind when they
end, also with an error: the identifiers in the record and the buffer with the
number of its bytes that were written.  Every expansion begins at the front of
the buffer, so that a token does not depend on the ones before it.
-/

namespace SysrepoAugeas.Pattern

open SysrepoAugeas.Label (Text)

/-- 0, `AYE_IDENT_LIMIT`, `AYE_INTERNAL_ERROR`, -1, or an assertion that fails. -/
inductive Ending where
  | ok
  | identLimit
  | internalError
  | invalid
  | aborted
  deriving DecidableEq

/-- The indices of all writes are below `size`; `limited` tells that a check of the limit failed. -/
structure Outcome where
  ending : Ending
  idents : List Text
  buffer : Text
  size : Nat
  limited : Bool
  deriving DecidableEq

namespace Outcome

def start : Outcome := ⟨.ok, [], [], 0, false⟩

/-- Characters are written without a zero. -/
def touch (outcome : Outcome) (text : Text) : Outcome :=
  { outcome with size := max outcome.size text.length }

def write (outcome : Outcome) (text : Text) : Outcome :=
  { outcome with buffer := text, size := max outcome.size (text.length + 1) }

def add (outcome : Outcome) : Outcome :=
  { outcome with idents := ayPatternIdentifierAdd outcome.idents outcome.buffer }

def limit (outcome : Outcome) : Outcome := { outcome with ending := .identLimit, limited := true }

def abort (outcome : Outcome) : Outcome := { outcome with ending := .aborted }

end Outcome

section Code

/-- Prefix of a token as `ay_pattern_identifier_vbar_` copies it. -/
def vbarPrefix (ptoken : Text) (len : Nat) : Text :=
  (ptoken.take len).take (((ptoken.take len).idxOf? '(').getD 0)

/-- Loop of `ay_pattern_identifier_vbar`.  Nothing is written when the first assertion fails. -/
def vbarOutcomeFrom (ptoken : Text) (len idx : Nat) (outcome : Outcome) : Outcome :=
  match _found : ayPatternIdentifierVbarAt ptoken len idx with
  | none =>
      if ptoken.drop len = [] ∨ (ptoken.drop len).head? = some '|' then
        (outcome.write (vbarPrefix ptoken len)).abort
      else outcome.abort
  | some .identNotFound => (outcome.write (vbarPrefix ptoken len)).write []
  | some (.identLimit buffer) => (outcome.write buffer).limit
  | some (.ident buffer) => vbarOutcomeFrom ptoken len (idx + 1) (outcome.write buffer).add
termination_by ptoken.length + 1 - idx
decreasing_by
  have bound := vbarAt_bound _found
  omega

/-- `ay_pattern_identifier_vbar` -/
def vbarOutcome (ptoken : Text) (len : Nat) : Outcome := vbarOutcomeFrom ptoken len 0 .start

/-- Letters of a word in one case. -/
def nocaseLetters (ptoken : Text) (len first : Nat) : Text :=
  (List.range len).filterMap fun i => if i % 4 = first then ptoken[i]? else none

/-- `ay_pattern_identifier_nocase` -/
def nocaseOutcome (ptoken : Text) (len : Nat) : Outcome :=
  ((Outcome.start.write (nocaseLetters ptoken len 1)).add.write (nocaseLetters ptoken len 2)).add

/-- How `ay_pattern_identifier_qm_` ends, and the characters that it has written before. -/
inductive Scan where
  | written (buffer : Text)
  | dropped (buffer : Text)
  | limit (buffer : Text)
  | aborted (buffer : Text)

/-- `ay_pattern_identifier_qm_` for a buffer of any size. -/
def qmScan (limit totalVari : Nat) (vari : Bitset) : Text → Bitset → Nat → Text → Scan
  | [], _, _, buffer => .written buffer
  | char :: rest, flag, group, buffer =>
      if char = '(' then
        if group + 1 < totalVari then
          qmScan limit totalVari vari rest (flag.put group true) (group + 1) buffer
        else .aborted buffer
      else
        match rest with
        | '?' :: tail =>
            if char = ')' then
              if ayBitsetMsb flag totalVari = 0 then .aborted buffer
              else
                qmScan limit totalVari vari tail (flag.put (ayBitsetMsb flag totalVari - 1) false)
                  group buffer
            else if !vari group then
              if group + 1 < totalVari then
                qmScan limit totalVari vari tail flag (group + 1) buffer
              else .aborted buffer
            else if ayBitsetMsb flag totalVari ≠ 0 ∧ !vari (ayBitsetMsb flag totalVari - 1) then
              qmScan limit totalVari vari ('?' :: tail) flag group buffer
            else if openUnselected vari (flag.put group true) group then .dropped buffer
            else if limit ≤ buffer.length then .limit buffer
            else
              qmScan limit totalVari vari tail ((flag.put group true).put group false) (group + 1)
                (buffer ++ [char])
        | rest =>
            if ayBitsetIsZero flag totalVari then
              if limit ≤ buffer.length then .limit buffer
              else qmScan limit totalVari vari rest flag group (buffer ++ [char])
            else if ayBitsetMsb flag totalVari ≠ 0 ∧ !vari (ayBitsetMsb flag totalVari - 1) then
              qmScan limit totalVari vari rest flag group buffer
            else if openUnselected vari flag (ayBitsetMsb flag totalVari) then .dropped buffer
            else if limit ≤ buffer.length then .limit buffer
            else qmScan limit totalVari vari rest flag group (buffer ++ [char])

/-- Variation of a token in a buffer of a size. -/
def qmVariation (limit : Nat) (ptoken : Text) (i : Nat) : Scan :=
  let totalVari := ayPatternIdentifierQmVariations ptoken
  qmScan limit totalVari (ayBitsetCreateFromUint64 totalVari i) ptoken ayBitsetClear 0 []

/-- Loop of `ay_pattern_identifier_qm`. -/
def qmOutcomeFrom (ptoken : Text) : List Nat → Outcome → Outcome
  | [], outcome => outcome
  | i :: rest, outcome =>
      match qmVariation ayMaxIdentSize ptoken i with
      | .written buffer => qmOutcomeFrom ptoken rest (outcome.write buffer).add
      | .dropped buffer => qmOutcomeFrom ptoken rest ((outcome.touch buffer).write []).add
      | .limit buffer => (outcome.touch buffer).limit
      | .aborted buffer => (outcome.touch buffer).abort

/-- `ay_pattern_identifier_qm` -/
def qmOutcome (ptoken : Text) : Outcome :=
  let totalVari := ayPatternIdentifierQmVariations ptoken
  if 63 < totalVari then { Outcome.start with ending := .internalError }
  else qmOutcomeFrom ptoken (List.range totalVari) .start

/-- What `ay_pattern_identifier_vbar_qm` appends: the prefix when the token ends with its `?`. -/
def vbarQmOwn (ptoken : Text) (len qm : Nat) : Option Text :=
  if qm + 1 = len then ((ptoken.take len).idxOf? '(').map ptoken.take
  else some ((ptoken.take len).drop (qm + 1))

/-- `ay_pattern_identifier_vbar_qm`; an error of the loop over the variations is ignored. -/
def vbarQmOutcome (ptoken : Text) (len : Nat) : Outcome :=
  ((ptoken.take len).idxOf? '?').elim Outcome.start.abort fun qm =>
    let expanded := vbarOutcome ptoken len
    if expanded.ending = .aborted then expanded
    else
      (vbarQmOwn ptoken len qm).elim expanded.abort fun own =>
        if ayMaxIdentSize ≤ own.length then expanded.limit
        else { expanded with ending := .ok }.write (expanded.buffer ++ own) |>.add

/-- The choice of `ay_transl_create_substr` between the expansions of a valid token. -/
def tokenOutcome (ptoken : Text) (len : Nat) : Outcome :=
  let token := ptoken.take len
  if '?' ∈ token ∧ '|' ∈ token then vbarQmOutcome ptoken len
  else if '?' ∈ token then qmOutcome token
  else if ayIdentCharacterNocase ptoken then nocaseOutcome ptoken len
  else vbarOutcome ptoken len

/-- Behind what another token has left. -/
def Outcome.behind (outcome before : Outcome) : Outcome :=
  ⟨outcome.ending, before.idents ++ outcome.idents, outcome.buffer, max before.size outcome.size,
    before.limited || outcome.limited⟩

/-- Loop of `ay_transl_create_substr`. -/
def substrOutcomeFrom (patt : Text) : Outcome :=
  match _found : ayPatternUnionToken patt 0 with
  | none => Outcome.start.abort
  | some none => .start
  | some (some (ptoken, len)) =>
      if ayPatternUnionTokenIsValid ptoken len then
        let outcome := tokenOutcome ptoken len
        if outcome.ending = .ok then (substrOutcomeFrom (ptoken.drop len)).behind outcome else outcome
      else { Outcome.start with ending := .invalid }
termination_by patt.length
decreasing_by
  have bounds := unionToken_bounds _found
  rw [List.length_drop]
  omega

/-- `ay_transl_create_substr` -/
def substrOutcome (origin : Text) : Outcome :=
  (ayPatternRemoveParentheses origin).elim Outcome.start.abort substrOutcomeFrom

end Code

/-- What the scan returns when it ends without an error. -/
def Scan.text : Scan → Option Text
  | .written buffer => some buffer
  | .dropped _ => some []
  | .limit _ | .aborted _ => none

@[simp] theorem Scan.text_written (buffer : Text) : (written buffer).text = some buffer := rfl

@[simp] theorem Scan.text_dropped (buffer : Text) : (dropped buffer).text = some [] := rfl

@[simp] theorem Scan.text_limit (buffer : Text) : (limit buffer).text = none := rfl

@[simp] theorem Scan.text_aborted (buffer : Text) : (aborted buffer).text = none := rfl

section Scan

variable {limit totalVari : Nat} {vari flag : Bitset} {char : Char} {text buffer : Text} {group : Nat}

theorem qmScan_open :
    qmScan limit totalVari vari ('(' :: text) flag group buffer =
      if group + 1 < totalVari then
        qmScan limit totalVari vari text (flag.put group true) (group + 1) buffer
      else .aborted buffer := by
  rw [qmScan.eq_def]
  rfl

theorem qmScan_marked (notOpen : char ≠ '(') :
    qmScan limit totalVari vari (char :: '?' :: text) flag group buffer =
      if char = ')' then
        if ayBitsetMsb flag totalVari = 0 then .aborted buffer
        else
          qmScan limit totalVari vari text (flag.put (ayBitsetMsb flag totalVari - 1) false)
            group buffer
      else if !vari group then
        if group + 1 < totalVari then qmScan limit totalVari vari text flag (group + 1) buffer
        else .aborted buffer
      else if ayBitsetMsb flag totalVari ≠ 0 ∧ !vari (ayBitsetMsb flag totalVari - 1) then
        qmScan limit totalVari vari ('?' :: text) flag group buffer
      else if openUnselected vari (flag.put group true) group then .dropped buffer
      else if limit ≤ buffer.length then .limit buffer
      else
        qmScan limit totalVari vari text ((flag.put group true).put group false) (group + 1)
          (buffer ++ [char]) := by
  rw [qmScan, if_neg notOpen]

theorem qmScan_unmarked (notOpen : char ≠ '(') (unmarked : text.head? ≠ some '?') :
    qmScan limit totalVari vari (char :: text) flag group buffer =
      if ayBitsetIsZero flag totalVari then
        if limit ≤ buffer.length then .limit buffer
        else qmScan limit totalVari vari text flag group (buffer ++ [char])
      else if ayBitsetMsb flag totalVari ≠ 0 ∧ !vari (ayBitsetMsb flag totalVari - 1) then
        qmScan limit totalVari vari text flag group buffer
      else if openUnselected vari flag (ayBitsetMsb flag totalVari) then .dropped buffer
      else if limit ≤ buffer.length then .limit buffer
      else qmScan limit totalVari vari text flag group (buffer ++ [char]) := by
  rw [qmScan, if_neg notOpen]
  intro tail same
  exact unmarked (by rw [same]; rfl)

/-- The three ways in which the scan goes on: a group, a mark, a character. -/
theorem scan_cases (motive : Text → Prop) (nil : motive [])
    (opened : ∀ text, motive text → motive ('(' :: text))
    (marked : ∀ char text, char ≠ '(' → motive text → motive ('?' :: text) →
      motive (char :: '?' :: text))
    (unmarked : ∀ char text, char ≠ '(' → text.head? ≠ some '?' → motive text →
      motive (char :: text)) (text : Text) : motive text := by
  have below : ∀ bound, ∀ text : Text, text.length < bound → motive text := by
    intro bound
    induction bound with
    | zero => exact fun text small => absurd small (Nat.not_lt_zero _)
    | succ bound inductionHypothesis =>
        intro text small
        cases text with
        | nil => exact nil
        | cons char rest =>
            rw [List.length_cons] at small
            by_cases isOpen : char = '('
            · rw [isOpen]
              exact opened rest (inductionHypothesis rest (by omega))
            · by_cases isMarked : rest.head? = some '?'
              · cases rest with
                | nil => cases isMarked
                | cons mark tail =>
                    obtain rfl := Option.some.inj isMarked
                    rw [List.length_cons] at small
                    exact marked char tail isOpen (inductionHypothesis tail (by omega))
                      (inductionHypothesis _ (by rw [List.length_cons]; omega))
              · exact unmarked char rest isOpen isMarked (inductionHypothesis rest (by omega))
  exact below _ text (Nat.lt_succ_self _)

theorem qmScan_text :
    (qmScan ayMaxIdentSize totalVari vari text flag group buffer).text =
      ayPatternIdentifierQmScan totalVari vari text flag group buffer := by
  induction text using scan_cases generalizing flag group buffer with
  | nil => rfl
  | opened text inductionHypothesis =>
      rw [qmScan_open, ayPatternIdentifierQmScan.eq_def]
      simp only [if_true, apply_ite Scan.text, inductionHypothesis, Scan.text_aborted]
  | marked char text notOpen ofText ofMark =>
      rw [qmScan_marked notOpen, ayPatternIdentifierQmScan, if_neg notOpen, ayBitsetClearMsb]
      simp only [apply_ite Scan.text, ofText, ofMark, Scan.text_aborted, Scan.text_dropped,
        Scan.text_limit]
      congr 1
      split <;> rfl
  | unmarked char text notOpen isUnmarked inductionHypothesis =>
      rw [qmScan_unmarked notOpen isUnmarked, scan_unmarked vari totalVari notOpen isUnmarked]
      simp only [apply_ite Scan.text, inductionHypothesis, Scan.text_dropped, Scan.text_limit]

end Scan

theorem identifierAdd_append (front idents : List Text) (buffer : Text) :
    ayPatternIdentifierAdd (front ++ idents) buffer = front ++ ayPatternIdentifierAdd idents buffer := by
  rw [ayPatternIdentifierAdd, ayPatternIdentifierAdd]
  split
  · rfl
  · exact List.append_assoc _ _ _

namespace Outcome

/-- The identifiers behind those that are there when all is done without an error. -/
def stored (outcome : Outcome) (front : List Text) : Option (List Text) :=
  if outcome.ending = .ok then some (front ++ outcome.idents) else none

/-- What the loop over the variations leaves for its callers. -/
def expansion (outcome : Outcome) (front : List Text) : Option Expansion :=
  if outcome.ending = .aborted then none
  else some ⟨outcome.ending = .ok, front ++ outcome.idents, outcome.buffer⟩

end Outcome

section Stored

variable {ptoken : Text} {len : Nat} (front : List Text)

theorem vbarFrom_none {idx : Nat} {idents : List Text}
    (failed : ayPatternIdentifierVbarAt ptoken len idx = none) :
    ayPatternIdentifierVbarFrom ptoken len idx idents = none := by
  rw [ayPatternIdentifierVbarFrom]
  split <;> simp_all

theorem vbarFrom_outcome {idx : Nat} {outcome : Outcome} (isOk : outcome.ending = .ok) :
    ayPatternIdentifierVbarFrom ptoken len idx (front ++ outcome.idents) =
      (vbarOutcomeFrom ptoken len idx outcome).expansion front := by
  fun_induction vbarOutcomeFrom ptoken len idx outcome with
  | case1 idx outcome failed _ => exact vbarFrom_none failed
  | case2 idx outcome failed _ => exact vbarFrom_none failed
  | case3 idx outcome notFound =>
      rw [vbarFrom_notFound notFound, Outcome.expansion]
      simp only [Outcome.write, isOk]
      rfl
  | case4 idx outcome buffer limit =>
      rw [vbarFrom_limit limit]
      rfl
  | case5 idx outcome buffer found inductionHypothesis =>
      rw [vbarFrom_ident found, identifierAdd_append]
      exact inductionHypothesis isOk

theorem vbar_outcome :
    ayPatternIdentifierVbar ptoken len front = (vbarOutcome ptoken len).expansion front := by
  have whole := @vbarFrom_outcome ptoken len front 0 .start rfl
  rw [Outcome.start, List.append_nil] at whole
  exact whole

theorem qmFrom_outcome {variations : List Nat} {outcome : Outcome} (isOk : outcome.ending = .ok) :
    ((variations.mapM fun i => (qmVariation ayMaxIdentSize ptoken i).text).map fun buffers =>
        buffers.foldl ayPatternIdentifierAdd (front ++ outcome.idents)) =
      (qmOutcomeFrom ptoken variations outcome).stored front := by
  induction variations generalizing outcome with
  | nil =>
      rw [qmOutcomeFrom, Outcome.stored, if_pos isOk]
      rfl
  | cons i rest inductionHypothesis =>
      rw [List.mapM_cons, qmOutcomeFrom]
      cases scanned : qmVariation ayMaxIdentSize ptoken i with
      | written buffer =>
          have ofRest := @inductionHypothesis (outcome.write buffer).add isOk
          rw [← ofRest, Scan.text_written]
          cases rest.mapM fun i => (qmVariation ayMaxIdentSize ptoken i).text with
          | none => rfl
          | some buffers =>
              simp [Outcome.write, Outcome.add, identifierAdd_append]
      | dropped buffer =>
          have ofRest := @inductionHypothesis ((outcome.touch buffer).write []).add isOk
          rw [← ofRest, Scan.text_dropped]
          cases rest.mapM fun i => (qmVariation ayMaxIdentSize ptoken i).text with
          | none => rfl
          | some buffers =>
              simp [Outcome.write, Outcome.add, Outcome.touch, identifierAdd_append]
      | limit buffer => rfl
      | aborted buffer => rfl

theorem qm_outcome : ayPatternIdentifierQm ptoken front = (qmOutcome ptoken).stored front := by
  rw [ayPatternIdentifierQm, qmOutcome]
  dsimp only
  split
  · rfl
  · have whole := @qmFrom_outcome ptoken front (List.range (ayPatternIdentifierQmVariations ptoken))
      .start rfl
    have noIdents : Outcome.start.idents = [] := rfl
    rw [noIdents, List.append_nil] at whole
    rw [← whole]
    simp only [qmVariation, qmScan_text]

theorem nocase_outcome :
    some (ayPatternIdentifierNocase ptoken len front) = (nocaseOutcome ptoken len).stored front := by
  have upper := identifierAdd_append front [] (nocaseLetters ptoken len 1)
  have lower := identifierAdd_append front (ayPatternIdentifierAdd [] (nocaseLetters ptoken len 1))
    (nocaseLetters ptoken len 2)
  rw [List.append_nil] at upper
  rw [← upper] at lower
  have isOk : (nocaseOutcome ptoken len).ending = .ok := rfl
  rw [Outcome.stored, if_pos isOk]
  exact congrArg some lower

theorem length_take_idxOf? {text : Text} {char : Char} {i : Nat} (within : len ≤ text.length)
    (found : (text.take len).idxOf? char = some i) : (text.take i).length = i := by
  obtain ⟨bound, -⟩ := List.idxOf?_eq_some_iff.mp found
  rw [List.length_take] at bound ⊢
  omega

theorem vbarQm_outcome (within : len ≤ ptoken.length) :
    ayPatternIdentifierVbarQm ptoken len front = (vbarQmOutcome ptoken len).stored front := by
  rw [ayPatternIdentifierVbarQm, vbarQmOutcome]
  cases (ptoken.take len).idxOf? '?' with
  | none => rfl
  | some qm =>
      rw [Option.bind_some, Option.elim_some, vbar_outcome, Outcome.expansion]
      dsimp only
      split
      · rename_i isAborted
        rw [Outcome.stored, isAborted]
        rfl
      · rw [Option.bind_some, vbarQmOwn]
        have added (own : Text) : some (ayPatternIdentifierAdd (front ++ (vbarOutcome ptoken len).idents)
            ((vbarOutcome ptoken len).buffer ++ own)) =
            (({ vbarOutcome ptoken len with ending := .ok }.write
              ((vbarOutcome ptoken len).buffer ++ own)).add).stored front := by
          rw [identifierAdd_append]
          rfl
        split
        · cases opened : (ptoken.take len).idxOf? '(' with
          | none => rfl
          | some par =>
              rw [Option.bind_some, Option.map_some, Option.elim_some,
                length_take_idxOf? within opened]
              split
              · rfl
              · exact added _
        · have length : ((ptoken.take len).drop (qm + 1)).length = len - (qm + 1) := by
            rw [List.length_drop, List.length_take, Nat.min_eq_left within]
          rw [Option.elim_some, length]
          split
          · rfl
          · exact added _

theorem token_outcome (within : len ≤ ptoken.length) :
    expandToken ptoken len front = (tokenOutcome ptoken len).stored front := by
  unfold expandToken tokenOutcome
  dsimp only
  split
  · exact vbarQm_outcome front within
  · split
    · exact qm_outcome front
    · split
      · exact nocase_outcome front
      · rw [vbar_outcome, Outcome.expansion, Outcome.stored]
        split
        · rename_i isAborted
          rw [isAborted]
          rfl
        · rw [Option.bind_some]
          simp only [decide_eq_true_eq]

/-- The identifiers are those of a run that ends without an error. -/
theorem createSubstrFrom_outcome (patt : Text) :
    createSubstrFrom patt front = (substrOutcomeFrom patt).stored front := by
  fun_induction substrOutcomeFrom patt generalizing front with
  | case1 patt failed =>
      rw [createSubstrFrom.eq_def]
      split <;> simp_all [Outcome.stored, Outcome.abort]
  | case2 patt ended =>
      rw [createSubstrFrom.eq_def]
      split <;> simp_all [Outcome.stored, Outcome.start]
  | case3 patt ptoken len found valid outcome isOk inductionHypothesis =>
      rw [createSubstrFrom_step found, if_pos valid, token_outcome front (unionToken_bounds found).2.2.1,
        Outcome.stored, if_pos isOk, Option.bind_some, inductionHypothesis, Outcome.stored,
        Outcome.stored, List.append_assoc]
      rfl
  | case4 patt ptoken len found valid outcome failed =>
      rw [createSubstrFrom_step found, if_pos valid, token_outcome front (unionToken_bounds found).2.2.1,
        Outcome.stored, if_neg failed]
      rfl
  | case5 patt ptoken len found invalid =>
      rw [createSubstrFrom_step found, if_neg invalid]
      rfl

theorem ayTranslCreateSubstr_outcome (origin : Text) :
    ayTranslCreateSubstr origin = (substrOutcome origin).stored [] := by
  rw [ayTranslCreateSubstr, substrOutcome]
  cases ayPatternRemoveParentheses origin with
  | none => rfl
  | some pattern => exact createSubstrFrom_outcome [] pattern

end Stored

end SysrepoAugeas.Pattern
