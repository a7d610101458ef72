import SysrepoAugeas.Pattern.Count

/-!
# Limit of the buffer

Every expansion checks the length of an identifier in its own way.  The zero at
the end is written after the check of a character, case-insensitive words are
not checked at all, and for an optional group of alternatives the error of the
inner expansion is lost.
-/

namespace SysrepoAugeas.Pattern

open SysrepoAugeas.Label (Text)

section Optional

variable {limit room totalVari : Nat} {vari flag : Bitset} {text buffer : Text} {group : Nat}

/-- The characters that a scan has written. -/
def Scan.chars : Scan → Text
  | .written buffer | .dropped buffer | .limit buffer | .aborted buffer => buffer

theorem buffer_le_qmScan :
    buffer.length ≤ (qmScan room totalVari vari text flag group buffer).chars.length := by
  induction text using scan_cases generalizing flag group buffer with
  | nil => exact Nat.le_refl _
  | opened text inductionHypothesis =>
      rw [qmScan_open]
      split
      · exact inductionHypothesis
      · exact Nat.le_refl _
  | marked char text notOpen ofText ofMark =>
      have one : buffer.length ≤ (buffer ++ [char]).length := by simp
      rw [qmScan_marked notOpen]
      split_ifs
      any_goals exact Nat.le_refl _
      · exact ofText
      · exact ofText
      · exact ofMark
      · exact one.trans ofText
  | unmarked char text notOpen isUnmarked inductionHypothesis =>
      have one : buffer.length ≤ (buffer ++ [char]).length := by simp
      rw [qmScan_unmarked notOpen isUnmarked]
      split_ifs
      any_goals exact Nat.le_refl _
      · exact one.trans inductionHypothesis
      · exact inductionHypothesis
      · exact one.trans inductionHypothesis

/-- What becomes of a scan when the buffer is smaller. -/
def Cut (limit : Nat) (full short : Scan) : Prop :=
  full.chars.length ≤ limit ∧ short = full ∨
    limit < full.chars.length ∧ ∃ written, short = .limit written ∧ written.length ≤ limit

theorem cut_write {full short : Scan} (smaller : limit < room) (inside : buffer.length ≤ limit)
    (grown : buffer.length + 1 ≤ full.chars.length)
    (rest : buffer.length + 1 ≤ limit → Cut limit full short) :
    Cut limit (if room ≤ buffer.length then .limit buffer else full)
      (if limit ≤ buffer.length then .limit buffer else short) := by
  rw [if_neg (by omega)]
  split
  · exact .inr ⟨by omega, buffer, rfl, inside⟩
  · exact rest (by omega)

theorem qmScan_cut (smaller : limit < room) (inside : buffer.length ≤ limit) :
    Cut limit (qmScan room totalVari vari text flag group buffer)
      (qmScan limit totalVari vari text flag group buffer) := by
  have length (char : Char) (buffer : Text) : (buffer ++ [char]).length = buffer.length + 1 := by
    rw [List.length_append, List.length_singleton]
  induction text using scan_cases generalizing flag group buffer with
  | nil => exact .inl ⟨inside, rfl⟩
  | opened text inductionHypothesis =>
      rw [qmScan_open, qmScan_open]
      split
      · exact inductionHypothesis inside
      · exact .inl ⟨inside, rfl⟩
  | marked char text notOpen ofText ofMark =>
      rw [qmScan_marked notOpen, qmScan_marked notOpen]
      split
      · split
        · exact .inl ⟨inside, rfl⟩
        · exact ofText inside
      · split
        · split
          · exact ofText inside
          · exact .inl ⟨inside, rfl⟩
        · split
          · exact ofMark inside
          · split
            · exact .inl ⟨inside, rfl⟩
            · apply cut_write smaller inside
              · rw [← length char]
                exact buffer_le_qmScan
              · intro more
                rw [← length char] at more
                exact ofText more
  | unmarked char text notOpen isUnmarked inductionHypothesis =>
      have written : Cut limit
          (if room ≤ buffer.length then .limit buffer
            else qmScan room totalVari vari text flag group (buffer ++ [char]))
          (if limit ≤ buffer.length then .limit buffer
            else qmScan limit totalVari vari text flag group (buffer ++ [char])) := by
        apply cut_write smaller inside
        · rw [← length char]
          exact buffer_le_qmScan
        · intro more
          rw [← length char] at more
          exact inductionHypothesis more
      rw [qmScan_unmarked notOpen isUnmarked, qmScan_unmarked notOpen isUnmarked]
      split
      · exact written
      · split
        · exact inductionHypothesis inside
        · split
          · exact .inl ⟨inside, rfl⟩
          · exact written

/-- A variation in a buffer in which all of the token has room. -/
def qmInFull (ptoken : Text) (i : Nat) : Scan :=
  qmVariation (max ptoken.length ayMaxIdentSize + 1) ptoken i

/-- The variation is one that fills the buffer, so that there is no byte left for the zero. -/
def QmFills (ptoken : Text) (i : Nat) : Prop :=
  ∃ word, qmInFull ptoken i = .written word ∧ word.length = ayMaxIdentSize

/-- The loop ends with the variation. -/
def QmStops (ptoken : Text) (i : Nat) : Prop :=
  ayMaxIdentSize < (qmInFull ptoken i).chars.length ∨ (qmInFull ptoken i).text = none

theorem qmVariation_cut (ptoken : Text) (i : Nat) :
    Cut ayMaxIdentSize (qmInFull ptoken i) (qmVariation ayMaxIdentSize ptoken i) :=
  qmScan_cut (by omega) (Nat.zero_le _)

end Optional

/-- All writes are within the buffer, and a failed check of the limit is the error that is returned. -/
structure Outcome.Safe (outcome : Outcome) : Prop where
  inside : outcome.size ≤ ayMaxIdentSize
  returned : outcome.limited = true → outcome.ending = .identLimit

section Loops

variable {ptoken : Text} {outcome : Outcome}

theorem size_qmOutcomeFrom (variations : List Nat) (outcome : Outcome) :
    outcome.size ≤ (qmOutcomeFrom ptoken variations outcome).size := by
  induction variations generalizing outcome with
  | nil => exact Nat.le_refl _
  | cons i rest inductionHypothesis =>
      rw [qmOutcomeFrom]
      cases qmVariation ayMaxIdentSize ptoken i with
      | written buffer =>
          have grown : outcome.size ≤ (outcome.write buffer).add.size := Nat.le_max_left _ _
          exact grown.trans (inductionHypothesis _)
      | dropped buffer =>
          have grown : outcome.size ≤ ((outcome.touch buffer).write []).add.size :=
            (Nat.le_max_left _ _).trans (Nat.le_max_left _ _)
          exact grown.trans (inductionHypothesis _)
      | limit buffer => exact Nat.le_max_left _ _
      | aborted buffer => exact Nat.le_max_left _ _

/-- The loop ends before it comes to a variation that fills the buffer. -/
def QmFitsFrom (ptoken : Text) (variations : List Nat) : Prop :=
  ∀ front i behind, variations = front ++ i :: behind → QmFills ptoken i →
    ∃ j ∈ front, QmStops ptoken j

theorem qmFitsFrom_cons {i : Nat} {rest : List Nat} :
    QmFitsFrom ptoken (i :: rest) ↔
      ¬ QmFills ptoken i ∧ (QmStops ptoken i ∨ QmFitsFrom ptoken rest) := by
  constructor
  · intro fits
    have first : ¬ QmFills ptoken i := by
      intro fills
      obtain ⟨j, member, -⟩ := fits [] i rest rfl fills
      cases member
    refine ⟨first, ?_⟩
    by_cases stops : QmStops ptoken i
    · exact .inl stops
    · refine .inr fun front k behind same fills => ?_
      obtain ⟨j, member, isStop⟩ := fits (i :: front) k behind (congrArg (i :: ·) same) fills
      obtain rfl | inFront := List.mem_cons.mp member
      · exact absurd isStop stops
      · exact ⟨j, inFront, isStop⟩
  · rintro ⟨first, stops | fits⟩ front k behind same fills
    · cases front with
      | nil =>
          obtain ⟨rfl, -⟩ := List.cons.inj same
          exact absurd fills first
      | cons j front =>
          obtain ⟨rfl, -⟩ := List.cons.inj same
          exact ⟨i, List.mem_cons_self, stops⟩
    · cases front with
      | nil =>
          obtain ⟨rfl, -⟩ := List.cons.inj same
          exact absurd fills first
      | cons j front =>
          obtain ⟨rfl, inRest⟩ := List.cons.inj same
          obtain ⟨j, inFront, isStop⟩ := fits front k behind inRest fills
          exact ⟨j, List.mem_cons_of_mem i inFront, isStop⟩

theorem not_qmFills {i : Nat}
    (other : ∀ word, qmInFull ptoken i = .written word → word.length ≠ ayMaxIdentSize) :
    ¬ QmFills ptoken i := by
  rintro ⟨word, isWord, length⟩
  exact other word isWord length

theorem not_qmStops {i : Nat} (short : (qmInFull ptoken i).chars.length ≤ ayMaxIdentSize)
    (ended : (qmInFull ptoken i).text ≠ none) : ¬ QmStops ptoken i := by
  rintro (long | failed)
  · exact absurd short (Nat.not_le.mpr long)
  · exact ended failed

theorem safe_limit (inside : outcome.size ≤ ayMaxIdentSize) {written : Text}
    (short : written.length ≤ ayMaxIdentSize) : (outcome.touch written).limit.Safe :=
  ⟨Nat.max_le.mpr ⟨inside, short⟩, fun _ => rfl⟩

theorem safe_abort (inside : outcome.size ≤ ayMaxIdentSize) (notLimited : outcome.limited = false)
    {written : Text} (short : written.length ≤ ayMaxIdentSize) :
    (outcome.touch written).abort.Safe := by
  refine ⟨Nat.max_le.mpr ⟨inside, short⟩, fun limited => ?_⟩
  rw [Outcome.abort, Outcome.touch, notLimited] at limited
  cases limited

/-- The loop over the variations is safe unless it comes to one that fills the buffer. -/
theorem qmOutcomeFrom_safe (variations : List Nat) (inside : outcome.size ≤ ayMaxIdentSize)
    (notLimited : outcome.limited = false) :
    (qmOutcomeFrom ptoken variations outcome).Safe ↔ QmFitsFrom ptoken variations := by
  induction variations generalizing outcome with
  | nil =>
      constructor
      · intro _ front i behind same
        simp at same
      · intro _
        exact ⟨inside, fun limited => by rw [qmOutcomeFrom, notLimited] at limited; cases limited⟩
  | cons i rest inductionHypothesis =>
      rw [qmFitsFrom_cons, qmOutcomeFrom]
      obtain ⟨short, same⟩ | ⟨long, written, same, short⟩ := qmVariation_cut ptoken i
      · rw [same]
        cases full : qmInFull ptoken i with
        | written buffer =>
            have goesOn := not_qmStops short (by rw [full]; exact Option.some_ne_none _)
            rw [full] at short
            by_cases fills : buffer.length = ayMaxIdentSize
            · constructor
              · intro safe
                have grown := (size_qmOutcomeFrom rest (outcome.write buffer).add).trans safe.inside
                have beyond : buffer.length + 1 ≤ (outcome.write buffer).add.size :=
                  Nat.le_max_right _ _
                omega
              · intro fits
                exact absurd ⟨buffer, full, fills⟩ fits.1
            · have notFills : ¬ QmFills ptoken i := not_qmFills fun word isWord => by
                rw [full] at isWord
                cases isWord
                exact fills
              have room : (outcome.write buffer).add.size ≤ ayMaxIdentSize :=
                Nat.max_le.mpr ⟨inside, Nat.succ_le_of_lt (Nat.lt_of_le_of_ne short fills)⟩
              rw [inductionHypothesis room notLimited]
              exact ⟨fun fits => ⟨notFills, .inr fits⟩, fun fits => fits.2.resolve_left goesOn⟩
        | dropped buffer =>
            have goesOn := not_qmStops short (by rw [full]; exact Option.some_ne_none _)
            rw [full] at short
            have notFills : ¬ QmFills ptoken i := not_qmFills fun word isWord => by
              rw [full] at isWord
              cases isWord
            have room : ((outcome.touch buffer).write []).add.size ≤ ayMaxIdentSize :=
              Nat.max_le.mpr ⟨Nat.max_le.mpr ⟨inside, short⟩, by decide⟩
            rw [inductionHypothesis room notLimited]
            exact ⟨fun fits => ⟨notFills, .inr fits⟩, fun fits => fits.2.resolve_left goesOn⟩
        | limit buffer =>
            have stops : QmStops ptoken i := .inr (by rw [full]; rfl)
            rw [full] at short
            have notFills : ¬ QmFills ptoken i := not_qmFills fun word isWord => by
              rw [full] at isWord
              cases isWord
            exact ⟨fun _ => ⟨notFills, .inl stops⟩, fun _ => safe_limit inside short⟩
        | aborted buffer =>
            have stops : QmStops ptoken i := .inr (by rw [full]; rfl)
            rw [full] at short
            have notFills : ¬ QmFills ptoken i := not_qmFills fun word isWord => by
              rw [full] at isWord
              cases isWord
            exact ⟨fun _ => ⟨notFills, .inl stops⟩, fun _ => safe_abort inside notLimited short⟩
      · have stops : QmStops ptoken i := .inl long
        have notFills : ¬ QmFills ptoken i := not_qmFills fun word isWord => by
          rw [isWord] at long
          exact Nat.ne_of_gt long
        rw [same]
        exact ⟨fun _ => ⟨notFills, .inl stops⟩, fun _ => safe_limit inside short⟩

/-- Before a variation that fills the buffer comes one with which the loop ends. -/
def QmFits (ptoken : Text) : Prop :=
  63 < ayPatternIdentifierQmVariations ptoken ∨
    ∀ i < ayPatternIdentifierQmVariations ptoken, QmFills ptoken i → ∃ j < i, QmStops ptoken j

theorem qmFitsFrom_range (total : Nat) :
    QmFitsFrom ptoken (List.range total) ↔
      ∀ i < total, QmFills ptoken i → ∃ j < i, QmStops ptoken j := by
  constructor
  · intro fits i below fills
    have split : List.range total = List.range i ++ i :: (List.range total).drop (i + 1) := by
      have behind := List.drop_eq_getElem_cons (show i < (List.range total).length by simpa using below)
      rw [List.getElem_range] at behind
      have front : (List.range total).take i = List.range i := by
        rw [List.take_range, Nat.min_eq_left below.le]
      rw [← behind, ← front, List.take_append_drop]
    obtain ⟨j, member, stops⟩ := fits _ i _ split fills
    exact ⟨j, List.mem_range.mp member, stops⟩
  · intro fits front i behind split fills
    have nth : (List.range total)[front.length]? = some i := by
      rw [split, List.getElem?_append_right (Nat.le_refl _), Nat.sub_self, List.getElem?_cons_zero]
    obtain ⟨bound, same⟩ := List.getElem?_eq_some_iff.mp nth
    rw [List.getElem_range] at same
    rw [List.length_range] at bound
    have isFront : front = List.range i := by
      have taken := congrArg (List.take front.length) split
      rw [List.take_left, List.take_range, Nat.min_eq_left bound.le, same] at taken
      exact taken.symm
    obtain ⟨j, below, stops⟩ := fits i (by omega) fills
    exact ⟨j, by rw [isFront]; exact List.mem_range.mpr below, stops⟩

theorem qmOutcome_safe (ptoken : Text) : (qmOutcome ptoken).Safe ↔ QmFits ptoken := by
  rw [qmOutcome, QmFits]
  dsimp only
  split
  · rename_i many
    exact ⟨fun _ => .inl many, fun _ => ⟨Nat.zero_le _, fun limited => by cases limited⟩⟩
  · rename_i few
    rw [or_iff_right few, ← qmFitsFrom_range]
    exact qmOutcomeFrom_safe _ (Nat.zero_le _) rfl

end Loops

section Nocase

theorem length_nocaseLetters {ptoken : Text} {len first : Nat} (within : len ≤ ptoken.length)
    (small : first < 4) : (nocaseLetters ptoken len first).length = (len + 3 - first) / 4 := by
  rw [nocaseLetters]
  induction len with
  | zero =>
      rw [Nat.zero_add, Nat.div_eq_of_lt (by omega)]
      rfl
  | succ len inductionHypothesis =>
      have last : ptoken[len]? = some ptoken[len] := List.getElem?_eq_getElem (by omega)
      have ofLast : ([len].filterMap fun i => if i % 4 = first then ptoken[i]? else none).length =
          if len % 4 = first then 1 else 0 := by
        rw [List.filterMap_cons, last]
        split_ifs <;> rfl
      rw [List.range_succ, List.filterMap_append, List.length_append,
        inductionHypothesis (by omega), ofLast]
      split_ifs <;> omega

/-- The blocks leave a byte for the zero. -/
def NocaseFits (len : Nat) : Prop := (len + 2) / 4 < ayMaxIdentSize

theorem nocaseOutcome_safe {ptoken : Text} {len : Nat} (within : len ≤ ptoken.length) :
    (nocaseOutcome ptoken len).Safe ↔ NocaseFits len := by
  have upper := length_nocaseLetters within (show 1 < 4 by decide)
  have lower := length_nocaseLetters within (show 2 < 4 by decide)
  have size : (nocaseOutcome ptoken len).size =
      max (max 0 ((nocaseLetters ptoken len 1).length + 1))
        ((nocaseLetters ptoken len 2).length + 1) := rfl
  rw [upper, lower] at size
  constructor
  · intro safe
    have inside := safe.inside
    rw [NocaseFits]
    omega
  · intro fits
    rw [NocaseFits] at fits
    exact ⟨by omega, fun limited => by cases limited⟩

end Nocase

section Bars

variable (ptoken : Text) (len : Nat)

/-- Characters in front of the first `(`. -/
def vbarFront : Nat := ((ptoken.take len).idxOf? '(').getD 0

/-- Where the characters behind the first `)` begin, if there are any. -/
def vbarBehind : Option Nat :=
  ((((ptoken.take len).idxOf? ')').map fun close =>
    if ptoken[close + 1]? = some '?' then close + 1 else close).filter
      fun close => close + 1 < len).map (· + 1)

/-- Characters of a variation with those in front of the group and behind it. -/
def vbarLength (idx : Nat) : Option Nat :=
  if (ptoken.take len).idxOf? '(' = none ∧ vbarBehind ptoken len = none then
    if idx = 0 then some len else none
  else
    (ayPatternUnionToken (ptoken.drop (vbarFront ptoken len + 1)) idx).join.map fun variation =>
      vbarFront ptoken len + variation.2 + (vbarBehind ptoken len).elim 0 (len - ·)

/-- What the expansion at an index can be. -/
inductive VbarStep (idx : Nat) : Option Vbar → Prop
  | stray (stop : ¬ Follows (ptoken.drop len)) : VbarStep idx none
  | aborted (stop : Follows (ptoken.drop len)) (front : vbarFront ptoken len < ayMaxIdentSize)
      (missing : vbarLength ptoken len idx = none) : VbarStep idx none
  | ended (stop : Follows (ptoken.drop len)) (front : vbarFront ptoken len < ayMaxIdentSize)
      (missing : vbarLength ptoken len idx = none) : VbarStep idx (some .identNotFound)
  | limit (stop : Follows (ptoken.drop len)) (buffer : Text) (short : buffer.length < ayMaxIdentSize)
      (long : ayMaxIdentSize ≤ vbarFront ptoken len ∨
        ∃ length, vbarLength ptoken len idx = some length ∧ ayMaxIdentSize ≤ length) :
      VbarStep idx (some (.identLimit buffer))
  | ident (stop : Follows (ptoken.drop len)) (front : vbarFront ptoken len < ayMaxIdentSize)
      (buffer : Text) (length : Nat) (found : vbarLength ptoken len idx = some length)
      (short : length < ayMaxIdentSize) (within : buffer.length ≤ length) :
      VbarStep idx (some (.ident buffer))

variable {ptoken len}

theorem vbarAt_eq (stop : Follows (ptoken.drop len)) (idx : Nat) :
    ayPatternIdentifierVbarAt ptoken len idx =
      if (ptoken.take len).idxOf? '(' = none ∧ vbarBehind ptoken len = none then
        if idx = 0 then
          if ayMaxIdentSize ≤ len then some (.identLimit []) else some (.ident (ptoken.take len))
        else some .identNotFound
      else if ayMaxIdentSize ≤ vbarFront ptoken len then some (.identLimit [])
      else
        (ayPatternUnionToken (ptoken.drop (vbarFront ptoken len + 1)) idx).map fun variation =>
          variation.elim .identNotFound fun variation =>
            let front := (ptoken.take len).take (vbarFront ptoken len)
            if ayMaxIdentSize ≤ vbarFront ptoken len + variation.2 then .identLimit front
            else
              (vbarBehind ptoken len).elim (.ident (front ++ variation.1.take variation.2)) fun behind =>
                if ayMaxIdentSize ≤ vbarFront ptoken len + variation.2 + (len - behind) then
                  .identLimit (front ++ variation.1.take variation.2)
                else
                  .ident (front ++ variation.1.take variation.2 ++ (ptoken.take len).drop behind) := by
  have stop : ptoken.drop len = [] ∨ (ptoken.drop len).head? = some '|' := stop
  unfold ayPatternIdentifierVbarAt
  dsimp only
  rw [if_neg (not_not.mpr stop)]
  rfl

theorem vbarFront_flat (noOpen : (ptoken.take len).idxOf? '(' = none) : vbarFront ptoken len = 0 := by
  rw [vbarFront, noOpen, Option.getD_none]

/-- A variation is written piece by piece, with a check in front of every piece. -/
theorem vbarStep_found {idx : Nat} (stop : Follows (ptoken.drop len))
    (front : vbarFront ptoken len < ayMaxIdentSize) {variation : Text × Nat}
    (length : vbarLength ptoken len idx =
      some (vbarFront ptoken len + variation.2 + (vbarBehind ptoken len).elim 0 (len - ·)))
    {before : Text} (within : before.length ≤ vbarFront ptoken len) :
    VbarStep ptoken len idx
      (some (if ayMaxIdentSize ≤ vbarFront ptoken len + variation.2 then .identLimit before
        else
          (vbarBehind ptoken len).elim (.ident (before ++ variation.1.take variation.2)) fun behind =>
            if ayMaxIdentSize ≤ vbarFront ptoken len + variation.2 + (len - behind) then
              .identLimit (before ++ variation.1.take variation.2)
            else
              .ident (before ++ variation.1.take variation.2 ++ (ptoken.take len).drop behind))) := by
  have ofPiece : (before ++ variation.1.take variation.2).length ≤
      vbarFront ptoken len + variation.2 := by
    rw [List.length_append]
    exact Nat.add_le_add within (List.length_take_le _ _)
  split
  · rename_i long
    exact .limit stop before (by omega) (.inr ⟨_, length, by omega⟩)
  · rename_i short
    cases behind : vbarBehind ptoken len with
    | none =>
        rw [behind] at length
        exact .ident stop front _ _ length (by simpa using short) ofPiece
    | some start =>
        rw [behind] at length
        have ofBehind : ((ptoken.take len).drop start).length ≤ len - start := by
          rw [List.length_drop]
          exact Nat.sub_le_sub_right (List.length_take_le _ _) _
        rw [Option.elim_some]
        split
        · rename_i long
          exact .limit stop _ (by omega) (.inr ⟨_, length, long⟩)
        · rename_i inside
          apply VbarStep.ident stop front _ _ length (Nat.lt_of_not_le inside)
          rw [List.length_append, Option.elim_some]
          exact Nat.add_le_add ofPiece ofBehind

theorem vbarAt_step (idx : Nat) :
    VbarStep ptoken len idx (ayPatternIdentifierVbarAt ptoken len idx) := by
  by_cases stop : Follows (ptoken.drop len)
  · rw [vbarAt_eq stop]
    have length := vbarLength.eq_def ptoken len idx
    split
    · rename_i flat
      have front : vbarFront ptoken len < ayMaxIdentSize := by
        rw [vbarFront_flat flat.1]
        decide
      rw [if_pos flat] at length
      split
      · rename_i first
        rw [if_pos first] at length
        split
        · rename_i long
          exact .limit stop [] (by decide) (.inr ⟨len, length, long⟩)
        · rename_i short
          exact .ident stop front _ len length (Nat.lt_of_not_le short) (List.length_take_le _ _)
      · rename_i other
        rw [if_neg other] at length
        exact .ended stop front length
    · rename_i grouped
      rw [if_neg grouped] at length
      split
      · rename_i long
        exact .limit stop [] (by decide) (.inl long)
      · rename_i short
        have front := Nat.lt_of_not_le short
        cases token : ayPatternUnionToken (ptoken.drop (vbarFront ptoken len + 1)) idx with
        | none =>
            rw [token] at length
            exact .aborted stop front length
        | some variation =>
            rw [token] at length
            cases variation with
            | none => exact .ended stop front length
            | some variation => exact vbarStep_found stop front length (List.length_take_le _ _)
  · have stopped : ayPatternIdentifierVbarAt ptoken len idx = none := by
      unfold ayPatternIdentifierVbarAt
      exact if_pos stop
    rw [stopped]
    exact .stray stop

variable (ptoken len)

/-- From an index on the loop comes to a check of the limit that fails. -/
def VbarLongFrom (idx : Nat) : Prop :=
  ayMaxIdentSize ≤ vbarFront ptoken len ∨
    ∃ last length, idx ≤ last ∧ vbarLength ptoken len last = some length ∧ ayMaxIdentSize ≤ length ∧
      ∀ other, idx ≤ other → other < last → vbarLength ptoken len other ≠ none

/-- A token is followed by a bar or by nothing, and the first variation that is missing is behind
one that is too long. -/
def VbarLong : Prop := Follows (ptoken.drop len) ∧ VbarLongFrom ptoken len 0

variable {ptoken len}

theorem vbarLongFrom_missing {idx : Nat} (front : vbarFront ptoken len < ayMaxIdentSize)
    (missing : vbarLength ptoken len idx = none) : ¬ VbarLongFrom ptoken len idx := by
  rintro (long | ⟨last, length, from_, found, -, each⟩)
  · omega
  · obtain rfl | later := Nat.eq_or_lt_of_le from_
    · rw [missing] at found
      cases found
    · exact each idx (Nat.le_refl _) later missing

theorem vbarLongFrom_long {idx : Nat}
    (long : ayMaxIdentSize ≤ vbarFront ptoken len ∨
      ∃ length, vbarLength ptoken len idx = some length ∧ ayMaxIdentSize ≤ length) :
    VbarLongFrom ptoken len idx := by
  obtain long | ⟨length, found, long⟩ := long
  · exact .inl long
  · exact .inr ⟨idx, length, Nat.le_refl _, found, long, fun other after before => by omega⟩

theorem vbarLongFrom_succ {idx length : Nat}
    (found : vbarLength ptoken len idx = some length) (short : length < ayMaxIdentSize) :
    VbarLongFrom ptoken len (idx + 1) ↔ VbarLongFrom ptoken len idx := by
  constructor
  · rintro (long | ⟨last, other, after, isLast, long, each⟩)
    · exact .inl long
    · refine .inr ⟨last, other, by omega, isLast, long, fun other start before => ?_⟩
      obtain rfl | later := Nat.eq_or_lt_of_le start
      · rw [found]
        exact Option.some_ne_none _
      · exact each other later before
  · rintro (long | ⟨last, other, after, isLast, long, each⟩)
    · exact .inl long
    · have differs : last ≠ idx := by
        rintro rfl
        rw [found] at isLast
        cases isLast
        omega
      exact .inr ⟨last, other, by omega, isLast, long, fun other start before =>
        each other (by omega) before⟩

/-- How the loop over the variations ends. -/
structure Outcome.Bars (outcome : Outcome) (long : Prop) : Prop where
  inside : outcome.size ≤ ayMaxIdentSize
  limited : outcome.limited = true ↔ long
  ended : outcome.ending = .ok ∧ outcome.buffer = [] ∧ ¬ long ∨
    outcome.ending = .identLimit ∧ long ∨ outcome.ending = .aborted ∧ ¬ long

theorem vbarOutcomeFrom_bars (idx : Nat) {outcome : Outcome} (isOk : outcome.ending = .ok)
    (inside : outcome.size ≤ ayMaxIdentSize) (notLimited : outcome.limited = false) :
    (vbarOutcomeFrom ptoken len idx outcome).Bars
      (Follows (ptoken.drop len) ∧ VbarLongFrom ptoken len idx) := by
  have ofPrefix : (vbarPrefix ptoken len).length ≤ vbarFront ptoken len := List.length_take_le _ _
  fun_induction vbarOutcomeFrom ptoken len idx outcome with
  | case1 idx outcome failed stop =>
      have step := @vbarAt_step ptoken len idx
      rw [failed] at step
      cases step with
      | stray notStop => exact absurd stop notStop
      | aborted _ front missing =>
          have notLong : ¬ (Follows (ptoken.drop len) ∧ VbarLongFrom ptoken len idx) :=
            fun long => vbarLongFrom_missing front missing long.2
          exact ⟨Nat.max_le.mpr ⟨inside, by omega⟩, by simp [Outcome.abort, Outcome.write, notLimited, notLong],
            .inr (.inr ⟨rfl, notLong⟩)⟩
  | case2 idx outcome failed stop =>
      have notLong : ¬ (Follows (ptoken.drop len) ∧ VbarLongFrom ptoken len idx) :=
        fun long => stop long.1
      exact ⟨inside, by simp [Outcome.abort, notLimited, notLong], .inr (.inr ⟨rfl, notLong⟩)⟩
  | case3 idx outcome notFound =>
      have step := @vbarAt_step ptoken len idx
      rw [notFound] at step
      cases step with
      | ended _ front missing =>
          have notLong : ¬ (Follows (ptoken.drop len) ∧ VbarLongFrom ptoken len idx) :=
            fun long => vbarLongFrom_missing front missing long.2
          exact ⟨Nat.max_le.mpr ⟨Nat.max_le.mpr ⟨inside, by omega⟩, by decide⟩,
            by simp [Outcome.write, notLimited, notLong], .inl ⟨isOk, rfl, notLong⟩⟩
  | case4 idx outcome buffer limit =>
      have step := @vbarAt_step ptoken len idx
      rw [limit] at step
      cases step with
      | limit stop _ short long =>
          have isLong : Follows (ptoken.drop len) ∧ VbarLongFrom ptoken len idx :=
            ⟨stop, vbarLongFrom_long long⟩
          exact ⟨Nat.max_le.mpr ⟨inside, by omega⟩, by simp [Outcome.limit, isLong],
            .inr (.inl ⟨rfl, isLong⟩)⟩
  | case5 idx outcome buffer found inductionHypothesis =>
      have step := @vbarAt_step ptoken len idx
      rw [found] at step
      cases step with
      | ident _ _ _ length isLength short within =>
          rw [← vbarLongFrom_succ isLength short]
          exact inductionHypothesis isOk (Nat.max_le.mpr ⟨inside, by omega⟩) notLimited

theorem vbarOutcome_bars (ptoken : Text) (len : Nat) :
    (vbarOutcome ptoken len).Bars (VbarLong ptoken len) :=
  vbarOutcomeFrom_bars 0 rfl (Nat.zero_le _) rfl

theorem vbarOutcome_safe (ptoken : Text) (len : Nat) : (vbarOutcome ptoken len).Safe := by
  have bars := vbarOutcome_bars ptoken len
  refine ⟨bars.inside, fun limited => ?_⟩
  have long := bars.limited.mp limited
  obtain ⟨-, -, short⟩ | ⟨isLimit, -⟩ | ⟨-, short⟩ := bars.ended
  · exact absurd long short
  · exact isLimit
  · exact absurd long short

/-- With a variation that is too long also the part that is appended is too long. -/
def VbarQmFits (ptoken : Text) (len : Nat) : Prop :=
  VbarLong ptoken len → ∀ qm, (ptoken.take len).idxOf? '?' = some qm →
    ∃ own, vbarQmOwn ptoken len qm = some own ∧ ayMaxIdentSize ≤ own.length

theorem vbarQmOutcome_safe (ptoken : Text) (len : Nat) :
    (vbarQmOutcome ptoken len).Safe ↔ VbarQmFits ptoken len := by
  have bars := vbarOutcome_bars ptoken len
  rw [vbarQmOutcome, VbarQmFits]
  cases mark : (ptoken.take len).idxOf? '?' with
  | none =>
      constructor
      · intro _ _ qm found
        cases found
      · intro _
        exact ⟨Nat.zero_le _, fun limited => by cases limited⟩
  | some qm =>
      have expanded := vbarOutcome_safe ptoken len
      have fits : (VbarLong ptoken len → ∀ first, some qm = some first →
          ∃ own, vbarQmOwn ptoken len first = some own ∧ ayMaxIdentSize ≤ own.length) ↔
          (VbarLong ptoken len →
            ∃ own, vbarQmOwn ptoken len qm = some own ∧ ayMaxIdentSize ≤ own.length) := by
        simp only [Option.some.injEq, forall_eq']
      rw [Option.elim_some, fits]
      dsimp only
      split
      · rename_i aborted
        refine ⟨fun _ long => ?_, fun _ => expanded⟩
        rw [expanded.returned (bars.limited.mpr long)] at aborted
        cases aborted
      · cases vbarQmOwn ptoken len qm with
        | none =>
            rw [Option.elim_none]
            constructor
            · intro safe long
              have returned := safe.returned (bars.limited.mpr long)
              cases returned
            · intro fits
              refine ⟨bars.inside, fun limited => ?_⟩
              obtain ⟨own, found, -⟩ := fits (bars.limited.mp limited)
              cases found
        | some own =>
            rw [Option.elim_some]
            split
            · rename_i long
              exact ⟨fun _ _ => ⟨own, rfl, long⟩, fun _ => ⟨bars.inside, fun _ => rfl⟩⟩
            · rename_i notAborted short
              constructor
              · intro safe long
                have returned := safe.returned (bars.limited.mpr long)
                cases returned
              · intro fits
                have notLong : ¬ VbarLong ptoken len := by
                  intro long
                  obtain ⟨other, same, tooLong⟩ := fits long
                  obtain rfl := Option.some.inj same
                  exact short tooLong
                have empty : (vbarOutcome ptoken len).buffer = [] := by
                  obtain ⟨-, empty, -⟩ | ⟨-, long⟩ | ⟨aborted, -⟩ := bars.ended
                  · exact empty
                  · exact absurd long notLong
                  · exact absurd aborted notAborted
                rw [empty, List.nil_append]
                exact ⟨Nat.max_le.mpr ⟨bars.inside, by omega⟩,
                  fun limited => absurd (bars.limited.mp limited) notLong⟩

end Bars

section Run

/-- The token keeps the limit in the expansion that is chosen for it. -/
def TokenFits (ptoken : Text) (len : Nat) : Prop :=
  let token := ptoken.take len
  if '?' ∈ token ∧ '|' ∈ token then VbarQmFits ptoken len
  else if '?' ∈ token then QmFits token
  else if ayIdentCharacterNocase ptoken then NocaseFits len
  else True

theorem tokenOutcome_safe {ptoken : Text} {len : Nat} (within : len ≤ ptoken.length) :
    (tokenOutcome ptoken len).Safe ↔ TokenFits ptoken len := by
  unfold tokenOutcome TokenFits
  dsimp only
  split
  · exact vbarQmOutcome_safe ptoken len
  · split
    · exact qmOutcome_safe _
    · split
      · exact nocaseOutcome_safe within
      · exact iff_true_intro (vbarOutcome_safe ptoken len)

/-- The tokens that are expanded. -/
def expandedFrom (patt : Text) : List (Text × Nat) :=
  match _found : ayPatternUnionToken patt 0 with
  | none | some none => []
  | some (some (ptoken, len)) =>
      if ayPatternUnionTokenIsValid ptoken len then
        (ptoken, len) ::
          if (tokenOutcome ptoken len).ending = .ok then expandedFrom (ptoken.drop len) else []
      else []
termination_by patt.length
decreasing_by
  have bounds := unionToken_bounds _found
  rw [List.length_drop]
  omega

def expanded (origin : Text) : List (Text × Nat) :=
  (ayPatternRemoveParentheses origin).elim [] expandedFrom

theorem expandedFrom_step {patt ptoken : Text} {len : Nat}
    (found : ayPatternUnionToken patt 0 = some (some (ptoken, len)))
    (valid : ayPatternUnionTokenIsValid ptoken len = true) :
    expandedFrom patt = (ptoken, len) ::
      if (tokenOutcome ptoken len).ending = .ok then expandedFrom (ptoken.drop len) else [] := by
  rw [expandedFrom]
  split <;> simp_all

theorem expandedFrom_nil {patt : Text}
    (other : ∀ ptoken len, ayPatternUnionToken patt 0 = some (some (ptoken, len)) →
      ayPatternUnionTokenIsValid ptoken len = false) : expandedFrom patt = [] := by
  rw [expandedFrom]
  split <;> simp_all

theorem expandedFrom_within {patt : Text} :
    ∀ token ∈ expandedFrom patt, token.2 ≤ token.1.length := by
  fun_induction expandedFrom patt with
  | case1 patt failed => simp
  | case2 patt ended => simp
  | case3 patt ptoken len found valid inductionHypothesis =>
      intro token member
      obtain rfl | member := List.mem_cons.mp member
      · exact (unionToken_bounds found).2.2.1
      · split at member
        · rename_i isOk
          exact inductionHypothesis token member
        · cases member
  | case4 patt ptoken len found invalid => simp

theorem size_substrOutcomeFrom {patt : Text} {size : Nat} :
    (substrOutcomeFrom patt).size ≤ size ↔
      ∀ token ∈ expandedFrom patt, (tokenOutcome token.1 token.2).size ≤ size := by
  fun_induction substrOutcomeFrom patt with
  | case1 patt failed =>
      rw [expandedFrom_nil (by simp [failed])]
      exact iff_of_true (Nat.zero_le _) (List.forall_mem_nil _)
  | case2 patt ended =>
      rw [expandedFrom_nil (by simp [ended])]
      exact iff_of_true (Nat.zero_le _) (List.forall_mem_nil _)
  | case3 patt ptoken len found valid outcome isOk inductionHypothesis =>
      rw [expandedFrom_step found valid, if_pos isOk, List.forall_mem_cons, ← inductionHypothesis]
      exact Nat.max_le
  | case4 patt ptoken len found valid outcome failed =>
      rw [expandedFrom_step found valid, if_neg failed]
      simp only [List.mem_singleton, forall_eq]
      exact Iff.rfl
  | case5 patt ptoken len found invalid =>
      rw [expandedFrom_nil (by simp_all)]
      exact iff_of_true (Nat.zero_le _) (List.forall_mem_nil _)

/-- The error of a token is the one that the run ends with. -/
theorem ending_substrOutcomeFrom {patt : Text} :
    ∀ token ∈ expandedFrom patt, (tokenOutcome token.1 token.2).ending ≠ .ok →
      (substrOutcomeFrom patt).ending = (tokenOutcome token.1 token.2).ending := by
  fun_induction substrOutcomeFrom patt with
  | case1 patt failed =>
      rw [expandedFrom_nil (by simp [failed])]
      exact List.forall_mem_nil _
  | case2 patt ended =>
      rw [expandedFrom_nil (by simp [ended])]
      exact List.forall_mem_nil _
  | case3 patt ptoken len found valid outcome isOk inductionHypothesis =>
      rw [expandedFrom_step found valid, if_pos isOk, List.forall_mem_cons]
      exact ⟨fun notOk => absurd isOk notOk, inductionHypothesis⟩
  | case4 patt ptoken len found valid outcome failed =>
      rw [expandedFrom_step found valid, if_neg failed]
      intro token member _
      rw [List.mem_singleton] at member
      rw [member]
  | case5 patt ptoken len found invalid =>
      rw [expandedFrom_nil (by simp_all)]
      exact List.forall_mem_nil _

/-- All writes are inside of the buffer, and a token for which a check of the limit fails ends the
run with the error. -/
structure KeepsLimit (origin : Text) : Prop where
  inside : (substrOutcome origin).size ≤ ayMaxIdentSize
  returned : ∀ token ∈ expanded origin, (tokenOutcome token.1 token.2).limited = true →
    (tokenOutcome token.1 token.2).ending = .identLimit ∧ (substrOutcome origin).ending = .identLimit

theorem keepsLimit_iff {origin : Text} :
    KeepsLimit origin ↔ ∀ token ∈ expanded origin, (tokenOutcome token.1 token.2).Safe := by
  have size : (substrOutcome origin).size ≤ ayMaxIdentSize ↔
      ∀ token ∈ expanded origin, (tokenOutcome token.1 token.2).size ≤ ayMaxIdentSize := by
    rw [substrOutcome, expanded]
    cases ayPatternRemoveParentheses origin with
    | none => exact iff_of_true (Nat.zero_le _) (List.forall_mem_nil _)
    | some patt => exact size_substrOutcomeFrom
  have ending : ∀ token ∈ expanded origin, (tokenOutcome token.1 token.2).ending ≠ .ok →
      (substrOutcome origin).ending = (tokenOutcome token.1 token.2).ending := by
    rw [substrOutcome, expanded]
    cases ayPatternRemoveParentheses origin with
    | none => exact List.forall_mem_nil _
    | some patt => exact ending_substrOutcomeFrom
  constructor
  · intro keeps token member
    exact ⟨size.mp keeps.inside token member, fun limited => (keeps.returned token member limited).1⟩
  · intro safe
    refine ⟨size.mpr fun token member => (safe token member).inside, fun token member limited => ?_⟩
    have isLimit := (safe token member).returned limited
    refine ⟨isLimit, ?_⟩
    rw [ending token member (by rw [isLimit]; decide), isLimit]

/-- The limit is kept if and only if every token that is expanded keeps it. -/
theorem ayTranslCreateSubstr_keepsLimit (origin : Text) :
    KeepsLimit origin ↔ ∀ token ∈ expanded origin, TokenFits token.1 token.2 := by
  have within : ∀ token ∈ expanded origin, token.2 ≤ token.1.length := by
    rw [expanded]
    cases ayPatternRemoveParentheses origin with
    | none => exact List.forall_mem_nil _
    | some patt => exact expandedFrom_within
  rw [keepsLimit_iff]
  exact forall₂_congr fun token member => tokenOutcome_safe (within token member)

/-- 64 blocks, so that the zero is behind the end of the buffer. -/
theorem blocks_exceed :
    ayLensePatternHasIdents (List.replicate 64 "[Aa]".toList).flatten = true ∧
      (substrOutcome (List.replicate 64 "[Aa]".toList).flatten).size = ayMaxIdentSize + 1 ∧
      ¬ KeepsLimit (List.replicate 64 "[Aa]".toList).flatten := by
  have size : (substrOutcome (List.replicate 64 "[Aa]".toList).flatten).size =
      ayMaxIdentSize + 1 := by
    decide +kernel
  refine ⟨by decide +kernel, size, fun keeps => ?_⟩
  have inside := keeps.inside
  rw [size] at inside
  exact Nat.not_succ_le_self _ inside

end Run

end SysrepoAugeas.Pattern
