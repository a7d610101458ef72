import Mathlib.Computability.Language
import SysrepoAugeas.Pattern.Bitset

/-!
# Identifiers from question marks

A variation is a bit for every optional part.  It is one scan over the token
with a bitset of the open groups; the counter of the optional parts does not
advance for an optional character that is skipped with its group.
-/

namespace SysrepoAugeas.Pattern

open SysrepoAugeas.Label (Text)

/-- Letter, digit, `-`, `_` or blank. -/
def isPlainChar (char : Char) : Bool :=
  char.isAlphanum || char == '-' || char == '_' || char == ' '

abbrev PlainChar := { char : Char // isPlainChar char = true }

section Code

variable (totalVari : Nat) (vari : Bitset)

/-- Whether an open group below the bound is not in the variation. -/
def openUnselected (flag : Bitset) (bound : Nat) : Bool :=
  (List.range bound).any fun j => flag j && !vari j

/-- `ay_pattern_identifier_qm_` -/
def ayPatternIdentifierQmScan : Text → Bitset → Nat → Text → Option Text
  | [], _, _, buffer => some buffer
  | char :: rest, flag, group, buffer =>
      if char = '(' then
        if group + 1 < totalVari then
          ayPatternIdentifierQmScan rest (flag.put group true) (group + 1) buffer
        else none
      else
        match rest with
        | '?' :: tail =>
            if char = ')' then
              (ayBitsetClearMsb flag totalVari).bind fun flag =>
                ayPatternIdentifierQmScan tail flag group buffer
            else if !vari group then
              if group + 1 < totalVari then
                ayPatternIdentifierQmScan tail flag (group + 1) buffer
              else none
            else if ayBitsetMsb flag totalVari ≠ 0 ∧ !vari (ayBitsetMsb flag totalVari - 1) then
              ayPatternIdentifierQmScan ('?' :: tail) flag group buffer
            else if openUnselected vari (flag.put group true) group then some []
            else if ayMaxIdentSize ≤ buffer.length then none
            else
              ayPatternIdentifierQmScan tail ((flag.put group true).put group false) (group + 1)
                (buffer ++ [char])
        | rest =>
            if ayBitsetIsZero flag totalVari then
              if ayMaxIdentSize ≤ buffer.length then none
              else ayPatternIdentifierQmScan rest flag group (buffer ++ [char])
            else if ayBitsetMsb flag totalVari ≠ 0 ∧ !vari (ayBitsetMsb flag totalVari - 1) then
              ayPatternIdentifierQmScan rest flag group buffer
            else if openUnselected vari flag (ayBitsetMsb flag totalVari) then some []
            else if ayMaxIdentSize ≤ buffer.length then none
            else ayPatternIdentifierQmScan rest flag group (buffer ++ [char])

/-- `ay_pattern_identifier_qm_count` -/
def ayPatternIdentifierQmCount (ptoken : Text) : Nat := ptoken.count '?'

/-- `ay_pattern_identifier_qm_variations` -/
def ayPatternIdentifierQmVariations (ptoken : Text) : Nat := 2 ^ ayPatternIdentifierQmCount ptoken

/-- `ay_pattern_identifier_qm`: the buffer of every variation. -/
def ayPatternIdentifierQm (ptoken : Text) (idents : List Text) : Option (List Text) :=
  let totalVari := ayPatternIdentifierQmVariations ptoken
  if 63 < totalVari then none
  else
    ((List.range totalVari).mapM fun i =>
      ayPatternIdentifierQmScan totalVari (ayBitsetCreateFromUint64 totalVari i) ptoken
        ayBitsetClear 0 []).map fun buffers => buffers.foldl ayPatternIdentifierAdd idents

end Code

/-- `S ::= empty | c S | c? S | (S)? S` -/
inductive Token where
  | nil
  | plain (char : PlainChar) (rest : Token)
  | maybe (char : PlainChar) (rest : Token)
  | group (inner rest : Token)
  deriving DecidableEq

namespace Token

def print : Token → Text
  | nil => []
  | plain char rest => char.1 :: rest.print
  | maybe char rest => char.1 :: '?' :: rest.print
  | group inner rest => '(' :: (inner.print ++ ')' :: '?' :: rest.print)

def language : Token → Language Char
  | nil => 1
  | plain char rest => {[char.1]} * rest.language
  | maybe char rest => ({[char.1]} + 1) * rest.language
  | group inner rest => (inner.language + 1) * rest.language

/-- The number of `?`. -/
def marks : Token → Nat
  | nil => 0
  | plain _ rest => rest.marks
  | maybe _ rest => rest.marks + 1
  | group inner rest => inner.marks + 1 + rest.marks

/-- The word with every optional part. -/
def longest : Token → Text
  | nil => []
  | plain char rest | maybe char rest => char.1 :: rest.longest
  | group inner rest => inner.longest ++ rest.longest

theorem longest_mem (token : Token) : token.longest ∈ token.language := by
  induction token with
  | nil => exact Language.nil_mem_one
  | plain char rest inductionHypothesis =>
      exact Language.append_mem_mul (Set.mem_singleton [char.1]) inductionHypothesis
  | maybe char rest inductionHypothesis =>
      exact Language.append_mem_mul ((Language.mem_add _ _ _).mpr
        (Or.inl (Set.mem_singleton [char.1]))) inductionHypothesis
  | group inner rest ofInner ofRest => exact Language.append_mem_mul ((Language.mem_add _ _ _).mpr (Or.inl ofInner)) ofRest

theorem length_le {token : Token} {word : Text} (member : word ∈ token.language) :
    word.length ≤ token.longest.length := by
  induction token generalizing word with
  | nil =>
      rw [language, Language.mem_one] at member
      simp [member]
  | plain char rest inductionHypothesis =>
      obtain ⟨first, ofFirst, others, ofOthers, rfl⟩ := Language.mem_mul.mp member
      rw [Set.mem_singleton_iff.mp ofFirst]
      exact Nat.succ_le_succ (inductionHypothesis ofOthers)
  | maybe char rest inductionHypothesis =>
      obtain ⟨first, ofFirst | ofFirst, others, ofOthers, rfl⟩ := Language.mem_mul.mp member
      · rw [Set.mem_singleton_iff.mp ofFirst]
        exact Nat.succ_le_succ (inductionHypothesis ofOthers)
      · rw [Set.mem_singleton_iff.mp ofFirst]
        exact (inductionHypothesis ofOthers).trans (Nat.le_succ _)
  | group inner rest ofInner ofRest =>
      obtain ⟨first, inFirst | inFirst, others, inOthers, rfl⟩ := Language.mem_mul.mp member
      · rw [longest, List.length_append, List.length_append]
        exact Nat.add_le_add (ofInner inFirst) (ofRest inOthers)
      · rw [Set.mem_singleton_iff.mp inFirst, List.nil_append, longest, List.length_append]
        exact (ofRest inOthers).trans (Nat.le_add_left _ _)

theorem plain_of_mem {token : Token} {word : Text} (member : word ∈ token.language) :
    ∀ char ∈ word, isPlainChar char = true := by
  induction token generalizing word with
  | nil =>
      rw [language, Language.mem_one] at member
      simp [member]
  | plain char rest inductionHypothesis =>
      obtain ⟨first, ofFirst, others, ofOthers, rfl⟩ := Language.mem_mul.mp member
      rw [Set.mem_singleton_iff.mp ofFirst]
      simpa [char.2] using inductionHypothesis ofOthers
  | maybe char rest inductionHypothesis =>
      obtain ⟨first, ofFirst | ofFirst, others, ofOthers, rfl⟩ := Language.mem_mul.mp member
      · rw [Set.mem_singleton_iff.mp ofFirst]
        simpa [char.2] using inductionHypothesis ofOthers
      · rw [Set.mem_singleton_iff.mp ofFirst]
        simpa using inductionHypothesis ofOthers
  | group inner rest ofInner ofRest =>
      obtain ⟨first, inFirst | inFirst, others, inOthers, rfl⟩ := Language.mem_mul.mp member
      · intro char inWord
        exact (List.mem_append.mp inWord).elim (ofInner inFirst char) (ofRest inOthers char)
      · rw [Set.mem_singleton_iff.mp inFirst]
        exact ofRest inOthers

end Token

/-! ### A walk over the token -/

section Walk

variable (vari : Bitset)

/-- Nothing is written in an unselected group. -/
def skips (opens : List Nat) : Bool := opens.head?.any fun j => !vari j

/-- What a variation writes and its next group number, `none` when it is given up.  The open groups
are listed from the inside. -/
def walk : Token → List Nat → Nat → Option (Nat × Text)
  | .nil, _, group => some (group, [])
  | .plain char rest, opens, group =>
      if skips vari opens then walk rest opens group
      else if opens.all vari then (walk rest opens group).map (Prod.map id (char.1 :: ·))
      else none
  | .maybe char rest, opens, group =>
      if !vari group then walk rest opens (group + 1)
      else if skips vari opens then walk rest opens group
      else if opens.all vari then (walk rest opens (group + 1)).map (Prod.map id (char.1 :: ·))
      else none
  | .group inner rest, opens, group =>
      (walk inner (group :: opens) (group + 1)).bind fun first =>
        (walk rest opens first.1).map (Prod.map id (first.2 ++ ·))

theorem not_all_of_skips {opens : List Nat} (skipped : skips vari opens = true) :
    opens.all vari = false := by
  cases opens with
  | nil => cases skipped
  | cons j outer =>
      have unselected : vari j = false := by simpa [skips] using skipped
      simp [unselected]

/-- Only words of the language are written, and nothing at all below an unselected group. -/
theorem walk_sound {token : Token} {opens : List Nat} {group next : Nat} {word : Text}
    (walked : walk vari token opens group = some (next, word)) :
    (opens.all vari = true → word ∈ token.language) ∧ (opens.all vari = false → word = []) := by
  induction token generalizing opens group next word with
  | nil =>
      cases walked
      exact ⟨fun _ => Language.nil_mem_one, fun _ => rfl⟩
  | plain char rest inductionHypothesis =>
      rw [walk] at walked
      split at walked
      · rename_i skipped
        have below := not_all_of_skips vari skipped
        exact ⟨fun selected => absurd selected (by simp [below]), (inductionHypothesis walked).2⟩
      · split at walked
        · rename_i selected
          obtain ⟨⟨next, word⟩, walkedRest, rfl, rfl⟩ := Option.map_eq_some_iff.mp walked
          constructor
          · intro _
            exact Language.append_mem_mul (Set.mem_singleton [char.1])
              ((inductionHypothesis walkedRest).1 selected)
          · intro below
            exact absurd selected (by simp [below])
        · cases walked
  | maybe char rest inductionHypothesis =>
      have without : ∀ {word : Text}, word ∈ rest.language →
          word ∈ (Token.maybe char rest).language := fun ofRest =>
        Language.append_mem_mul ((Language.mem_add _ _ _).mpr (Or.inr Language.nil_mem_one)) ofRest
      rw [walk] at walked
      split at walked
      · have ofRest := inductionHypothesis walked
        exact ⟨fun selected => without (ofRest.1 selected), ofRest.2⟩
      · split at walked
        · have ofRest := inductionHypothesis walked
          exact ⟨fun selected => without (ofRest.1 selected), ofRest.2⟩
        · split at walked
          · rename_i selected
            obtain ⟨⟨next, word⟩, walkedRest, rfl, rfl⟩ := Option.map_eq_some_iff.mp walked
            constructor
            · intro _
              exact Language.append_mem_mul
                ((Language.mem_add _ _ _).mpr (Or.inl (Set.mem_singleton [char.1])))
                ((inductionHypothesis walkedRest).1 selected)
            · intro below
              exact absurd selected (by simp [below])
          · cases walked
  | group inner rest ofInner ofRest =>
      obtain ⟨⟨after, first⟩, walkedInner, walked⟩ := Option.bind_eq_some_iff.mp walked
      obtain ⟨⟨next, others⟩, walkedRest, rfl, rfl⟩ := Option.map_eq_some_iff.mp walked
      have inside := ofInner walkedInner
      rw [List.all_cons] at inside
      constructor
      · intro selected
        refine Language.append_mem_mul ((Language.mem_add _ _ _).mpr ?_)
          ((ofRest walkedRest).1 selected)
        cases chosen : vari group with
        | true => exact Or.inl (inside.1 (by simp [chosen, selected]))
        | false => exact Or.inr (inside.2 (by simp [chosen]))
      · intro below
        have firstEmpty := inside.2 (by simp [below])
        have othersEmpty := (ofRest walkedRest).2 below
        exact List.append_eq_nil_iff.mpr ⟨firstEmpty, othersEmpty⟩

/-- Group numbers grow, at most by one for each mark. -/
theorem walk_size {token : Token} {opens : List Nat} {group next : Nat} {word : Text}
    (walked : walk vari token opens group = some (next, word)) :
    group ≤ next ∧ next ≤ group + token.marks ∧ word.length ≤ token.longest.length := by
  induction token generalizing opens group next word with
  | nil =>
      cases walked
      simp [Token.marks]
  | plain char rest inductionHypothesis =>
      rw [walk] at walked
      simp only [Token.marks, Token.longest, List.length_cons]
      split at walked
      · have := inductionHypothesis walked
        omega
      · split at walked
        · obtain ⟨⟨next, word⟩, walkedRest, rfl, rfl⟩ := Option.map_eq_some_iff.mp walked
          have := inductionHypothesis walkedRest
          simp only [id_eq, List.length_cons]
          omega
        · cases walked
  | maybe char rest inductionHypothesis =>
      rw [walk] at walked
      simp only [Token.marks, Token.longest, List.length_cons]
      split at walked
      · have := inductionHypothesis walked
        omega
      · split at walked
        · have := inductionHypothesis walked
          omega
        · split at walked
          · obtain ⟨⟨next, word⟩, walkedRest, rfl, rfl⟩ := Option.map_eq_some_iff.mp walked
            have := inductionHypothesis walkedRest
            simp only [id_eq, List.length_cons]
            omega
          · cases walked
  | group inner rest ofInner ofRest =>
      obtain ⟨⟨after, first⟩, walkedInner, walked⟩ := Option.bind_eq_some_iff.mp walked
      obtain ⟨⟨next, others⟩, walkedRest, rfl, rfl⟩ := Option.map_eq_some_iff.mp walked
      have inside := ofInner walkedInner
      have behind := ofRest walkedRest
      simp only [Token.marks, Token.longest, List.length_append, id_eq]
      dsimp only at behind
      omega

/-! ### Every word has a variation -/

/-- The variation has these bits from the group number on. -/
def Shows : List Bool → Nat → Prop
  | [], _ => True
  | bit :: bits, group => vari group = bit ∧ Shows bits (group + 1)

theorem shows_append {first second : List Bool} {group : Nat} :
    Shows vari (first ++ second) group ↔
      Shows vari first group ∧ Shows vari second (group + first.length) := by
  induction first generalizing group with
  | nil => simp [Shows]
  | cons bit bits inductionHypothesis =>
      rw [List.cons_append, Shows, Shows, inductionHypothesis, List.length_cons, and_assoc,
        Nat.add_assoc, Nat.add_comm 1]

theorem shows_of_get {bits : List Bool} {group : Nat}
    (agree : ∀ i (inside : i < bits.length), vari (group + i) = bits[i]) :
    Shows vari bits group := by
  induction bits generalizing group with
  | nil => trivial
  | cons bit bits inductionHypothesis =>
      constructor
      · exact agree 0 (Nat.zero_lt_succ _)
      · apply inductionHypothesis
        intro i inside
        have := agree (i + 1) (Nat.succ_lt_succ inside)
        rwa [← Nat.add_assoc, Nat.add_right_comm] at this

/-- With no bit set, an unselected group is passed over. -/
theorem walk_skipped {token : Token} {opens : List Nat} {group : Nat}
    (skipped : skips vari opens = true)
    (zeros : Shows vari (List.replicate token.marks false) group) :
    walk vari token opens group = some (group + token.marks, []) := by
  induction token generalizing opens group with
  | nil => rfl
  | plain char rest inductionHypothesis =>
      rw [walk, if_pos skipped, inductionHypothesis skipped zeros]
      rfl
  | maybe char rest inductionHypothesis =>
      obtain ⟨unselected, zeros⟩ := zeros
      rw [walk, unselected, inductionHypothesis skipped zeros, Token.marks, Nat.add_right_comm,
        Nat.add_assoc]
      rfl
  | group inner rest ofInner ofRest =>
      rw [Token.marks, Nat.add_comm inner.marks, ← List.replicate_append_replicate,
        ← List.replicate_append_replicate, shows_append, shows_append] at zeros
      obtain ⟨⟨⟨unselected, _⟩, zerosInner⟩, zerosRest⟩ := zeros
      have skippedInner : skips vari (group :: opens) = true := by simp [skips, unselected]
      simp only [List.length_append, List.length_replicate] at zerosInner zerosRest
      rw [walk, ofInner skippedInner zerosInner]
      simp only [Option.bind_some]
      rw [Nat.add_assoc, ofRest skipped zerosRest, Token.marks]
      simp [Nat.add_assoc, Nat.add_comm]

/-- A word of the language is written by every variation with certain bits. -/
theorem walk_complete {token : Token} {word : Text} (member : word ∈ token.language) :
    ∃ bits : List Bool, bits.length = token.marks ∧
      ∀ (vari : Bitset) (opens : List Nat) (group : Nat), opens.all vari = true →
        Shows vari bits group → walk vari token opens group = some (group + token.marks, word) := by
  have unskipped : ∀ {vari : Bitset} {opens : List Nat}, opens.all vari = true →
      skips vari opens = false := by
    intro vari opens selected
    cases skipped : skips vari opens with
    | false => rfl
    | true => exact absurd selected (by simp [not_all_of_skips vari skipped])
  induction token generalizing word with
  | nil =>
      rw [Token.language, Language.mem_one] at member
      exact ⟨[], rfl, fun _ _ _ _ _ => by rw [member]; rfl⟩
  | plain char rest inductionHypothesis =>
      obtain ⟨first, ofFirst, others, ofOthers, rfl⟩ := Language.mem_mul.mp member
      obtain ⟨bits, size, written⟩ := inductionHypothesis ofOthers
      refine ⟨bits, size, ?_⟩
      intro vari opens group selected shown
      rw [walk, if_neg (by simp [unskipped selected]), if_pos selected,
        written vari opens group selected shown, Set.mem_singleton_iff.mp ofFirst]
      rfl
  | maybe char rest inductionHypothesis =>
      obtain ⟨first, ofFirst, others, ofOthers, rfl⟩ := Language.mem_mul.mp member
      obtain ⟨bits, size, written⟩ := inductionHypothesis ofOthers
      obtain ofFirst | ofFirst := (Language.mem_add _ _ _).mp ofFirst
      · refine ⟨true :: bits, congrArg Nat.succ size, ?_⟩
        intro vari opens group selected shown
        rw [walk, shown.1, if_neg (by simp), if_neg (by simp [unskipped selected]),
          if_pos selected, written vari opens (group + 1) selected shown.2,
          Set.mem_singleton_iff.mp ofFirst, Token.marks, Nat.add_right_comm, Nat.add_assoc]
        rfl
      · refine ⟨false :: bits, congrArg Nat.succ size, ?_⟩
        intro vari opens group selected shown
        rw [walk, shown.1, if_pos (by simp), written vari opens (group + 1) selected shown.2,
          Set.mem_singleton_iff.mp ofFirst, Token.marks, Nat.add_right_comm, Nat.add_assoc]
        rfl
  | group inner rest ofInner ofRest =>
      obtain ⟨first, inFirst, others, inOthers, rfl⟩ := Language.mem_mul.mp member
      obtain ⟨bits, size, written⟩ := ofRest inOthers
      obtain ⟨bit, innerBits, innerSize, writtenInner⟩ : ∃ (bit : Bool) (innerBits : List Bool),
          innerBits.length = inner.marks ∧
          ∀ (vari : Bitset) (opens : List Nat) (group : Nat), opens.all vari = true →
            vari group = bit → Shows vari innerBits (group + 1) →
            walk vari inner (group :: opens) (group + 1) =
              some (group + 1 + inner.marks, first) := by
        obtain inFirst | inFirst := (Language.mem_add _ _ _).mp inFirst
        · obtain ⟨innerBits, innerSize, writtenInner⟩ := ofInner inFirst
          refine ⟨true, innerBits, innerSize, ?_⟩
          intro vari opens group selected chosen shown
          exact writtenInner vari (group :: opens) (group + 1) (by simp [chosen, selected]) shown
        · refine ⟨false, List.replicate inner.marks false, List.length_replicate, ?_⟩
          intro vari opens group _ unselected shown
          rw [walk_skipped vari (by simp [skips, unselected]) shown,
            Set.mem_singleton_iff.mp inFirst]
      refine ⟨bit :: (innerBits ++ bits), ?_, ?_⟩
      · simp only [List.length_cons, List.length_append, Token.marks]
        omega
      · intro vari opens group selected shown
        obtain ⟨chosen, shown⟩ := shown
        obtain ⟨shownInner, shown⟩ := (shows_append vari).mp shown
        rw [innerSize] at shown
        rw [walk, writtenInner vari opens group selected chosen shownInner]
        simp only [Option.bind_some]
        rw [written vari opens _ selected shown, Token.marks]
        simp [Nat.add_assoc, Nat.add_comm]

/-! ### The scan is a walk -/

/-- The open groups as bits. -/
def flagOf (opens : List Nat) : Bitset := fun j => decide (j ∈ opens)

variable (totalVari : Nat)

theorem msb_eq {bitset : Bitset} {group size : Nat} (isSet : bitset group = true)
    (top : ∀ j, group < j → bitset j = false) (inside : group < size) :
    ayBitsetMsb bitset size = group + 1 := by
  induction size with
  | zero => exact absurd inside (Nat.not_lt_zero group)
  | succ size inductionHypothesis =>
      rw [ayBitsetMsb]
      by_cases last : group = size
      · rw [← last, if_pos isSet]
      · have below : group < size := by omega
        rw [if_neg (by simp [top size below]), inductionHypothesis below]

theorem msb_zero (size : Nat) : ayBitsetMsb (flagOf []) size = 0 := by
  induction size with
  | zero => rfl
  | succ size inductionHypothesis => rw [ayBitsetMsb, if_neg (by simp [flagOf]), inductionHypothesis]

theorem msb_cons {opens : List Nat} {group size : Nat}
    (nested : (group :: opens).Pairwise (· > ·)) (inside : group < size) :
    ayBitsetMsb (flagOf (group :: opens)) size = group + 1 := by
  apply msb_eq
  · simp [flagOf]
  · intro j above
    rw [List.pairwise_cons] at nested
    have differs : ¬ j = group := by omega
    have outside : j ∉ opens := fun member => absurd (nested.1 j member) (by omega)
    simp [flagOf, differs, outside]
  · exact inside

theorem isZero_flagOf {opens : List Nat} {size : Nat} (inside : ∀ j ∈ opens, j < size)
    (isZero : ayBitsetIsZero (flagOf opens) size = true) : opens = [] := by
  cases opens with
  | nil => rfl
  | cons j outer =>
      simp only [ayBitsetIsZero, List.all_eq_true, List.mem_range] at isZero
      exact absurd (isZero j (inside j List.mem_cons_self)) (by simp [flagOf])

/-- The test of the innermost group. -/
theorem innermost_unselected {opens : List Nat} {size : Nat} (nested : opens.Pairwise (· > ·))
    (inside : ∀ j ∈ opens, j < size) :
    ayBitsetMsb (flagOf opens) size ≠ 0 ∧ (!vari (ayBitsetMsb (flagOf opens) size - 1)) = true ↔
      skips vari opens = true := by
  cases opens with
  | nil => simp [msb_zero, skips]
  | cons j outer => simp [msb_cons nested (inside j List.mem_cons_self), skips]

/-- The test of all groups. -/
theorem openUnselected_flagOf {opens : List Nat} {flag : Bitset} {bound : Nat}
    (inside : ∀ j ∈ opens, j < bound) (same : ∀ j < bound, flag j = flagOf opens j) :
    openUnselected vari flag bound = !opens.all vari := by
  rw [Bool.eq_iff_iff, openUnselected, List.any_eq_true]
  simp only [List.mem_range, Bool.and_eq_true, Bool.not_eq_true', List.all_eq_false]
  constructor
  · rintro ⟨j, below, isOpen, unselected⟩
    rw [same j below, flagOf, decide_eq_true_iff] at isOpen
    exact ⟨j, isOpen, by simp [unselected]⟩
  · rintro ⟨j, member, unselected⟩
    exact ⟨j, inside j member, by simp [same j (inside j member), flagOf, member],
      by simpa using unselected⟩

theorem plain_ne {char : Char} (plain : isPlainChar char = true) :
    char ≠ '(' ∧ char ≠ ')' ∧ char ≠ '?' := by
  refine ⟨?_, ?_, ?_⟩ <;> rintro rfl <;> exact absurd plain (by decide)

section Steps

variable {opens : List Nat} {group : Nat} {buffer text : Text} {char : Char}

theorem scan_unmarked {flag : Bitset} (notOpen : char ≠ '(') (unmarked : text.head? ≠ some '?') :
    ayPatternIdentifierQmScan totalVari vari (char :: text) flag group buffer =
      if ayBitsetIsZero flag totalVari then
        if ayMaxIdentSize ≤ buffer.length then none
        else ayPatternIdentifierQmScan totalVari vari text flag group (buffer ++ [char])
      else if ayBitsetMsb flag totalVari ≠ 0 ∧ !vari (ayBitsetMsb flag totalVari - 1) then
        ayPatternIdentifierQmScan totalVari vari text flag group buffer
      else if openUnselected vari flag (ayBitsetMsb flag totalVari) then some []
      else if ayMaxIdentSize ≤ buffer.length then none
      else ayPatternIdentifierQmScan totalVari vari text flag group (buffer ++ [char]) := by
  rw [ayPatternIdentifierQmScan, if_neg notOpen]
  intro tail same
  exact unmarked (by rw [same]; rfl)

theorem scan_plain (nested : (group :: opens).Pairwise (· > ·)) (inside : group < totalVari)
    (room : buffer.length < ayMaxIdentSize) (plain : isPlainChar char = true)
    (unmarked : text.head? ≠ some '?') :
    ayPatternIdentifierQmScan totalVari vari (char :: text) (flagOf opens) group buffer =
      if skips vari opens then
        ayPatternIdentifierQmScan totalVari vari text (flagOf opens) group buffer
      else if opens.all vari then
        ayPatternIdentifierQmScan totalVari vari text (flagOf opens) group (buffer ++ [char])
      else some [] := by
  obtain ⟨below, nested⟩ := List.pairwise_cons.mp nested
  have inSize : ∀ j ∈ opens, j < totalVari := fun j member => (below j member).trans inside
  have unselected : openUnselected vari (flagOf opens) (ayBitsetMsb (flagOf opens) totalVari) =
      !opens.all vari := by
    apply openUnselected_flagOf
    · cases opens with
      | nil => simp
      | cons j outer =>
          rw [msb_cons nested (inSize j List.mem_cons_self)]
          intro i member
          obtain rfl | member := List.mem_cons.mp member
          · exact Nat.lt_succ_self i
          · exact Nat.lt_succ_of_lt ((List.pairwise_cons.mp nested).1 i member)
    · exact fun _ _ => rfl
  have step : ayPatternIdentifierQmScan totalVari vari (char :: text) (flagOf opens) group buffer =
      if ayBitsetIsZero (flagOf opens) totalVari then
        ayPatternIdentifierQmScan totalVari vari text (flagOf opens) group (buffer ++ [char])
      else if skips vari opens then
        ayPatternIdentifierQmScan totalVari vari text (flagOf opens) group buffer
      else if opens.all vari then
        ayPatternIdentifierQmScan totalVari vari text (flagOf opens) group (buffer ++ [char])
      else some [] := by
    rw [scan_unmarked vari totalVari (plain_ne plain).1 unmarked]
    simp only [innermost_unselected vari nested inSize, unselected, if_neg (Nat.not_le.mpr room)]
    cases opens.all vari <;> rfl
  rw [step]
  split
  · rename_i isZero
    rw [isZero_flagOf inSize isZero]
    rfl
  · rfl

theorem scan_maybe (nested : (group :: opens).Pairwise (· > ·)) (inside : group + 1 < totalVari)
    (room : buffer.length < ayMaxIdentSize) (plain : isPlainChar char = true)
    (unmarked : text.head? ≠ some '?') :
    ayPatternIdentifierQmScan totalVari vari (char :: '?' :: text) (flagOf opens) group buffer =
      if !vari group then
        ayPatternIdentifierQmScan totalVari vari text (flagOf opens) (group + 1) buffer
      else if skips vari opens then
        ayPatternIdentifierQmScan totalVari vari text (flagOf opens) group buffer
      else if opens.all vari then
        ayPatternIdentifierQmScan totalVari vari text (flagOf opens) (group + 1) (buffer ++ [char])
      else some [] := by
  obtain ⟨below, nested⟩ := List.pairwise_cons.mp nested
  have inSize : ∀ j ∈ opens, j < totalVari := fun j member =>
    (below j member).trans (Nat.lt_of_succ_lt inside)
  have unselected : openUnselected vari ((flagOf opens).put group true) group =
      !opens.all vari := by
    apply openUnselected_flagOf vari below
    intro j small
    rw [Bitset.put, if_neg (Nat.ne_of_lt small)]
  have restored : ((flagOf opens).put group true).put group false = flagOf opens := by
    funext j
    by_cases same : j = group
    · have outside : group ∉ opens := fun member => absurd (below group member) (lt_irrefl group)
      simp [Bitset.put, flagOf, same, outside]
    · simp [Bitset.put, same]
  -- the mark of a character in an unselected group is passed over as a character of its own
  have mark : skips vari opens = true →
      ayPatternIdentifierQmScan totalVari vari ('?' :: text) (flagOf opens) group buffer =
        ayPatternIdentifierQmScan totalVari vari text (flagOf opens) group buffer := by
    intro skipped
    have notZero : ¬ ayBitsetIsZero (flagOf opens) totalVari = true := by
      intro isZero
      rw [isZero_flagOf inSize isZero] at skipped
      cases skipped
    rw [scan_unmarked vari totalVari (by decide) unmarked, if_neg notZero,
      if_pos ((innermost_unselected vari nested inSize).mpr skipped)]
  rw [ayPatternIdentifierQmScan, if_neg (plain_ne plain).1]
  simp only [if_neg (plain_ne plain).2.1, innermost_unselected vari nested inSize, unselected,
    if_neg (Nat.not_le.mpr room), restored, if_pos inside]
  split
  · rfl
  · split
    · rename_i skipped
      exact mark skipped
    · cases opens.all vari <;> rfl

theorem scan_open (inside : group + 1 < totalVari) :
    ayPatternIdentifierQmScan totalVari vari ('(' :: text) (flagOf opens) group buffer =
      ayPatternIdentifierQmScan totalVari vari text (flagOf (group :: opens)) (group + 1)
        buffer := by
  have opened : (flagOf opens).put group true = flagOf (group :: opens) := by
    funext j
    by_cases same : j = group <;> simp [Bitset.put, flagOf, same]
  rw [ayPatternIdentifierQmScan.eq_def]
  simp only [if_true, if_pos inside, opened]

theorem scan_close {last : Nat} (nested : (last :: opens).Pairwise (· > ·))
    (inside : last < totalVari) :
    ayPatternIdentifierQmScan totalVari vari (')' :: '?' :: text) (flagOf (last :: opens)) group
        buffer =
      ayPatternIdentifierQmScan totalVari vari text (flagOf opens) group buffer := by
  have closed : ayBitsetClearMsb (flagOf (last :: opens)) totalVari = some (flagOf opens) := by
    rw [ayBitsetClearMsb, msb_cons nested inside, if_neg (Nat.succ_ne_zero last),
      Nat.add_sub_cancel]
    congr 1
    funext j
    by_cases same : j = last
    · have outside : last ∉ opens := fun member =>
        absurd ((List.pairwise_cons.mp nested).1 last member) (lt_irrefl last)
      simp [Bitset.put, flagOf, same, outside]
    · simp [Bitset.put, flagOf, same]
  rw [ayPatternIdentifierQmScan, if_neg (by decide)]
  simp only [if_true, closed, Option.bind_some]

end Steps

theorem print_head {token : Token} {tail : Text} (unmarked : tail.head? ≠ some '?') :
    (token.print ++ tail).head? ≠ some '?' := by
  cases token with
  | nil => exact unmarked
  | plain char rest | maybe char rest =>
      intro same
      exact (plain_ne char.2).2.2 (Option.some.inj same)
  | group inner rest => simp [Token.print]

/-- What the code scans is what the variation walks over. -/
theorem scan_walk {token : Token} {opens : List Nat} {group : Nat} {buffer tail : Text}
    (nested : (group :: opens).Pairwise (· > ·)) (inside : group + token.marks < totalVari)
    (room : buffer.length + token.longest.length ≤ ayMaxIdentSize)
    (unmarked : tail.head? ≠ some '?') :
    ayPatternIdentifierQmScan totalVari vari (token.print ++ tail) (flagOf opens) group buffer =
      (walk vari token opens group).elim (some []) fun walked =>
        ayPatternIdentifierQmScan totalVari vari tail (flagOf opens) walked.1
          (buffer ++ walked.2) := by
  induction token generalizing opens group buffer tail with
  | nil => simp [Token.print, walk]
  | plain char rest inductionHypothesis =>
      simp only [Token.marks, Token.longest, List.length_cons] at inside room
      rw [Token.print, List.cons_append,
        scan_plain vari totalVari nested (by omega) (by omega) char.2 (print_head unmarked), walk]
      split
      · exact inductionHypothesis nested inside (by omega) unmarked
      · split
        · have longer : (buffer ++ [char.1]).length + rest.longest.length ≤ ayMaxIdentSize := by
            simp only [List.length_append, List.length_singleton]
            omega
          rw [inductionHypothesis nested inside longer unmarked]
          cases walk vari rest opens group with
          | none => rfl
          | some walked => simp
        · rfl
  | maybe char rest inductionHypothesis =>
      simp only [Token.marks, Token.longest, List.length_cons] at inside room
      have deeper : ((group + 1) :: opens).Pairwise (· > ·) := by
        rw [List.pairwise_cons] at nested ⊢
        exact ⟨fun j member => Nat.lt_succ_of_lt (nested.1 j member), nested.2⟩
      rw [Token.print, List.cons_append, List.cons_append,
        scan_maybe vari totalVari nested (by omega) (by omega) char.2 (print_head unmarked), walk]
      split
      · exact inductionHypothesis deeper (by omega) (by omega) unmarked
      · split
        · exact inductionHypothesis nested (by omega) (by omega) unmarked
        · split
          · have longer : (buffer ++ [char.1]).length + rest.longest.length ≤ ayMaxIdentSize := by
              simp only [List.length_append, List.length_singleton]
              omega
            rw [inductionHypothesis deeper (by omega) longer unmarked]
            cases walk vari rest opens (group + 1) with
            | none => rfl
            | some walked => simp
          · rfl
  | group inner rest ofInner ofRest =>
      simp only [Token.marks, Token.longest, List.length_append] at inside room
      have deeper : ((group + 1) :: group :: opens).Pairwise (· > ·) := by
        rw [List.pairwise_cons]
        refine ⟨?_, nested⟩
        intro j member
        obtain rfl | member := List.mem_cons.mp member
        · exact Nat.lt_succ_self j
        · exact Nat.lt_succ_of_lt ((List.pairwise_cons.mp nested).1 j member)
      rw [Token.print, List.cons_append, List.append_assoc, scan_open vari totalVari (by omega),
        ofInner deeper (by omega) (by omega) (by simp), walk]
      cases walkedInner : walk vari inner (group :: opens) (group + 1) with
      | none => rfl
      | some first =>
          have size := walk_size vari walkedInner
          have behind : (first.1 :: opens).Pairwise (· > ·) := by
            rw [List.pairwise_cons] at nested ⊢
            exact ⟨fun j member => (nested.1 j member).trans (by omega), nested.2⟩
          simp only [Option.elim_some, Option.bind_some, List.cons_append]
          have longer : (buffer ++ first.2).length + rest.longest.length ≤ ayMaxIdentSize := by
            simp only [List.length_append]
            omega
          rw [scan_close vari totalVari nested (by omega), ofRest behind (by omega) longer unmarked]
          cases walk vari rest opens first.1 with
          | none => rfl
          | some walked => simp

end Walk

/-! ### The identifiers of a token -/

/-- What a variation puts into the buffer. -/
def buffered (token : Token) (vari : Bitset) : Text := ((walk vari token [] 0).map Prod.snd).getD []

theorem count_print (token : Token) : ayPatternIdentifierQmCount token.print = token.marks := by
  unfold ayPatternIdentifierQmCount
  induction token with
  | nil => rfl
  | plain char rest inductionHypothesis =>
      rw [Token.print, List.count_cons_of_ne (plain_ne char.2).2.2, inductionHypothesis,
        Token.marks]
  | maybe char rest inductionHypothesis =>
      rw [Token.print, List.count_cons_of_ne (plain_ne char.2).2.2, List.count_cons_self,
        inductionHypothesis, Token.marks]
  | group inner rest ofInner ofRest =>
      rw [Token.print, List.count_cons_of_ne (by decide), List.count_append,
        List.count_cons_of_ne (by decide), List.count_cons_self, ofInner, ofRest, Token.marks]
      omega

theorem buffered_mem (token : Token) (vari : Bitset) :
    buffered token vari ∈ token.language ∨ buffered token vari = [] := by
  unfold buffered
  cases walked : walk vari token [] 0 with
  | none => exact Or.inr rfl
  | some result => exact Or.inl ((walk_sound vari walked).1 rfl)

theorem exists_variation {token : Token} {word : Text} (member : word ∈ token.language) :
    ∃ number < 2 ^ token.marks,
      buffered token (ayBitsetCreateFromUint64 (2 ^ token.marks) number) = word := by
  obtain ⟨bits, size, written⟩ := walk_complete member
  refine ⟨Nat.ofBits fun i : Fin bits.length => bits[i], ?_, ?_⟩
  · rw [← size]
    exact Nat.ofBits_lt_two_pow _
  · rw [buffered, written _ [] 0 rfl]
    · rfl
    · apply shows_of_get
      intro i inside
      have small : i < 2 ^ token.marks := by
        rw [← size]
        exact inside.trans Nat.lt_two_pow_self
      simp [ayBitsetCreateFromUint64, inside, small]

/-- The identifiers stored over all variations are the words of the token. -/
theorem ayPatternIdentifierQm_words (token : Token) (few : token.marks ≤ 5)
    (short : ∀ word ∈ token.language, word.length < ayMaxIdentSize) :
    ∃ idents, ayPatternIdentifierQm token.print [] = some idents ∧
      ∀ word, word ∈ idents ↔ word ∈ token.language ∧ word ≠ [] := by
  have total : ayPatternIdentifierQmVariations token.print = 2 ^ token.marks := by
    rw [ayPatternIdentifierQmVariations, count_print]
  have bound : 2 ^ token.marks ≤ 2 ^ 5 := Nat.pow_le_pow_right (by decide) few
  have scanned : ∀ number, ayPatternIdentifierQmScan (2 ^ token.marks)
      (ayBitsetCreateFromUint64 (2 ^ token.marks) number) token.print ayBitsetClear 0 [] =
        pure (buffered token (ayBitsetCreateFromUint64 (2 ^ token.marks) number)) := by
    intro number
    have cleared : ayBitsetClear = flagOf [] := rfl
    have room : ([] : Text).length + token.longest.length ≤ ayMaxIdentSize := by
      simpa using (short _ token.longest_mem).le
    have groups : 0 + token.marks < 2 ^ token.marks := by
      rw [Nat.zero_add]
      exact Nat.lt_two_pow_self
    have walked := @scan_walk (ayBitsetCreateFromUint64 (2 ^ token.marks) number)
      (2 ^ token.marks) token [] 0 [] [] (List.pairwise_singleton _ _) groups room (by simp)
    rw [List.append_nil] at walked
    rw [cleared, walked, buffered]
    cases walk (ayBitsetCreateFromUint64 (2 ^ token.marks) number) token [] 0 with
    | none => rfl
    | some result => simp [ayPatternIdentifierQmScan]
  have stored : ayPatternIdentifierQm token.print [] =
      some (((List.range (2 ^ token.marks)).map fun number =>
        buffered token (ayBitsetCreateFromUint64 (2 ^ token.marks) number)).foldl
          ayPatternIdentifierAdd []) := by
    have small : ¬ 63 < 2 ^ token.marks := by omega
    rw [ayPatternIdentifierQm, total]
    simp only [scanned, List.mapM_pure, if_neg small]
    rfl
  refine ⟨_, stored, ?_⟩
  intro word
  rw [mem_foldl_identifierAdd]
  · simp only [List.not_mem_nil, false_or, List.mem_map, List.mem_range]
    constructor
    · rintro ⟨⟨number, _, rfl⟩, nonempty⟩
      exact ⟨(buffered_mem token _).resolve_right nonempty, nonempty⟩
    · rintro ⟨member, nonempty⟩
      exact ⟨exists_variation member, nonempty⟩
  · intro buffer member bracket
    obtain ⟨number, _, rfl⟩ := List.mem_map.mp member
    obtain inLanguage | empty := buffered_mem token
      (ayBitsetCreateFromUint64 (2 ^ token.marks) number)
    · exact absurd (Token.plain_of_mem inLanguage '[' bracket) (by decide)
    · rw [empty] at bracket
      cases bracket

/-- `ab(c(d)?)?e?` -/
def nestedToken : Token :=
  .plain ⟨'a', rfl⟩ (.plain ⟨'b', rfl⟩ (.group
    (.plain ⟨'c', rfl⟩ (.group (.plain ⟨'d', rfl⟩ .nil) .nil)) (.maybe ⟨'e', rfl⟩ .nil)))

example : (ayPatternIdentifierQm nestedToken.print []).map (·.map String.ofList) =
    some ["ab", "abc", "abcd", "abe", "abce", "abcde"] := by decide +kernel

theorem ayPatternIdentifierQm_words_nested :
    ∃ idents, ayPatternIdentifierQm nestedToken.print [] = some idents ∧
      ∀ word, word ∈ idents ↔ word ∈ nestedToken.language ∧ word ≠ [] := by
  apply ayPatternIdentifierQm_words nestedToken
  · decide
  · intro word member
    exact (Token.length_le member).trans_lt (by decide)

end SysrepoAugeas.Pattern
