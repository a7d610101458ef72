import SysrepoAugeas.Label.Path

/-!
# Bitsets and identifiers of a pattern

A bitset is an array with one bit in every byte.  The functions that derive
identifiers from a key pattern add them to the record of the pattern.
-/

namespace SysrepoAugeas.Pattern

open SysrepoAugeas.Label (Text)

/-- `AY_MAX_IDENT_SIZE` -/
def ayMaxIdentSize : Nat := 64

abbrev Bitset := Nat → Bool

/-- `ay_bitset_is_zero` -/
def ayBitsetIsZero (bitset : Bitset) (size : Nat) : Bool := (List.range size).all fun i => !bitset i

/-- `ay_bitset_msb` -/
def ayBitsetMsb (bitset : Bitset) : Nat → Nat
  | 0 => 0
  | i + 1 => if bitset i then i + 1 else ayBitsetMsb bitset i

def Bitset.put (bitset : Bitset) (position : Nat) (bit : Bool) : Bitset := fun other =>
  if other = position then bit else bitset other

/-- `ay_bitset_clear` -/
def ayBitsetClear : Bitset := fun _ => false

/-- `ay_bitset_clear_msb` -/
def ayBitsetClearMsb (bitset : Bitset) (size : Nat) : Option Bitset :=
  if ayBitsetMsb bitset size = 0 then none
  else some (bitset.put (ayBitsetMsb bitset size - 1) false)

/-- `ay_bitset_create_from_uint64`; sizes are at most 32. -/
def ayBitsetCreateFromUint64 (size number : Nat) : Bitset := fun i => i < size && number.testBit i

/-- `ay_ident_character_nocase` -/
def ayIdentCharacterNocase : Text → Bool
  | '[' :: upper :: lower :: ']' :: _ => upper.isUpper && lower.isLower && upper == lower.toUpper
  | _ => false

/-- `ay_ident_pattern_is_valid` with a shift of 3. -/
def ayIdentPatternIsValid (str : Text) : Bool :=
  ['[', ' ', ']', '+'].isPrefixOf str || ayIdentCharacterNocase str

/-- `ay_trans_substr_conversion`; what is behind the new end is not looked at. -/
def ayTransSubstrConversion : Text → Text
  | [] => []
  | char :: rest =>
      if ayIdentPatternIsValid (char :: rest) then ' ' :: ayTransSubstrConversion (rest.drop 3)
      else char :: ayTransSubstrConversion rest
termination_by substr => substr.length
decreasing_by all_goals simp only [List.length_cons, List.length_drop]; omega

/-- `ay_pattern_identifier_add` -/
def ayPatternIdentifierAdd (idents : List Text) (buffer : Text) : List Text :=
  if buffer = [] then idents else idents ++ [ayTransSubstrConversion buffer]

/-- Without brackets there is nothing to convert. -/
theorem ayTransSubstrConversion_eq {substr : Text} (noBracket : '[' ∉ substr) :
    ayTransSubstrConversion substr = substr := by
  induction substr with
  | nil => rw [ayTransSubstrConversion]
  | cons char rest inductionHypothesis =>
      have differs : char ≠ '[' := fun same => noBracket (same ▸ List.mem_cons_self)
      have invalid : ayIdentPatternIsValid (char :: rest) = false := by
        have notSpace : ['[', ' ', ']', '+'].isPrefixOf (char :: rest) = false := by
          simp [List.isPrefixOf, Ne.symm differs]
        have notNocase : ayIdentCharacterNocase (char :: rest) = false := by
          unfold ayIdentCharacterNocase
          split
          · rename_i same
            exact absurd (List.cons.inj same).1 differs
          · rfl
        rw [ayIdentPatternIsValid, notSpace, notNocase]
        rfl
      rw [ayTransSubstrConversion, invalid,
        inductionHypothesis fun member => noBracket (List.mem_cons_of_mem _ member)]
      rfl

/-- What is added for a sequence of buffers without brackets. -/
theorem mem_foldl_identifierAdd {buffers : List Text} (noBracket : ∀ buffer ∈ buffers, '[' ∉ buffer)
    (idents : List Text) (word : Text) :
    word ∈ buffers.foldl ayPatternIdentifierAdd idents ↔
      word ∈ idents ∨ word ∈ buffers ∧ word ≠ [] := by
  induction buffers generalizing idents with
  | nil => simp
  | cons buffer buffers inductionHypothesis =>
      have ofRest := inductionHypothesis
        (fun other member => noBracket other (List.mem_cons_of_mem _ member))
        (ayPatternIdentifierAdd idents buffer)
      rw [List.foldl_cons, ofRest, ayPatternIdentifierAdd,
        ayTransSubstrConversion_eq (noBracket buffer List.mem_cons_self)]
      split
      · rename_i empty
        rw [empty, List.mem_cons]
        constructor
        · rintro (old | ⟨new, nonempty⟩)
          · exact Or.inl old
          · exact Or.inr ⟨Or.inr new, nonempty⟩
        · rintro (old | ⟨rfl | new, nonempty⟩)
          · exact Or.inl old
          · exact absurd rfl nonempty
          · exact Or.inr ⟨new, nonempty⟩
      · rename_i nonempty
        rw [List.mem_append, List.mem_singleton, List.mem_cons]
        constructor
        · rintro ((old | rfl) | ⟨new, isWord⟩)
          · exact Or.inl old
          · exact Or.inr ⟨Or.inl rfl, nonempty⟩
          · exact Or.inr ⟨Or.inr new, isWord⟩
        · rintro (old | ⟨rfl | new, isWord⟩)
          · exact Or.inl (Or.inl old)
          · exact Or.inl (Or.inr rfl)
          · exact Or.inr ⟨new, isWord⟩

end SysrepoAugeas.Pattern
