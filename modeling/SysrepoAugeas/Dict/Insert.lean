import SysrepoAugeas.Data.Rank
import SysrepoAugeas.Dict.Blocks

/-!
# Inserting into the dictionary

Each way through `ay_dnode_insert` is given as an operation on blocks.  The
value of a key that is not the last one would need its gap to be opened by
items, but the bytes are too few; this, a value that is stored under another
key, and a known key as value of an unknown one are what `insertSafe` excludes.
-/

namespace SysrepoAugeas.Dict

open SysrepoAugeas.Data

/-- What one insertion keeps of the dictionary and what it adds. -/
structure InsertKeeps (equal : Kvd → Kvd → Bool) (before : Dictionary) (key value : Kvd)
    (after : Dictionary) : Prop where
  /-- Other blocks are unchanged, except for one that is merged. -/
  kept : ∀ block ∈ before.blocks, block.key ≠ key →
    block ∈ after.blocks ∨ (block.key = value ∧
      ∃ target ∈ after.blocks, target.key = key ∧ block.items ⊆ target.values)
  extended : ∀ block ∈ before.blocks, block.key = key →
    ∃ target ∈ after.blocks, target.key = key ∧ block.values <+: target.values
  nothingElse : ∀ block ∈ after.blocks, block.key ≠ key → block ∈ before.blocks
  found : (∃ target ∈ after.blocks, target.key = key ∧ value ∈ target.values) ∨
    equal key value = true ∨
    (∃ block ∈ before.blocks, block.key = key ∧ ∃ item ∈ block.values, equal item value = true) ∨
    ∃ block ∈ before.blocks, key ∈ block.values

/-- The values of a key end where the array ends. -/
def isLastKey (dict : DnodeArray) (dkey : Nat) : Bool :=
  match dict.cells[dkey]? with
  | some dnode => dkey + dnode.valuesCount.toNat + 1 == dict.count
  | none => false

/-- The pair is refused, or the value is new and belongs to a new or the last key, or the
value is a key itself and its key is known. -/
def insertSafe (equal : Kvd → Kvd → Bool) (dict : DnodeArray) (key value : Kvd) : Bool :=
  insertRefused equal dict key value == some true ||
    match ayDnodeFind dict key, ayDnodeFind dict value with
    | some dkey, none => isLastKey dict dkey
    | some _, some dval => foundKey dict (some dval)
    | none, none => true
    | none, some _ => false

section Cases

variable {equal : Kvd → Kvd → Bool} {dictionary : Dictionary} {dict : DnodeArray}
  {front back : List Block} {block : Block} {key value : Kvd}

/-- A key that is stored as a value takes no values. -/
theorem Stored.insertRefused_value (stored : Stored dictionary dict)
    (split : dictionary.blocks = front ++ block :: back) (membership : key ∈ block.values) :
    insertRefused equal dict key value = some true := by
  obtain ⟨index, found, cell⟩ := stored.find_value split membership
  simp [insertRefused, found, cell, Dnode.isVal, valueDnode]

theorem valueIsUnique_encode (block : Block) :
    (!ayDnodeValueIsUnique equal block.encode value) =
      block.items.any fun item => equal item value := by
  simp [ayDnodeValueIsUnique, Block.encode, Block.items, valueDnode, List.any_eq_not_all_not,
    Function.comp_def]

theorem Dictionary.length_ne_zero {dictionary : Dictionary}
    (split : dictionary.blocks = front ++ block :: back) : block.values.length ≠ 0 := by
  have nonempty := dictionary.nonempty block (by simp [split])
  simpa using nonempty

/-- A known key refuses what is equal to it or to one of its values. -/
theorem Stored.insertRefused_key (stored : Stored dictionary dict)
    (split : dictionary.blocks = front ++ block :: back) :
    insertRefused equal dict block.key value =
      some (block.items.any fun item => equal item value) := by
  have positive := Dictionary.length_ne_zero split
  simp only [insertRefused, stored.find_key split, stored.getElem_key split,
    stored.keyValues_key split, Option.bind_eq_bind, Option.bind_some, Dnode.isVal,
    stored.encode_head_valuesCount split, beq_iff_eq, positive, if_false, valueIsUnique_encode]

theorem Stored.insertRefused_unknown (stored : Stored dictionary dict)
    (unknown : key ∉ dictionary.items) :
    insertRefused equal dict key value =
      some ((ayDnodeFind dict value).isNone && equal key value) := by
  simp [insertRefused, stored.find_eq_none_iff.mpr unknown]

theorem Stored.foundKey_key (stored : Stored dictionary dict)
    (split : dictionary.blocks = front ++ block :: back) :
    foundKey dict (ayDnodeFind dict block.key) = true := by
  have positive := Dictionary.length_ne_zero split
  simp only [foundKey, stored.find_key split, stored.getElem_key split, Option.bind_some,
    Dnode.isKey, stored.encode_head_valuesCount split, decide_eq_true_eq]
  omega

theorem Stored.foundKey_value (stored : Stored dictionary dict)
    (split : dictionary.blocks = front ++ block :: back) (membership : value ∈ block.values) :
    foundKey dict (ayDnodeFind dict value) = false := by
  obtain ⟨index, found, cell⟩ := stored.find_value split membership
  simp [foundKey, found, cell, Dnode.isKey, valueDnode]

/-- A value for the last key: nothing has to be moved. -/
theorem Stored.insertValue_last (stored : Stored dictionary dict)
    (split : dictionary.blocks = front ++ [block]) (room : dict.count < dict.cells.length) :
    ∃ free, dict.cells.length = dict.count + 1 + free ∧
      insertValue dict (front.flatMap Block.items).length value =
      some ⟨(front ++ [Block.mk block.key (block.values ++ [value])]).flatMap Block.encode ++
        List.replicate free Dnode.zero, dict.count + 1⟩ := by
  have splitCons : dictionary.blocks = front ++ block :: [] := split
  obtain ⟨free, cells⟩ := stored.cells
  have count : dict.count = (front.flatMap Block.items).length + block.values.length + 1 := by
    simp [stored.count, Dictionary.items, split, Block.items]
    omega
  cases free with
  | zero =>
      rw [cells, stored.count] at room
      simp [Dictionary.items] at room
  | succ free =>
      refine ⟨free, by simp [cells, stored.count, Dictionary.items]; omega, ?_⟩
      have gapSplit : dict.cells = (front ++ [block]).flatMap Block.encode ++
          Dnode.zero :: List.replicate free Dnode.zero := by
        rw [cells, split, List.replicate_succ]
      have gapLength : (front.flatMap Block.items).length + block.values.length + 1 =
          ((front ++ [block]).flatMap Block.encode).length := by
        simp [Block.items]
        omega
      have keySplit : ∀ rest : List Dnode, (front ++ [block]).flatMap Block.encode ++ rest =
          front.flatMap Block.encode ++ ⟨BitVec.ofNat 32 block.values.length, 0, block.key⟩ ::
            (block.values.map valueDnode ++ rest) := by
        simp [Block.encode]
      simp only [insertValue, stored.getElem_key splitCons, Option.bind_eq_bind,
        Option.bind_some, stored.encode_head_valuesCount splitCons, ← count, Nat.le_refl, room,
        and_self, if_true, Nat.sub_self, memmove_zero, dnodesOfBytes_flatMap]
      rw [count, gapLength, gapSplit, modify_split, keySplit, ← length_flatMap_encode,
        modify_split]
      simp [Block.encode, valueDnode, Dnode.zero, BitVec.ofNat_add]

/-- A new pair goes to the end. -/
theorem Stored.insertPair_end (stored : Stored dictionary dict)
    (room : dict.count + 1 < dict.cells.length) :
    ∃ free, dict.cells.length = dict.count + 2 + free ∧ insertPair dict key value =
      some ⟨(dictionary.blocks ++ [Block.mk key [value]]).flatMap Block.encode ++
        List.replicate free Dnode.zero, dict.count + 2⟩ := by
  obtain ⟨free, cells⟩ := stored.cells
  have enough : 2 ≤ free := by
    rw [cells, stored.count] at room
    simp only [Dictionary.items, List.length_append, length_flatMap_encode,
      List.length_replicate] at room
    omega
  obtain ⟨free, rfl⟩ := Nat.exists_eq_add_of_le' enough
  refine ⟨free, by simp [cells, stored.count, Dictionary.items]; omega, ?_⟩
  have countEq : dict.count = (dictionary.blocks.flatMap Block.encode).length := by
    simp [stored.count, Dictionary.items]
  have regroup : ∀ first second : Dnode, dictionary.blocks.flatMap Block.encode ++
      first :: second :: List.replicate free Dnode.zero =
        (dictionary.blocks.flatMap Block.encode ++ [first]) ++
          second :: List.replicate free Dnode.zero := by simp
  simp only [insertPair, room, if_true]
  rw [cells, countEq, List.replicate_succ, List.replicate_succ, modify_split, regroup]
  have nextLength : ∀ first : Dnode, (dictionary.blocks.flatMap Block.encode).length + 1 =
      (dictionary.blocks.flatMap Block.encode ++ [first]).length := by simp
  rw [nextLength, modify_split]
  simp [Block.encode, valueDnode, Dnode.zero]

end Cases

section Merge

/-! Merging puts both keys first and copies the rest of the array around them. -/

theorem copyOthers_skip (key1 key2 index : Nat) (skipped rest : List Dnode) :
    copyOthers key1 key2 index skipped.length (skipped ++ rest) =
      copyOthers key1 key2 (index + skipped.length) 0 rest := by
  induction skipped generalizing index with
  | nil => rfl
  | cons head tail inductionHypothesis =>
      simp only [List.cons_append, List.length_cons, copyOthers, inductionHypothesis]
      congr 1
      omega

theorem copyOthers_keep (key1 key2 index : Nat) (kept rest : List Dnode)
    (outside : ∀ place < kept.length, index + place ≠ key1 ∧ index + place ≠ key2) :
    copyOthers key1 key2 index 0 (kept ++ rest) =
      (kept ++ (copyOthers key1 key2 (index + kept.length) 0 rest).1,
        (copyOthers key1 key2 (index + kept.length) 0 rest).2) := by
  induction kept generalizing index with
  | nil => simp
  | cons head tail inductionHypothesis =>
      have notHere : ¬ (index = key1 ∨ index = key2) := by
        have := outside 0 (by simp)
        omega
      have next := inductionHypothesis (index + 1) fun place bound => by
        have := outside (place + 1) (by simpa using bound)
        omega
      have shifted : index + 1 + tail.length = index + (tail.length + 1) := by omega
      simp only [List.cons_append, copyOthers, notHere, if_false, next, List.length_cons, shifted]

theorem copyOthers_block {key1 key2 index : Nat} (block : Block) (rest : List Dnode)
    (small : block.values.length < 2 ^ 32) (chosen : index = key1 ∨ index = key2) :
    copyOthers key1 key2 index 0 (block.encode ++ rest) =
      copyOthers key1 key2 (index + block.encode.length) 0 rest := by
  have skipped := copyOthers_skip key1 key2 (index + 1) (block.values.map valueDnode) rest
  have count : (BitVec.ofNat 32 block.values.length).toNat = block.values.length := by
    simpa using Nat.mod_eq_of_lt small
  simp only [List.length_map] at skipped
  simp only [Block.encode, List.cons_append, copyOthers, chosen, if_true, count, skipped,
    List.length_cons, List.length_map]
  congr 1
  omega

/-- Two skipped keys, in whichever order they are given. -/
theorem copyOthers_two {key1 key2 : Nat} {left middle right : List Block} {first second : Block}
    (firstSmall : first.values.length < 2 ^ 32) (secondSmall : second.values.length < 2 ^ 32)
    (chosen : (key1 = (left.flatMap Block.encode).length ∧
        key2 = ((left ++ first :: middle).flatMap Block.encode).length) ∨
      (key2 = (left.flatMap Block.encode).length ∧
        key1 = ((left ++ first :: middle).flatMap Block.encode).length)) :
    copyOthers key1 key2 0 0 ((left ++ first :: (middle ++ second :: right)).flatMap Block.encode) =
      ((left ++ (middle ++ right)).flatMap Block.encode, 0) := by
  have positive : 0 < first.encode.length := by simp [Block.encode]
  have positiveSecond : 0 < second.encode.length := by simp [Block.encode]
  simp only [List.flatMap_append, List.flatMap_cons, List.length_append] at chosen ⊢
  rw [copyOthers_keep key1 key2 0 (left.flatMap Block.encode) _ (by
      intro place bound
      omega)]
  rw [copyOthers_block first _ firstSmall (by omega)]
  rw [copyOthers_keep key1 key2 _ (middle.flatMap Block.encode) _ (by
      intro place bound
      omega)]
  rw [copyOthers_block second _ secondSmall (by omega)]
  have last := copyOthers_keep key1 key2 (0 + (left.flatMap Block.encode).length +
    first.encode.length + (middle.flatMap Block.encode).length + second.encode.length)
    (right.flatMap Block.encode) [] (by
      intro place bound
      omega)
  rw [List.append_nil] at last
  rw [last]
  simp [copyOthers]

variable {dictionary : Dictionary} {dict : DnodeArray} {target source : Block}

/-- Block that holds two keys after merging. -/
def Block.merge (target source : Block) : Block := ⟨target.key, target.values ++ source.items⟩

theorem encode_merge (target source : Block) :
    (⟨BitVec.ofNat 32 target.values.length + (BitVec.ofNat 32 source.values.length + 1), 0,
        target.key⟩ :: (target.values.map valueDnode ++
          (⟨0, 0, source.key⟩ :: source.values.map valueDnode)) : List Dnode) =
      (target.merge source).encode := by
  simp [Block.merge, Block.encode, Block.items, valueDnode, BitVec.ofNat_add]

/-- Merging two keys of the dictionary. -/
theorem Stored.mergeKeys_eq (stored : Stored dictionary dict)
    {frontT backT frontS backS others : List Block}
    (splitT : dictionary.blocks = frontT ++ target :: backT)
    (splitS : dictionary.blocks = frontS ++ source :: backS)
    (copied : copyOthers (frontT.flatMap Block.items).length (frontS.flatMap Block.items).length
      0 0 (dictionary.blocks.flatMap Block.encode) = (others.flatMap Block.encode, 0))
    (permuted : dictionary.blocks.Perm (target :: source :: others)) :
    ayDnodeMergeKeys dict (frontT.flatMap Block.items).length
        (frontS.flatMap Block.items).length =
      some { dict with cells := (target.merge source :: others).flatMap Block.encode ++
        dict.cells.drop dict.count } := by
  have distinct : ((target :: source :: others).flatMap Block.items).Nodup :=
    (permuted.flatMap_right Block.items).nodup_iff.mp dictionary.distinct
  have noneShared : (source.values.map valueDnode).any (fun item2 =>
      (target.values.map valueDnode).any fun item1 => item1.kvd == item2.kvd) = false := by
    simp only [List.flatMap_cons] at distinct
    have apart := (List.nodup_append.mp distinct).2.2
    simp only [List.any_map, List.any_eq_false, Function.comp_apply, valueDnode]
    intro value inSource sharedAny
    obtain ⟨other, inTarget, same⟩ := List.any_eq_true.mp sharedAny
    refine apart other (by simp [Block.items, inTarget]) value (by simp [Block.items, inSource]) ?_
    simpa [valueDnode] using same
  have length : ((target.merge source).encode ++ others.flatMap Block.encode).length =
      dict.count := by
    have permutedLength := (permuted.flatMap_right Block.items).length_eq
    rw [stored.count, Dictionary.items, permutedLength]
    simp [Block.merge, Block.items]
    omega
  rw [ayDnodeMergeKeys, stored.keyValues_key splitT, stored.keyValues_key splitS]
  simp only [Option.bind_eq_bind, Option.bind_some, Block.encode, List.head?_cons, List.tail_cons,
    noneShared, Bool.false_eq_true, if_false, stored.take_count]
  simp only [encode_merge, copied, length, and_self, if_true, List.flatMap_cons]

end Merge

section Step

variable {equal : Kvd → Kvd → Bool} {dictionary : Dictionary} {dict : DnodeArray}
  {key value : Kvd}

/-- A refused pair changes nothing, for one of the reasons given. -/
theorem Stored.insertKeeps_refused (stored : Stored dictionary dict)
    (refused : insertRefused equal dict key value = some true) :
    InsertKeeps equal dictionary key value dictionary where
  kept block membership _ := .inl membership
  extended block membership sameKey := ⟨block, membership, sameKey, List.prefix_refl _⟩
  nothingElse block membership _ := membership
  found := by
    by_cases known : key ∈ dictionary.items
    · obtain ⟨front, block, back, split, rfl | inValues⟩ := Dictionary.mem_items_cases known
      · rw [stored.insertRefused_key split, Option.some.injEq, List.any_eq_true] at refused
        obtain ⟨item, itemIn, same⟩ := refused
        have blockIn : block ∈ dictionary.blocks := by simp [split]
        rcases List.mem_cons.mp itemIn with rfl | inValues
        · exact .inr (.inl same)
        · exact .inr (.inr (.inl ⟨block, blockIn, rfl, item, inValues, same⟩))
      · exact .inr (.inr (.inr ⟨block, by simp [split], inValues⟩))
    · rw [stored.insertRefused_unknown known, Option.some.injEq, Bool.and_eq_true] at refused
      exact .inr (.inl refused.2)

/-- A new key with its first value. -/
theorem Stored.insert_pair (stored : Stored dictionary dict)
    (room : dict.count + 2 ≤ dict.cells.length) (bound : dict.count + 2 ≤ 2 ^ 32)
    (unknown : key ∉ dictionary.items) (fresh : value ∉ dictionary.items)
    (different : key ≠ value) :
    ∃ next after, insertPair dict key value = some next ∧ Stored after next ∧
      InsertKeeps equal dictionary key value after ∧
      next.cells.length = dict.cells.length ∧ next.count ≤ dict.count + 2 := by
  obtain ⟨free, length, inserted⟩ := @Stored.insertPair_end _ _ key value stored room
  have distinct : ((dictionary.blocks ++ [Block.mk key [value]]).flatMap Block.items).Nodup := by
    simp only [List.flatMap_append, List.flatMap_cons, List.flatMap_nil, Block.items,
      List.append_nil]
    refine List.Nodup.append dictionary.distinct (by simpa using different) ?_
    exact List.disjoint_cons_right.mpr ⟨unknown, List.disjoint_singleton.mpr fresh⟩
  let after : Dictionary := ⟨dictionary.blocks ++ [Block.mk key [value]], by
    intro block membership
    rcases List.mem_append.mp membership with old | new
    · exact dictionary.nonempty block old
    · obtain rfl := List.mem_singleton.mp new
      simp, distinct⟩
  have newCount : dict.count + 2 = after.items.length := by
    simp [after, stored.count, Dictionary.items, Block.items]
  refine ⟨_, after, inserted, ⟨newCount, ⟨free, rfl⟩, newCount ▸ bound⟩, ?_, ?_, Nat.le_refl _⟩
  · refine ⟨fun block membership _ => .inl (List.mem_append_left _ membership), ?_, ?_, ?_⟩
    · rintro block membership rfl
      exact absurd (List.mem_flatMap.mpr ⟨block, membership, by simp [Block.items]⟩) unknown
    · intro block membership otherKey
      rcases List.mem_append.mp membership with old | new
      · exact old
      · exact absurd (congrArg Block.key (List.mem_singleton.mp new)) otherKey
    · exact .inl ⟨⟨key, [value]⟩, by simp [after], rfl, by simp⟩
  · rw [length, newCount]
    simp only [List.length_append, length_flatMap_encode, List.length_replicate]
    rfl

/-- One more value for the last key. -/
theorem Stored.insert_value (stored : Stored dictionary dict) {front : List Block} {block : Block}
    (split : dictionary.blocks = front ++ [block])
    (room : dict.count + 2 ≤ dict.cells.length) (bound : dict.count + 2 ≤ 2 ^ 32)
    (fresh : value ∉ dictionary.items) :
    ∃ next after, insertValue dict (front.flatMap Block.items).length value = some next ∧
      Stored after next ∧ InsertKeeps equal dictionary block.key value after ∧
      next.cells.length = dict.cells.length ∧ next.count ≤ dict.count + 2 := by
  obtain ⟨free, length, inserted⟩ := @Stored.insertValue_last _ _ _ _ value stored split
      (by omega)
  have items : (front ++ [Block.mk block.key (block.values ++ [value])]).flatMap Block.items =
      dictionary.items ++ [value] := by
    simp [Dictionary.items, split, Block.items]
  let after : Dictionary := ⟨front ++ [Block.mk block.key (block.values ++ [value])], by
    intro other membership
    rcases List.mem_append.mp membership with old | new
    · exact dictionary.nonempty other (by simp [split, old])
    · obtain rfl := List.mem_singleton.mp new
      simp, by
    rw [items]
    exact List.Nodup.append dictionary.distinct (by simp)
      (List.disjoint_singleton.mpr fresh)⟩
  have newCount : dict.count + 1 = after.items.length := by
    rw [Dictionary.items, items, stored.count]
    simp
  refine ⟨_, after, inserted, ⟨newCount, ⟨free, rfl⟩, by omega⟩, ?_, ?_, by simp⟩
  · refine ⟨?_, ?_, ?_, ?_⟩
    · intro other membership otherKey
      rw [split] at membership
      rcases List.mem_append.mp membership with inFront | new
      · exact .inl (List.mem_append_left _ inFront)
      · exact absurd (congrArg Block.key (List.mem_singleton.mp new)) otherKey
    · intro other membership sameKey
      obtain rfl : other = block := dictionary.eq_of_key membership (by simp [split]) sameKey
      exact ⟨⟨other.key, other.values ++ [value]⟩, by simp [after], rfl, List.prefix_append _ _⟩
    · intro other membership otherKey
      rcases List.mem_append.mp membership with inFront | new
      · simp [split, inFront]
      · exact absurd (congrArg Block.key (List.mem_singleton.mp new)) otherKey
    · exact .inl ⟨⟨block.key, block.values ++ [value]⟩, by simp [after], rfl, by simp⟩
  · rw [length, newCount]
    simp only [List.length_append, length_flatMap_encode, List.length_replicate]
    rfl

theorem Dictionary.keys_nodup (dictionary : Dictionary) :
    (dictionary.blocks.map Block.key).Nodup := by
  obtain ⟨blocks, nonempty, distinct⟩ := dictionary
  dsimp only
  clear nonempty
  induction blocks with
  | nil => exact List.nodup_nil
  | cons block blocks inductionHypothesis =>
      rw [List.flatMap_cons] at distinct
      obtain ⟨-, ofBlocks, apart⟩ := List.nodup_append.mp distinct
      rw [List.map_cons, List.nodup_cons]
      refine ⟨?_, inductionHypothesis ofBlocks⟩
      intro again
      obtain ⟨other, member, sameKey⟩ := List.mem_map.mp again
      apply apart block.key List.mem_cons_self other.key _ sameKey.symm
      exact List.mem_flatMap.mpr ⟨other, member, List.mem_cons_self⟩

/-- The blocks of all other keys. -/
def Dictionary.others (dictionary : Dictionary) (target source : Block) : List Block :=
  dictionary.blocks.filter fun block => block.key != target.key && block.key != source.key

theorem Dictionary.others_eq (dictionary : Dictionary) {left middle right : List Block}
    {first second : Block}
    (split : dictionary.blocks = left ++ first :: (middle ++ second :: right)) :
    dictionary.others first second = left ++ (middle ++ right) ∧
      dictionary.others second first = left ++ (middle ++ right) := by
  have distinct := dictionary.keys_nodup
  rw [split] at distinct
  simp only [List.map_append, List.map_cons, List.nodup_append, List.nodup_cons, List.mem_append,
    List.mem_cons, List.mem_map] at distinct
  have kept : ∀ block ∈ left ++ (middle ++ right),
      block.key ≠ first.key ∧ block.key ≠ second.key := by
    simp only [List.mem_append]
    rintro block (inLeft | inMiddle | inRight) <;> constructor <;> intro sameKey
    all_goals grind
  have selfFiltered : ∀ blocks : List Block, blocks ⊆ left ++ (middle ++ right) →
      blocks.filter (fun block => block.key != first.key && block.key != second.key) = blocks := by
    intro blocks inside
    apply List.filter_eq_self.mpr
    intro block member
    simp [kept block (inside member)]
  have ofFirst : dictionary.others first second = left ++ (middle ++ right) := by
    have inLeft := selfFiltered left (List.subset_append_left _ _)
    have inMiddle := selfFiltered middle fun block member =>
      List.mem_append_right _ (List.mem_append_left _ member)
    have inRight := selfFiltered right fun block member =>
      List.mem_append_right _ (List.mem_append_right _ member)
    simp [Dictionary.others, split, List.filter_append, inLeft, inMiddle, inRight]
  refine ⟨ofFirst, ?_⟩
  rw [← ofFirst]
  unfold Dictionary.others
  congr 1
  funext block
  exact Bool.and_comm _ _

/-- What is left around both keys, whichever comes first. -/
theorem Stored.copyOthers_eq (stored : Stored dictionary dict) {target source : Block}
    {frontT backT frontS backS : List Block}
    (splitT : dictionary.blocks = frontT ++ target :: backT)
    (splitS : dictionary.blocks = frontS ++ source :: backS) (different : target ≠ source) :
    dictionary.blocks.Perm (target :: source :: dictionary.others target source) ∧
      copyOthers (frontT.flatMap Block.items).length (frontS.flatMap Block.items).length 0 0
        (dictionary.blocks.flatMap Block.encode) =
          ((dictionary.others target source).flatMap Block.encode, 0) := by
  have shuffle : ∀ (left middle right : List Block) (first second : Block),
      (left ++ first :: (middle ++ second :: right)).Perm
        (first :: second :: (left ++ (middle ++ right))) := by
    intro left middle right first second
    have outer : (left ++ first :: (middle ++ second :: right)).Perm
        (first :: (left ++ (middle ++ second :: right))) := List.perm_middle
    have inner : ((left ++ middle) ++ second :: right).Perm
        (second :: ((left ++ middle) ++ right)) := List.perm_middle
    simp only [List.append_assoc] at inner
    exact outer.trans (inner.cons first)
  have smallT := stored.values_lt splitT
  have smallS := stored.values_lt splitS
  obtain ⟨between, isFront, isBack⟩ | ⟨between, isFront, isBack⟩ :=
    List.append_eq_append_iff.mp (splitT.symm.trans splitS)
  · -- the target comes first
    cases between with
    | nil => exact absurd (List.cons.inj isBack).1 different
    | cons first middle =>
        obtain ⟨rfl, rfl⟩ := List.cons.inj isBack
        subst isFront
        rw [(dictionary.others_eq splitT).1, splitT]
        exact ⟨shuffle _ _ _ _ _, copyOthers_two smallT smallS (.inl (by simp))⟩
  · cases between with
    | nil => exact absurd (List.cons.inj isBack).1.symm different
    | cons first middle =>
        obtain ⟨rfl, rfl⟩ := List.cons.inj isBack
        subst isFront
        rw [(dictionary.others_eq splitS).2, splitS]
        exact ⟨(shuffle _ _ _ _ _).trans (List.Perm.swap _ _ _),
          copyOthers_two smallS smallT (.inr (by simp))⟩

/-- Merging two keys gives a dictionary with the same items. -/
theorem Stored.exists_merged (stored : Stored dictionary dict) {target source : Block}
    {frontT backT frontS backS : List Block}
    (splitT : dictionary.blocks = frontT ++ target :: backT)
    (splitS : dictionary.blocks = frontS ++ source :: backS) (different : target ≠ source) :
    ∃ next after, ayDnodeMergeKeys dict (frontT.flatMap Block.items).length
        (frontS.flatMap Block.items).length = some next ∧
      Stored after next ∧ next.count = dict.count ∧ next.cells.length = dict.cells.length ∧
      after.blocks = target.merge source :: dictionary.others target source ∧
      after.items.Perm dictionary.items := by
  obtain ⟨permuted, copied⟩ := stored.copyOthers_eq splitT splitS different
  have itemsPerm : ((target.merge source :: dictionary.others target source).flatMap
      Block.items).Perm dictionary.items := by
    have regrouped : (target.merge source :: dictionary.others target source).flatMap Block.items =
        (target :: source :: dictionary.others target source).flatMap Block.items := by
      simp [Block.merge, Block.items]
    rw [regrouped]
    exact (permuted.flatMap_right Block.items).symm
  let after : Dictionary := ⟨target.merge source :: dictionary.others target source, by
    intro other membership
    rcases List.mem_cons.mp membership with rfl | inOthers
    · simp [Block.merge, Block.items]
    · exact dictionary.nonempty other (List.mem_of_mem_filter inOthers),
    itemsPerm.nodup_iff.mpr dictionary.distinct⟩
  have newCount : dict.count = after.items.length := by
    rw [stored.count]
    exact itemsPerm.length_eq.symm
  refine ⟨_, after, stored.mergeKeys_eq splitT splitS copied permuted,
    ⟨newCount, ?_, newCount ▸ stored.count ▸ stored.small⟩, rfl, ?_, rfl, itemsPerm⟩
  · obtain ⟨free, cells⟩ := stored.cells
    refine ⟨free, ?_⟩
    rw [stored.count, cells, List.drop_left' (by simp [Dictionary.items])]
  · have length := congrArg List.length (List.take_append_drop dict.count dict.cells)
    have taken : (dict.cells.take dict.count).length = dict.count := by
      rw [stored.take_count, length_flatMap_encode, stored.count]
      rfl
    have encoded : ((target.merge source :: dictionary.others target source).flatMap
        Block.encode).length = dict.count := by
      rw [length_flatMap_encode, newCount]
      rfl
    rw [List.length_append, taken] at length
    rw [List.length_append, encoded, length]

/-- The key that was a value's block joins the block of its new key. -/
theorem Stored.insert_merge (stored : Stored dictionary dict) {target source : Block}
    (targetIn : target ∈ dictionary.blocks) (sourceIn : source ∈ dictionary.blocks)
    (different : target ≠ source) :
    ∃ key1 key2 next after, ayDnodeFind dict target.key = some key1 ∧
      ayDnodeFind dict source.key = some key2 ∧ ayDnodeMergeKeys dict key1 key2 = some next ∧
      Stored after next ∧ InsertKeeps equal dictionary target.key source.key after ∧
      next.cells.length = dict.cells.length ∧ next.count ≤ dict.count + 2 := by
  obtain ⟨frontT, backT, splitT⟩ := List.append_of_mem targetIn
  obtain ⟨frontS, backS, splitS⟩ := List.append_of_mem sourceIn
  obtain ⟨permuted, -⟩ := stored.copyOthers_eq splitT splitS different
  obtain ⟨next, after, merged, storedAfter, sameCount, sameLength, blocks, -⟩ :=
    stored.exists_merged splitT splitS different
  refine ⟨_, _, next, after, stored.find_key splitT, stored.find_key splitS, merged, storedAfter,
    ⟨?_, ?_, ?_, ?_⟩, sameLength, by omega⟩
  · intro other membership otherKey
    rcases List.mem_cons.mp (permuted.mem_iff.mp membership) with rfl | inRest
    · exact absurd rfl otherKey
    · rcases List.mem_cons.mp inRest with rfl | inOthers
      · exact .inr ⟨rfl, target.merge other, by simp [blocks], rfl, by simp [Block.merge]⟩
      · exact .inl (blocks ▸ List.mem_cons_of_mem _ inOthers)
  · intro other membership sameKey
    obtain rfl : other = target := dictionary.eq_of_key membership targetIn sameKey
    exact ⟨other.merge source, by simp [blocks], rfl, List.prefix_append _ _⟩
  · intro other membership otherKey
    rw [blocks] at membership
    rcases List.mem_cons.mp membership with rfl | inOthers
    · exact absurd rfl otherKey
    · exact List.mem_of_mem_filter inOthers
  · exact .inl ⟨target.merge source, by simp [blocks], rfl, by simp [Block.merge, Block.items]⟩

/-- Merging the keys at two places, in whichever order these are: the first block is that of `key1`
with `key2` and its values behind its own, and all other blocks follow in their order. -/
theorem ayDnodeMergeKeys_merges (stored : Stored dictionary dict) {target source : Block}
    {frontT backT frontS backS : List Block}
    (splitT : dictionary.blocks = frontT ++ target :: backT)
    (splitS : dictionary.blocks = frontS ++ source :: backS) (different : target.key ≠ source.key) :
    ∃ next after, ayDnodeMergeKeys dict (frontT.flatMap Block.items).length
        (frontS.flatMap Block.items).length = some next ∧
      Stored after next ∧ next.count = dict.count ∧
      (∀ kvd, kvd ∈ after.items ↔ kvd ∈ dictionary.items) ∧
      after.blocks = ⟨target.key, target.values ++ source.key :: source.values⟩ ::
        dictionary.blocks.filter fun block =>
          block.key != target.key && block.key != source.key := by
  obtain ⟨next, after, merged, storedAfter, sameCount, -, blocks, sameItems⟩ :=
    stored.exists_merged splitT splitS fun same => different (congrArg Block.key same)
  exact ⟨next, after, merged, storedAfter, sameCount, fun kvd => sameItems.mem_iff, blocks⟩

def threeKeys : Dictionary := ⟨[⟨1, [2]⟩, ⟨3, [4]⟩, ⟨5, [6, 7]⟩], by decide, by decide⟩

/-- The first key becomes a value of the last one. -/
theorem ayDnodeMergeKeys_merges_threeKeys :
    ∃ next after, ayDnodeMergeKeys ⟨threeKeys.blocks.flatMap Block.encode, 7⟩ 4 0 = some next ∧
      Stored after next ∧ next.count = 7 ∧ (∀ kvd, kvd ∈ after.items ↔ kvd ∈ threeKeys.items) ∧
      after.blocks = [⟨5, [6, 7, 1, 2]⟩, ⟨3, [4]⟩] := by
  have stored : Stored threeKeys ⟨threeKeys.blocks.flatMap Block.encode, 7⟩ :=
    ⟨by decide, ⟨0, by decide⟩, by decide⟩
  exact @ayDnodeMergeKeys_merges _ _ stored ⟨5, [6, 7]⟩ ⟨1, [2]⟩ [⟨1, [2]⟩, ⟨3, [4]⟩] [] []
    [⟨3, [4]⟩, ⟨5, [6, 7]⟩] rfl rfl (by decide)

theorem Stored.eq_nil_of_isLastKey (stored : Stored dictionary dict) {front back : List Block}
    {block : Block} (split : dictionary.blocks = front ++ block :: back)
    (last : isLastKey dict (front.flatMap Block.items).length = true) : back = [] := by
  have count := stored.count
  simp only [isLastKey, stored.getElem_key split, stored.encode_head_valuesCount split,
    beq_iff_eq] at last
  simp only [Dictionary.items, split, List.flatMap_append, List.flatMap_cons, List.length_append,
    Block.items, List.length_cons] at count
  cases back with
  | nil => rfl
  | cons next rest =>
      have positive : 0 < next.items.length := by simp [Block.items]
      simp only [List.flatMap_cons, List.length_append] at count
      omega

/-- A safe insertion gives a dictionary again and keeps what it should. -/
theorem Stored.ayDnodeInsert_safe (stored : Stored dictionary dict)
    (reflexive : ∀ kvd, equal kvd kvd = true) (safe : insertSafe equal dict key value = true)
    (room : dict.count + 2 ≤ dict.cells.length) (bound : dict.count + 2 ≤ 2 ^ 32) :
    ∃ next after, ayDnodeInsert equal dict key value = some next ∧ Stored after next ∧
      InsertKeeps equal dictionary key value after ∧
      next.cells.length = dict.cells.length ∧ next.count ≤ dict.count + 2 := by
  by_cases refused : insertRefused equal dict key value = some true
  · exact ⟨dict, dictionary, by simp [ayDnodeInsert, refused], stored,
      stored.insertKeeps_refused refused, rfl, by omega⟩
  simp only [insertSafe, refused, beq_eq_false_iff_ne.mpr, ne_eq, not_false_eq_true,
    Bool.false_or] at safe
  by_cases known : key ∈ dictionary.items
  · obtain ⟨front, block, back, split, rfl | inValues⟩ := Dictionary.mem_items_cases known
    · have notEqual : insertRefused equal dict block.key value = some false := by
        rw [stored.insertRefused_key split] at refused ⊢
        simpa using refused
      rw [stored.find_key split] at safe
      cases found : ayDnodeFind dict value with
      | none =>
          rw [found] at safe
          obtain rfl := stored.eq_nil_of_isLastKey split safe
          obtain ⟨next, after, inserted, rest⟩ := @Stored.insert_value equal _ _ _ stored _ _
              split room bound (stored.find_eq_none_iff.mp found)
          refine ⟨next, after, ?_, rest⟩
          simpa [ayDnodeInsert, notEqual, found, foundKey, stored.find_key split] using inserted
      | some dval =>
          rw [found] at safe
          have valueIn : value ∈ dictionary.items := by
            by_contra absent
            simp [stored.find_eq_none_iff.mpr absent] at found
          obtain ⟨frontS, source, backS, splitS, rfl | inValues⟩ :=
            Dictionary.mem_items_cases valueIn
          · have different : block ≠ source := by
              rintro rfl
              rw [stored.insertRefused_key split] at notEqual
              simp [Block.items, reflexive] at notEqual
            obtain ⟨key1, key2, next, after, find1, find2, merged, rest⟩ :=
              @Stored.insert_merge equal _ _ stored _ _ (by simp [split]) (by simp [splitS])
                  different
            refine ⟨next, after, ?_, rest⟩
            have isKey := stored.foundKey_key splitS
            rw [find2] at isKey
            simp only [ayDnodeInsert, notEqual, Option.bind_eq_bind, Option.bind_some,
              Bool.false_eq_true, if_false, isKey, if_true, find1, find2, merged]
          · have notKey := stored.foundKey_value splitS inValues
            rw [found] at notKey
            simp [notKey] at safe
    · exact absurd (stored.insertRefused_value split inValues) refused
  · have keyNone := stored.find_eq_none_iff.mpr known
    rw [keyNone] at safe
    cases found : ayDnodeFind dict value with
    | some dval =>
        rw [found] at safe
        simp at safe
    | none =>
        have notEqual : insertRefused equal dict key value = some false := by
          rw [stored.insertRefused_unknown known] at refused ⊢
          simpa using refused
        have different : key ≠ value := by
          rintro rfl
          rw [stored.insertRefused_unknown known] at notEqual
          simp [found, reflexive] at notEqual
        obtain ⟨next, after, inserted, rest⟩ := @Stored.insert_pair equal _ _ _ _ stored room
            bound known (stored.find_eq_none_iff.mp found) different
        refine ⟨next, after, ?_, rest⟩
        simpa [ayDnodeInsert, notEqual, found, foundKey, keyNone] using inserted

end Step

section Run

/-- A sequence of insertions, each safe in the state it meets. -/
def InsertRunSafe (equal : Kvd → Kvd → Bool) : DnodeArray → List (Kvd × Kvd) → Prop
  | _, [] => True
  | dict, (key, value) :: rest =>
      insertSafe equal dict key value = true ∧ dict.count + 2 ≤ 2 ^ 32 ∧
        ∀ next, ayDnodeInsert equal dict key value = some next → InsertRunSafe equal next rest

instance decidableInsertRunSafe (equal : Kvd → Kvd → Bool) :
    (dict : DnodeArray) → (pairs : List (Kvd × Kvd)) → Decidable (InsertRunSafe equal dict pairs)
  | _, [] => isTrue trivial
  | dict, (key, value) :: rest =>
      have : Decidable (∀ next, ayDnodeInsert equal dict key value = some next →
          InsertRunSafe equal next rest) :=
        match ayDnodeInsert equal dict key value with
        | none => isTrue (by simp)
        | some next =>
            have := decidableInsertRunSafe equal next rest
            decidable_of_iff (InsertRunSafe equal next rest) (by simp)
      inferInstanceAs (Decidable (insertSafe equal dict key value = true ∧
        dict.count + 2 ≤ 2 ^ 32 ∧ ∀ next, ayDnodeInsert equal dict key value = some next →
          InsertRunSafe equal next rest))

/-- After every insertion the array holds a dictionary, which has kept what it should. -/
def KeepsThroughout (equal : Kvd → Kvd → Bool) : DnodeArray → List (Kvd × Kvd) → Prop
  | dict, [] => ∃ dictionary, Stored dictionary dict
  | dict, (key, value) :: rest =>
      ∃ next before after, ayDnodeInsert equal dict key value = some next ∧
        Stored before dict ∧ Stored after next ∧ InsertKeeps equal before key value after ∧
        KeepsThroughout equal next rest

variable {equal : Kvd → Kvd → Bool}

theorem Stored.keepsThroughout {dictionary : Dictionary} {dict : DnodeArray}
    {pairs : List (Kvd × Kvd)} (stored : Stored dictionary dict)
    (reflexive : ∀ kvd, equal kvd kvd = true)
    (room : dict.count + 2 * pairs.length ≤ dict.cells.length)
    (safe : InsertRunSafe equal dict pairs) : KeepsThroughout equal dict pairs := by
  induction pairs generalizing dictionary dict with
  | nil => exact ⟨dictionary, stored⟩
  | cons pair rest inductionHypothesis =>
      obtain ⟨key, value⟩ := pair
      obtain ⟨stepSafe, bound, restSafe⟩ := safe
      rw [List.length_cons] at room
      obtain ⟨next, after, inserted, storedNext, keeps, length, count⟩ :=
        stored.ayDnodeInsert_safe reflexive stepSafe (by omega) bound
      exact ⟨next, dictionary, after, inserted, stored, storedNext, keeps,
        inductionHypothesis storedNext (by omega) (restSafe next inserted)⟩

/-- Filling an empty array by safe insertions keeps it a dictionary throughout. -/
theorem insertRun_keepsThroughout {capacity : Nat} {pairs : List (Kvd × Kvd)}
    (equivalence : Equivalence fun first second => equal first second = true)
    (room : 2 * pairs.length ≤ capacity)
    (safe : InsertRunSafe equal (DnodeArray.create capacity) pairs) :
    KeepsThroughout equal (DnodeArray.create capacity) pairs := by
  let empty : Dictionary := ⟨[], by simp, by simp⟩
  have stored : Stored empty (DnodeArray.create capacity) :=
    ⟨rfl, ⟨capacity, by simp [empty, DnodeArray.create]⟩, by simp [empty, Dictionary.items]⟩
  exact stored.keepsThroughout equivalence.refl (by simpa [DnodeArray.create] using room) safe

/-- Two keys get a value each, and the first of them becomes a value of the other. -/
theorem insertRun_keepsThroughout_merged :
    KeepsThroughout (· == ·) (DnodeArray.create 6) [(1, 2), (3, 4), (3, 1)] ∧
      ((ayDnodeInsert (· == ·) (DnodeArray.create 6) 1 2).bind fun dict =>
        (ayDnodeInsert (· == ·) dict 3 4).bind fun dict => ayDnodeInsert (· == ·) dict 3 1) =
        some ⟨(Block.mk 3 [4, 1, 2]).encode ++ [Dnode.zero, Dnode.zero], 4⟩ := by
  refine ⟨insertRun_keepsThroughout ⟨?_, ?_, ?_⟩ (by decide) (by decide), by decide⟩
  · simp
  · intro first second same
    simpa using (beq_iff_eq.mp same).symm
  · intro first second third sameFirst sameSecond
    simpa using (beq_iff_eq.mp sameFirst).trans (beq_iff_eq.mp sameSecond)

/-- A second value for the first of two keys: only two bytes of the tail are moved, so the
second key is overwritten, its value becomes a key and the last item is null. -/
theorem insertRun_middle_fails :
    ((ayDnodeInsert (· == ·) (DnodeArray.create 6) 1 2).bind fun dict =>
        (ayDnodeInsert (· == ·) dict 3 4).bind fun dict => ayDnodeInsert (· == ·) dict 1 5) =
        some ⟨(Block.mk 1 [2, 5]).encode ++ (Block.mk 4 [0]).encode ++ [Dnode.zero], 5⟩ ∧
      ¬ ∀ (equal : Kvd → Kvd → Bool) (capacity : Nat) (pairs : List (Kvd × Kvd)),
        (Equivalence fun first second => equal first second = true) →
          2 * pairs.length ≤ capacity → (∀ pair ∈ pairs, pair.1 ≠ 0 ∧ pair.2 ≠ 0) →
            KeepsThroughout equal (DnodeArray.create capacity) pairs := by
  refine ⟨by decide, fun holds => ?_⟩
  have keeps := holds (· == ·) 6 [(1, 2), (3, 4), (1, 5)] ⟨by simp, by simp +contextual,
    by simp +contextual⟩ (by decide) (by simp)
  obtain ⟨dict1, -, -, inserted1, -, -, -, keeps⟩ := keeps
  obtain ⟨dict2, -, -, inserted2, -, -, -, keeps⟩ := keeps
  obtain ⟨dict3, before, after, inserted3, storedBefore, storedAfter, keeps, -⟩ := keeps
  have step1 : ayDnodeInsert (· == ·) (DnodeArray.create 6) 1 2 =
      some ⟨(Block.mk 1 [2]).encode ++ List.replicate 4 Dnode.zero, 2⟩ := by decide
  have step2 : ayDnodeInsert (· == ·)
      ⟨(Block.mk 1 [2]).encode ++ List.replicate 4 Dnode.zero, 2⟩ 3 4 =
        some ⟨(Block.mk 1 [2]).encode ++ (Block.mk 3 [4]).encode ++
          List.replicate 2 Dnode.zero, 4⟩ := by decide
  have step3 : ayDnodeInsert (· == ·) ⟨(Block.mk 1 [2]).encode ++ (Block.mk 3 [4]).encode ++
      List.replicate 2 Dnode.zero, 4⟩ 1 5 =
        some ⟨(Block.mk 1 [2, 5]).encode ++ (Block.mk 4 [0]).encode ++ [Dnode.zero], 5⟩ := by
    decide
  obtain rfl := Option.some.inj (inserted1.symm.trans step1)
  obtain rfl := Option.some.inj (inserted2.symm.trans step2)
  obtain rfl := Option.some.inj (inserted3.symm.trans step3)
  have lost := keeps.kept ⟨3, [4]⟩ (by rw [storedBefore.blocks_eq]; decide) (by decide)
  rw [storedAfter.blocks_eq] at lost
  rcases lost with stays | ⟨same, -⟩
  · revert stays
    decide
  · revert same
    decide

end Run

end SysrepoAugeas.Dict
