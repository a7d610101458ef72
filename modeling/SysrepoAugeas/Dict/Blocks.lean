import Mathlib.Data.List.Nodup
import SysrepoAugeas.Dict.Dnode

/-!
# Keys with their values

What the array stands for: blocks of one key and its values, no item stored
twice.  A `Dictionary` cannot be built otherwise; `Stored` says which array
holds it.
-/

namespace SysrepoAugeas.Dict

structure Block where
  key : Kvd
  values : List Kvd
  deriving DecidableEq

def Block.items (block : Block) : List Kvd := block.key :: block.values

def valueDnode (value : Kvd) : Dnode := ⟨0, 0, value⟩

/-- Items of the array that hold the block. -/
def Block.encode (block : Block) : List Dnode :=
  ⟨BitVec.ofNat 32 block.values.length, 0, block.key⟩ :: block.values.map valueDnode

/-- Every key has a value, and every item in the dictionary is unique. -/
structure Dictionary where
  blocks : List Block
  nonempty : ∀ block ∈ blocks, block.values ≠ []
  distinct : (blocks.flatMap Block.items).Nodup

def Dictionary.items (dictionary : Dictionary) : List Kvd := dictionary.blocks.flatMap Block.items

/-- The array holds the dictionary, with `free` untouched cells behind it. -/
structure Stored (dictionary : Dictionary) (dict : DnodeArray) : Prop where
  count : dict.count = dictionary.items.length
  cells : ∃ free, dict.cells =
    dictionary.blocks.flatMap Block.encode ++ List.replicate free Dnode.zero
  small : dictionary.items.length ≤ 2 ^ 32

@[simp]
theorem Block.length_encode (block : Block) : block.encode.length = block.items.length := by
  simp [Block.encode, Block.items]

@[simp]
theorem length_flatMap_encode (blocks : List Block) :
    (blocks.flatMap Block.encode).length = (blocks.flatMap Block.items).length := by
  simp [List.length_flatMap]

theorem map_kvd_encode (blocks : List Block) :
    (blocks.flatMap Block.encode).map Dnode.kvd = blocks.flatMap Block.items := by
  have each : ∀ block : Block, block.encode.map Dnode.kvd = block.items := by
    intro block
    simp [Block.encode, Block.items, Function.comp_def, valueDnode]
  simp [List.map_flatMap, each]

namespace Stored

variable {dictionary : Dictionary} {dict : DnodeArray}

theorem take_count (stored : Stored dictionary dict) :
    dict.cells.take dict.count = dictionary.blocks.flatMap Block.encode := by
  obtain ⟨free, cells⟩ := stored.cells
  rw [stored.count, cells]
  exact List.take_left' (by simp [Dictionary.items])

/-- Searching the array is searching the items. -/
theorem find_eq (stored : Stored dictionary dict) (kvd : Kvd) :
    ayDnodeFind dict kvd = dictionary.items.findIdx? (· == kvd) := by
  rw [ayDnodeFind, stored.take_count, Dictionary.items, ← map_kvd_encode, List.findIdx?_map]
  rfl

theorem findIdx?_eq_none_of_not_mem {items : List Kvd} {kvd : Kvd} (absent : kvd ∉ items) :
    items.findIdx? (· == kvd) = none := by
  rw [List.findIdx?_eq_none_iff]
  intro other membership
  simp only [beq_eq_false_iff_ne]
  rintro rfl
  exact absent membership

theorem find_eq_none_iff (stored : Stored dictionary dict) {kvd : Kvd} :
    ayDnodeFind dict kvd = none ↔ kvd ∉ dictionary.items := by
  rw [stored.find_eq]
  constructor
  · intro notFound membership
    simpa using List.findIdx?_eq_none_iff.mp notFound kvd membership
  · exact findIdx?_eq_none_of_not_mem

theorem find_eq_of_split (stored : Stored dictionary dict) {before after : List Kvd} {kvd : Kvd}
    (split : dictionary.items = before ++ kvd :: after) :
    ayDnodeFind dict kvd = some before.length := by
  have distinct := dictionary.distinct
  rw [← Dictionary.items, split] at distinct
  have absent : kvd ∉ before := fun membership =>
    (List.nodup_append.mp distinct).2.2 kvd membership kvd (by simp) rfl
  rw [stored.find_eq, split, List.findIdx?_append, findIdx?_eq_none_of_not_mem absent]
  simp [List.findIdx?_cons]

variable {front back : List Block} {block : Block}

theorem values_lt (stored : Stored dictionary dict)
    (split : dictionary.blocks = front ++ block :: back) : block.values.length < 2 ^ 32 := by
  have small := stored.small
  simp only [Dictionary.items, split, List.flatMap_append, List.flatMap_cons, List.length_append,
    Block.items, List.length_cons] at small
  omega

theorem encode_head_valuesCount (stored : Stored dictionary dict)
    (split : dictionary.blocks = front ++ block :: back) :
    (BitVec.ofNat 32 block.values.length).toNat = block.values.length := by
  simpa using Nat.mod_eq_of_lt (stored.values_lt split)

/-- A key is found where the blocks in front of it end. -/
theorem find_key (stored : Stored dictionary dict)
    (split : dictionary.blocks = front ++ block :: back) :
    ayDnodeFind dict block.key = some (front.flatMap Block.items).length :=
  @Stored.find_eq_of_split _ _ stored _ (block.values ++ back.flatMap Block.items) _ (by
    simp [Dictionary.items, split, Block.items])

theorem cells_split (stored : Stored dictionary dict)
    (split : dictionary.blocks = front ++ block :: back) :
    ∃ rest, dict.cells = front.flatMap Block.encode ++ (block.encode ++ rest) := by
  obtain ⟨free, cells⟩ := stored.cells
  exact ⟨back.flatMap Block.encode ++ List.replicate free Dnode.zero, by simp [cells, split]⟩

theorem getElem_key (stored : Stored dictionary dict)
    (split : dictionary.blocks = front ++ block :: back) :
    dict.cells[(front.flatMap Block.items).length]? =
      some ⟨BitVec.ofNat 32 block.values.length, 0, block.key⟩ := by
  obtain ⟨rest, cells⟩ := stored.cells_split split
  rw [cells, ← length_flatMap_encode, List.getElem?_append_right (Nat.le_refl _)]
  simp [Block.encode]

theorem keyValues_key (stored : Stored dictionary dict)
    (split : dictionary.blocks = front ++ block :: back) :
    keyValues dict (front.flatMap Block.items).length = some block.encode := by
  obtain ⟨rest, cells⟩ := stored.cells_split split
  have items : (dict.cells.drop (front.flatMap Block.items).length).take
      (block.values.length + 1) = block.encode := by
    rw [cells, ← length_flatMap_encode, List.drop_left]
    exact List.take_left' (by simp [Block.items])
  simp only [keyValues, stored.getElem_key split, Option.bind_eq_bind, Option.bind_some,
    stored.encode_head_valuesCount split, items, Block.length_encode, Block.items,
    List.length_cons, if_true]

/-- A value is found inside its block and is no key. -/
theorem find_value (stored : Stored dictionary dict)
    (split : dictionary.blocks = front ++ block :: back) {value : Kvd}
    (membership : value ∈ block.values) :
    ∃ index, ayDnodeFind dict value = some index ∧ dict.cells[index]? = some (valueDnode value) := by
  obtain ⟨before, after, values⟩ := List.append_of_mem membership
  refine ⟨(front.flatMap Block.items ++ block.key :: before).length, ?_, ?_⟩
  · refine @Stored.find_eq_of_split _ _ stored _ (after ++ back.flatMap Block.items) _ ?_
    simp [Dictionary.items, split, Block.items, values]
  · obtain ⟨rest, cells⟩ := stored.cells_split split
    have place : (front.flatMap Block.items ++ block.key :: before).length =
        (front.flatMap Block.encode ++
          (⟨BitVec.ofNat 32 block.values.length, 0, block.key⟩ :: before.map valueDnode)).length := by
      simp
    have regroup : dict.cells = (front.flatMap Block.encode ++
        (⟨BitVec.ofNat 32 block.values.length, 0, block.key⟩ :: before.map valueDnode)) ++
          valueDnode value :: (after.map valueDnode ++ rest) := by
      simp [cells, Block.encode, values]
    rw [place, regroup, List.getElem?_append_right (Nat.le_refl _)]
    simp

end Stored

/-- Reads the blocks off the array; `fuel` bounds their number. -/
def decodeBlocks : Nat → List Dnode → List Block
  | fuel + 1, dnode :: rest =>
      ⟨dnode.kvd, (rest.take dnode.valuesCount.toNat).map Dnode.kvd⟩ ::
        decodeBlocks fuel (rest.drop dnode.valuesCount.toNat)
  | _, _ => []

theorem decodeBlocks_encode (blocks : List Block) (fuel : Nat) (enough : blocks.length ≤ fuel)
    (small : ∀ block ∈ blocks, block.values.length < 2 ^ 32) :
    decodeBlocks fuel (blocks.flatMap Block.encode) = blocks := by
  induction blocks generalizing fuel with
  | nil => simp [decodeBlocks]
  | cons block rest inductionHypothesis =>
      cases fuel with
      | zero => simp at enough
      | succ fuel =>
          have count : (BitVec.ofNat 32 block.values.length).toNat = block.values.length := by
            simpa using Nat.mod_eq_of_lt (small block (by simp))
          have next := inductionHypothesis fuel (by simpa using enough) fun other membership =>
            small other (by simp [membership])
          simp only [List.flatMap_cons, Block.encode, List.cons_append, decodeBlocks, count]
          rw [List.take_left' (by simp), List.drop_left' (by simp), next]
          simp [Function.comp_def, valueDnode]

/-- The array determines the dictionary it holds. -/
theorem Stored.blocks_eq {dictionary : Dictionary} {dict : DnodeArray}
    (stored : Stored dictionary dict) :
    dictionary.blocks = decodeBlocks dict.count (dict.cells.take dict.count) := by
  rw [stored.take_count, decodeBlocks_encode]
  · rw [stored.count, Dictionary.items]
    induction dictionary.blocks with
    | nil => simp
    | cons block rest inductionHypothesis =>
        simp only [List.length_cons, List.flatMap_cons, List.length_append, Block.items]
        omega
  · intro block membership
    obtain ⟨front, back, split⟩ := List.append_of_mem membership
    exact stored.values_lt split

/-- Every item is either the key of a block or a value in one. -/
theorem Dictionary.mem_items_cases {dictionary : Dictionary} {kvd : Kvd}
    (membership : kvd ∈ dictionary.items) :
    ∃ front block back, dictionary.blocks = front ++ block :: back ∧
      (block.key = kvd ∨ kvd ∈ block.values) := by
  obtain ⟨block, blockIn, itemIn⟩ := List.mem_flatMap.mp membership
  obtain ⟨front, back, split⟩ := List.append_of_mem blockIn
  refine ⟨front, block, back, split, ?_⟩
  rcases List.mem_cons.mp itemIn with rfl | inValues
  · exact .inl rfl
  · exact .inr inValues

/-- A key has one block. -/
theorem Dictionary.eq_of_key (dictionary : Dictionary) {first second : Block}
    (firstIn : first ∈ dictionary.blocks) (secondIn : second ∈ dictionary.blocks)
    (sameKey : first.key = second.key) : first = second := by
  have distinct := dictionary.distinct
  obtain ⟨front, back, split⟩ := List.append_of_mem firstIn
  rw [split] at distinct secondIn
  simp only [List.flatMap_append, List.flatMap_cons] at distinct
  obtain ⟨-, distinctBack, apart⟩ := List.nodup_append.mp distinct
  have keyOf : ∀ blocks : List Block, second ∈ blocks → first.key ∈ blocks.flatMap Block.items :=
    fun blocks membership => List.mem_flatMap.mpr ⟨second, membership, by simp [sameKey, Block.items]⟩
  rcases List.mem_append.mp secondIn with inFront | inRest
  · exact absurd rfl (apart first.key (keyOf front inFront) first.key (by simp [Block.items]))
  · rcases List.mem_cons.mp inRest with rfl | inBack
    · rfl
    · exact absurd rfl ((List.nodup_append.mp distinctBack).2.2 first.key (by simp [Block.items])
        first.key (keyOf back inBack))

end SysrepoAugeas.Dict
