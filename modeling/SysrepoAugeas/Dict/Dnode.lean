import SysrepoAugeas.Data.Bytes

/-!
# The dictionary of dnodes

The Sized Array with the labels and values that share a union: a KEY is
followed by its VALUES.  `none` stands for a run that leaves the array, reads
through a null pointer or fails an assertion.
-/

namespace SysrepoAugeas.Dict

open SysrepoAugeas.Data

/-- Generic KEY or VALUE data, compared as a pointer. -/
abbrev Kvd := BitVec 64

/-- `struct ay_dnode` with its padding; 16 bytes. -/
structure Dnode where
  valuesCount : BitVec 32
  padding : BitVec 32
  kvd : Kvd
  deriving DecidableEq

/-- Memory of the array as it is allocated. -/
def Dnode.zero : Dnode := ⟨0, 0, 0⟩

def Dnode.isKey (dnode : Dnode) : Bool := 0 < dnode.valuesCount.toNat

def Dnode.isVal (dnode : Dnode) : Bool := dnode.valuesCount.toNat == 0

def Dnode.toBytes (dnode : Dnode) : List (BitVec 8) :=
  littleEndian 4 dnode.valuesCount.toNat ++
    (littleEndian 4 dnode.padding.toNat ++ littleEndian 8 dnode.kvd.toNat)

def Dnode.ofBytes (bytes : List (BitVec 8)) : Dnode where
  valuesCount := BitVec.ofNat 32 (ofLittleEndian (bytes.take 4))
  padding := BitVec.ofNat 32 (ofLittleEndian ((bytes.drop 4).take 4))
  kvd := BitVec.ofNat 64 (ofLittleEndian ((bytes.drop 8).take 8))

def dnodesOfBytes : Nat → List (BitVec 8) → List Dnode
  | 0, _ => []
  | count + 1, bytes => Dnode.ofBytes (bytes.take 16) :: dnodesOfBytes count (bytes.drop 16)

@[simp]
theorem Dnode.length_toBytes (dnode : Dnode) : dnode.toBytes.length = 16 := by
  simp [Dnode.toBytes]

theorem Dnode.ofBytes_toBytes (dnode : Dnode) : Dnode.ofBytes dnode.toBytes = dnode := by
  obtain ⟨valuesCount, padding, kvd⟩ := dnode
  have first : (Dnode.toBytes ⟨valuesCount, padding, kvd⟩).take 4 =
      littleEndian 4 valuesCount.toNat := List.take_left' (by simp)
  have second : ((Dnode.toBytes ⟨valuesCount, padding, kvd⟩).drop 4).take 4 =
      littleEndian 4 padding.toNat := by
    rw [Dnode.toBytes, List.drop_left' (by simp), List.take_left' (by simp)]
  have third : ((Dnode.toBytes ⟨valuesCount, padding, kvd⟩).drop 8).take 8 =
      littleEndian 8 kvd.toNat := by
    rw [Dnode.toBytes, ← List.append_assoc, List.drop_left' (by simp),
      List.take_of_length_le (by simp)]
  rw [Dnode.ofBytes, first, second, third]
  simp only [ofLittleEndian_littleEndian, Dnode.mk.injEq]
  have countBound : valuesCount.toNat < 256 ^ 4 := valuesCount.isLt
  have paddingBound : padding.toNat < 256 ^ 4 := padding.isLt
  have kvdBound : BitVec.toNat kvd < 256 ^ 8 := kvd.isLt
  rw [Nat.mod_eq_of_lt countBound, Nat.mod_eq_of_lt paddingBound, Nat.mod_eq_of_lt kvdBound]
  simp

theorem dnodesOfBytes_flatMap (cells : List Dnode) :
    dnodesOfBytes cells.length (cells.flatMap Dnode.toBytes) = cells := by
  induction cells with
  | nil => rfl
  | cons cell rest inductionHypothesis =>
      rw [List.length_cons, List.flatMap_cons, dnodesOfBytes, List.take_left' (by simp),
        List.drop_left' (by simp), Dnode.ofBytes_toBytes, inductionHypothesis]

/-- Allocated array and number of its items. -/
structure DnodeArray where
  cells : List Dnode
  count : Nat
  deriving DecidableEq

/-- A new array with room for `capacity` items. -/
def DnodeArray.create (capacity : Nat) : DnodeArray := ⟨List.replicate capacity Dnode.zero, 0⟩

/-- `ay_dnode_find` -/
def ayDnodeFind (dict : DnodeArray) (kvd : Kvd) : Option Nat :=
  (dict.cells.take dict.count).findIdx? fun dnode => dnode.kvd == kvd

/-- `AY_DNODE_KEYVAL_FOR`: the item at an index and the values that follow it. -/
def keyValues (dict : DnodeArray) (index : Nat) : Option (List Dnode) := do
  let key ← dict.cells[index]?
  let items := (dict.cells.drop index).take (key.valuesCount.toNat + 1)
  if items.length = key.valuesCount.toNat + 1 then some items else none

/-- `ay_dnode_value_is_unique` -/
def ayDnodeValueIsUnique (equal : Kvd → Kvd → Bool) (items : List Dnode) (value : Kvd) : Bool :=
  items.all fun item => !equal item.kvd value

/-- Copy of all other keys and values; `skip` items of a skipped key are still to be passed.
The second result is how far the loop index runs past the array. -/
def copyOthers (key1 key2 : Nat) : Nat → Nat → List Dnode → List Dnode × Nat
  | _, skip, [] => ([], skip)
  | index, 0, dnode :: rest =>
      if index = key1 ∨ index = key2 then
        copyOthers key1 key2 (index + 1) dnode.valuesCount.toNat rest
      else
        let others := copyOthers key1 key2 (index + 1) 0 rest
        (dnode :: others.1, others.2)
  | index, skip + 1, _ :: rest => copyOthers key1 key2 (index + 1) skip rest

/-- `ay_dnode_merge_keys` -/
def ayDnodeMergeKeys (dict : DnodeArray) (key1 key2 : Nat) : Option DnodeArray := do
  let items1 ← keyValues dict key1
  let items2 ← keyValues dict key2
  let dnode1 ← items1.head?
  let dnode2 ← items2.head?
  -- every item in dictionary should be unique
  if items2.tail.any (fun item2 => items1.tail.any fun item1 => item1.kvd == item2.kvd) then none
  else
    let merged := { dnode1 with valuesCount := dnode1.valuesCount + (dnode2.valuesCount + 1) } ::
      (items1.tail ++ { dnode2 with valuesCount := 0 } :: items2.tail)
    let others := copyOthers key1 key2 0 0 (dict.cells.take dict.count)
    let buff := merged ++ others.1
    if buff.length = dict.count ∧ others.2 = 0 then
      some { dict with cells := buff ++ dict.cells.drop dict.count }
    else none

/-- First condition of `ay_dnode_insert`: the pair is not stored. -/
def insertRefused (equal : Kvd → Kvd → Bool) (dict : DnodeArray) (key value : Kvd) : Option Bool :=
  match ayDnodeFind dict key with
  | some dkey => do
      let dnode ← dict.cells[dkey]?
      if dnode.isVal then some true
      else
        let items ← keyValues dict dkey
        some !(ayDnodeValueIsUnique equal items value)
  | none => some ((ayDnodeFind dict value).isNone && equal key value)

/-- `dval && AY_DNODE_IS_KEY(dval)` -/
def foundKey (dict : DnodeArray) (dval : Option Nat) : Bool :=
  match dval.bind fun index => dict.cells[index]? with
  | some dnode => dnode.isKey
  | none => false

/-- Insertion of a value behind the values of a key. -/
def insertValue (dict : DnodeArray) (dkey : Nat) (value : Kvd) : Option DnodeArray := do
  let dnode ← dict.cells[dkey]?
  let gap := dkey + dnode.valuesCount.toNat + 1
  if gap ≤ dict.count ∧ dict.count < dict.cells.length then
    -- the third argument of memmove is a number of items where bytes are counted
    let bytes := memmove (16 * (gap + 1)) (16 * gap) (dict.count - gap)
      (dict.cells.flatMap Dnode.toBytes)
    let cells := dnodesOfBytes dict.cells.length bytes
    let cells := cells.modify gap fun dnode => { dnode with kvd := value, valuesCount := 0 }
    let cells := cells.modify dkey fun dnode =>
      { dnode with valuesCount := dnode.valuesCount + 1 }
    some ⟨cells, dict.count + 1⟩
  else none

/-- Insertion of a new pair at the end. -/
def insertPair (dict : DnodeArray) (key value : Kvd) : Option DnodeArray :=
  if dict.count + 1 < dict.cells.length then
    let cells := dict.cells.modify dict.count fun dnode =>
      { dnode with kvd := key, valuesCount := 1 }
    let cells := cells.modify (dict.count + 1) fun dnode =>
      { dnode with kvd := value, valuesCount := 0 }
    some ⟨cells, dict.count + 2⟩
  else none

/-- `ay_dnode_insert` with a comparison function. -/
def ayDnodeInsert (equal : Kvd → Kvd → Bool) (dict : DnodeArray) (key value : Kvd) : Option DnodeArray := do
  let dkey := ayDnodeFind dict key
  let dval := ayDnodeFind dict value
  if ← insertRefused equal dict key value then some dict
  else if foundKey dict dval then
    -- the dval will no longer be dictionary key, it will be value of dkey
    match dkey, dval with
    | some key1, some key2 => ayDnodeMergeKeys dict key1 key2
    | _, _ => none
  else
    match dkey with
    | some dkey => insertValue dict dkey value
    | none => insertPair dict key value

end SysrepoAugeas.Dict
