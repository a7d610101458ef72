import Mathlib.Data.List.Nodup
import SysrepoAugeas.Store.Diff

/-!
# What the generated paths select

`augds_store_label_index` counts instances of one schema node, Augeas counts
siblings with one label.  The two agree when every label belongs to a single
schema node, which is how the load assigns schema nodes to Augeas labels.
-/

namespace SysrepoAugeas.Store

open SysrepoAugeas.Data

variable {T : Type}

/-- Keys of a YANG list are unique. -/
def UniqueKeys (data : List (Entry T)) : Prop := (data.map Entry.id).Nodup

/-- Entries of one implicit list: keys are unique and a label determines the
schema node. -/
structure Consistent (data : List (Entry T)) : Prop where
  keys : UniqueKeys data
  schema : ∀ first ∈ data, ∀ second ∈ data,
    first.label = second.label → first.schema = second.schema

instance (data : List (Entry T)) : Decidable (UniqueKeys data) :=
  inferInstanceAs (Decidable (data.map Entry.id).Nodup)

instance (data : List (Entry T)) : Decidable (Consistent data) :=
  decidable_of_iff (UniqueKeys data ∧ ∀ first ∈ data, ∀ second ∈ data,
      first.label = second.label → first.schema = second.schema)
    ⟨fun parts => ⟨parts.1, parts.2⟩, fun consistent => ⟨consistent.keys, consistent.schema⟩⟩

/-- The node gets a path without index. -/
def Entry.isSequential (entry : Entry T) : Bool :=
  entry.schema.type = .label && entry.schema.sequential

def Entry.sameLabel (entry other : Entry T) : Bool :=
  other.label == entry.label

@[simp]
theorem Entry.sameLabel_eq_true (entry other : Entry T) :
    entry.sameLabel other = true ↔ other.label = entry.label := by
  simp [Entry.sameLabel]

/-- A sequential label occurs once. -/
def SequentialUnique (data : List (Entry T)) : Prop :=
  ∀ first ∈ data, ∀ second ∈ data,
    first.isSequential = true → first.label = second.label → first.id = second.id

instance (data : List (Entry T)) : Decidable (SequentialUnique data) :=
  inferInstanceAs (Decidable (∀ first ∈ data, ∀ second ∈ data,
    first.isSequential = true → first.label = second.label → first.id = second.id))

section Keys

variable {front back data : List (Entry T)} {entry : Entry T}

theorem UniqueKeys.id_ne_of_mem_front (keys : UniqueKeys (front ++ entry :: back)) :
    ∀ other ∈ front, other.id ≠ entry.id := by
  simp only [UniqueKeys, List.map_append, List.map_cons] at keys
  intro other membership equality
  exact (List.nodup_append.mp keys).2.2 other.id (List.mem_map_of_mem membership)
    entry.id (by simp) equality

theorem UniqueKeys.id_ne_of_mem_back (keys : UniqueKeys (front ++ entry :: back)) :
    ∀ other ∈ back, other.id ≠ entry.id := by
  simp only [UniqueKeys, List.map_append, List.map_cons] at keys
  intro other membership equality
  have fresh := (List.nodup_cons.mp (List.nodup_append.mp keys).2.1).1
  exact fresh (equality ▸ List.mem_map_of_mem membership)

/-- Looking an entry up by its key finds that entry. -/
theorem UniqueKeys.find_id (keys : UniqueKeys (front ++ entry :: back)) :
    (front ++ entry :: back).find? (fun node => node.id == entry.id) = some entry := by
  have absent : front.find? (fun node => node.id == entry.id) = none := by
    simpa using keys.id_ne_of_mem_front
  simp [List.find?_append, absent]

theorem UniqueKeys.eraseP_id (keys : UniqueKeys (front ++ entry :: back)) :
    (front ++ entry :: back).eraseP (fun node => node.id == entry.id) = front ++ back := by
  have absent : ∀ other ∈ front, ¬ (other.id == entry.id) = true := by
    simpa using keys.id_ne_of_mem_front
  rw [List.eraseP_append_right _ absent]
  simp

theorem UniqueKeys.of_perm {other : List (Entry T)} (keys : UniqueKeys data)
    (permuted : other.Perm data) : UniqueKeys other :=
  (permuted.map Entry.id).nodup_iff.mpr keys

/-- No entry stands on both sides of a split. -/
theorem UniqueKeys.not_mem_of_mem {second : List (Entry T)} (keys : UniqueKeys (front ++ second))
    {other : Entry T} (inSecond : other ∈ second) : other ∉ front := by
  intro inFront
  have nodup : (front ++ second).Nodup := List.Nodup.of_map _ keys
  exact (List.nodup_append.mp nodup).2.2 other inFront other inSecond rfl

theorem exists_split_of_mem_keys {id : Nat} (membership : id ∈ data.map Entry.id) :
    ∃ front entry back, data = front ++ entry :: back ∧ entry.id = id := by
  obtain ⟨entry, present, rfl⟩ := List.mem_map.mp membership
  obtain ⟨front, back, equality⟩ := List.append_of_mem present
  exact ⟨front, entry, back, equality, rfl⟩

theorem Consistent.of_perm {other : List (Entry T)} (consistent : Consistent data)
    (permuted : other.Perm data) : Consistent other where
  keys := consistent.keys.of_perm permuted
  schema first firstIn second secondIn :=
    consistent.schema first (permuted.mem_iff.mp firstIn) second (permuted.mem_iff.mp secondIn)

theorem SequentialUnique.of_perm {other : List (Entry T)} (unique : SequentialUnique data)
    (permuted : other.Perm data) : SequentialUnique other :=
  fun first firstIn second secondIn =>
    unique first (permuted.mem_iff.mp firstIn) second (permuted.mem_iff.mp secondIn)

end Keys

theorem labelIndexLoop_split (augLabel : Option String) (front : List (Entry T))
    (entry : Entry T) (back : List (Entry T)) (index : Nat)
    (fresh : ∀ other ∈ front, other.id ≠ entry.id) :
    labelIndexLoop entry.id augLabel (front ++ entry :: back) index =
      some (index + front.countP fun node => !node.differsFrom augLabel) := by
  induction front generalizing index with
  | nil => simp [labelIndexLoop]
  | cons head rest inductionHypothesis =>
      have headFresh := fresh head (by simp)
      have restFresh : ∀ other ∈ rest, other.id ≠ entry.id := fun other membership =>
        fresh other (by simp [membership])
      by_cases differs : head.differsFrom augLabel = true
      · simp [labelIndexLoop, headFresh, differs, inductionHypothesis _ restFresh]
      · simp only [labelIndexLoop, List.cons_append, headFresh, differs, if_false,
          inductionHypothesis _ restFresh, Bool.false_eq_true, List.countP_cons,
          Bool.not_false, if_true]
        congr 1
        omega

/-- Label that `augds_store_path` hands to `augds_store_label_index`. -/
def Entry.indexLabel (entry : Entry T) : Option String :=
  match entry.schema.type with
  | .value => none
  | .label => some entry.term

theorem Entry.sameLabel_eq_of_schema {entry other : Entry T}
    (sameSchema : other.schema = entry.schema) :
    (!other.differsFrom entry.indexLabel) = entry.sameLabel other := by
  cases type : entry.schema.type with
  | value => simp [differsFrom, indexLabel, sameLabel, label, sameSchema, type]
  | label => simp [differsFrom, indexLabel, sameLabel, label, sameSchema, type, bne]

/-- Instances of the schema node with the label are exactly the entries with the label. -/
theorem Consistent.countP_instances {data : List (Entry T)} {entry : Entry T}
    (consistent : Consistent data) (membership : entry ∈ data)
    {part : List (Entry T)} (included : ∀ other ∈ part, other ∈ data) :
    (part.filter fun node => node.schema == entry.schema).countP
        (fun node => !node.differsFrom entry.indexLabel) =
      part.countP entry.sameLabel := by
  rw [List.countP_filter]
  apply List.countP_congr
  intro other otherIn
  by_cases sameSchema : other.schema = entry.schema
  · simp [sameSchema, Entry.sameLabel_eq_of_schema sameSchema]
  · have different : other.label ≠ entry.label := fun sameLabel =>
      sameSchema (consistent.schema other (included other otherIn) entry membership sameLabel)
    simp [sameSchema, different]

/-- Path of an entry: its label with the rank the entries in front leave open. -/
def Entry.pathAfter (entry : Entry T) (front : List (Entry T)) : AugPath :=
  ⟨entry.label,
    if entry.isSequential then none else some (front.countP entry.sameLabel + 1)⟩

@[simp]
theorem Entry.pathAfter_label (entry : Entry T) (front : List (Entry T)) :
    (entry.pathAfter front).label = entry.label := rfl

/-- `augds_store_path` computes the label and the rank of the entry in the diff data. -/
theorem augdsStorePath_split {front back : List (Entry T)} {entry : Entry T}
    (consistent : Consistent (front ++ entry :: back)) :
    augdsStorePath entry (front ++ entry :: back) = some (entry.pathAfter front) := by
  have counted := @Consistent.countP_instances _ _ entry consistent (by simp) front
      (fun other membership => by simp [membership])
  have instancesFresh : ∀ other ∈ front.filter (fun node => node.schema == entry.schema),
      other.id ≠ entry.id := fun other membership =>
    consistent.keys.id_ne_of_mem_front other (List.mem_of_mem_filter membership)
  have loop := labelIndexLoop_split entry.indexLabel
    (front.filter fun node => node.schema == entry.schema) entry
    (back.filter fun node => node.schema == entry.schema) 1 instancesFresh
  rw [counted] at loop
  cases type : entry.schema.type with
  | value =>
      simp only [Entry.indexLabel, type] at loop
      simp [augdsStorePath, augdsStoreLabelIndex, type, List.filter_append, loop, augPathOf,
        Entry.pathAfter, Entry.isSequential, Entry.label, Nat.add_comm 1]
  | label =>
      simp only [Entry.indexLabel, type] at loop
      by_cases sequential : entry.schema.sequential = true
      · simp [augdsStorePath, augdsStoreLabelIndex, type, sequential, augPathOf,
          Entry.pathAfter, Entry.isSequential, Entry.label]
      · simp [augdsStorePath, augdsStoreLabelIndex, type, sequential, List.filter_append, loop,
          augPathOf, Entry.pathAfter, Entry.isSequential, Entry.label, Nat.add_comm 1]

theorem countP_hasLabel_map (entry : Entry T) (data : List (Entry T)) :
    (data.map Entry.toAug).countP (AugNode.hasLabel entry.label) =
      data.countP entry.sameLabel := by
  rw [List.countP_map]
  rfl

/-- The path of an entry selects, among Augeas siblings, the node behind as many
nodes with its label as stand in front of the entry. -/
theorem Entry.locate_pathAfter {entry : Entry T} {front : List (Entry T)}
    {frontAug backAug : List (AugNode T)} {node : AugNode T}
    (labelled : node.label = entry.label)
    (counted : frontAug.countP (AugNode.hasLabel entry.label) = front.countP entry.sameLabel)
    (unique : entry.isSequential = true →
      (∀ other ∈ frontAug, other.label ≠ entry.label) ∧
        ∀ other ∈ backAug, other.label ≠ entry.label) :
    (entry.pathAfter front).locate (frontAug ++ node :: backAug) = [frontAug.length] := by
  by_cases sequential : entry.isSequential = true
  · rw [Entry.pathAfter, if_pos sequential]
    exact AugPath.locate_unique _ _ labelled _ (unique sequential).1 (unique sequential).2
  · rw [Entry.pathAfter, if_neg sequential, ← counted]
    exact AugPath.locate_ranked _ _ labelled _

theorem neighbour_split (previous : Option (Entry T)) (front : List (Entry T))
    (entry : Entry T) (back : List (Entry T))
    (fresh : ∀ other ∈ front, other.id ≠ entry.id) :
    neighbour entry.id previous (front ++ entry :: back) =
      match front.getLast?.or previous with
      | some anchor => some (anchor, false)
      | none => back.head?.map fun anchor => (anchor, true) := by
  induction front generalizing previous with
  | nil => cases previous <;> simp [neighbour]
  | cons head rest inductionHypothesis =>
      have headFresh := fresh head (by simp)
      have restFresh : ∀ other ∈ rest, other.id ≠ entry.id := fun other membership =>
        fresh other (by simp [membership])
      simp only [List.cons_append, neighbour, headFresh, if_false,
        inductionHypothesis _ restFresh]
      cases lastEq : rest.getLast? <;> simp [List.getLast?_cons, lastEq]

end SysrepoAugeas.Store
