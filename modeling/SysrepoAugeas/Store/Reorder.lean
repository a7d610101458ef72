import SysrepoAugeas.Store.MoveExact

/-!
# Reordering a whole list

A diff of a user-ordered list rebuilds the target from left to right: an entry
that is not at its place yet is moved right behind its predecessor, always
towards the front.  The direction guessed from the keys is compared with this
for every move of such a diff, on lists with distinct labels loaded with the
keys `1 .. n`.
-/

namespace SysrepoAugeas.Store

variable {T : Type}

/-- Moves of a diff between two orders of the keys; `previous` names the predecessor
of the place that is filled next. -/
def userOrderedDiff (previous : KeyMeta) : List Nat → List Nat → List (DiffOp T)
  | current :: rest, wanted :: target =>
      if current = wanted then userOrderedDiff (.after wanted) rest target
      else
        .move wanted previous ::
          userOrderedDiff (.after wanted) ((current :: rest).erase wanted) target
  | _, _ => []

def positionOf (id : Nat) (data : List (Entry T)) : Nat :=
  data.findIdx fun node => node.id == id

/-- The flag computed for a move says whether the new position precedes the old one. -/
def DirectionRight (data : List (Entry T)) : DiffOp T → Prop
  | .move id keyMeta =>
      ∃ next node anchor augBefore,
        augdsStoreDiffDataUpdate data (.move id keyMeta) = some next ∧
          (next.find? fun node => node.id == id) = some node ∧
          augdsStoreAnchor id next = some (anchor, augBefore) ∧
          augdsStoreMoveDirection node anchor =
            some (decide (positionOf id next < positionOf id data))
  | _ => True

/-- The flag is right at every step of a sequence of moves. -/
def DirectionsRight : List (Entry T) → List (DiffOp T) → Prop
  | _, [] => True
  | data, op :: rest =>
      DirectionRight data op ∧
        ∀ next, augdsStoreDiffDataUpdate data op = some next → DirectionsRight next rest

/-- Every key with a smaller one behind it is moved; then it needs an indexed path and a
predecessor with a smaller key.  The first place has the first key behind it. -/
def ReorderSafe (data : List (Entry T)) : Nat → List Nat → Prop
  | _, [] => True
  | previous, key :: rest =>
      ((∃ later ∈ rest, later < key) →
        (∀ entry ∈ data, entry.id = key → entry.isSequential = false) ∧
          previous % 2 ^ 32 < key % 2 ^ 32) ∧
        ReorderSafe data key rest

/-- Every flag of the moves is right, and they leave the Augeas siblings in the given
order, each with its value and subtree. -/
def ReorderStored (data : List (Entry T)) (order : List Nat) (ops : List (DiffOp T)) : Prop :=
  DirectionsRight data ops ∧
    ∃ final : List (Entry T), final.Perm data ∧ final.map Entry.id = order ∧
      augdsStoreRun ⟨data, data.map Entry.toAug⟩ ops = some ⟨final, final.map Entry.toAug⟩

section Step

variable {placed passed rest : List (Entry T)} {entry anchor : Entry T}

theorem positionOf_split {front back : List (Entry T)}
    (keys : UniqueKeys (front ++ entry :: back)) :
    positionOf entry.id (front ++ entry :: back) = front.length := by
  have absent : ∀ other ∈ front, ¬ (other.id == entry.id) = true := by
    simpa using keys.id_ne_of_mem_front
  have skipped : front.findIdx (fun node => node.id == entry.id) = front.length :=
    List.findIdx_eq_length.mpr (by simpa using absent)
  simp [positionOf, List.findIdx_append, List.findIdx_cons, skipped]

/-- All moves of the diff go towards the front. -/
theorem directionRight_iff
    (keys : UniqueKeys (placed ++ passed ++ entry :: rest)) (nonempty : passed ≠ [])
    (anchored : moveAnchor placed (passed ++ rest) = some anchor) :
    DirectionRight (placed ++ passed ++ entry :: rest) (.move entry.id (keyMetaOf placed)) ↔
      augdsStoreMoveDirection entry anchor = some true := by
  have others : (placed ++ passed) ++ rest = placed ++ (passed ++ rest) := by simp
  have keysNew : UniqueKeys (placed ++ entry :: (passed ++ rest)) :=
    keys.of_perm (perm_of_others others)
  have towardsFront : positionOf entry.id (placed ++ entry :: (passed ++ rest)) <
      positionOf entry.id (placed ++ passed ++ entry :: rest) := by
    rw [positionOf_split keys, positionOf_split keysNew]
    simpa using List.length_pos_iff.mpr nonempty
  have updated := augdsStoreDiffDataUpdate_move keys others
  have chosen := augdsStoreAnchor_move keysNew anchored
  constructor
  · rintro ⟨next, node, anchor', augBefore, updated', found, chosen', direction⟩
    obtain rfl := Option.some.inj (updated'.symm.trans updated)
    obtain rfl := Option.some.inj (found.symm.trans keysNew.find_id)
    obtain ⟨rfl, -⟩ := Prod.mk.inj (Option.some.inj (chosen'.symm.trans chosen))
    rwa [decide_eq_true towardsFront] at direction
  · intro direction
    refine ⟨_, entry, anchor, _, updated, keysNew.find_id, chosen, ?_⟩
    rw [direction, decide_eq_true towardsFront]

theorem augdsStoreMoveDirection_eq_true_iff :
    augdsStoreMoveDirection entry anchor = some true ↔
      anchor.id % 2 ^ 32 < entry.id % 2 ^ 32 := by
  by_cases equal : entry.id % 2 ^ 32 = anchor.id % 2 ^ 32
  · rw [augdsStoreMoveDirection, if_pos equal, equal]
    simp
  · rw [augdsStoreMoveDirection, if_neg equal, Option.some.injEq, decide_eq_true_iff]

/-- With distinct labels a move towards the front is stored right as soon as its path has
an index and its flag is right; without an index it fails. -/
theorem reorderStored_move_iff {order : List Nat} {ops : List (DiffOp T)}
    (consistent : Consistent (placed ++ passed ++ entry :: rest))
    (labels : ((placed ++ passed ++ entry :: rest).map Entry.label).Nodup)
    (nonempty : passed ≠ [])
    (anchored : moveAnchor placed (passed ++ rest) = some anchor) :
    ReorderStored (placed ++ passed ++ entry :: rest) order
        (.move entry.id (keyMetaOf placed) :: ops) ↔
      (entry.isSequential = false ∧ anchor.id % 2 ^ 32 < entry.id % 2 ^ 32) ∧
        ReorderStored (placed ++ entry :: (passed ++ rest)) order ops := by
  have others : (placed ++ passed) ++ rest = placed ++ (passed ++ rest) := by simp
  have permuted := @perm_of_others _ _ _ _ _ entry others
  have updated := augdsStoreDiffDataUpdate_move consistent.keys others
  have sameEntry : ∀ one ∈ placed ++ passed ++ entry :: rest,
      ∀ other ∈ placed ++ passed ++ entry :: rest, one.label = other.label → one = other :=
    fun one oneIn other otherIn => List.inj_on_of_nodup_map labels oneIn otherIn
  have anchorIn : anchor ∈ placed ++ passed ++ entry :: rest := by
    have inOthers := mem_of_moveAnchor anchored
    simp only [List.mem_append, List.mem_cons] at inOthers ⊢
    tauto
  have stored : entry.isSequential = false → anchor.id % 2 ^ 32 < entry.id % 2 ^ 32 →
      augdsStoreDiff ⟨placed ++ passed ++ entry :: rest,
          (placed ++ passed ++ entry :: rest).map Entry.toAug⟩
          (.move entry.id (keyMetaOf placed)) =
        some ⟨placed ++ entry :: (passed ++ rest),
          (placed ++ entry :: (passed ++ rest)).map Entry.toAug⟩ := by
    intro plain smaller
    refine augdsStoreDiff_move consistent others ?_ plain anchored ?_ ?_ ?_
    · simpa using nonempty
    · intro _ other otherIn sameLabel
      rw [sameEntry other otherIn anchor anchorIn sameLabel]
    · rw [augdsStoreMoveDirection_eq_true_iff.mpr smaller]
      simpa using List.length_pos_iff.mpr nonempty
    · intro other otherIn sameLabel
      have inside : other ∈ placed ++ passed ++ entry :: rest := by
        simp only [List.mem_append, List.mem_cons] at otherIn ⊢
        tauto
      obtain rfl := sameEntry other inside entry (by simp) sameLabel
      exact absurd rfl (consistent.keys.id_ne_of_mem_remove other otherIn)
  constructor
  · rintro ⟨⟨direction, directions⟩, final, finalPerm, finalOrder, run⟩
    have smaller := augdsStoreMoveDirection_eq_true_iff.mp
      ((directionRight_iff consistent.keys nonempty anchored).mp direction)
    obtain ⟨reached, step, runRest⟩ := Option.bind_eq_some_iff.mp run
    obtain ⟨-, -, -, -, -, -, plain, -⟩ :=
      augdsStoreDiff_move_steps consistent others anchored step
    obtain rfl := Option.some.inj (step.symm.trans (stored plain smaller))
    exact ⟨⟨plain, smaller⟩, directions _ updated, final, finalPerm.trans permuted.symm,
      finalOrder, runRest⟩
  · rintro ⟨⟨plain, smaller⟩, directions, final, finalPerm, finalOrder, run⟩
    refine ⟨⟨?_, ?_⟩, final, finalPerm.trans permuted, finalOrder, ?_⟩
    · exact (directionRight_iff consistent.keys nonempty anchored).mpr
        (augdsStoreMoveDirection_eq_true_iff.mpr smaller)
    · intro next nextEq
      obtain rfl := Option.some.inj (nextEq.symm.trans updated)
      exact directions
    · simp only [augdsStoreRun, stored plain smaller, Option.bind_some, run]

end Step

section Run

theorem reorderSafe_of_perm {data other : List (Entry T)} (permuted : data.Perm other)
    (previous : Nat) (target : List Nat) :
    ReorderSafe data previous target ↔ ReorderSafe other previous target := by
  induction target generalizing previous with
  | nil => exact Iff.rfl
  | cons key rest inductionHypothesis =>
      simp only [ReorderSafe, inductionHypothesis, permuted.mem_iff]

/-- The smallest key comes first, so a key is at its place already exactly when no
smaller one is wanted behind it. -/
theorem exists_smaller_iff {head : Entry T} {rest : List (Entry T)} {key : Nat}
    {target : List Nat} (ascending : Ascending (head :: rest))
    (permuted : (key :: target).Perm ((head :: rest).map Entry.id)) :
    (∃ later ∈ target, later < key) ↔ head.id ≠ key := by
  have least : ∀ id ∈ key :: target, head.id ≤ id := by
    intro id membership
    obtain ⟨source, sourceIn, rfl⟩ := List.mem_map.mp (permuted.mem_iff.mp membership)
    rcases List.mem_cons.mp sourceIn with rfl | inRest
    · exact Nat.le_refl _
    · exact Nat.le_of_lt ((List.pairwise_cons.mp ascending).1 source inRest)
  constructor
  · rintro ⟨later, laterIn, smaller⟩ rfl
    have := least later (by simp [laterIn])
    omega
  · intro different
    have headIn : head.id ∈ key :: target := permuted.mem_iff.mpr (by simp)
    rcases List.mem_cons.mp headIn with same | inTarget
    · exact absurd same different
    · have bound := least key (by simp)
      exact ⟨head.id, inTarget, by omega⟩

theorem map_id_erase {front back : List (Entry T)} {entry : Entry T}
    (keys : UniqueKeys (front ++ entry :: back)) :
    ((front ++ entry :: back).map Entry.id).erase entry.id = (front ++ back).map Entry.id := by
  have absent : entry.id ∉ front.map Entry.id := by
    simpa using keys.id_ne_of_mem_front
  rw [List.map_append, List.erase_append_right _ absent]
  simp

theorem keyMetaOf_concat (placed : List (Entry T)) (entry : Entry T) :
    keyMetaOf (placed ++ [entry]) = .after entry.id := by
  simp [keyMetaOf]

theorem moveAnchor_concat {placed rest : List (Entry T)} {entry : Entry T} :
    ∀ anchor, moveAnchor (placed ++ [entry]) rest = some anchor → anchor.id = entry.id := by
  intro anchor anchored
  obtain rfl : entry = anchor := by simpa [moveAnchor] using anchored
  rfl

/-- The next wanted entry stands further back: one move brings it behind the placed ones. -/
theorem reorderStored_wanted_iff {placed passed tail : List (Entry T)} {entry anchor : Entry T}
    {target : List Nat} (consistent : Consistent (placed ++ (passed ++ entry :: tail)))
    (labels : ((placed ++ (passed ++ entry :: tail)).map Entry.label).Nodup)
    (nonempty : passed ≠ [])
    (anchored : moveAnchor placed (passed ++ tail) = some anchor) :
    ReorderStored (placed ++ (passed ++ entry :: tail)) (placed.map Entry.id ++ entry.id :: target)
        (userOrderedDiff (keyMetaOf placed) ((passed ++ entry :: tail).map Entry.id)
          (entry.id :: target)) ↔
      (entry.isSequential = false ∧ anchor.id % 2 ^ 32 < entry.id % 2 ^ 32) ∧
        ReorderStored ((placed ++ [entry]) ++ (passed ++ tail))
          ((placed ++ [entry]).map Entry.id ++ target)
          (userOrderedDiff (keyMetaOf (placed ++ [entry])) ((passed ++ tail).map Entry.id)
            target) := by
  have keys : UniqueKeys (passed ++ entry :: tail) := by
    have whole := consistent.keys
    rw [UniqueKeys, List.map_append] at whole
    exact (List.nodup_append.mp whole).2.1
  have erased := map_id_erase keys
  rw [← List.append_assoc] at consistent labels ⊢
  have moveIff := @reorderStored_move_iff _ _ _ _ _ _ (placed.map Entry.id ++ entry.id :: target)
      (userOrderedDiff (.after entry.id) ((passed ++ tail).map Entry.id) target) consistent labels
      nonempty anchored
  have diffEq : (userOrderedDiff (keyMetaOf placed) ((passed ++ entry :: tail).map Entry.id)
      (entry.id :: target) : List (DiffOp T)) =
        .move entry.id (keyMetaOf placed) ::
          userOrderedDiff (.after entry.id) ((passed ++ tail).map Entry.id) target := by
    cases passed with
    | nil => exact absurd rfl nonempty
    | cons head passed =>
        have different : head.id ≠ entry.id := keys.id_ne_of_mem_front head (by simp)
        simp only [List.cons_append, List.map_cons] at erased ⊢
        rw [userOrderedDiff, if_neg different, erased]
  rw [diffEq, moveIff, keyMetaOf_concat]
  simp

/-- The entries in front are placed; the induction is on the rest of the target. -/
theorem reorderStored_iff_reorderSafe_placed (target : List Nat)
    (placed remaining : List (Entry T))
    (previous : Nat) (consistent : Consistent (placed ++ remaining))
    (labels : ((placed ++ remaining).map Entry.label).Nodup) (ascending : Ascending remaining)
    (permuted : target.Perm (remaining.map Entry.id))
    (anchorKey : ∀ anchor, moveAnchor placed remaining = some anchor → anchor.id = previous) :
    ReorderStored (placed ++ remaining) (placed.map Entry.id ++ target)
        (userOrderedDiff (keyMetaOf placed) (remaining.map Entry.id) target) ↔
      ReorderSafe (placed ++ remaining) previous target := by
  induction target generalizing placed remaining previous with
  | nil =>
      obtain rfl : remaining = [] := by simpa using permuted.symm
      simp [ReorderStored, ReorderSafe, userOrderedDiff, DirectionsRight, augdsStoreRun]
  | cons key target inductionHypothesis =>
      obtain ⟨passed, entry, tail, rfl, rfl⟩ := exists_split_of_mem_keys
        (permuted.mem_iff.mp (List.mem_cons_self (a := key)))
      have permutedRest : target.Perm ((passed ++ tail).map Entry.id) := by
        have := permuted.trans (List.perm_middle.map Entry.id)
        simpa using this
      have permutedData : ((placed ++ [entry]) ++ (passed ++ tail)).Perm
          (placed ++ (passed ++ entry :: tail)) := by
        simpa using (@List.perm_middle _ entry passed tail).symm.append_left placed
      have next := inductionHypothesis (placed ++ [entry]) (passed ++ tail) entry.id
        (consistent.of_perm permutedData)
        ((permutedData.map Entry.label).nodup_iff.mpr labels)
        (ascending.sublist (by simp)) permutedRest moveAnchor_concat
      rw [reorderSafe_of_perm permutedData] at next
      cases passed with
      | nil =>
          have smaller := exists_smaller_iff ascending permuted
          have inPlace : ¬ ∃ later ∈ target, later < entry.id := by simp [smaller]
          rw [keyMetaOf_concat] at next
          simp only [List.nil_append, List.map_cons, userOrderedDiff, if_true, ReorderSafe,
            inPlace, false_implies, true_and]
          simpa using next
      | cons head passed =>
          have different : head.id ≠ entry.id := by
            have keys := consistent.keys
            rw [← List.append_assoc] at keys
            exact keys.id_ne_of_mem_front head (by simp)
          have smaller := exists_smaller_iff ascending permuted
          have wanted : ∃ later ∈ target, later < entry.id := smaller.mpr different
          have plainIff : (∀ other ∈ placed ++ (head :: passed ++ entry :: tail),
              other.id = entry.id → other.isSequential = false) ↔
                entry.isSequential = false := by
            constructor
            · intro plain
              exact plain entry (by simp) rfl
            · intro plain other otherIn sameKey
              have keys := consistent.keys
              rw [← List.append_assoc] at keys otherIn
              rwa [keys.eq_of_id otherIn sameKey]
          obtain ⟨anchor, anchored⟩ : ∃ anchor,
              moveAnchor placed (head :: passed ++ tail) = some anchor := by
            rcases placed.eq_nil_or_concat with rfl | ⟨init, last, rfl⟩ <;> simp [moveAnchor]
          obtain rfl := anchorKey anchor anchored
          rw [reorderStored_wanted_iff consistent labels (by simp) anchored, next, ReorderSafe,
            plainIff]
          simp [wanted]

theorem consistent_of_labels {data : List (Entry T)} (keys : UniqueKeys data)
    (labels : (data.map Entry.label).Nodup) : Consistent data where
  keys := keys
  schema first firstIn second secondIn sameLabel := by
    rw [List.inj_on_of_nodup_map labels firstIn secondIn sameLabel]

end Run

end SysrepoAugeas.Store
