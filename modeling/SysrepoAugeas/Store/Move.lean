import SysrepoAugeas.Store.Agree

/-!
# Moving one entry

A move inserts an empty node with the label at the anchor and then moves
`label[k+1]` over `label[k]` or the other way round.  Both paths are computed
on the reordered YANG data, so they name the old and the new copy of the node
only if no sibling with the same label lies between the two places.
-/

namespace SysrepoAugeas.Store

open SysrepoAugeas.Data

variable {T : Type}

/-- Metadata naming the entry behind which the moved one is put. -/
def keyMetaOf (before : List (Entry T)) : KeyMeta :=
  match before.getLast? with
  | some previous => .after previous.id
  | none => .first

/-- Entry next to which the moved one is put: behind it, or in front of it when the
moved one becomes the first. -/
def moveAnchor (before after : List (Entry T)) : Option (Entry T) :=
  before.getLast?.or after.head?

theorem mem_of_moveAnchor {before after : List (Entry T)} {anchor : Entry T}
    (anchored : moveAnchor before after = some anchor) : anchor ∈ before ++ after := by
  rcases Option.or_eq_some_iff.mp anchored with isLast | ⟨-, isHead⟩
  · exact List.mem_append_left _ (List.mem_of_getLast? isLast)
  · exact List.mem_append_right _ (List.mem_of_head? isHead)

section Move

variable {front back before after : List (Entry T)} {entry anchor : Entry T}

theorem perm_of_others (others : front ++ back = before ++ after) :
    (before ++ entry :: after).Perm (front ++ entry :: back) :=
  calc (before ++ entry :: after).Perm (entry :: (before ++ after)) := List.perm_middle
    _ = entry :: (front ++ back) := by rw [others]
    _ |>.Perm (front ++ entry :: back) := List.perm_middle.symm

/-- The list instance is moved in the diff data before its node is processed. -/
theorem augdsStoreDiffDataUpdate_move (keys : UniqueKeys (front ++ entry :: back))
    (others : front ++ back = before ++ after) :
    augdsStoreDiffDataUpdate (front ++ entry :: back) (.move entry.id (keyMetaOf before)) =
      some (before ++ entry :: after) := by
  simp only [augdsStoreDiffDataUpdate, keys.find_id, Option.bind_some]
  rcases before.eq_nil_or_concat with rfl | ⟨init, last, rfl⟩
  · rw [List.nil_append] at others
    simp [keyMetaOf, placeInstance_first keys, others]
  · have split : front ++ back = init ++ last :: after := by simpa using others
    simp [keyMetaOf, placeInstance_after keys split]

/-- The node of the moved entry has a neighbour to be anchored at. -/
theorem augdsStoreAnchor_move (keys : UniqueKeys (before ++ entry :: after))
    (anchored : moveAnchor before after = some anchor) :
    augdsStoreAnchor entry.id (before ++ entry :: after) =
      some (anchor, before.isEmpty) := by
  rw [augdsStoreAnchor, neighbour_split none before entry after keys.id_ne_of_mem_front]
  rcases before.eq_nil_or_concat with rfl | ⟨init, last, rfl⟩
  · simp only [moveAnchor, List.getLast?_nil, Option.none_or] at anchored
    simp [anchored]
  · simp only [moveAnchor, List.concat_eq_append, List.getLast?_concat, Option.some_or,
      Option.some.injEq] at anchored
    simp [anchored]

/-- The move step after its paths have been looked up in the reordered data. -/
theorem augdsStoreDiff_move_eq (consistent : Consistent (front ++ entry :: back))
    (others : front ++ back = before ++ after)
    (anchored : moveAnchor before after = some anchor) (aug : List (AugNode T)) :
    augdsStoreDiff ⟨front ++ entry :: back, aug⟩ (.move entry.id (keyMetaOf before)) =
      (augdsStoreDiffInsertAnchorPath anchor before.isEmpty (before ++ entry :: after)
        (entry.pathAfter before)).bind fun anchorPath =>
      (augdsStoreMoveDirection entry anchor).bind fun augMovedBack =>
      (augdsStoreDiffApply .move (entry.pathAfter before) (some anchorPath) before.isEmpty none
        augMovedBack aug).bind fun aug' =>
      some ⟨before ++ entry :: after, aug'⟩ := by
  have consistentNew : Consistent (before ++ entry :: after) :=
    consistent.of_perm (perm_of_others others)
  simp only [augdsStoreDiff, augdsStoreDiffDataUpdate_move consistent.keys others,
    Option.bind_eq_bind, Option.bind_some, consistentNew.keys.find_id,
    augdsStorePath_split consistentNew, augdsStoreAnchor_move consistentNew.keys anchored]

/-- The other copy of the label has the next rank. -/
theorem augdsStoreDiffPathNextIdx_pathAfter (plain : entry.isSequential = false)
    (before : List (Entry T)) :
    augdsStoreDiffPathNextIdx (entry.pathAfter before) =
      some ⟨entry.label, some (before.countP entry.sameLabel + 2)⟩ := by
  simp [augdsStoreDiffPathNextIdx, Entry.pathAfter, plain]

theorem countP_sameLabel_eq_zero {middle : List (Entry T)}
    (apart : ∀ other ∈ middle, other.label ≠ entry.label) :
    middle.countP entry.sameLabel = 0 := by
  simpa [List.countP_eq_zero] using apart

/-- Applying a move back: `label[k+1]` goes over the new `label[k]`. -/
theorem augdsStoreDiffApply_move_back {middle : List (Entry T)} {anchorPath : AugPath}
    {augBefore : Bool} {aug : List (AugNode T)} (plain : entry.isSequential = false)
    (apart : ∀ other ∈ middle, other.label ≠ entry.label)
    (inserted : augInsert anchorPath entry.label augBefore aug =
      some (before.map Entry.toAug ++ ⟨entry.label, Content.empty⟩ ::
        (middle.map Entry.toAug ++ entry.toAug :: back.map Entry.toAug))) :
    augdsStoreDiffApply .move (entry.pathAfter before) (some anchorPath) augBefore none true aug =
      some ((before ++ entry :: (middle ++ back)).map Entry.toAug) := by
  have newLocated : (entry.pathAfter before).locate (before.map Entry.toAug ++
      ⟨entry.label, Content.empty⟩ ::
        (middle.map Entry.toAug ++ entry.toAug :: back.map Entry.toAug)) =
      [(before.map Entry.toAug).length] :=
    Entry.locate_pathAfter rfl (countP_hasLabel_map _ _) fun sequential => by
      simp [plain] at sequential
  have oldLocated := @AugPath.locate_ranked _ entry.label
      (before.map Entry.toAug ++ ⟨entry.label, Content.empty⟩ :: middle.map Entry.toAug)
      entry.toAug rfl (back.map Entry.toAug)
  simp only [List.countP_append, List.countP_cons, countP_hasLabel_map,
    countP_sameLabel_eq_zero apart, AugNode.hasLabel, beq_self_eq_true, if_true,
    List.append_assoc, List.cons_append, Nat.zero_add] at oldLocated
  have moved := augMv_back oldLocated newLocated
  simp only [augdsStoreDiffApply, Option.bind_eq_bind, Option.bind_some,
    Entry.pathAfter_label, inserted, augdsStoreDiffPathNextIdx_pathAfter plain, if_true, moved]
  simp [Entry.toAug]

/-- Applying a move forward: `label[k]` goes over the new `label[k+1]`. -/
theorem augdsStoreDiffApply_move_forth {middle : List (Entry T)} {anchorPath : AugPath}
    {augBefore : Bool} {aug : List (AugNode T)} (plain : entry.isSequential = false)
    (apart : ∀ other ∈ middle, other.label ≠ entry.label)
    (inserted : augInsert anchorPath entry.label augBefore aug =
      some (front.map Entry.toAug ++ entry.toAug :: (middle.map Entry.toAug ++
        ⟨entry.label, Content.empty⟩ :: after.map Entry.toAug))) :
    augdsStoreDiffApply .move (entry.pathAfter (front ++ middle)) (some anchorPath) augBefore none
        false aug =
      some ((front ++ middle ++ entry :: after).map Entry.toAug) := by
  have none_between := countP_sameLabel_eq_zero apart
  have oldLocated : (entry.pathAfter (front ++ middle)).locate (front.map Entry.toAug ++
      entry.toAug :: (middle.map Entry.toAug ++
        ⟨entry.label, Content.empty⟩ :: after.map Entry.toAug)) =
      [(front.map Entry.toAug).length] :=
    Entry.locate_pathAfter rfl (by
      rw [countP_hasLabel_map]
      simp [none_between]) fun sequential => by
      simp [plain] at sequential
  have newLocated := @AugPath.locate_ranked _ entry.label
      (front.map Entry.toAug ++ entry.toAug :: middle.map Entry.toAug)
      ⟨entry.label, Content.empty⟩ rfl (after.map Entry.toAug)
  simp only [List.countP_append, List.countP_cons, countP_hasLabel_map, none_between,
    AugNode.hasLabel, Entry.toAug_label, beq_self_eq_true, if_true, List.append_assoc,
    List.cons_append, Nat.zero_add] at newLocated
  have moved := augMv_forth oldLocated newLocated
  have rank : (front ++ middle).countP entry.sameLabel = front.countP entry.sameLabel := by
    simp [none_between]
  simp only [augdsStoreDiffApply, Option.bind_eq_bind, Option.bind_some,
    Entry.pathAfter_label, inserted, augdsStoreDiffPathNextIdx_pathAfter plain, rank,
    Bool.false_eq_true, if_false, moved]
  simp [Entry.toAug]

/-- The sequential anchor is alone with its label among the other siblings. -/
theorem map_toAug_label_ne_anchor {data part : List (Entry T)}
    (anchorUnique : anchor.isSequential = true →
      ∀ other ∈ data, other.label = anchor.label → other.id = anchor.id)
    (included : part ⊆ data) (fresh : ∀ other ∈ part, other.id ≠ anchor.id)
    (sequential : anchor.isSequential = true) :
    ∀ node ∈ part.map Entry.toAug, node.label ≠ anchor.label := by
  intro node membership sameLabel
  obtain ⟨source, sourceIn, rfl⟩ := List.mem_map.mp membership
  exact fresh source sourceIn (anchorUnique sequential source (included sourceIn) sameLabel)

/-- The empty node is put behind the anchor while the moved entry still stands in
front of it. -/
theorem augInsert_move_forth {init : List (Entry T)}
    (consistent : Consistent (front ++ entry :: (init ++ anchor :: after)))
    (different : anchor.label ≠ entry.label)
    (anchorUnique : anchor.isSequential = true →
      ∀ other ∈ front ++ entry :: (init ++ anchor :: after),
        other.label = anchor.label → other.id = anchor.id) (augPath : AugPath) :
    ∃ anchorPath,
      augdsStoreDiffInsertAnchorPath anchor false
          (front ++ (init ++ [anchor]) ++ entry :: after) augPath = some anchorPath ∧
        augInsert anchorPath entry.label false
            ((front ++ entry :: (init ++ anchor :: after)).map Entry.toAug) =
          some (front.map Entry.toAug ++ entry.toAug :: ((init ++ [anchor]).map Entry.toAug ++
            ⟨entry.label, Content.empty⟩ :: after.map Entry.toAug)) := by
  have regroup : front ++ entry :: (init ++ anchor :: after) =
      (front ++ entry :: init) ++ anchor :: after := by simp
  have keys := consistent.keys
  have consistentNew : Consistent ((front ++ init) ++ anchor :: entry :: after) := by
    refine consistent.of_perm ?_
    simpa using @perm_of_others _ front (init ++ anchor :: after) (front ++ (init ++ [anchor]))
        after entry (by simp)
  rw [regroup] at keys anchorUnique ⊢
  obtain ⟨anchorPath, pathEq, inserted⟩ := @augInsert_behind_anchor _ _ _ _ consistentNew
      ((front ++ entry :: init).map Entry.toAug) (after.map Entry.toAug) (by
      rw [countP_hasLabel_map]
      simp [different.symm]) (fun sequential =>
      ⟨map_toAug_label_ne_anchor anchorUnique (List.subset_append_left _ _)
          keys.id_ne_of_mem_front sequential,
        map_toAug_label_ne_anchor anchorUnique
          (fun _ membership => List.mem_append_right _ (List.mem_cons_of_mem _ membership))
          keys.id_ne_of_mem_back sequential⟩) augPath entry.label
  exact ⟨anchorPath, by simpa using pathEq, by simpa using inserted⟩

/-- The empty node is put next to the anchor while the moved entry still stands
further back. -/
theorem augInsert_move_back {middle : List (Entry T)}
    (consistent : Consistent (before ++ (middle ++ entry :: back)))
    (nonempty : middle ≠ [])
    (apart : ∀ other ∈ middle, other.label ≠ entry.label)
    (anchored : moveAnchor before (middle ++ back) = some anchor)
    (anchorUnique : anchor.isSequential = true →
      ∀ other ∈ before ++ (middle ++ entry :: back),
        other.label = anchor.label → other.id = anchor.id) :
    ∃ anchorPath,
      augdsStoreDiffInsertAnchorPath anchor before.isEmpty
          (before ++ entry :: (middle ++ back)) (entry.pathAfter before) = some anchorPath ∧
        augInsert anchorPath entry.label before.isEmpty
            ((before ++ (middle ++ entry :: back)).map Entry.toAug) =
          some (before.map Entry.toAug ++ ⟨entry.label, Content.empty⟩ ::
            (middle.map Entry.toAug ++ entry.toAug :: back.map Entry.toAug)) := by
  have consistentNew : Consistent (before ++ entry :: (middle ++ back)) := by
    refine consistent.of_perm ?_
    simpa using @perm_of_others _ (before ++ middle) back before (middle ++ back) entry (by simp)
  have keys := consistent.keys
  rcases before.eq_nil_or_concat with rfl | ⟨init, last, rfl⟩
  · cases middle with
    | nil => exact absurd rfl nonempty
    | cons next rest =>
        simp only [moveAnchor, List.getLast?_nil, Option.none_or, List.cons_append,
          List.head?_cons, Option.some.injEq] at anchored
        subst anchored
        have different := apart next (by simp)
        obtain ⟨anchorPath, pathEq, inserted⟩ := @augInsert_before_anchor _ _ _ _
            (by simpa using consistentNew) ((rest ++ entry :: back).map Entry.toAug)
            (fun sameLabel => absurd sameLabel.symm different)
            (map_toAug_label_ne_anchor anchorUnique (by simp)
            (@UniqueKeys.id_ne_of_mem_back _ [] _ _ keys))
        exact ⟨anchorPath, by simpa using pathEq, by simpa using inserted⟩
  · simp only [moveAnchor, List.concat_eq_append, List.getLast?_concat, Option.some_or,
      Option.some.injEq] at anchored
    subst anchored
    simp only [List.concat_eq_append, List.append_assoc, List.singleton_append] at *
    obtain ⟨anchorPath, pathEq, inserted⟩ := @augInsert_behind_anchor _ _ _ _ consistentNew
        (init.map Entry.toAug) ((middle ++ entry :: back).map Entry.toAug)
        (countP_hasLabel_map _ _) (fun sequential =>
        ⟨map_toAug_label_ne_anchor anchorUnique (by simp) keys.id_ne_of_mem_front sequential,
          map_toAug_label_ne_anchor anchorUnique (by simp) keys.id_ne_of_mem_back sequential⟩)
        (entry.pathAfter (init ++ [last])) entry.label
    have notFirst : (init ++ [last]).isEmpty = false := by simp [List.isEmpty_eq_false_iff]
    rw [notFirst]
    exact ⟨anchorPath, by simpa using pathEq, by simpa using inserted⟩

/-- A move with the right direction, past no entry with the same label, gives the
new YANG order. -/
theorem augdsStoreDiff_move (consistent : Consistent (front ++ entry :: back))
    (others : front ++ back = before ++ after) (moved : before ≠ front)
    (plain : entry.isSequential = false)
    (anchored : moveAnchor before after = some anchor)
    (anchorUnique : anchor.isSequential = true →
      ∀ other ∈ front ++ entry :: back, other.label = anchor.label → other.id = anchor.id)
    (direction : augdsStoreMoveDirection entry anchor =
      some (decide (before.length < front.length)))
    (apart : ∀ other ∈ front ++ back, other.label = entry.label →
      (other ∈ front ↔ other ∈ before)) :
    augdsStoreDiff ⟨front ++ entry :: back, (front ++ entry :: back).map Entry.toAug⟩
        (.move entry.id (keyMetaOf before)) =
      some ⟨before ++ entry :: after, (before ++ entry :: after).map Entry.toAug⟩ := by
  have disjoint := consistent.keys.remove
  rw [augdsStoreDiff_move_eq consistent others anchored, direction]
  rcases List.append_eq_append_iff.mp others with ⟨middle, rfl, rfl⟩ | ⟨middle, rfl, rfl⟩
  · -- forward, behind the last entry of `middle`
    have passed : ∀ other ∈ middle, other.label ≠ entry.label := by
      intro other membership sameLabel
      have inFront := (apart other (by simp [membership]) sameLabel).mpr (by simp [membership])
      exact disjoint.not_mem_of_mem (by simp [membership]) inFront
    rcases middle.eq_nil_or_concat with rfl | ⟨init, last, rfl⟩
    · simp at moved
    · simp only [List.concat_eq_append] at *
      have anchorLast : last = anchor := by simpa [moveAnchor] using anchored
      subst anchorLast
      obtain ⟨anchorPath, pathEq, inserted⟩ := augInsert_move_forth (by simpa using consistent)
        (passed last (by simp)) (by simpa using anchorUnique)
        (entry.pathAfter (front ++ (init ++ [last])))
      have applied := augdsStoreDiffApply_move_forth plain passed inserted
      have notFirst : (front ++ (init ++ [last])).isEmpty = false := by
        simp [List.isEmpty_eq_false_iff]
      have longer : ¬ (front ++ (init ++ [last])).length < front.length := by simp
      simp only [notFirst, pathEq, Option.bind_some, longer, decide_false]
      rw [List.append_assoc init, List.singleton_append, applied]
      rfl
  · -- back, in front of `middle`
    have passed : ∀ other ∈ middle, other.label ≠ entry.label := by
      intro other membership sameLabel
      have inBefore := (apart other (by simp [membership]) sameLabel).mp (by simp [membership])
      rw [List.append_assoc] at disjoint
      exact disjoint.not_mem_of_mem (by simp [membership]) inBefore
    have nonempty : middle ≠ [] := by
      rintro rfl
      simp at moved
    obtain ⟨anchorPath, pathEq, inserted⟩ := augInsert_move_back (by simpa using consistent)
      nonempty passed anchored (by simpa using anchorUnique)
    have applied := augdsStoreDiffApply_move_back plain passed inserted
    have shorter : before.length < (before ++ middle).length := by
      have := List.length_pos_iff.mpr nonempty
      simp [this]
    simp only [pathEq, Option.bind_some, shorter, decide_true]
    rw [List.append_assoc, applied]
    rfl

end Move

end SysrepoAugeas.Store
