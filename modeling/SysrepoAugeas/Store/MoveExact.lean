import SysrepoAugeas.Store.Move

/-!
# When a single move is right

`MoveSafe` collects what the code needs and does not check.  The converse looks
at what a successful move can have done: the node that `aug_mv` removes must be
the empty one, hence the two copies have consecutive ranks with no node of the
label in between, and the one whose content survives is the moved entry.
-/

namespace SysrepoAugeas.Store

open SysrepoAugeas.Data

variable {T : Type}

/-- Everything a move of `entry` from between `front` and `back` to between
`before` and `after` relies on. -/
structure MoveSafe (front back before after : List (Entry T)) (entry : Entry T) : Prop where
  /-- The path of the moved node has an index. -/
  plain : entry.isSequential = false
  /-- A path without index selects the anchor alone. -/
  anchorUnique : ∀ anchor, moveAnchor before after = some anchor →
    anchor.isSequential = true →
      ∀ other ∈ front ++ entry :: back, other.label = anchor.label → other.id = anchor.id
  /-- Truncated to 32 bits, the keys still compare as they do. -/
  keysCompare : ∀ anchor, moveAnchor before after = some anchor →
    anchor.id % 2 ^ 32 ≠ entry.id % 2 ^ 32 ∧
      (anchor.id % 2 ^ 32 < entry.id % 2 ^ 32 ↔ anchor.id < entry.id)
  /-- The entry passes no other with its label. -/
  apart : ∀ other ∈ front ++ back, other.label = entry.label →
    (other ∈ front ↔ other ∈ before)

/-- The keys ascend in list order. -/
def Ascending (data : List (Entry T)) : Prop := data.Pairwise fun first second => first.id < second.id

instance (data : List (Entry T)) : Decidable (Ascending data) :=
  inferInstanceAs (Decidable (data.Pairwise fun first second => first.id < second.id))

section Direction

variable {front back before after : List (Entry T)} {entry anchor : Entry T}

/-- With ascending keys the anchor has the smaller key exactly for a move back. -/
theorem anchor_id_lt_iff (ascending : Ascending (front ++ entry :: back))
    (others : front ++ back = before ++ after) (moved : before ≠ front)
    (anchored : moveAnchor before after = some anchor) :
    anchor.id < entry.id ↔ before.length < front.length := by
  obtain ⟨-, ascendingBack, across⟩ := List.pairwise_append.mp ascending
  have frontLess : ∀ other ∈ front, other.id < entry.id := fun other membership =>
    across other membership entry (by simp)
  have backGreater : ∀ other ∈ back, entry.id < other.id :=
    (List.pairwise_cons.mp ascendingBack).1
  rcases List.append_eq_append_iff.mp others with ⟨middle, rfl, rfl⟩ | ⟨middle, rfl, rfl⟩
  · rcases middle.eq_nil_or_concat with rfl | ⟨init, last, rfl⟩
    · simp at moved
    · obtain rfl : last = anchor := by simpa [moveAnchor] using anchored
      have greater := backGreater last (by simp)
      simp only [List.length_append]
      omega
  · have inFront : anchor ∈ before ++ middle := by
      rcases before.eq_nil_or_concat with rfl | ⟨init, last, rfl⟩
      · cases middle with
        | nil => simp at moved
        | cons next rest =>
            obtain rfl : next = anchor := by simpa [moveAnchor] using anchored
            simp
      · obtain rfl : last = anchor := by simpa [moveAnchor] using anchored
        simp
    have nonempty : 0 < middle.length := by
      refine List.length_pos_iff.mpr ?_
      rintro rfl
      simp at moved
    have less := frontLess anchor inFront
    simp only [List.length_append]
    omega

/-- The direction is right exactly when truncation does not change the comparison. -/
theorem augdsStoreMoveDirection_eq_some_iff (ascending : Ascending (front ++ entry :: back))
    (others : front ++ back = before ++ after) (moved : before ≠ front)
    (anchored : moveAnchor before after = some anchor) :
    augdsStoreMoveDirection entry anchor = some (decide (before.length < front.length)) ↔
      anchor.id % 2 ^ 32 ≠ entry.id % 2 ^ 32 ∧
        (anchor.id % 2 ^ 32 < entry.id % 2 ^ 32 ↔ anchor.id < entry.id) := by
  rw [anchor_id_lt_iff ascending others moved anchored]
  by_cases equal : entry.id % 2 ^ 32 = anchor.id % 2 ^ 32
  · rw [augdsStoreMoveDirection, if_pos equal]
    simp only [reduceCtorEq, false_iff]
    exact fun both => both.1 equal.symm
  · rw [augdsStoreMoveDirection, if_neg equal, Option.some.injEq, decide_eq_decide]
    exact ⟨fun same => ⟨Ne.symm equal, same⟩, And.right⟩

theorem exists_moveAnchor (others : front ++ back = before ++ after) (moved : before ≠ front) :
    ∃ anchor, moveAnchor before after = some anchor := by
  rcases before.eq_nil_or_concat with rfl | ⟨init, last, rfl⟩
  · cases after with
    | nil =>
        have empty : front = [] := (List.append_eq_nil_iff.mp others).1
        exact absurd empty.symm moved
    | cons next rest => exact ⟨next, by simp [moveAnchor]⟩
  · exact ⟨last, by simp [moveAnchor]⟩

/-- A safe move gives the new YANG order. -/
theorem MoveSafe.augdsStoreDiff (safe : MoveSafe front back before after entry)
    (consistent : Consistent (front ++ entry :: back))
    (ascending : Ascending (front ++ entry :: back))
    (others : front ++ back = before ++ after) (moved : before ≠ front) :
    augdsStoreDiff ⟨front ++ entry :: back, (front ++ entry :: back).map Entry.toAug⟩
        (.move entry.id (keyMetaOf before)) =
      some ⟨before ++ entry :: after, (before ++ entry :: after).map Entry.toAug⟩ := by
  obtain ⟨anchor, anchored⟩ := exists_moveAnchor others moved
  exact augdsStoreDiff_move consistent others moved safe.plain anchored
    (safe.anchorUnique anchor anchored)
    ((augdsStoreMoveDirection_eq_some_iff ascending others moved anchored).mpr
      (safe.keysCompare anchor anchored)) safe.apart

end Direction

section Converse

/-! What a move that gave the right siblings must have done. -/

theorem AugPath.lt_length_of_mem_locate {path : AugPath} {siblings : List (AugNode T)}
    {position : Nat} (located : position ∈ path.locate siblings) :
    position < siblings.length := by
  obtain ⟨label, index⟩ := path
  cases index with
  | some rank =>
      simp only [AugPath.locate, Option.mem_toList] at located
      obtain ⟨front, element, back, rfl, rfl, -⟩ := nthPosition_eq_some located
      simp
  | none => exact lt_length_of_mem_positions located

theorem augInsert_eq_some {anchor : AugPath} {label : String} {before : Bool}
    {siblings inserted : List (AugNode T)}
    (done : augInsert anchor label before siblings = some inserted) :
    (∃ position, anchor.locate siblings = [position]) ∧
      ∃ front back, siblings = front ++ back ∧
        inserted = front ++ ⟨label, Content.empty⟩ :: back := by
  unfold augInsert at done
  split at done
  · rename_i position located
    refine ⟨⟨position, located⟩, ?_⟩
    have inside := @AugPath.lt_length_of_mem_locate _ anchor siblings position (by simp [located])
    simp only [Option.some.injEq] at done
    subst done
    generalize placeEq : (if before = true then position else position + 1) = place
    have bound : place ≤ siblings.length := by
      subst placeEq
      split <;> omega
    refine ⟨siblings.take place, siblings.drop place, (List.take_append_drop _ _).symm, ?_⟩
    have split := insertIdx_split (siblings.take place) ⟨label, Content.empty⟩
      (siblings.drop place)
    rwa [List.take_append_drop, List.length_take_of_le bound] at split
  · simp at done

theorem AugPath.locate_ranked_eq {label : String} {rank position : Nat}
    {siblings : List (AugNode T)} :
    (AugPath.mk label (some rank)).locate siblings = [position] ↔
      nthPosition (AugNode.hasLabel label) rank siblings = some position := by
  cases found : nthPosition (AugNode.hasLabel label) rank siblings <;>
    simp [AugPath.locate, found]

/-- Either both paths select a node, or the content is appended under the label. -/
theorem augMv_eq_some {source destination : AugPath} {siblings result : List (AugNode T)}
    (done : augMv source destination siblings = some result) :
    (∃ from_ to_, source.locate siblings = [from_] ∧ destination.locate siblings = [to_]) ∨
      ∃ front moved back, siblings = front ++ moved :: back ∧
        result = front ++ back ++ [⟨destination.label, moved.content⟩] := by
  unfold augMv at done
  split at done
  · rename_i from_ to_ sourceLocated destinationLocated
    exact .inl ⟨from_, to_, sourceLocated, destinationLocated⟩
  · rename_i from_ sourceLocated destinationLocated
    obtain ⟨moved, found, rfl⟩ := Option.map_eq_some_iff.mp done
    obtain ⟨bound, rfl⟩ := List.getElem?_eq_some_iff.mp found
    refine .inr ⟨siblings.take from_, siblings[from_], siblings.drop (from_ + 1), ?_, ?_⟩
    · simp
    · rw [List.eraseIdx_eq_take_drop_succ]
  · simp at done

/-- What `aug_mv` from `label[rank + 1]` to `label[rank]`, or the other way round, does:
it merges two nodes with the label and none of that label in between, or it appends. -/
theorem augMv_consecutive {label : String} {rank : Nat} {movedBack : Bool}
    {siblings result : List (AugNode T)}
    (done : augMv (if movedBack then ⟨label, some (rank + 1)⟩ else ⟨label, some rank⟩)
      (if movedBack then ⟨label, some rank⟩ else ⟨label, some (rank + 1)⟩) siblings =
        some result) :
    (∃ front first middle second back,
      siblings = front ++ first :: (middle ++ second :: back) ∧
        first.label = label ∧ second.label = label ∧
        (∀ node ∈ middle, node.label ≠ label) ∧
        result = if movedBack then front ++ second :: (middle ++ back)
          else front ++ (middle ++ first :: back)) ∨
      ∃ front moved back, siblings = front ++ moved :: back ∧
        result = front ++ back ++ [⟨label, moved.content⟩] := by
  rcases augMv_eq_some done with ⟨from_, to_, sourceLocated, destinationLocated⟩ | appended
  · left
    obtain ⟨lower, upper, lowerFound, upperFound⟩ :
        ∃ lower upper, nthPosition (AugNode.hasLabel label) rank siblings = some lower ∧
          nthPosition (AugNode.hasLabel label) (rank + 1) siblings = some upper := by
      cases movedBack with
      | false =>
          exact ⟨from_, to_, AugPath.locate_ranked_eq.mp sourceLocated,
            AugPath.locate_ranked_eq.mp destinationLocated⟩
      | true =>
          exact ⟨to_, from_, AugPath.locate_ranked_eq.mp destinationLocated,
            AugPath.locate_ranked_eq.mp sourceLocated⟩
    obtain ⟨front, first, middle, second, back, rfl, rfl, rfl, firstLabel, secondLabel,
      between, -⟩ := nthPosition_consecutive lowerFound upperFound
    rw [AugNode.hasLabel_eq_true] at firstLabel secondLabel
    refine ⟨front, first, middle, second, back, rfl, firstLabel, secondLabel, ?_, ?_⟩
    · simpa [List.countP_eq_zero] using between
    · have lowerLocated := AugPath.locate_ranked_eq.mpr lowerFound
      have upperLocated := AugPath.locate_ranked_eq.mpr upperFound
      cases movedBack with
      | false =>
          have merged := augMv_forth lowerLocated upperLocated
          simp only [Bool.false_eq_true, if_false] at done ⊢
          rw [done] at merged
          simpa [secondLabel, ← firstLabel] using merged
      | true =>
          have merged := augMv_back upperLocated lowerLocated
          simp only [if_true] at done ⊢
          rw [done] at merged
          simpa [firstLabel, ← secondLabel] using merged
  · right
    obtain ⟨front, moved, back, siblingsEq, resultEq⟩ := appended
    refine ⟨front, moved, back, siblingsEq, ?_⟩
    cases movedBack <;> exact resultEq

/-- Two orders of distinct elements that agree on the `kept` ones cannot differ in the
place of a kept element among kept ones. -/
theorem nil_of_filter_eq {Alpha : Type} {kept : Alpha → Bool} {front middle back : List Alpha}
    {element : Alpha} (nodup : (front ++ (middle ++ element :: back)).Nodup)
    (elementKept : kept element = true) (middleKept : ∀ other ∈ middle, kept other = true)
    (same : (front ++ (middle ++ element :: back)).filter kept =
      (front ++ element :: (middle ++ back)).filter kept) : middle = [] := by
  have middleSame := List.filter_eq_self.mpr middleKept
  simp only [List.filter_append, List.filter_cons, elementKept, if_true, middleSame,
    List.append_cancel_left_eq] at same
  cases middle with
  | nil => rfl
  | cons head rest =>
      simp only [List.cons_append, List.cons.injEq] at same
      obtain ⟨rfl, -⟩ := same
      simp [List.nodup_append] at nodup

section Merged

variable {front back before after : List (Entry T)} {entry : Entry T}

theorem UniqueKeys.not_mem_split (keys : UniqueKeys (front ++ entry :: back)) :
    entry ∉ front ∧ entry ∉ back :=
  ⟨fun membership => keys.id_ne_of_mem_front entry membership rfl,
    fun membership => keys.id_ne_of_mem_back entry membership rfl⟩

/-- A key in use belongs to one entry. -/
theorem UniqueKeys.eq_of_id (keys : UniqueKeys (front ++ entry :: back)) {other : Entry T}
    (inside : other ∈ front ++ entry :: back) (sameKey : other.id = entry.id) : other = entry := by
  simp only [List.mem_append, List.mem_cons] at inside
  rcases inside with inFront | rfl | inBack
  · exact absurd sameKey (keys.id_ne_of_mem_front other inFront)
  · rfl
  · exact absurd sameKey (keys.id_ne_of_mem_back other inBack)

theorem UniqueKeys.filter_id (keys : UniqueKeys (front ++ entry :: back)) :
    (front ++ entry :: back).filter (fun other => other.id != entry.id) = front ++ back := by
  have frontSame : front.filter (fun other => other.id != entry.id) = front := by
    simpa [List.filter_eq_self] using keys.id_ne_of_mem_front
  have backSame : back.filter (fun other => other.id != entry.id) = back := by
    simpa [List.filter_eq_self] using keys.id_ne_of_mem_back
  simp [List.filter_append, frontSame, backSame]

/-- Two orders of the entries that differ in the place of `entry`, and also in the place
of `shifted`, which passes other entries only: then `shifted` is the entry. -/
theorem split_of_shift {left middle right : List (Entry T)} {shifted : Entry T}
    (keys : UniqueKeys (front ++ entry :: back))
    (others : front ++ back = before ++ after) (moved : before ≠ front)
    (later : left ++ (middle ++ shifted :: right) = front ++ entry :: back)
    (earlier : left ++ shifted :: (middle ++ right) = before ++ entry :: after)
    (passed : entry ∉ middle) : front = left ++ middle ∧ before = left := by
  have keysNew : UniqueKeys (before ++ entry :: after) := keys.of_perm (perm_of_others others)
  have inside : ∀ other, other ∈ middle ∨ other = shifted → other ∈ front ++ entry :: back := by
    intro other membership
    rw [← later]
    simp only [List.mem_append, List.mem_cons]
    tauto
  have same : shifted = entry := by
    by_contra different
    have nothingPassed : middle = [] := by
      refine @nil_of_filter_eq _ (fun other => other.id != entry.id) left _ right shifted ?_ ?_ ?_
          ?_
      · rw [later]
        exact List.Nodup.of_map _ keys
      · simpa using fun sameKey => different (keys.eq_of_id (inside _ (.inr rfl)) sameKey)
      · intro other membership
        simp only [bne_iff_ne]
        intro sameKey
        exact passed (keys.eq_of_id (inside other (.inl membership)) sameKey ▸ membership)
      · rw [later, earlier, keys.filter_id, keysNew.filter_id, others]
    subst nothingPassed
    have unmoved := later.symm.trans earlier
    have notIn := keys.not_mem_split
    exact moved ((List.append_cons_inj_of_notMem notIn.1 notIn.2).mp unmoved).1.symm
  subst same
  have notIn := keys.not_mem_split
  have notInNew := keysNew.not_mem_split
  rw [← List.append_assoc] at later
  exact ⟨((List.append_cons_inj_of_notMem notIn.1 notIn.2).mp later.symm).1,
    ((List.append_cons_inj_of_notMem notInNew.1 notInNew.2).mp earlier.symm).1⟩

theorem eq_of_map_toAug_eq {first second : List (Entry T)}
    (injective : ∀ left ∈ first, ∀ right ∈ second, left.toAug = right.toAug → left = right)
    (same : first.map Entry.toAug = second.map Entry.toAug) : first = second := by
  induction first generalizing second with
  | nil => simpa using same
  | cons head rest inductionHypothesis =>
      cases second with
      | nil => simp at same
      | cons head' rest' =>
          simp only [List.map_cons, List.cons.injEq] at same
          rw [injective head (by simp) head' (by simp) same.1,
            inductionHypothesis (fun left leftIn right rightIn =>
              injective left (by simp [leftIn]) right (by simp [rightIn])) same.2]

/-- A shift among Augeas siblings with distinct contents is one among the entries. -/
theorem shift_of_map {later earlier : List (Entry T)} {left middle right : List (AugNode T)}
    {shifted : AugNode T}
    (injective : ∀ one ∈ later, ∀ other ∈ earlier, one.toAug = other.toAug → one = other)
    (laterEq : later.map Entry.toAug = left ++ (middle ++ shifted :: right))
    (earlierEq : earlier.map Entry.toAug = left ++ shifted :: (middle ++ right)) :
    ∃ front passed moved back, later = front ++ (passed ++ moved :: back) ∧
      earlier = front ++ moved :: (passed ++ back) ∧ passed.map Entry.toAug = middle := by
  obtain ⟨front, rest, rfl, rfl, restEq⟩ := List.map_eq_append_iff.mp laterEq
  obtain ⟨passed, tail, rfl, rfl, tailEq⟩ := List.map_eq_append_iff.mp restEq
  obtain ⟨moved, back, rfl, rfl, rfl⟩ := List.map_eq_cons_iff.mp tailEq
  refine ⟨front, passed, moved, back, rfl, Eq.symm ?_, rfl⟩
  refine eq_of_map_toAug_eq (fun one oneIn other otherIn => injective one ?_ other otherIn) ?_
  · simp only [List.mem_append, List.mem_cons] at oneIn ⊢
    tauto
  · simp [earlierEq]

/-- The empty node does not survive, so it is the one that `aug_mv` merged away. -/
theorem merged_away {label : String} {front back left middle right result : List (AugNode T)}
    {first second : AugNode T} {movedBack : Bool}
    (inserted : front ++ ⟨label, Content.empty⟩ :: back =
      left ++ first :: (middle ++ second :: right))
    (resultEq : result = if movedBack then left ++ second :: (middle ++ right)
      else left ++ (middle ++ first :: right))
    (gone : ∀ node ∈ result, node.content ≠ Content.empty) :
    front ++ back = if movedBack then left ++ (middle ++ second :: right)
      else left ++ first :: (middle ++ right) := by
  have absent : (⟨label, Content.empty⟩ : AugNode T) ∉ result := fun membership =>
    gone _ membership rfl
  cases movedBack with
  | true =>
      simp only [if_true] at resultEq ⊢
      subst resultEq
      simp only [List.mem_append, List.mem_cons, not_or] at absent
      obtain ⟨rfl, -, rfl⟩ := (@List.append_cons_inj_of_notMem _ left _
          (middle ++ second :: right) _ _ _ absent.1 (by
          simp only [List.mem_append, List.mem_cons, not_or]
          tauto)).mp inserted.symm
      rfl
  | false =>
      simp only [Bool.false_eq_true, if_false] at resultEq ⊢
      subst resultEq
      simp only [List.mem_append, List.mem_cons, not_or] at absent
      have regroup : left ++ first :: (middle ++ second :: right) =
          (left ++ first :: middle) ++ second :: right := by simp
      obtain ⟨rfl, -, rfl⟩ := (@List.append_cons_inj_of_notMem _ (left ++ first :: middle) _ right
          _ _ _ (by
          simp only [List.mem_append, List.mem_cons, not_or]
          tauto) absent.2.2.2).mp (regroup.symm.trans inserted.symm)
      simp

end Merged

section Exact

variable {front back before after : List (Entry T)} {entry anchor : Entry T}

/-- The steps of a move that returned the new YANG order in Augeas. -/
theorem augdsStoreDiff_move_steps (consistent : Consistent (front ++ entry :: back))
    (others : front ++ back = before ++ after)
    (anchored : moveAnchor before after = some anchor) {aug : List (AugNode T)}
    {reached : StoreState T}
    (stored : augdsStoreDiff ⟨front ++ entry :: back, aug⟩ (.move entry.id (keyMetaOf before)) =
      some reached) :
    ∃ anchorPath movedBack inserted,
      augdsStoreDiffInsertAnchorPath anchor before.isEmpty (before ++ entry :: after)
          (entry.pathAfter before) = some anchorPath ∧
        augdsStoreMoveDirection entry anchor = some movedBack ∧
        augInsert anchorPath entry.label before.isEmpty aug = some inserted ∧
        entry.isSequential = false ∧
        augMv
          (if movedBack then ⟨entry.label, some (before.countP entry.sameLabel + 1 + 1)⟩
            else ⟨entry.label, some (before.countP entry.sameLabel + 1)⟩)
          (if movedBack then ⟨entry.label, some (before.countP entry.sameLabel + 1)⟩
            else ⟨entry.label, some (before.countP entry.sameLabel + 1 + 1)⟩) inserted =
          some reached.aug := by
  rw [augdsStoreDiff_move_eq consistent others anchored] at stored
  simp only [Option.bind_eq_some_iff] at stored
  obtain ⟨anchorPath, pathEq, movedBack, direction, aug', applied, reachedEq⟩ := stored
  obtain rfl := Option.some.inj reachedEq
  simp only [augdsStoreDiffApply, Option.bind_eq_bind, Option.bind_some,
    Option.bind_eq_some_iff, Entry.pathAfter_label] at applied
  obtain ⟨inserted, insertedEq, nextPath, nextEq, mv⟩ := applied
  have plain : entry.isSequential = false := by
    by_contra sequential
    simp [augdsStoreDiffPathNextIdx, Entry.pathAfter, sequential] at nextEq
  rw [augdsStoreDiffPathNextIdx_pathAfter plain, Option.some.injEq] at nextEq
  subst nextEq
  refine ⟨anchorPath, movedBack, inserted, pathEq, direction, insertedEq, plain, ?_⟩
  simpa [Entry.pathAfter, plain] using mv

/-- A sequential anchor that was found is alone with its label. -/
theorem anchorUnique_of_locate (consistent : Consistent (front ++ entry :: back))
    (others : front ++ back = before ++ after)
    (anchored : moveAnchor before after = some anchor) (plain : entry.isSequential = false)
    {anchorPath : AugPath}
    (pathEq : augdsStoreDiffInsertAnchorPath anchor before.isEmpty (before ++ entry :: after)
      (entry.pathAfter before) = some anchorPath)
    {position : Nat}
    (located : anchorPath.locate ((front ++ entry :: back).map Entry.toAug) = [position])
    (sequential : anchor.isSequential = true) :
    ∀ other ∈ front ++ entry :: back, other.label = anchor.label → other.id = anchor.id := by
  have permuted := @perm_of_others _ _ _ _ _ entry others
  have anchorIn : anchor ∈ before ++ entry :: after := by
    have inOthers := mem_of_moveAnchor anchored
    simp only [List.mem_append, List.mem_cons] at inOthers ⊢
    tauto
  have anchorInOld := permuted.mem_iff.mp anchorIn
  have different : entry.label ≠ anchor.label := by
    intro sameLabel
    have sameSchema := consistent.schema entry (by simp) anchor anchorInOld sameLabel
    simp [Entry.isSequential, ← sameSchema] at sequential
    simp [Entry.isSequential, sequential] at plain
  have path : anchorPath = ⟨anchor.label, none⟩ := by
    have consistentNew := consistent.of_perm permuted
    obtain ⟨left, right, split⟩ := List.append_of_mem anchorIn
    rw [split] at pathEq consistentNew
    simpa [augdsStoreDiffInsertAnchorPath, augdsStorePath_split consistentNew, different,
      Entry.pathAfter, sequential] using pathEq.symm
  have once : (front ++ entry :: back).countP anchor.sameLabel = 1 := by
    have counted := congrArg List.length located
    rw [path] at counted
    rwa [AugPath.locate, length_positions, countP_hasLabel_map] at counted
  intro other otherIn sameLabel
  obtain ⟨left, right, split⟩ := List.append_of_mem anchorInOld
  rw [split] at once otherIn
  simp only [List.countP_append, List.countP_cons, Entry.sameLabel_eq_true, if_true] at once
  have noneLeft : left.countP anchor.sameLabel = 0 := by omega
  have noneRight : right.countP anchor.sameLabel = 0 := by omega
  simp only [List.countP_eq_zero, Entry.sameLabel_eq_true] at noneLeft noneRight
  simp only [List.mem_append, List.mem_cons] at otherIn
  rcases otherIn with inLeft | rfl | inRight
  · exact absurd sameLabel (noneLeft other inLeft)
  · rfl
  · exact absurd sameLabel (noneRight other inRight)

/-- The passed entries lie between the two places, and the flag is the true direction. -/
theorem shift_of_move (keys : UniqueKeys (front ++ entry :: back))
    (others : front ++ back = before ++ after) (moved : before ≠ front)
    (distinct : ((front ++ entry :: back).map Entry.toAug).Nodup)
    (filled : ∀ other ∈ front ++ entry :: back, other.content ≠ Content.empty)
    {anchorPath : AugPath} {augBefore movedBack : Bool} {rank : Nat}
    {inserted : List (AugNode T)}
    (insertedEq : augInsert anchorPath entry.label augBefore
      ((front ++ entry :: back).map Entry.toAug) = some inserted)
    (mv : augMv (if movedBack then ⟨entry.label, some (rank + 1)⟩ else ⟨entry.label, some rank⟩)
      (if movedBack then ⟨entry.label, some rank⟩ else ⟨entry.label, some (rank + 1)⟩) inserted =
        some ((before ++ entry :: after).map Entry.toAug)) :
    ∃ passed : List (Entry T), (∀ other ∈ passed, other.label ≠ entry.label) ∧
      if movedBack then front = before ++ passed else before = front ++ passed := by
  have permuted := @perm_of_others _ _ _ _ _ entry others
  have keysNew := keys.of_perm permuted
  have gone : ∀ node ∈ (before ++ entry :: after).map Entry.toAug,
      node.content ≠ Content.empty := by
    intro node membership
    obtain ⟨source, sourceIn, rfl⟩ := List.mem_map.mp membership
    exact filled source (permuted.mem_iff.mp sourceIn)
  have injective : ∀ one ∈ front ++ entry :: back, ∀ other ∈ before ++ entry :: after,
      one.toAug = other.toAug → one = other := fun one oneIn other otherIn =>
    List.inj_on_of_nodup_map distinct oneIn (permuted.mem_iff.mp otherIn)
  have notPassed : ∀ passed : List (Entry T),
      (∀ node ∈ passed.map Entry.toAug, node.label ≠ entry.label) →
        (∀ other ∈ passed, other.label ≠ entry.label) ∧ entry ∉ passed := by
    intro passed between
    have apart : ∀ other ∈ passed, other.label ≠ entry.label := fun other membership =>
      between other.toAug (List.mem_map_of_mem membership)
    exact ⟨apart, fun membership => apart entry membership rfl⟩
  obtain ⟨-, frontAug, backAug, siblingsEq, rfl⟩ := augInsert_eq_some insertedEq
  rcases augMv_consecutive mv with ⟨left, first, middle, second, right, insertedSplit, -, -,
    between, resultEq⟩ | ⟨left, shifted, right, insertedSplit, resultEq⟩
  · have siblings := siblingsEq.trans (merged_away insertedSplit resultEq gone)
    cases movedBack with
    | true =>
        obtain ⟨prior, passed, mover, rest, later, earlier, rfl⟩ :=
          shift_of_map injective siblings resultEq
        obtain ⟨apart, absent⟩ := notPassed passed between
        obtain ⟨frontEq, beforeEq⟩ :=
          split_of_shift keys others moved later.symm earlier.symm absent
        exact ⟨passed, apart, by rw [if_pos rfl, frontEq, beforeEq]⟩
    | false =>
        obtain ⟨prior, passed, mover, rest, later, earlier, rfl⟩ :=
          shift_of_map (fun one oneIn other otherIn same =>
            (injective other otherIn one oneIn same.symm).symm) resultEq siblings
        obtain ⟨apart, absent⟩ := notPassed passed between
        obtain ⟨beforeEq, frontEq⟩ :=
          split_of_shift keysNew others.symm moved.symm later.symm earlier.symm absent
        exact ⟨passed, apart, by simp [frontEq, beforeEq]⟩
  · -- the appended copy leaves the empty node behind
    have survives : ∃ node ∈ (before ++ entry :: after).map Entry.toAug,
        node.content = Content.empty := by
      refine ⟨⟨entry.label, Content.empty⟩, ?_, rfl⟩
      have present : (⟨entry.label, Content.empty⟩ : AugNode T) ∈ left ++ shifted :: right := by
        rw [← insertedSplit]
        simp
      rw [resultEq]
      simp only [List.mem_append, List.mem_cons, List.not_mem_nil, or_false] at present ⊢
      rcases present with inLeft | rfl | inRight
      · exact .inl (.inl inLeft)
      · exact .inr rfl
      · exact .inl (.inr inRight)
    obtain ⟨node, membership, empty⟩ := survives
    exact absurd empty (gone node membership)

/-- With distinct contents only a safe move gives the new YANG order. -/
theorem MoveSafe.of_augdsStoreDiff (consistent : Consistent (front ++ entry :: back))
    (ascending : Ascending (front ++ entry :: back))
    (others : front ++ back = before ++ after) (moved : before ≠ front)
    (distinct : ((front ++ entry :: back).map Entry.toAug).Nodup)
    (filled : ∀ other ∈ front ++ entry :: back, other.content ≠ Content.empty)
    (stored : Store.augdsStoreDiff
        ⟨front ++ entry :: back, (front ++ entry :: back).map Entry.toAug⟩
        (.move entry.id (keyMetaOf before)) =
      some ⟨before ++ entry :: after, (before ++ entry :: after).map Entry.toAug⟩) :
    MoveSafe front back before after entry := by
  obtain ⟨anchor, anchored⟩ := exists_moveAnchor others moved
  obtain ⟨anchorPath, movedBack, inserted, pathEq, direction, insertedEq, plain, mv⟩ :=
    augdsStoreDiff_move_steps consistent others anchored stored
  obtain ⟨passed, apart, places⟩ :=
    shift_of_move consistent.keys others moved distinct filled insertedEq mv
  obtain ⟨position, located⟩ := (augInsert_eq_some insertedEq).1
  have onlyAnchor : ∀ other, moveAnchor before after = some other → other = anchor :=
    fun other otherAnchored => Option.some.inj (otherAnchored.symm.trans anchored)
  refine ⟨plain, ?_, ?_, ?_⟩
  · intro other otherAnchored
    obtain rfl := onlyAnchor other otherAnchored
    exact anchorUnique_of_locate consistent others anchored plain pathEq located
  · intro other otherAnchored
    obtain rfl := onlyAnchor other otherAnchored
    refine (augdsStoreMoveDirection_eq_some_iff ascending others moved anchored).mp ?_
    rw [direction]
    cases movedBack with
    | true =>
        have nonempty : passed ≠ [] := by
          rintro rfl
          exact moved (by simpa using places.symm)
        have positive := List.length_pos_iff.mpr nonempty
        simp only [if_true] at places
        simp [places, positive]
    | false =>
        simp only [Bool.false_eq_true, if_false] at places
        simp [places]
  · intro other otherIn sameLabel
    have notPassed : other ∉ passed := fun membership => apart other membership sameLabel
    cases movedBack with
    | true =>
        simp only [if_true] at places
        simp [places, notPassed]
    | false =>
        simp only [Bool.false_eq_true, if_false] at places
        simp [places, notPassed]

end Exact

end Converse

section AnyContent

/-! The same list shape with every assignment of values and subtrees to its entries. -/

variable {front back before after : List (Entry T)} {entry : Entry T}

/-- The entry holding what is assigned to its key. -/
def Entry.holding (content : Nat → Content T) (entry : Entry T) : Entry T :=
  { entry with content := content entry.id }

variable (content : Nat → Content T)

theorem map_id_holding (data : List (Entry T)) :
    (data.map (Entry.holding content)).map Entry.id = data.map Entry.id := by
  simp [Function.comp_def, Entry.holding]

theorem Consistent.holding {data : List (Entry T)} (consistent : Consistent data) :
    Consistent (data.map (Entry.holding content)) where
  keys := by
    rw [UniqueKeys, map_id_holding]
    exact consistent.keys
  schema first firstIn second secondIn sameLabel := by
    obtain ⟨source, sourceIn, rfl⟩ := List.mem_map.mp firstIn
    obtain ⟨target, targetIn, rfl⟩ := List.mem_map.mp secondIn
    exact consistent.schema source sourceIn target targetIn sameLabel

theorem Ascending.holding {data : List (Entry T)} (ascending : Ascending data) :
    Ascending (data.map (Entry.holding content)) :=
  List.pairwise_map.mpr ascending

theorem keyMetaOf_holding (before : List (Entry T)) :
    keyMetaOf (before.map (Entry.holding content)) = keyMetaOf before := by
  rcases before.eq_nil_or_concat with rfl | ⟨init, last, rfl⟩ <;> simp [keyMetaOf, Entry.holding]

theorem moveAnchor_holding (before after : List (Entry T)) :
    moveAnchor (before.map (Entry.holding content)) (after.map (Entry.holding content)) =
      (moveAnchor before after).map (Entry.holding content) := by
  rcases before.eq_nil_or_concat with rfl | ⟨init, last, rfl⟩ <;> simp [moveAnchor]

theorem holding_mem_iff {data part : List (Entry T)} (keys : UniqueKeys data)
    (included : part ⊆ data) {other : Entry T} (inside : other ∈ data) :
    other.holding content ∈ part.map (Entry.holding content) ↔ other ∈ part := by
  constructor
  · intro membership
    obtain ⟨source, sourceIn, same⟩ := List.mem_map.mp membership
    have sameKey : (source.holding content).id = (other.holding content).id := by rw [same]
    rwa [← List.inj_on_of_nodup_map keys (included sourceIn) inside sameKey]
  · exact List.mem_map_of_mem

/-- Safety does not depend on values and subtrees. -/
theorem moveSafe_holding_iff (keys : UniqueKeys (front ++ entry :: back))
    (others : front ++ back = before ++ after) :
    MoveSafe (front.map (Entry.holding content)) (back.map (Entry.holding content))
        (before.map (Entry.holding content)) (after.map (Entry.holding content))
        (entry.holding content) ↔
      MoveSafe front back before after entry := by
  have sides : ∀ other ∈ front ++ back,
      (other.holding content ∈ front.map (Entry.holding content) ↔ other ∈ front) ∧
        (other.holding content ∈ before.map (Entry.holding content) ↔ other ∈ before) :=
    fun other membership =>
      ⟨holding_mem_iff content keys.remove (by simp) membership,
        holding_mem_iff content keys.remove (by simp [others]) membership⟩
  have whole : (front.map (Entry.holding content)) ++
      entry.holding content :: (back.map (Entry.holding content)) =
        (front ++ entry :: back).map (Entry.holding content) := by simp
  constructor
  · intro safe
    refine ⟨safe.plain, ?_, ?_, ?_⟩
    · intro anchor anchored sequential other otherIn
      have unique := safe.anchorUnique (anchor.holding content)
        (by simp [moveAnchor_holding, anchored]) sequential (other.holding content)
      rw [whole] at unique
      exact unique (List.mem_map_of_mem otherIn)
    · intro anchor anchored
      exact safe.keysCompare (anchor.holding content) (by simp [moveAnchor_holding, anchored])
    · intro other otherIn sameLabel
      have apart := safe.apart (other.holding content)
        (by simpa using List.mem_map_of_mem (f := Entry.holding content) otherIn) sameLabel
      rwa [(sides other otherIn).1, (sides other otherIn).2] at apart
  · intro safe
    refine ⟨safe.plain, ?_, ?_, ?_⟩
    · intro anchor anchored sequential other otherIn sameLabel
      rw [moveAnchor_holding, Option.map_eq_some_iff] at anchored
      obtain ⟨anchor, anchored, rfl⟩ := anchored
      rw [whole] at otherIn
      obtain ⟨source, sourceIn, rfl⟩ := List.mem_map.mp otherIn
      exact safe.anchorUnique anchor anchored sequential source sourceIn sameLabel
    · intro anchor anchored
      rw [moveAnchor_holding, Option.map_eq_some_iff] at anchored
      obtain ⟨anchor, anchored, rfl⟩ := anchored
      exact safe.keysCompare anchor anchored
    · intro other otherIn sameLabel
      rw [← List.map_append] at otherIn
      obtain ⟨source, sourceIn, rfl⟩ := List.mem_map.mp otherIn
      rw [(sides source sourceIn).1, (sides source sourceIn).2]
      exact safe.apart source sourceIn sameLabel

/-- A content that tells every key apart. -/
def tally (id : Nat) : Content T := ⟨some (String.ofList (List.replicate id 'x')), []⟩

theorem tally_injective : Function.Injective (tally : Nat → Content T) := by
  intro first second same
  simp only [tally, Content.mk.injEq, Option.some.injEq, String.ofList_inj, and_true] at same
  simpa using congrArg List.length same

/-- Whatever values and subtrees the entries hold, the move leaves them in the new order. -/
def MoveKeepsOrder (front back before after : List (Entry T)) (entry : Entry T) : Prop :=
  ∀ content : Nat → Content T,
    augdsStoreDiff
        ⟨(front ++ entry :: back).map (Entry.holding content),
          ((front ++ entry :: back).map (Entry.holding content)).map Entry.toAug⟩
        (.move entry.id (keyMetaOf before)) =
      some ⟨(before ++ entry :: after).map (Entry.holding content),
        ((before ++ entry :: after).map (Entry.holding content)).map Entry.toAug⟩

end AnyContent

end SysrepoAugeas.Store
