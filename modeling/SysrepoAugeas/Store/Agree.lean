import SysrepoAugeas.Store.Place

/-!
# Inserting, deleting and renaming keep YANG and Augeas in step

The invariant is that the Augeas siblings are the entries of the YANG list, one
by one.  Each step is followed along a split of the list at the entry it
changes.
-/

namespace SysrepoAugeas.Store

variable {T : Type}

/-- The Augeas siblings equal the YANG entries, in order. -/
def Agree (store : StoreState T) : Prop := store.aug = store.yang.map Entry.toAug

instance [DecidableEq T] (store : StoreState T) : Decidable (Agree store) :=
  inferInstanceAs (Decidable (store.aug = store.yang.map Entry.toAug))

section Step

variable {front back : List (Entry T)} {entry : Entry T}

theorem label_ne_of_sequential (consistent : Consistent (front ++ entry :: back))
    (unique : SequentialUnique (front ++ entry :: back))
    (sequential : entry.isSequential = true) :
    ∀ other ∈ front ++ back, other.label ≠ entry.label := by
  intro other membership sameLabel
  have inside : other ∈ front ++ entry :: back := by
    simp only [List.mem_append, List.mem_cons] at membership ⊢
    tauto
  have sameKey := unique entry (by simp) other inside sequential sameLabel.symm
  exact consistent.keys.id_ne_of_mem_remove other membership sameKey.symm

theorem map_toAug_label_ne {label : String} {part whole : List (Entry T)}
    (included : part ⊆ whole) (different : ∀ other ∈ whole, other.label ≠ label) :
    ∀ node ∈ part.map Entry.toAug, node.label ≠ label := by
  intro node membership
  obtain ⟨source, sourceIn, rfl⟩ := List.mem_map.mp membership
  exact different source (included sourceIn)

/-- The path of an entry selects the node at its place between the Augeas
counterparts of its neighbours, provided that node carries its label. -/
theorem locate_at_entry (consistent : Consistent (front ++ entry :: back))
    (unique : SequentialUnique (front ++ entry :: back))
    {node : AugNode T} (labelled : node.label = entry.label) :
    (entry.pathAfter front).locate (front.map Entry.toAug ++ node :: back.map Entry.toAug) =
      [(front.map Entry.toAug).length] := by
  refine Entry.locate_pathAfter labelled (countP_hasLabel_map _ _) fun sequential => ?_
  have different := label_ne_of_sequential consistent unique sequential
  exact ⟨map_toAug_label_ne (by simp) different, map_toAug_label_ne (by simp) different⟩

/-- An anchor in front of the entry keeps its rank, so its path selects it in any
siblings that have as many nodes with its label in front of it. -/
theorem augInsert_behind_anchor {init rest : List (Entry T)} {anchor : Entry T}
    (consistent : Consistent (init ++ anchor :: rest)) {frontAug backAug : List (AugNode T)}
    (counted : frontAug.countP (AugNode.hasLabel anchor.label) = init.countP anchor.sameLabel)
    (alone : anchor.isSequential = true →
      (∀ other ∈ frontAug, other.label ≠ anchor.label) ∧
        ∀ other ∈ backAug, other.label ≠ anchor.label)
    (augPath : AugPath) (label : String) :
    ∃ anchorPath,
      augdsStoreDiffInsertAnchorPath anchor false (init ++ anchor :: rest) augPath =
          some anchorPath ∧
        augInsert anchorPath label false (frontAug ++ anchor.toAug :: backAug) =
          some (frontAug ++ anchor.toAug :: ⟨label, Content.empty⟩ :: backAug) := by
  refine ⟨anchor.pathAfter init, ?_, ?_⟩
  · simp [augdsStoreDiffInsertAnchorPath, augdsStorePath_split consistent]
  · exact augInsert_after (Entry.locate_pathAfter rfl counted alone) label

/-- An anchor behind the first entry: its index counts the new entry, which Augeas
does not have yet, and is corrected when the labels are the same. -/
theorem augInsert_before_anchor {rest : List (Entry T)} {anchor : Entry T}
    (consistent : Consistent (entry :: anchor :: rest)) {backAug : List (AugNode T)}
    (plain : entry.label = anchor.label → entry.isSequential = false)
    (alone : anchor.isSequential = true → ∀ other ∈ backAug, other.label ≠ anchor.label) :
    ∃ anchorPath,
      augdsStoreDiffInsertAnchorPath anchor true (entry :: anchor :: rest)
          (entry.pathAfter []) = some anchorPath ∧
        augInsert anchorPath entry.label true (anchor.toAug :: backAug) =
          some (⟨entry.label, Content.empty⟩ :: anchor.toAug :: backAug) := by
  have path : augdsStorePath anchor (entry :: anchor :: rest) =
      some (anchor.pathAfter [entry]) :=
    @augdsStorePath_split _ ([entry]) _ _ consistent
  simp only [augdsStoreDiffInsertAnchorPath, path, Option.map_some]
  by_cases sameLabel : entry.label = anchor.label
  · refine ⟨entry.pathAfter [], by simp [sameLabel], ?_⟩
    have located : (entry.pathAfter []).locate ([] ++ anchor.toAug :: backAug) =
        [([] : List (AugNode T)).length] :=
      Entry.locate_pathAfter sameLabel.symm (by simp) fun sequential => by
        simp [plain sameLabel] at sequential
    simpa using augInsert_before located entry.label
  · refine ⟨anchor.pathAfter [entry], by simp [sameLabel], ?_⟩
    have located : (anchor.pathAfter [entry]).locate ([] ++ anchor.toAug :: backAug) =
        [([] : List (AugNode T)).length] :=
      Entry.locate_pathAfter rfl (by simp [sameLabel]) fun sequential =>
        ⟨by simp, alone sequential⟩
    simpa using augInsert_before located entry.label

/-- The anchor path selects the anchor while Augeas lacks the new entry. -/
theorem augInsert_at_anchor (consistent : Consistent (front ++ entry :: back))
    (unique : SequentialUnique (front ++ entry :: back))
    {anchor : Entry T} {augBefore : Bool}
    (chosen : augdsStoreAnchor entry.id (front ++ entry :: back) = some (anchor, augBefore)) :
    ∃ anchorPath,
      augdsStoreDiffInsertAnchorPath anchor augBefore (front ++ entry :: back)
          (entry.pathAfter front) = some anchorPath ∧
        augInsert anchorPath entry.label augBefore ((front ++ back).map Entry.toAug) =
          some (front.map Entry.toAug ++ ⟨entry.label, Content.empty⟩ ::
            back.map Entry.toAug) := by
  rw [augdsStoreAnchor,
    neighbour_split none front entry back consistent.keys.id_ne_of_mem_front] at chosen
  rcases front.eq_nil_or_concat with rfl | ⟨init, last, rfl⟩
  · cases back with
    | nil => simp at chosen
    | cons next rest =>
        simp only [List.getLast?_nil, Option.or_none, List.head?_cons, Option.map_some,
          Option.some.injEq, Prod.mk.injEq] at chosen
        obtain ⟨rfl, rfl⟩ := chosen
        refine augInsert_before_anchor consistent (fun sameLabel => ?_) fun sequential => ?_
        · by_contra sequential
          exact label_ne_of_sequential consistent unique (by simpa using sequential) next
            (by simp) sameLabel.symm
        · exact map_toAug_label_ne (by simp)
            (@label_ne_of_sequential _ ([entry]) _ _ consistent unique sequential)
  · simp only [List.concat_eq_append, List.getLast?_concat, Option.some_or, Option.some.injEq,
      Prod.mk.injEq] at chosen consistent unique ⊢
    obtain ⟨rfl, rfl⟩ := chosen
    have regroup : init ++ [last] ++ entry :: back = init ++ last :: entry :: back := by simp
    rw [regroup] at consistent unique ⊢
    obtain ⟨anchorPath, pathEq, inserted⟩ := @augInsert_behind_anchor _ _ _ _ consistent
        (init.map Entry.toAug) (back.map Entry.toAug) (countP_hasLabel_map _ _) (fun sequential =>
        have different := label_ne_of_sequential consistent unique sequential
        ⟨map_toAug_label_ne (by simp) different, map_toAug_label_ne (by simp) different⟩)
        (entry.pathAfter (init ++ [last])) entry.label
    exact ⟨anchorPath, pathEq, by simpa using inserted⟩

/-- An inserted entry reaches Augeas at its place in the updated diff data. -/
theorem augdsStoreDiff_insert {keyMeta : KeyMeta} {data : List (Entry T)}
    (updated : augdsStoreDiffDataUpdate data (.insert entry keyMeta) =
      some (front ++ entry :: back))
    (others : data = front ++ back)
    (consistent : Consistent (front ++ entry :: back))
    (unique : SequentialUnique (front ++ entry :: back)) :
    augdsStoreDiff ⟨data, data.map Entry.toAug⟩ (.insert entry keyMeta) =
      some ⟨front ++ entry :: back, (front ++ entry :: back).map Entry.toAug⟩ := by
  have path := augdsStorePath_split consistent
  have located := fun (node : AugNode T) (labelled : node.label = entry.label) =>
    locate_at_entry consistent unique labelled
  have set : augSet (entry.pathAfter front) entry.content.value
      (front.map Entry.toAug ++ ⟨entry.label, Content.empty⟩ :: back.map Entry.toAug) =
        some (front.map Entry.toAug ++ ⟨entry.label, ⟨entry.content.value, []⟩⟩ ::
          back.map Entry.toAug) :=
    augSet_middle (located ⟨entry.label, Content.empty⟩ rfl) entry.content.value
  have fill := augFill_middle
    (located ⟨entry.label, ⟨entry.content.value, []⟩⟩ rfl) entry.content.subtree
  simp only [augdsStoreDiff, updated, path, Option.bind_eq_bind, Option.bind_some]
  cases chosen : augdsStoreAnchor entry.id (front ++ entry :: back) with
  | some result =>
      obtain ⟨anchor, augBefore⟩ := result
      obtain ⟨anchorPath, anchorPathEq, inserted⟩ :=
        augInsert_at_anchor consistent unique chosen
      rw [← others] at inserted
      simp only [anchorPathEq, Option.bind_some, augdsStoreDiffApply, Entry.pathAfter_label,
        inserted, set, fill]
      simp [Entry.toAug]
  | none =>
      -- the only instance: both sequences were empty
      have alone : front = [] ∧ back = [] := by
        rw [augdsStoreAnchor,
          neighbour_split none front entry back consistent.keys.id_ne_of_mem_front] at chosen
        rcases front.eq_nil_or_concat with rfl | ⟨init, last, rfl⟩
        · cases back <;> simp_all
        · simp at chosen
      obtain ⟨rfl, rfl⟩ := alone
      obtain rfl : data = [] := by simpa using others
      have created : augSet (entry.pathAfter []) entry.content.value ([] : List (AugNode T)) =
          some [⟨entry.label, ⟨entry.content.value, []⟩⟩] := by
        by_cases sequential : entry.isSequential = true <;>
          simp [augSet, AugPath.locate, Entry.pathAfter, sequential, Data.nthPosition,
            Data.positions]
      simp only [List.map_nil, List.nil_append] at fill ⊢
      simp [augdsStoreDiffApply, created, fill, Entry.toAug]

/-- The entry is removed from Augeas before the diff data loses it. -/
theorem augdsStoreDiff_delete (consistent : Consistent (front ++ entry :: back))
    (unique : SequentialUnique (front ++ entry :: back)) :
    augdsStoreDiff ⟨front ++ entry :: back, (front ++ entry :: back).map Entry.toAug⟩
        (.delete entry.id) =
      some ⟨front ++ back, (front ++ back).map Entry.toAug⟩ := by
  have removed : augRm (entry.pathAfter front) ((front ++ entry :: back).map Entry.toAug) =
      (1, (front ++ back).map Entry.toAug) := by
    rw [List.map_append, List.map_cons]
    by_cases sequential : entry.isSequential = true
    · have different := label_ne_of_sequential consistent unique sequential
      have kept : ∀ part ⊆ front ++ back,
          ((part.map Entry.toAug).filter fun node => !node.hasLabel entry.label) =
            part.map Entry.toAug ∧
          (part.map Entry.toAug).countP (AugNode.hasLabel entry.label) = 0 := by
        intro part included
        have absent := map_toAug_label_ne included different
        simp only [List.filter_eq_self, List.countP_eq_zero, AugNode.hasLabel_eq_true,
          Bool.not_eq_true', ← Bool.not_eq_true]
        exact ⟨absent, absent⟩
      obtain ⟨frontKept, frontNone⟩ := kept front (by simp)
      obtain ⟨backKept, backNone⟩ := kept back (by simp)
      simp [augRm, Entry.pathAfter, sequential, List.filter_append, frontKept, backKept,
        frontNone, backNone]
    · have found := @Data.nthPosition_middle _ (AugNode.hasLabel entry.label)
          (front.map Entry.toAug) entry.toAug (by simp) (back.map Entry.toAug)
      rw [countP_hasLabel_map] at found
      have erased := Data.eraseIdx_split (front.map Entry.toAug) entry.toAug
        (back.map Entry.toAug)
      simp only [augRm, Entry.pathAfter, sequential, if_false, Bool.false_eq_true]
      simp only [found, erased, List.map_append]
  simp only [augdsStoreDiff, augdsStoreDiffDataUpdate, consistent.keys.find_id,
    Option.bind_eq_bind, Option.bind_some, augdsStorePath_split consistent,
    augdsStoreDiffApply, removed, Option.map_some, consistent.keys.eraseP_id]

theorem map_rename_split (keys : UniqueKeys (front ++ entry :: back)) (term : String) :
    ((front ++ entry :: back).map fun node =>
        if node.id = entry.id then { node with term := term } else node) =
      front ++ { entry with term := term } :: back := by
  have frontSame : (front.map fun node =>
      if node.id = entry.id then { node with term := term } else node) = front := by
    rw [List.map_congr_left fun other membership =>
      if_neg (keys.id_ne_of_mem_front other membership), List.map_id']
  have backSame : (back.map fun node =>
      if node.id = entry.id then { node with term := term } else node) = back := by
    rw [List.map_congr_left fun other membership =>
      if_neg (keys.id_ne_of_mem_back other membership), List.map_id']
  simp [frontSame, backSame]

/-- The old path selects the node, only the label of the new path is used. -/
theorem augdsStoreDiff_rename {term : String} (consistent : Consistent (front ++ entry :: back))
    (unique : SequentialUnique (front ++ entry :: back))
    (renamed : Consistent (front ++ { entry with term := term } :: back)) :
    augdsStoreDiff ⟨front ++ entry :: back, (front ++ entry :: back).map Entry.toAug⟩
        (.rename entry.id term) =
      some ⟨front ++ { entry with term := term } :: back,
        (front ++ { entry with term := term } :: back).map Entry.toAug⟩ := by
  have located := @locate_at_entry _ _ _ _ consistent unique entry.toAug rfl
  simp only [augdsStoreDiff, augdsStoreDiffDataUpdate, consistent.keys.find_id,
    augdsStorePath_split consistent, Option.bind_eq_bind, Option.bind_some, Option.map_some,
    map_rename_split consistent.keys, augdsStorePath_split renamed, augdsStoreDiffApply,
    Entry.pathAfter_label, List.map_append, List.map_cons]
  rw [augRename_middle located]
  rfl

end Step

end SysrepoAugeas.Store
