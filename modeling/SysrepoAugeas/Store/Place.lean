import SysrepoAugeas.Store.Index

/-!
# Where a diff puts an entry in the YANG data

The metadata of a diff node names the predecessor of its instance.  The lemmas
give the list after `augds_store_diff_data_update` as a split around the
instance, which is the form the path computations need.
-/

namespace SysrepoAugeas.Store

variable {T : Type}

theorem insertBeside_split (anchor node : Entry T) (before : Bool)
    (front back : List (Entry T)) (fresh : ∀ other ∈ front, other.id ≠ anchor.id) :
    insertBeside anchor.id before node (front ++ anchor :: back) =
      if before then front ++ node :: anchor :: back else front ++ anchor :: node :: back := by
  induction front with
  | nil => simp [insertBeside]
  | cons head rest inductionHypothesis =>
      have headFresh := fresh head (by simp)
      have restFresh : ∀ other ∈ rest, other.id ≠ anchor.id := fun other membership =>
        fresh other (by simp [membership])
      cases before <;> simp_all [insertBeside]

section Place

variable {front back : List (Entry T)} {entry : Entry T}

/-- Keys stay unique when the instance is taken out. -/
theorem UniqueKeys.remove (keys : UniqueKeys (front ++ entry :: back)) :
    UniqueKeys (front ++ back) := by
  have permuted : (front ++ entry :: back).Perm (entry :: (front ++ back)) :=
    List.perm_middle
  have shifted : UniqueKeys (entry :: (front ++ back)) := keys.of_perm permuted.symm
  exact (List.nodup_cons.mp shifted).2

theorem UniqueKeys.id_ne_of_mem_remove (keys : UniqueKeys (front ++ entry :: back)) :
    ∀ other ∈ front ++ back, other.id ≠ entry.id := by
  intro other membership
  rcases List.mem_append.mp membership with inFront | inBack
  · exact keys.id_ne_of_mem_front other inFront
  · exact keys.id_ne_of_mem_back other inBack

theorem placeInstance_first (keys : UniqueKeys (front ++ entry :: back)) :
    placeInstance .first entry (front ++ entry :: back) = some (entry :: (front ++ back)) := by
  cases front with
  | nil => simp [placeInstance, augdsStoreFindAnchor]
  | cons head rest =>
      have headFresh := keys.id_ne_of_mem_front head (by simp)
      have erased := keys.eraseP_id
      have beside := insertBeside_split head entry true [] (rest ++ back) (by simp)
      simp only [List.cons_append] at erased
      simp only [List.nil_append, if_true] at beside
      simp [placeInstance, augdsStoreFindAnchor, headFresh, erased, beside]

theorem placeInstance_after (keys : UniqueKeys (front ++ entry :: back))
    {before after : List (Entry T)} {anchor : Entry T}
    (others : front ++ back = before ++ anchor :: after) :
    placeInstance (.after anchor.id) entry (front ++ entry :: back) =
      some (before ++ anchor :: entry :: after) := by
  have anchorIn : anchor ∈ front ++ back := by simp [others]
  have anchorFresh := keys.id_ne_of_mem_remove anchor anchorIn
  have found : (front ++ entry :: back).find? (fun node => node.id == anchor.id) =
      some anchor := by
    have inside : anchor ∈ front ++ entry :: back := by
      simp only [List.mem_append, List.mem_cons] at anchorIn ⊢
      tauto
    obtain ⟨left, right, split⟩ := List.append_of_mem inside
    rw [split] at keys ⊢
    exact keys.find_id
  have removedKeys := keys.remove
  rw [others] at removedKeys
  have beside := insertBeside_split anchor entry false before after
    removedKeys.id_ne_of_mem_front
  simp [placeInstance, augdsStoreFindAnchor, found, anchorFresh, keys.eraseP_id, others, beside]

/-- Without metadata the instance stays where it is. -/
theorem placeInstance_absent (keys : UniqueKeys (front ++ entry :: back)) :
    placeInstance .absent entry (front ++ entry :: back) = some (front ++ entry :: back) := by
  have found := neighbour_split none front entry back keys.id_ne_of_mem_front
  rcases front.eq_nil_or_concat with rfl | ⟨init, last, rfl⟩
  · cases back with
    | nil =>
        simp only [List.nil_append, List.getLast?_nil, Option.or_none, List.head?_nil,
          Option.map_none] at found
        simp [placeInstance, augdsStoreFindAnchor, found]
    | cons head rest =>
        have headFresh := keys.id_ne_of_mem_back head (by simp)
        simp only [List.nil_append, List.getLast?_nil, Option.or_none, List.head?_cons,
          Option.map_some] at found
        have beside := insertBeside_split head entry true [] rest (by simp)
        simp only [List.nil_append, if_true] at beside
        simp [placeInstance, augdsStoreFindAnchor, found, headFresh, beside]
  · simp only [List.concat_eq_append] at keys found ⊢
    have lastFresh := keys.id_ne_of_mem_front last (by simp)
    have others : init ++ [last] ++ back = init ++ last :: back := by simp
    have removedKeys := keys.remove
    rw [others] at removedKeys
    have beside := insertBeside_split last entry false init back
      removedKeys.id_ne_of_mem_front
    simp only [List.getLast?_concat, Option.some_or] at found
    simp only [placeInstance, augdsStoreFindAnchor, found, lastFresh, if_false,
      keys.eraseP_id, others, beside, Bool.false_eq_true]
    simp

/-- An instance whose metadata names an existing predecessor keeps its place among
a split of the other entries. -/
theorem placeInstance_split (keys : UniqueKeys (front ++ entry :: back)) (keyMeta : KeyMeta)
    (known : ∀ key, keyMeta = .after key → key ∈ (front ++ back).map Entry.id) :
    ∃ before after, front ++ back = before ++ after ∧
      placeInstance keyMeta entry (front ++ entry :: back) = some (before ++ entry :: after) := by
  cases keyMeta with
  | absent => exact ⟨front, back, rfl, placeInstance_absent keys⟩
  | first => exact ⟨[], front ++ back, rfl, placeInstance_first keys⟩
  | after key =>
      obtain ⟨before, anchor, after, split, rfl⟩ := exists_split_of_mem_keys (known key rfl)
      exact ⟨before ++ [anchor], after, by simp [split], by simp [placeInstance_after keys split]⟩

end Place

end SysrepoAugeas.Store
