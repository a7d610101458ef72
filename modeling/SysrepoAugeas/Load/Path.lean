import SysrepoAugeas.Load.Account

/-!
# Places in the augnodes

The frames of a call are the augnodes around the current ones, from the inside
out.  A leafref leads back to one of them.
-/

namespace SysrepoAugeas.Load

open SysrepoAugeas.Data

def augnodeIds (augnodes : Forest Augnode) : List Nat := augnodes.labels.map fun node => node.schema.id

def rootIds (augnodes : Forest Augnode) : List Nat := augnodes.roots.map fun node => node.schema.id

/-- All augnodes with their children. -/
def subtrees : Forest Augnode → List (Augnode × Forest Augnode)
  | .nil => []
  | .cons augnode children rest => (augnode, children) :: (subtrees children ++ subtrees rest)

/-- Augnodes of a module; every one has its own schema node. -/
structure AugModule where
  augnodes : Forest Augnode
  distinct : (augnodeIds augnodes).Nodup

/-- The frames lead from the top to the augnodes. -/
inductive Path (top : Forest Augnode) : List Frame → Forest Augnode → Prop
  | top : Path top [] top
  | rest {frames : List Frame} {augnode : Augnode} {children rest : Forest Augnode} :
      Path top frames (.cons augnode children rest) → Path top frames rest
  | down {frames : List Frame} {augnode : Augnode} {children rest : Forest Augnode} (node : Nat) :
      Path top frames (.cons augnode children rest) →
      Path top (⟨augnode, children, node⟩ :: frames) children

variable {top augnodes children rest : Forest Augnode} {frames front outer : List Frame}
  {frame : Frame} {augnode : Augnode}

theorem subtrees_fst (augnodes : Forest Augnode) :
    (subtrees augnodes).map Prod.fst = augnodes.labels := by
  induction augnodes with
  | nil => rfl
  | cons augnode children rest childrenHypothesis restHypothesis =>
      rw [subtrees, List.map_cons, List.map_append, childrenHypothesis, restHypothesis,
        Forest.labels_cons]

theorem Path.subtrees (path : Path top frames augnodes) :
    (subtrees augnodes).Sublist (Load.subtrees top) := by
  induction path with
  | top => exact List.Sublist.refl _
  | rest _ inductionHypothesis =>
      exact ((List.sublist_append_right _ _).cons _).trans inductionHypothesis
  | down node _ inductionHypothesis =>
      exact ((List.sublist_append_left _ _).cons _).trans inductionHypothesis

theorem Path.distinct (path : Path top frames augnodes) (distinct : (augnodeIds top).Nodup) :
    (augnodeIds augnodes).Nodup := by
  have sublist := (path.subtrees.map Prod.fst).map fun node => node.schema.id
  rw [subtrees_fst, subtrees_fst] at sublist
  exact sublist.nodup distinct

/-- One schema node belongs to one augnode. -/
theorem eq_of_mem_subtrees (distinct : (augnodeIds top).Nodup) {other : Augnode}
    {otherChildren : Forest Augnode} (member : (augnode, children) ∈ subtrees top)
    (otherMember : (other, otherChildren) ∈ subtrees top)
    (same : augnode.schema.id = other.schema.id) :
    augnode = other ∧ children = otherChildren := by
  have nodup : ((subtrees top).map fun tree => tree.1.schema.id).Nodup := by
    have : (subtrees top).map (fun tree => tree.1.schema.id) = augnodeIds top := by
      rw [augnodeIds, ← subtrees_fst, List.map_map]
      rfl
    rwa [this]
  exact Prod.mk.inj (List.inj_on_of_nodup_map nodup member otherMember same)

/-- A frame stands where its augnode does. -/
theorem Path.stands (path : Path top (front ++ frame :: outer) augnodes) :
    ∃ rest, Path top outer (.cons frame.augnode frame.children rest) := by
  generalize whole : front ++ frame :: outer = frames at path
  induction path generalizing front with
  | top => cases front <;> cases whole
  | rest _ inductionHypothesis => exact inductionHypothesis whole
  | down node above inductionHypothesis =>
      cases front with
      | nil =>
          obtain ⟨rfl, rfl⟩ := List.cons.inj whole
          exact ⟨_, above⟩
      | cons first front => exact inductionHypothesis (List.cons.inj whole).2

/-- What is below a frame is below its augnode. -/
theorem Path.subset (path : Path top frames augnodes) (member : frame ∈ frames) :
    augnodes.labels ⊆ frame.children.labels := by
  induction path with
  | top => cases member
  | rest _ inductionHypothesis =>
      intro node inRest
      refine inductionHypothesis member ?_
      rw [Forest.labels_cons]
      exact List.mem_cons_of_mem _ (List.mem_append_right _ inRest)
  | down node above inductionHypothesis =>
      rcases List.mem_cons.mp member with rfl | inFrames
      · exact List.Subset.refl _
      · intro node inChildren
        refine inductionHypothesis inFrames ?_
        rw [Forest.labels_cons]
        exact List.mem_cons_of_mem _ (List.mem_append_left _ inChildren)

theorem Path.mem_subtrees (path : Path top frames (.cons augnode children rest)) :
    (augnode, children) ∈ Load.subtrees top :=
  path.subtrees.subset List.mem_cons_self

theorem subtrees_subset {inner : Forest Augnode} (member : (augnode, inner) ∈ subtrees augnodes) :
    subtrees inner ⊆ subtrees augnodes := by
  induction augnodes with
  | nil => cases member
  | cons first children rest childrenHypothesis restHypothesis =>
      intro tree isInner
      rw [subtrees] at member ⊢
      refine List.mem_cons_of_mem _ ?_
      rcases List.mem_cons.mp member with same | inBoth
      · rw [(Prod.mk.inj same).2] at isInner
        exact List.mem_append_left _ isInner
      · rcases List.mem_append.mp inBoth with inChildren | inRest
        · exact List.mem_append_left _ (childrenHypothesis inChildren isInner)
        · exact List.mem_append_right _ (restHypothesis inRest isInner)

/-- What is below an augnode inside of another is inside of it too. -/
theorem labels_subset_of_inside (distinct : (augnodeIds top).Nodup) {inner : Augnode}
    {innerChildren : Forest Augnode} (member : (augnode, children) ∈ subtrees top)
    (innerMember : (inner, innerChildren) ∈ subtrees top) (inside : inner ∈ children.labels) :
    innerChildren.labels ⊆ children.labels := by
  rw [← subtrees_fst] at inside
  obtain ⟨⟨_, kids⟩, isInside, rfl⟩ := List.mem_map.mp inside
  obtain ⟨-, rfl⟩ := eq_of_mem_subtrees distinct (subtrees_subset member isInside) innerMember rfl
  rw [← subtrees_fst, ← subtrees_fst]
  exact List.map_subset _ (subtrees_subset isInside)

theorem not_mem_labels_self (distinct : (augnodeIds top).Nodup)
    (member : (augnode, children) ∈ subtrees top) : augnode ∉ children.labels := by
  induction top with
  | nil => cases member
  | cons first firstChildren rest childrenHypothesis restHypothesis =>
      rw [augnodeIds, Forest.labels_cons, List.map_cons, List.map_append, List.nodup_cons] at distinct
      obtain ⟨notInside, both⟩ := distinct
      rcases List.mem_cons.mp member with same | inBoth
      · obtain ⟨rfl, rfl⟩ := Prod.mk.inj same
        exact fun inside => notInside (List.mem_append_left _ (List.mem_map_of_mem inside))
      · rcases List.mem_append.mp inBoth with inChildren | inRest
        · exact childrenHypothesis both.of_append_left inChildren
        · exact restHypothesis both.of_append_right inRest

/-- The frame that a leafref leads to. -/
theorem exists_of_leafrefParent {list : Nat}
    (found : augdsAug2yangAugnodeLeafrefParent list frames = some (frame, outer)) :
    ∃ front, frames = front ++ frame :: outer ∧ frame.augnode.schema.id = list ∧
      ∀ other ∈ front, other.augnode.schema.id ≠ list := by
  induction frames with
  | nil => cases found
  | cons first frames inductionHypothesis =>
      rw [augdsAug2yangAugnodeLeafrefParent] at found
      split at found
      · rename_i same
        obtain ⟨rfl, rfl⟩ := Prod.mk.inj (Option.some.inj found)
        exact ⟨[], rfl, same, fun _ member => absurd member List.not_mem_nil⟩
      · rename_i differs
        obtain ⟨front, rfl, same, others⟩ := inductionHypothesis found
        exact ⟨first :: front, rfl, same, List.forall_mem_cons.mpr ⟨differs, others⟩⟩

theorem ne_of_leafrefParent {list : Nat}
    (nothing : augdsAug2yangAugnodeLeafrefParent list frames = none) (member : frame ∈ frames) :
    frame.augnode.schema.id ≠ list := by
  induction frames with
  | nil => cases member
  | cons first frames inductionHypothesis =>
      rw [augdsAug2yangAugnodeLeafrefParent] at nothing
      split at nothing
      · cases nothing
      · rename_i differs
        rcases List.mem_cons.mp member with rfl | inFrames
        · exact differs
        · exact inductionHypothesis nothing inFrames

theorem leafrefParent_append {list : Nat}
    (others : ∀ other ∈ front, other.augnode.schema.id ≠ list) :
    augdsAug2yangAugnodeLeafrefParent list (front ++ outer) =
      augdsAug2yangAugnodeLeafrefParent list outer := by
  induction front with
  | nil => rfl
  | cons first front inductionHypothesis =>
      rw [List.cons_append, augdsAug2yangAugnodeLeafrefParent,
        if_neg (others first List.mem_cons_self),
        inductionHypothesis fun other member => others other (List.mem_cons_of_mem _ member)]

end SysrepoAugeas.Load
