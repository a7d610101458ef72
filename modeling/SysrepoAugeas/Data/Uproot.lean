import SysrepoAugeas.Data.Forest

/-!
# Taking a tree out of a forest

The preorder array of a forest without one of its trees has the block of this
tree removed and the ancestors of the place lowered.  A node outside of the
tree keeps its ancestors, at positions that are shifted over the block.
-/

namespace SysrepoAugeas.Data.Forest

universe u

variable {Label : Type u}

/-- The node disappears with its subtree. -/
def cut (_ : Label) (_ rest : Forest Label) : Forest Label := rest

/-- The tree at a preorder index. -/
def treeAt : Nat → Forest Label → Forest Label
  | _, nil => nil
  | 0, cons label kids _ => cons label kids nil
  | index + 1, cons _ kids rest =>
      if index < kids.size then kids.treeAt index else rest.treeAt (index - kids.size)

/-- Labels in preorder. -/
def labels (forest : Forest Label) : List Label := forest.flat.map Prod.fst

@[simp]
theorem labels_nil : (nil : Forest Label).labels = [] := rfl

@[simp]
theorem labels_cons (label : Label) (kids rest : Forest Label) :
    (cons label kids rest).labels = label :: (kids.labels ++ rest.labels) := by
  simp [labels, flat]

theorem roots_sublist (forest : Forest Label) : forest.roots.Sublist forest.labels := by
  induction forest with
  | nil => exact List.Sublist.refl _
  | cons label kids rest _ restHypothesis =>
      rw [roots, labels_cons]
      exact (restHypothesis.trans (List.sublist_append_right _ _)).cons_cons _

@[simp]
theorem labels_append (forest other : Forest Label) :
    (forest.append other).labels = forest.labels ++ other.labels := by
  simp [labels]

@[simp]
theorem length_labels (forest : Forest Label) : forest.labels.length = forest.size := by
  simp [labels]

/-- A filling adds its labels to those around the hole. -/
theorem Hole.count_labels_fill [DecidableEq Label] (hole : Hole Label) :
    ∃ around : Label → Nat, ∀ filling label,
      (hole.fill filling).labels.count label = around label + filling.labels.count label := by
  induction hole with
  | top => exact ⟨fun _ => 0, fun filling label => by simp [fill]⟩
  | behind top kids outer inductionHypothesis =>
      obtain ⟨around, counted⟩ := inductionHypothesis
      refine ⟨fun label => around label + (top :: kids.labels).count label, fun filling label => ?_⟩
      rw [fill, counted, labels_cons]
      simp only [List.count_cons, List.count_append]
      omega
  | under top rest outer inductionHypothesis =>
      obtain ⟨around, counted⟩ := inductionHypothesis
      refine ⟨fun label => around label + (top :: rest.labels).count label, fun filling label => ?_⟩
      rw [fill, counted, labels_cons]
      simp only [List.count_cons, List.count_append]
      omega

/-- Position of a node once the block of `count` cells at `start` is gone. -/
def unshift (start count position : Nat) : Nat :=
  if position < start then position else position - count

/-- The positions `before` are the positions `after` once the block is gone, and none of
them lies in the block. -/
def Shifted (start count : Nat) (before after : List Nat) : Prop :=
  ∀ position, position ∈ before ↔
    (position < start ∧ position ∈ after) ∨
      (start + count ≤ position ∧ position - count ∈ after)

theorem Shifted.cons {start count position : Nat} {before after : List Nat}
    (shifted : Shifted start count before after)
    (outside : position < start ∨ start + count ≤ position) :
    Shifted start count (position :: before) (unshift start count position :: after) := by
  intro other
  simp only [List.mem_cons, shifted other, unshift]
  split
  · constructor
    · rintro (rfl | ⟨less, membership⟩ | ⟨more, membership⟩)
      · exact .inl ⟨by assumption, .inl rfl⟩
      · exact .inl ⟨less, .inr membership⟩
      · exact .inr ⟨more, .inr membership⟩
    · rintro (⟨less, rfl | membership⟩ | ⟨more, equality | membership⟩)
      · exact .inl rfl
      · exact .inr (.inl ⟨less, membership⟩)
      · omega
      · exact .inr (.inr ⟨more, membership⟩)
  · constructor
    · rintro (rfl | ⟨less, membership⟩ | ⟨more, membership⟩)
      · exact .inr ⟨by omega, .inl rfl⟩
      · exact .inl ⟨less, .inr membership⟩
      · exact .inr ⟨more, .inr membership⟩
    · rintro (⟨less, equality | membership⟩ | ⟨more, equality | membership⟩)
      · omega
      · exact .inr (.inl ⟨less, membership⟩)
      · exact .inl (by omega)
      · exact .inr (.inr ⟨more, membership⟩)

/-- Changes outside of a block are changes of what is left without it. -/
theorem raise_shifted {change : Nat → Nat} {before after : List Nat}
    {front block back : List (Label × Nat)}
    (shifted : Shifted front.length block.length before after) :
    ∃ newFront newBack, raise change before (front ++ (block ++ back)) =
        newFront ++ (block ++ newBack) ∧
      newFront.length = front.length ∧ newFront ++ newBack = raise change after (front ++ back) := by
  refine ⟨front.mapIdx fun position cell =>
      if position ∈ after then (cell.1, change cell.2) else cell,
    back.mapIdx fun position cell =>
      if position + front.length ∈ after then (cell.1, change cell.2) else cell, ?_, by simp, ?_⟩
  · rw [raise, List.mapIdx_append, List.mapIdx_append]
    congr 1
    · refine List.mapIdx_eq_mapIdx_iff.mpr fun position bound => ?_
      have inFront : position ∈ before ↔ position ∈ after := by
        rw [shifted]
        simp only [bound, true_and]
        constructor
        · rintro (membership | ⟨behindIt, -⟩)
          · exact membership
          · omega
        · exact .inl
      simp only [inFront]
    · congr 1
      · refine mapIdx_eq_self fun position bound cell => if_neg fun membership => ?_
        rw [shifted] at membership
        omega
      · refine List.mapIdx_eq_mapIdx_iff.mpr fun position bound => ?_
        have inBack : position + block.length + front.length ∈ before ↔
            position + front.length ∈ after := by
          have place : position + block.length + front.length - block.length =
              position + front.length := by omega
          rw [shifted, place]
          constructor
          · rintro (⟨inFront, -⟩ | ⟨-, membership⟩)
            · omega
            · exact membership
          · exact fun membership => .inr ⟨by omega, membership⟩
        simp only [inBack]
  · rw [raise, List.mapIdx_append]

namespace Hole

theorem treeAt_fill_add (hole : Hole Label) {filling : Forest Label} {position : Nat}
    (bound : position < filling.size) :
    (hole.fill filling).treeAt (hole.index + position) = filling.treeAt position := by
  induction hole generalizing filling position with
  | top => simp [fill, index]
  | behind label kids outer inductionHypothesis =>
      have inner : outer.index + kids.size + 1 + position =
          outer.index + (kids.size + position + 1) := by omega
      have outside : ¬ kids.size + position < kids.size := by omega
      rw [fill, index, inner, inductionHypothesis (by simp only [size]; omega), treeAt,
        if_neg outside]
      simp
  | under label rest outer inductionHypothesis =>
      have inner : outer.index + 1 + position = outer.index + (position + 1) := by omega
      rw [fill, index, inner, inductionHypothesis (by simp only [size]; omega), treeAt,
        if_pos bound]

theorem treeAt_fill (hole : Hole Label) (label : Label) (kids rest : Forest Label) :
    (hole.fill (cons label kids rest)).treeAt hole.index = cons label kids nil := by
  have found := @treeAt_fill_add _ hole (cons label kids rest) 0 (by simp [size])
  simpa [treeAt] using found

/-- Ancestors are the nodes in front whose subtree reaches the hole. -/
theorem mem_ancestors_iff (hole : Hole Label) {filling : Forest Label}
    (nonempty : filling.size ≠ 0) {position descendants : Nat} {label : Label}
    (found : (hole.fill filling).flat[position]? = some (label, descendants)) :
    position ∈ hole.ancestors ↔ position < hole.index ∧ hole.index ≤ position + descendants := by
  constructor
  · intro membership
    have inFront := lt_index_of_mem_ancestors membership
    rcases front_cases hole filling found inFront with ⟨-, reaches⟩ | ⟨notAbove, -⟩
    · exact ⟨inFront, by omega⟩
    · exact absurd membership notAbove
  · rintro ⟨inFront, reaches⟩
    rcases front_cases hole filling found inFront with ⟨above, -⟩ | ⟨-, ends⟩
    · exact above
    · omega

section Cut

variable {source : Hole Label} {label : Label} {kids rest : Forest Label}

/-- Cells in front of the place: the ancestors are lowered. -/
theorem getElem_cut_of_lt {position : Nat} (inFront : position < source.index) :
    ∃ cellLabel descendants,
      (source.fill (cons label kids rest)).flat[position]? = some (cellLabel, descendants) ∧
      ((position ∈ source.ancestors ∧
          source.index + kids.size + 1 ≤ position + descendants + 1 ∧
          (source.fill rest).flat[position]? =
            some (cellLabel, descendants - (kids.size + 1))) ∨
        (position ∉ source.ancestors ∧ position + descendants < source.index ∧
          (source.fill rest).flat[position]? = some (cellLabel, descendants))) := by
  have lowered := @raise_front _ (· - (kids.size + 1)) ((cons label kids rest).size) rest.size
      (fun more => by simp only [size]; omega) source []
  have bound : position < (source.fill (cons label kids rest)).flat.length := by
    rw [length_flat, size_fill]
    omega
  obtain ⟨⟨cellLabel, descendants⟩, found⟩ :
      ∃ cell, (source.fill (cons label kids rest)).flat[position]? = some cell :=
    ⟨_, List.getElem?_eq_getElem bound⟩
  have inOld : (source.front (cons label kids rest).size)[position]? =
      some (cellLabel, descendants) := by
    rwa [flat_fill, List.getElem?_append_left (by simpa using inFront)] at found
  have inNew : (source.fill rest).flat[position]? =
      some (if position ∈ source.ancestors then (cellLabel, descendants - (kids.size + 1))
        else (cellLabel, descendants)) := by
    have here := congrArg (fun cells : List (Label × Nat) => cells[position]?) lowered
    simp only [List.append_nil, raise, List.getElem?_mapIdx, inOld, Option.map_some] at here
    rw [flat_fill, List.getElem?_append_left (by simpa using inFront), ← here]
  refine ⟨cellLabel, descendants, found, ?_⟩
  rcases front_cases source (cons label kids rest) found inFront with
    ⟨above, reaches⟩ | ⟨notAbove, ends⟩
  · rw [if_pos above] at inNew
    rw [size] at reaches
    exact .inl ⟨above, by omega, inNew⟩
  · rw [if_neg notAbove] at inNew
    exact .inr ⟨notAbove, ends, inNew⟩

/-- Cells behind the place move to the front by the size of the tree. -/
theorem getElem_cut_of_ge {position : Nat} (behindIt : source.index ≤ position) :
    (source.fill rest).flat[position]? =
      (source.fill (cons label kids rest)).flat[position + (kids.size + 1)]? := by
  obtain ⟨offset, rfl⟩ := Nat.exists_eq_add_of_le behindIt
  have there : source.index + offset + (kids.size + 1) - source.index =
      kids.size + offset + 1 := by omega
  have old : (source.fill (cons label kids rest)).flat[source.index + offset + (kids.size + 1)]? =
      (rest.flat ++ source.back)[offset]? := by
    rw [flat_fill, List.getElem?_append_right (by simp; omega), length_front, there, flat,
      List.cons_append, List.getElem?_cons_succ, List.append_assoc,
      List.getElem?_append_right (by simp)]
    simp
  rw [old, flat_fill, List.getElem?_append_right (by simp)]
  simp

/-- The cells of the tree end with it. -/
theorem getElem_of_inside {position descendants : Nat} {cellLabel : Label}
    (found : (source.fill (cons label kids rest)).flat[position]? =
      some (cellLabel, descendants))
    (inside : source.index ≤ position ∧ position < source.index + kids.size + 1) :
    position + descendants < source.index + kids.size + 1 := by
  rcases front_cases (behind label kids source) rest found inside.2 with ⟨above, -⟩ | ⟨-, ends⟩
  · have := lt_index_of_mem_ancestors above
    rw [ancestors] at above
    have := lt_index_of_mem_ancestors above
    omega
  · exact ends

/-- A node outside of the tree that is taken out keeps its place. -/
theorem exists_of_cut {node : Hole Label} {nodeLabel : Label} {nodeKids nodeRest : Forest Label}
    (same : source.fill (cons label kids rest) = node.fill (cons nodeLabel nodeKids nodeRest))
    (outside : node.index < source.index ∨ source.index + kids.size + 1 ≤ node.index) :
    ∃ (left : Hole Label) (leftKids leftRest : Forest Label),
      source.fill rest = left.fill (cons nodeLabel leftKids leftRest) ∧
      left.index = unshift source.index (kids.size + 1) node.index ∧
      Shifted source.index (kids.size + 1) node.ancestors left.ancestors ∧
      ((node.index + nodeKids.size < source.index ∧
          left.index + leftKids.size = node.index + nodeKids.size) ∨
        (source.index + kids.size < node.index + nodeKids.size + 1 ∧
          left.index + leftKids.size + kids.size + 1 = node.index + nodeKids.size)) := by
  have nodeCell : (source.fill (cons label kids rest)).flat[node.index]? =
      some (nodeLabel, nodeKids.size) := by rw [same, getElem_flat_fill]
  -- the cell of the node in the smaller forest
  have leftCell : ∃ count,
      (source.fill rest).flat[unshift source.index (kids.size + 1) node.index]? =
        some (nodeLabel, count) ∧
      ((node.index + nodeKids.size < source.index ∧
          unshift source.index (kids.size + 1) node.index + count = node.index + nodeKids.size) ∨
        (source.index + kids.size < node.index + nodeKids.size + 1 ∧
          unshift source.index (kids.size + 1) node.index + count + kids.size + 1 =
            node.index + nodeKids.size)) := by
    rw [unshift]
    rcases outside with inFront | behindIt
    · rw [if_pos inFront]
      obtain ⟨cellLabel, descendants, found, lowered⟩ :=
        @getElem_cut_of_lt _ _ label kids rest _ inFront
      rw [nodeCell, Option.some.injEq, Prod.mk.injEq] at found
      obtain ⟨rfl, rfl⟩ := found
      rcases lowered with ⟨-, reaches, cell⟩ | ⟨-, ends, cell⟩
      · exact ⟨_, cell, .inr ⟨by omega, by omega⟩⟩
      · exact ⟨_, cell, .inl ⟨ends, rfl⟩⟩
    · rw [if_neg (by omega)]
      refine ⟨nodeKids.size, ?_, .inr ⟨by omega, by omega⟩⟩
      rw [@getElem_cut_of_ge _ _ label kids _ _ (by omega),
        Nat.sub_add_cancel (by omega), nodeCell]
  obtain ⟨count, leftFound, ends⟩ := leftCell
  obtain ⟨bound, -⟩ := List.getElem?_eq_some_iff.mp leftFound
  rw [length_flat] at bound
  obtain ⟨left, leftLabel, leftKids, leftRest, refilled, indexEq⟩ := exists_of_lt_size bound
  have leftFlat := getElem_flat_fill left leftLabel leftKids leftRest
  rw [← refilled, indexEq, leftFound, Option.some.injEq, Prod.mk.injEq] at leftFlat
  obtain ⟨rfl, rfl⟩ := leftFlat
  refine ⟨left, leftKids, leftRest, refilled, indexEq, ?_, by rwa [indexEq]⟩
  intro position
  have inNode := fun label descendants => @mem_ancestors_iff _ node
      (cons nodeLabel nodeKids nodeRest) (by simp [size]) position descendants label
  have inLeft := fun position label descendants => @mem_ancestors_iff _ left
      (cons nodeLabel leftKids leftRest) (by simp [size]) position descendants label
  simp only [← same] at inNode
  simp only [← refilled, indexEq, unshift] at inLeft
  rcases Nat.lt_or_ge position source.index with inFront | behindIt
  · -- in front of the tree only its ancestors have other counts
    obtain ⟨cellLabel, descendants, found, lowered⟩ :=
      @getElem_cut_of_lt _ _ label kids rest _ inFront
    have notBehind : ¬ source.index + (kids.size + 1) ≤ position := by omega
    simp only [inNode _ _ found, inFront, notBehind, true_and, false_and, or_false]
    rcases lowered with ⟨-, reaches, cell⟩ | ⟨-, ends, cell⟩
    · rw [inLeft _ _ _ cell]
      split <;> omega
    · rw [inLeft _ _ _ cell]
      split <;> omega
  · have notBehind : ∀ {hole : Hole Label} {position : Nat}, hole.index ≤ position →
        position ∉ hole.ancestors := fun behindIt above => by
      have := lt_index_of_mem_ancestors above
      omega
    rcases Nat.lt_or_ge position (source.index + kids.size + 1) with inTree | behindTree
    · -- the subtree of a node in the tree does not reach out of it
      have notAbove : position ∉ node.ancestors := by
        intro above
        have inFront := lt_index_of_mem_ancestors above
        have bound : position < (source.fill (cons label kids rest)).flat.length := by
          rw [length_flat, size_fill, size]
          omega
        have found := List.getElem?_eq_getElem bound
        have reaches := (inNode _ _ found).mp above
        have ends := getElem_of_inside found ⟨behindIt, inTree⟩
        omega
      simp only [notAbove, false_iff]
      omega
    · have sameCell := @getElem_cut_of_ge _ source label kids rest (position - (kids.size + 1))
          (by omega)
      rw [Nat.sub_add_cancel (by omega)] at sameCell
      rcases Nat.lt_or_ge node.index source.index with further | there
      · have notAbove := @notBehind node position (by omega)
        have notLeft := @notBehind left (position - (kids.size + 1))
          (by rw [indexEq, unshift, if_pos further]; omega)
        simp only [notAbove, notLeft, false_iff, and_false, or_false, not_and]
        omega
      · by_cases bound : position < (source.fill (cons label kids rest)).flat.length
        · have found := List.getElem?_eq_getElem bound
          rw [inNode _ _ found, inLeft _ _ _ (sameCell.trans found), if_neg (by omega)]
          omega
        · have nodeBound : node.index < (source.fill (cons label kids rest)).flat.length :=
            (List.getElem?_eq_some_iff.mp nodeCell).1
          have notAbove := @notBehind node position (by omega)
          have notLeft := @notBehind left (position - (kids.size + 1))
            (by rw [indexEq, unshift, if_neg (by omega)]; omega)
          simp only [notAbove, notLeft, false_iff, and_false, or_false, not_and]
          omega

end Cut

end Hole

end SysrepoAugeas.Data.Forest
