import SysrepoAugeas.Ynode.MergeWeigh

/-!
# Runs of merges

Every merge of two branches that begin with other nodes than `YN_CASE` takes at
least one such node away, so a run of these merges ends; its length also bounds
the nodes that the array has at most.  What a run keeps is one relation between
its start and its end, which single merges have and which goes through levels
and repetitions.
-/

namespace SysrepoAugeas.Ynode

open SysrepoAugeas.Data

/-- Both branches begin with a node that is no `YN_CASE`. -/
def CaseMerge.Plain (merge : CaseMerge) : Prop :=
  merge.first1.type ≠ .ynCase ∧ beginsPlain merge.br2 merge.before = true

instance (merge : CaseMerge) : Decidable merge.Plain :=
  inferInstanceAs (Decidable (_ ∧ _))

/-- The weight by which temporary wrappers are counted. -/
def wrapping (type : YangType) : Nat := if type = .ynUnknown then 1 else 0

theorem weigh_eq_zero {weight : YangType → Nat} {forest : Forest AyYnode} :
    weigh weight forest = 0 ↔ ∀ node ∈ forest.labels, weight node.type = 0 := by
  induction forest with
  | nil => simp
  | cons node kids rest ofKids ofRest =>
      simp only [weigh_cons, Nat.add_eq_zero_iff, ofKids, ofRest, Forest.labels_cons, List.mem_cons,
        List.mem_append, or_imp, forall_and, forall_eq, and_assoc]

theorem weigh_otherThanCase_le (forest : Forest AyYnode) :
    weigh otherThanCase forest ≤ forest.size := by
  induction forest with
  | nil => simp
  | cons node kids rest ofKids ofRest =>
      have : otherThanCase node.type ≤ 1 := by
        unfold otherThanCase
        split <;> omega
      simp only [weigh_cons, Forest.size]
      omega

namespace Merges

variable {meter meter' : Meter} {first1 : AyYnode} {br2 : YnodeId} {before after : Forest AyYnode}

theorem now_le (merges : Merges meter meter' first1 br2 before after) :
    meter'.now ≤ meter.now + 4 := by
  obtain ⟨_, cases, gone, grown, ⟨le, now, _⟩, rfl, _, _⟩ := merges
  simp only [Meter.delete]
  omega

theorem peak_le (merges : Merges meter meter' first1 br2 before after) :
    meter'.peak ≤ max meter.peak (meter.now + 4) := by
  obtain ⟨_, cases, gone, grown, ⟨_, _, peak⟩, rfl, _, _⟩ := merges
  exact peak

/-- The counter follows the number of nodes. -/
theorem now_eq (merges : Merges meter meter' first1 br2 before after) {outside : Nat}
    (isSize : meter.now = outside + before.size) : meter'.now = outside + after.size := by
  obtain ⟨_, cases, gone, grown, ⟨_, now, _⟩, rfl, _, account⟩ := merges
  have sizes := account (fun _ => 1) ⟨rfl, rfl⟩
  simp only [weigh_one] at sizes
  simp only [Meter.delete]
  omega

theorem otherThanCase_lt (merges : Merges meter meter' first1 br2 before after)
    (notCase : first1.type ≠ .ynCase) (plain : beginsPlain br2 before) :
    weigh otherThanCase after < weigh otherThanCase before := by
  obtain ⟨_, cases, gone, grown, _, rfl, goneOthers, account⟩ := merges
  have first : otherThanCase first1.type = 1 := if_neg notCase
  have others := account otherThanCase ⟨first.symm, first.symm⟩
  have taken := goneOthers plain
  have noCase : otherThanCase .ynCase = 0 := rfl
  rw [noCase, Nat.mul_zero] at others
  omega

theorem wrapping_eq_zero (merges : Merges meter meter' first1 br2 before after)
    (none : weigh wrapping before = 0) : weigh wrapping after = 0 := by
  obtain ⟨first, cases, gone, grown, _, rfl, _, account⟩ := merges
  have known : wrapping first1.type = 0 := Nat.eq_zero_of_le_zero (none ▸ first wrapping)
  have wrappers := account wrapping ⟨known.symm, known.symm⟩
  have noWrapper : wrapping .ynCase = 0 := rfl
  rw [noWrapper, none, Nat.mul_zero] at wrappers
  omega

end Merges

/-- What the merges in a part of a run add to it. -/
structure Adds (run run' : MergeRun) (steps : List CaseMerge) : Prop where
  merges : run'.merges = run.merges ++ steps
  shrinks : ∀ merge ∈ steps, merge.Plain →
    weigh otherThanCase merge.after < weigh otherThanCase merge.before
  now : run'.meter.now ≤ run.meter.now + 4 * steps.length
  peak : run'.meter.peak ≤ max run.meter.peak (run.meter.now + 4 * steps.length)

theorem Adds.trans {run run' run'' : MergeRun} {steps steps' : List CaseMerge}
    (one : Adds run run' steps) (two : Adds run' run'' steps') :
    Adds run run'' (steps ++ steps') where
  merges := by rw [two.merges, one.merges, List.append_assoc]
  shrinks := by
    intro merge member
    rcases List.mem_append.mp member with inOne | inTwo
    · exact one.shrinks merge inOne
    · exact two.shrinks merge inTwo
  now := by
    have now1 := one.now
    have now2 := two.now
    rw [List.length_append]
    omega
  peak := by
    have now1 := one.now
    have peak1 := one.peak
    have peak2 := two.peak
    rw [List.length_append]
    omega

/-- What a part of a run makes of the siblings or the whole tree that it goes through. -/
structure Merged (run run' : MergeRun) (forest forest' : Forest AyYnode) (steps : List CaseMerge) :
    Prop extends Adds run run' steps where
  size : ∀ outside, run.meter.now = outside + forest.size → run'.meter.now = outside + forest'.size
  others : (∀ merge ∈ steps, merge.Plain) →
    weigh otherThanCase forest' + steps.length ≤ weigh otherThanCase forest
  wrappers : weigh wrapping forest = 0 → weigh wrapping forest' = 0

namespace Merged

variable {run run' run'' : MergeRun} {forest forest' forest'' : Forest AyYnode}
  {steps steps' : List CaseMerge}

theorem refl (forest : Forest AyYnode) (sameMeter : run'.meter = run.meter)
    (sameMerges : run'.merges = run.merges) : Merged run run' forest forest [] := by
  refine ⟨⟨?_, ?_, ?_, ?_⟩, ?_, ?_, ?_⟩ <;> simp [sameMeter, sameMerges]

theorem trans (one : Merged run run' forest forest' steps)
    (two : Merged run' run'' forest' forest'' steps') :
    Merged run run'' forest forest'' (steps ++ steps') where
  toAdds := one.toAdds.trans two.toAdds
  size := fun outside isSize => two.size outside (one.size outside isSize)
  others := by
    intro plain
    have others1 := one.others fun merge member => plain merge (List.mem_append_left _ member)
    have others2 := two.others fun merge member => plain merge (List.mem_append_right _ member)
    rw [List.length_append]
    omega
  wrappers := fun none => two.wrappers (one.wrappers none)

/-- First below a node, then in the siblings behind it. -/
theorem cons {kids kids' rest rest' : Forest AyYnode} (child : AyYnode)
    (below : Merged run run' kids kids' steps) (behind : Merged run' run'' rest rest' steps') :
    Merged run run'' (.cons child kids rest) (.cons child kids' rest') (steps ++ steps') where
  toAdds := below.toAdds.trans behind.toAdds
  size := by
    intro outside isSize
    simp only [Forest.size] at isSize ⊢
    have size1 := below.size (outside + 1 + rest.size) (by omega)
    have size2 := behind.size (outside + 1 + kids'.size) (by omega)
    omega
  others := by
    intro plain
    have others1 := below.others fun merge member => plain merge (List.mem_append_left _ member)
    have others2 := behind.others fun merge member => plain merge (List.mem_append_right _ member)
    simp only [weigh_cons, List.length_append]
    omega
  wrappers := by
    intro none
    simp only [weigh_cons, Nat.add_eq_zero_iff] at none ⊢
    exact ⟨⟨none.1.1, below.wrappers none.1.2⟩, behind.wrappers none.2⟩

theorem step {meter' : Meter} {first1 : AyYnode} {br2 : YnodeId} {before after : Forest AyYnode}
    (step : Merges run.meter meter' first1 br2 before after) :
    Merged run ⟨meter', run.merges ++ [⟨first1, br2, before, after⟩], run.stop⟩ before after
      [⟨first1, br2, before, after⟩] where
  merges := rfl
  shrinks := by
    intro merge member plain
    rw [List.mem_singleton.mp member] at plain ⊢
    exact step.otherThanCase_lt plain.1 plain.2
  now := step.now_le
  peak := step.peak_le
  size := fun _ isSize => step.now_eq isSize
  others := by
    intro plain
    obtain ⟨notCase, beginsPlain⟩ := plain _ (List.mem_singleton.mpr rfl)
    exact step.otherThanCase_lt notCase beginsPlain
  wrappers := step.wrapping_eq_zero

end Merged

section Runs

variable {lenses : Lnode → LensText}

/-- None of the siblings is to be merged. -/
def NoMerge (lenses : Lnode → LensText) (siblings : Forest AyYnode) : Prop :=
  nextMerge lenses siblings = some none

theorem mergeSiblings_merged {fuel : Nat} {run : MergeRun} {front siblings : Forest AyYnode}
    {out : Forest AyYnode × MergeRun}
    (result : mergeSiblings lenses fuel run front siblings = out) :
    ∃ steps, Merged run out.2 (front.append siblings) out.1 steps ∧
      (out.2.stop = some .endless → run.stop = some .endless ∨ fuel ≤ steps.length) ∧
      (steps = [] → out.2.stop = none → out.1 = front.append siblings ∧ NoMerge lenses siblings) := by
  induction fuel generalizing run front siblings with
  | zero =>
      unfold mergeSiblings at result
      dsimp only at result
      split at result
      · subst result
        exact ⟨[], Merged.refl _ rfl rfl, by simp⟩
      · subst result
        rename_i noMerge
        exact ⟨[], Merged.refl _ rfl rfl, .inl, fun _ _ => ⟨rfl, noMerge⟩⟩
      · subst result
        exact ⟨[], Merged.refl _ rfl rfl, by simp⟩
  | succ fuel inductionHypothesis =>
      unfold mergeSiblings at result
      dsimp only at result
      split at result
      · subst result
        exact ⟨[], Merged.refl _ rfl rfl, by simp⟩
      · subst result
        rename_i noMerge
        exact ⟨[], Merged.refl _ rfl rfl, .inl, fun _ _ => ⟨rfl, noMerge⟩⟩
      · rename_i next isNext
        split at result
        · rename_i impossible
          cases impossible
        · subst result
          exact ⟨[], Merged.refl _ rfl rfl, by simp⟩
        · rename_i fuel' passed merged meter isFuel once
          cases isFuel
          obtain ⟨steps, ofRest, endless, quiet⟩ := inductionHypothesis result
          refine ⟨_ :: steps, (Merged.step (mergeOnce_merges isNext once)).trans ofRest, ?_, by simp⟩
          intro isEndless
          rcases endless isEndless with before | long
          · exact .inl before
          · exact .inr (Nat.succ_le_succ long)

/-- What a pass makes of a forest, and of the lists of siblings that it looks at if it merges
nothing. -/
def MergePass (lenses : Lnode → LensText) (lists : List (Forest AyYnode)) (run : MergeRun)
    (forest : Forest AyYnode) (out : Forest AyYnode × MergeRun) : Prop :=
  ∃ steps, Merged run out.2 forest out.1 steps ∧
    ((∀ merge ∈ steps, merge.Plain) → out.2.stop = some .endless → run.stop = some .endless) ∧
    (steps = [] → out.2.stop = none → out.1 = forest ∧ ∀ siblings ∈ lists, NoMerge lenses siblings)

theorem mergeLevel_passed {run : MergeRun} {forest : Forest AyYnode}
    {below : Forest AyYnode × MergeRun} (passed : MergePass lenses forest.childLists run forest below) :
    MergePass lenses (forest :: forest.childLists) run forest (mergeLevel lenses below) := by
  obtain ⟨steps, merged, endless, quiet⟩ := passed
  unfold mergeLevel
  split
  · rename_i stopped
    refine ⟨steps, merged, endless, fun _ going => ?_⟩
    rw [going] at stopped
    cases stopped
  · rename_i going
    obtain ⟨steps', merged', endless', quiet'⟩ :=
      @mergeSiblings_merged lenses (below.1.size + 1) below.2 .nil below.1 _ rfl
    refine ⟨steps ++ steps', merged.trans merged', ?_, ?_⟩
    · intro plain isEndless
      rcases endless' isEndless with before | long
      · rw [before] at going
        exact absurd rfl going
      · -- so many merges would take away more nodes than there are
        have others := merged'.others fun merge member =>
          plain merge (List.mem_append_right _ member)
        have most := weigh_otherThanCase_le below.1
        simp only [Forest.append] at others
        omega
    · intro noSteps isDone
      obtain ⟨rfl, rfl⟩ := List.append_eq_nil_iff.mp noSteps
      obtain ⟨same', noMerge'⟩ := quiet' rfl isDone
      obtain ⟨same, noMerge⟩ := quiet rfl (Option.not_isSome_iff_eq_none.mp going)
      rw [same] at same' noMerge'
      refine ⟨?_, ?_⟩
      · rw [same]
        exact same'
      · intro siblings member
        rcases List.mem_cons.mp member with rfl | isBelow
        · exact noMerge'
        · exact noMerge siblings isBelow

theorem mergeBelow_passed (run : MergeRun) (forest : Forest AyYnode) :
    MergePass lenses forest.childLists run forest (mergeBelow lenses run forest) := by
  induction forest generalizing run with
  | nil => exact ⟨[], Merged.refl _ rfl rfl, fun _ => id, by simp [mergeBelow, Forest.childLists]⟩
  | cons child kids rest ofKids ofRest =>
      obtain ⟨steps, merged, endless, quiet⟩ := mergeLevel_passed (ofKids run)
      unfold mergeBelow
      dsimp only
      split
      · rename_i stopped
        refine ⟨steps ++ [], merged.cons child (Merged.refl rest rfl rfl), ?_, ?_⟩
        · rw [List.append_nil]
          exact endless
        · intro _ going
          rw [going] at stopped
          cases stopped
      · rename_i going
        obtain ⟨steps', merged', endless', quiet'⟩ := ofRest (mergeLevel lenses (mergeBelow lenses run kids)).2
        refine ⟨steps ++ steps', merged.cons child merged', ?_, ?_⟩
        · intro plain isEndless
          have before := endless' (fun merge member => plain merge (List.mem_append_right _ member))
            isEndless
          exact endless (fun merge member => plain merge (List.mem_append_left _ member)) before
        · intro noSteps isDone
          obtain ⟨rfl, rfl⟩ := List.append_eq_nil_iff.mp noSteps
          obtain ⟨same, noMerge⟩ := quiet rfl (Option.not_isSome_iff_eq_none.mp going)
          obtain ⟨same', noMerge'⟩ := quiet' rfl isDone
          refine ⟨?_, ?_⟩
          · dsimp only
            rw [same, same']
          · intro siblings member
            rcases List.mem_cons.mp member with rfl | member
            · exact noMerge _ List.mem_cons_self
            rcases List.mem_append.mp member with inKids | inRest
            · exact noMerge _ (List.mem_cons_of_mem _ inKids)
            · exact noMerge' _ inRest

theorem ayYnodeMergeCasesR_passed (run : MergeRun) (forest : Forest AyYnode) :
    MergePass lenses (forest :: forest.childLists) run forest (ayYnodeMergeCasesR lenses run forest) :=
  mergeLevel_passed (mergeBelow_passed run forest)

/-- The last pass has left nothing to be merged. -/
theorem noMerge_of_isLast {run : MergeRun} {forest : Forest AyYnode} {steps : List CaseMerge}
    {out : Forest AyYnode × MergeRun} (merged : Merged run out.2 forest out.1 steps)
    (quiet : steps = [] → out.2.stop = none → out.1 = forest ∧
      ∀ siblings ∈ forest :: forest.childLists, NoMerge lenses siblings)
    (isLast : out.2.stop.isSome ∨ out.2.merges.length = run.merges.length)
    (isDone : out.2.stop = none) :
    ∀ siblings ∈ out.1 :: out.1.childLists, NoMerge lenses siblings := by
  rw [isDone, merged.merges, List.length_append] at isLast
  have noSteps : steps = [] := by
    apply List.eq_nil_of_length_eq_zero
    rcases isLast with stopped | sameLength
    · cases stopped
    · omega
  obtain ⟨same, noMerge⟩ := quiet noSteps isDone
  rwa [same]

theorem exists_step {run : MergeRun} {forest : Forest AyYnode} {steps : List CaseMerge}
    {out : Forest AyYnode × MergeRun} (merged : Merged run out.2 forest out.1 steps)
    (notLast : ¬(out.2.stop.isSome ∨ out.2.merges.length = run.merges.length)) :
    1 ≤ steps.length := by
  rw [merged.merges, List.length_append] at notLast
  have : run.merges.length + steps.length ≠ run.merges.length := fun same => notLast (.inr same)
  omega

theorem mergeCasesLoop_merged {fuel : Nat} {run : MergeRun} {forest : Forest AyYnode}
    {out : Forest AyYnode × MergeRun} (result : mergeCasesLoop lenses fuel run forest = out) :
    ∃ steps, Merged run out.2 forest out.1 steps ∧
      ((∀ merge ∈ steps, merge.Plain) → weigh otherThanCase forest ≤ fuel →
        out.2.stop = some .endless → run.stop = some .endless) ∧
      (out.2.stop = none → ∀ siblings ∈ out.1 :: out.1.childLists, NoMerge lenses siblings) := by
  induction fuel generalizing run forest with
  | zero =>
      obtain ⟨steps, merged, endless, quiet⟩ := @ayYnodeMergeCasesR_passed lenses run forest
      unfold mergeCasesLoop at result
      dsimp only at result
      split at result
      · rename_i isLast
        subst result
        exact ⟨steps, merged, fun plain _ => endless plain, noMerge_of_isLast merged quiet isLast⟩
      · rename_i notLast
        subst result
        refine ⟨steps ++ [], merged.trans (Merged.refl _ rfl rfl), ?_, by simp⟩
        intro plain noOthers
        have others := merged.others fun merge member => plain merge (List.mem_append_left _ member)
        have some := exists_step merged notLast
        omega
  | succ fuel inductionHypothesis =>
      obtain ⟨steps, merged, endless, quiet⟩ := @ayYnodeMergeCasesR_passed lenses run forest
      unfold mergeCasesLoop at result
      dsimp only at result
      split at result
      · rename_i isLast
        subst result
        exact ⟨steps, merged, fun plain _ => endless plain, noMerge_of_isLast merged quiet isLast⟩
      · rename_i notLast
        obtain ⟨steps', merged', endless', noMerge⟩ := inductionHypothesis result
        refine ⟨steps ++ steps', merged.trans merged', ?_, noMerge⟩
        intro plain enough isEndless
        have others := merged.others fun merge member => plain merge (List.mem_append_left _ member)
        have some := exists_step merged notLast
        have before := endless' (fun merge member => plain merge (List.mem_append_right _ member))
          (by omega) isEndless
        simp [before] at notLast

/-- The counter is the number of nodes at the end. -/
theorem ayYnodeMergeCases_now (idcnt : YnodeId) (forest : Forest AyYnode) :
    (ayYnodeMergeCases lenses idcnt forest).2.meter.now =
      (ayYnodeMergeCases lenses idcnt forest).1.size := by
  obtain ⟨steps, merged, _⟩ := @mergeCasesLoop_merged lenses forest.size
    ⟨⟨idcnt, forest.size, forest.size⟩, [], none⟩ forest _ rfl
  have sizes := merged.size 0 (Nat.zero_add forest.size).symm
  rwa [Nat.zero_add] at sizes

end Runs

section NoMerge

variable {lenses : Lnode → LensText}

theorem cmp_of_findMatch {chn1 chn2 : AyYnode} {kids1 kids2 between behind : Forest AyYnode}
    (sameChoice : ∀ node ∈ between.roots, node.choice = chn1.choice)
    (inChoice : chn2.choice = chn1.choice)
    (noMatch : findMatch lenses chn1 kids1 (between.append (.cons chn2 kids2 behind)) = some none) :
    ayYnodeCmpChoiceBranches lenses chn1 kids1 chn2 kids2 = some false := by
  induction between with
  | nil =>
      simp only [Forest.append, findMatch, if_pos inChoice] at noMatch
      obtain ⟨isMatch, compared, rest⟩ := Option.bind_eq_some_iff.mp noMatch
      cases isMatch with
      | true => cases rest
      | false => exact compared
  | cons node kids rest _ inductionHypothesis =>
      rw [Forest.roots] at sameChoice
      have here := sameChoice node List.mem_cons_self
      simp only [Forest.append, findMatch, if_pos here] at noMatch
      obtain ⟨isMatch, compared, rest'⟩ := Option.bind_eq_some_iff.mp noMatch
      apply inductionHypothesis
      · intro other member
        exact sameChoice other (List.mem_cons_of_mem _ member)
      · cases isMatch with
        | true => cases rest'
        | false =>
            obtain ⟨found, isFound, same⟩ := Option.bind_eq_some_iff.mp rest'
            cases found with
            | none => exact isFound
            | some found => cases same

/-- No two siblings in a run of one choice match. -/
theorem NoMerge.cmp {siblings front between behind : Forest AyYnode} {chn1 chn2 : AyYnode}
    {kids1 kids2 : Forest AyYnode} (noMerge : NoMerge lenses siblings)
    (place : siblings = front.append (.cons chn1 kids1 (between.append (.cons chn2 kids2 behind))))
    (isChoice : chn1.choice.isSome) (sameChoice : ∀ node ∈ between.roots, node.choice = chn1.choice)
    (inChoice : chn2.choice = chn1.choice) :
    ayYnodeCmpChoiceBranches lenses chn1 kids1 chn2 kids2 = some false := by
  subst place
  induction front with
  | nil =>
      apply cmp_of_findMatch sameChoice inChoice
      have someChoice : chn1.choice.isNone = false := by simp [Option.isNone_eq_false_iff, isChoice]
      simp only [NoMerge, Forest.append, nextMerge, matchOf, someChoice] at noMerge
      split at noMerge
      · cases noMerge
      · cases noMerge
      · assumption
  | cons node kids rest _ inductionHypothesis =>
      apply inductionHypothesis
      simp only [NoMerge, Forest.append, nextMerge] at noMerge
      split at noMerge
      · cases noMerge
      · cases noMerge
      · obtain ⟨next, isNext, same⟩ := Option.map_eq_some_iff.mp noMerge
        cases next with
        | none => exact isNext
        | some next => cases same

/-- No two siblings in a run of one choice are to be merged. -/
def Unmatched (lenses : Lnode → LensText) (forest : Forest AyYnode) : Prop :=
  ∀ siblings ∈ forest :: forest.childLists,
    ∀ (front between behind : Forest AyYnode) (chn1 chn2 : AyYnode) (kids1 kids2 : Forest AyYnode),
    siblings = front.append (.cons chn1 kids1 (between.append (.cons chn2 kids2 behind))) →
    chn1.choice.isSome → (∀ node ∈ between.roots, node.choice = chn1.choice) →
    chn2.choice = chn1.choice → ayYnodeCmpChoiceBranches lenses chn1 kids1 chn2 kids2 = some false

end NoMerge

section Results

variable (lenses : Lnode → LensText)

/-- Every label is a key with a text of its own. -/
def keyLens (label : Lnode) : LensText := ⟨.lKey, String.ofList (List.replicate label 'k')⟩

def labelled (id : Nat) (type : YangType) (label choice : Option Lnode) : AyYnode :=
  { AyYnode.blank (BitVec.ofNat 32 id) with type := type, label := label, choice := choice }

/-- Leaves with ids from `id` on and the labels. -/
def leaves (id : Nat) (choice : Option Lnode) : List Lnode → Forest AyYnode
  | [] => .nil
  | label :: labels => .cons (labelled id .ynLeaf (some label) choice) .nil (leaves (id + 1) choice labels)

/-- A container with two leaves, in a container with two other leaves. -/
def nestedContainer (id : Nat) (label : Lnode) (rest : Forest AyYnode) : Forest AyYnode :=
  .cons (labelled id .ynContainer (some 1) (some 5))
    (.cons (labelled (id + 1) .ynContainer (some 2) none) (leaves (id + 2) none [label, label + 1])
      (leaves (id + 4) none [label + 2, label + 3])) rest

/-- A list with two containers as branches of a choice. -/
def nestedBranches : Forest AyYnode :=
  .cons (labelled 1 .ynList (some 0) none)
    (nestedContainer 2 3 (nestedContainer 8 7 .nil)) .nil

/-- A leaf, a `YN_CASE` that begins with the same leaf, and another leaf in a choice of a
`YN_CASE`. -/
def nestedCase (id : Nat) (label choice : Lnode) (rest : Forest AyYnode) : Forest AyYnode :=
  .cons (labelled id .ynCase none (some 5))
    ((leaves (id + 1) (some choice) [label]).append
      (.cons (labelled (id + 2) .ynCase none (some choice)) (leaves (id + 3) none [label, label + 1])
        ((leaves (id + 5) (some choice) [label + 2]).append (leaves (id + 6) none [label + 3])))) rest

/-- A list with two such `YN_CASE` as branches of a choice. -/
def nestedCases : Forest AyYnode :=
  .cons (labelled 1 .ynList (some 0) none)
    (nestedCase 2 3 6 (nestedCase 9 7 8 .nil)) .nil

/-- As long as every merge comes after fewer merges than there were matching pairs at the start,
the nodes fit. -/
theorem ayYnodeMergeCases_fits (idcnt : YnodeId) (forest : Forest AyYnode) {pairs : Nat}
    (isPairs : matchingPairs lenses forest = some pairs)
    (few : ∀ made < (ayYnodeMergeCases lenses idcnt forest).2.merges.length, made < pairs) :
    ∃ room, ayYnodeRuleMergeCases lenses forest = some room ∧
      (ayYnodeMergeCases lenses idcnt forest).2.meter.peak ≤ forest.size + room := by
  refine ⟨pairs * 4, by simp [ayYnodeRuleMergeCases, isPairs], ?_⟩
  obtain ⟨steps, merged, _⟩ := @mergeCasesLoop_merged lenses forest.size
    ⟨⟨idcnt, forest.size, forest.size⟩, [], none⟩ forest _ rfl
  have isSteps : (ayYnodeMergeCases lenses idcnt forest).2.merges = steps := merged.merges
  have fewSteps : steps.length ≤ pairs := by
    rw [isSteps] at few
    cases length : steps.length with
    | zero => exact Nat.zero_le pairs
    | succ made => exact few made (length ▸ Nat.lt_succ_self made)
  have peak : (ayYnodeMergeCases lenses idcnt forest).2.meter.peak ≤
      max forest.size (forest.size + 4 * steps.length) := merged.peak
  omega

/-- Two containers with a leaf each as branches of a choice. -/
def twoContainers : Forest AyYnode :=
  .cons (labelled 1 .ynContainer (some 1) (some 5)) (leaves 2 none [2])
    (.cons (labelled 3 .ynContainer (some 1) (some 5)) (leaves 4 none [3]) .nil)

theorem ayYnodeMergeCases_fits_twoContainers :
    ∃ room, ayYnodeRuleMergeCases keyLens twoContainers = some room ∧
      (ayYnodeMergeCases keyLens 20 twoContainers).2.meter.peak ≤ twoContainers.size + room :=
  @ayYnodeMergeCases_fits keyLens 20 twoContainers 1 (by decide +kernel) (by decide +kernel)

theorem nestedBranches_not_fit :
    (ayYnodeMergeCases keyLens 20 nestedBranches).2.stop = none ∧
      ∃ room, ayYnodeRuleMergeCases keyLens nestedBranches = some room ∧
        ¬(ayYnodeMergeCases keyLens 20 nestedBranches).2.meter.peak ≤ nestedBranches.size + room := by
  refine ⟨by decide +kernel, 4, by decide +kernel, by decide +kernel⟩

end Results

end SysrepoAugeas.Ynode
