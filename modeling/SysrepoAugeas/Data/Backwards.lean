import Mathlib.Data.Fintype.Card
import Mathlib.Data.Set.Finite.List
import Mathlib.Logic.Relation
import Mathlib.Order.WellFounded

/-!
# Orders in which references lead back

When no element refers to itself over any number of steps, the elements can be
put in an order such that each one refers only to those in front of it: among
the elements that are left there always is one that refers to none of them.
-/

namespace SysrepoAugeas.Data

universe u

variable {Alpha : Type u} {refers : Alpha → Alpha → Prop}

/-- Nothing leads back to where it began. -/
def Acyclic (refers : Alpha → Alpha → Prop) : Prop :=
  ∀ first, ¬ Relation.TransGen refers first first

/-- References that go down to a lower rank do not come back. -/
theorem acyclic_of_rank (rank : Alpha → Nat)
    (lower : ∀ element other, refers element other → rank other < rank element) :
    Acyclic refers := by
  have reached : ∀ first last, Relation.TransGen refers first last → rank last < rank first := by
    intro first last steps
    induction steps with
    | single referred => exact lower _ _ referred
    | tail _ referred inductionHypothesis =>
        exact Nat.lt_trans (lower _ _ referred) inductionHypothesis
  exact fun first steps => Nat.lt_irrefl _ (reached first first steps)

/-- Every element of the sequence refers only to elements in front of it. -/
def Backwards (refers : Alpha → Alpha → Prop) (sequence : List Alpha) : Prop :=
  ∀ front element back, sequence = front ++ element :: back →
    ∀ other, refers element other → other ∈ front

theorem backwards_nil : Backwards refers [] := by
  intro front element back split
  simp at split

theorem Backwards.concat {sequence : List Alpha} (backwards : Backwards refers sequence)
    {last : Alpha} (ready : ∀ other, refers last other → other ∈ sequence) :
    Backwards refers (sequence ++ [last]) := by
  intro front element back split other referred
  rcases List.eq_nil_or_concat back with rfl | ⟨shorter, final, rfl⟩
  · obtain ⟨rfl, same⟩ := List.append_inj' split rfl
    obtain rfl := List.cons.inj same |>.1
    exact ready other referred
  · have regrouped : sequence ++ [last] = (front ++ element :: shorter) ++ [final] := by
      simpa using split
    exact backwards front element shorter (List.append_inj' regrouped rfl).1 other referred

theorem Backwards.mono {fewer : Alpha → Alpha → Prop} {sequence : List Alpha}
    (backwards : Backwards refers sequence)
    (fewerRefer : ∀ element other, fewer element other → refers element other) :
    Backwards fewer sequence :=
  fun front element back split other referred =>
    backwards front element back split other (fewerRefer element other referred)

/-- A sequence without cycles has an element that refers to none of them. -/
theorem Acyclic.exists_ready (acyclic : Acyclic refers) {pending : List Alpha}
    (nonempty : pending ≠ []) : ∃ ready ∈ pending, ∀ other ∈ pending, ¬ refers ready other := by
  have finite : Finite { element // element ∈ pending } := (List.finite_toSet pending).to_subtype
  -- what is referred to over any number of steps is smaller
  let smaller : { element // element ∈ pending } → { element // element ∈ pending } → Prop :=
    fun low high => Relation.TransGen refers high.1 low.1
  have transitive : IsTrans _ smaller := ⟨fun _ _ _ lower higher => higher.trans lower⟩
  have irreflexive : Std.Irrefl smaller := ⟨fun element => acyclic element.1⟩
  have wellFounded : WellFounded smaller := Finite.wellFounded_of_trans_of_irrefl smaller
  obtain ⟨first, member⟩ := List.exists_mem_of_ne_nil pending nonempty
  obtain ⟨ready, -, least⟩ := wellFounded.has_min Set.univ ⟨⟨first, member⟩, trivial⟩
  exact ⟨ready.1, ready.2, fun other otherMember referred =>
    least ⟨other, otherMember⟩ trivial (.single referred)⟩

end SysrepoAugeas.Data
