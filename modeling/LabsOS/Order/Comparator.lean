import Mathlib.Data.List.Sort

/-!
# Comparison functions

A comparison in the style of C: negative, zero or positive. What a sorting function may
ask of it, how a class of items is put in front of the others, and when the sorted order of
a list is unique.
-/

namespace LabsOS

/-- The comparison `cmp` is a total preorder: `cmp a b ≤ 0` says that `a` may stand in front
of `b`. -/
structure TotalPreorder {α : Type} (cmp : α → α → Int) : Prop where
  refl : ∀ a, cmp a a = 0
  swap : ∀ a b, (cmp b a).sign = -(cmp a b).sign
  trans : ∀ a b c, cmp a b ≤ 0 → cmp b c ≤ 0 → cmp a c ≤ 0

/-- The list is in the order of `cmp`. -/
def SortedBy {α : Type} (cmp : α → α → Int) (l : List α) : Prop :=
  l.Pairwise fun a b => cmp a b ≤ 0

/-- Put the items in `cls` in front, and compare by `cmp` within. -/
def classFirst {α : Type} (cls : α → Bool) (cmp : α → α → Int) (a b : α) : Int :=
  if cls a && !cls b then -1 else if !cls a && cls b then 1 else cmp a b

variable {α β : Type} {cmp : α → α → Int} {cls : α → Bool}

namespace TotalPreorder

theorem total (h : TotalPreorder cmp) (a b : α) : cmp a b ≤ 0 ∨ cmp b a ≤ 0 := by
  have hswap := h.swap a b
  rcases le_or_gt (cmp a b) 0 with hab | hab
  · exact .inl hab
  · rw [Int.sign_eq_one_of_pos hab] at hswap
    exact .inr (Int.sign_eq_neg_one_iff_neg.mp hswap).le

/-- Comparing through a function. -/
theorem comap (h : TotalPreorder cmp) (f : β → α) : TotalPreorder fun a b => cmp (f a) (f b) where
  refl a := h.refl (f a)
  swap a b := h.swap (f a) (f b)
  trans a b c := h.trans (f a) (f b) (f c)

theorem classFirst (h : TotalPreorder cmp) (cls : α → Bool) :
    TotalPreorder (classFirst cls cmp) where
  refl a := by
    unfold LabsOS.classFirst
    cases cls a <;> simp [h.refl a]
  swap a b := by
    unfold LabsOS.classFirst
    cases cls a <;> cases cls b <;> simp [h.swap a b]
  trans a b c := by
    unfold LabsOS.classFirst
    have htrans := h.trans a b c
    cases cls a <;> cases cls b <;> cases cls c <;> simp_all

end TotalPreorder

/-- In a list sorted with a class in front, the class is in front, and both parts are
sorted. -/
theorem sortedBy_classFirst_iff {l : List α} :
    SortedBy (classFirst cls cmp) l ↔
      l.Pairwise fun a b => (cls b → cls a) ∧ (cls a = cls b → cmp a b ≤ 0) := by
  apply List.Pairwise.iff
  intro a b
  unfold classFirst
  cases cls a <;> cases cls b <;> simp

/-- There is one sorted order if no two items of the list compare equal. -/
theorem sortedBy_unique (h : TotalPreorder cmp) {l l' : List α} (hperm : l.Perm l')
    (hl : SortedBy cmp l) (hl' : SortedBy cmp l')
    (hne : ∀ a ∈ l, ∀ b ∈ l, cmp a b = 0 → a = b) : l = l' := by
  refine hperm.eq_of_pairwise (fun a b ha hb hab hba => ?_) hl hl'
  have hswap := h.swap a b
  refine hne a ha b (hperm.mem_iff.mpr hb) (le_antisymm hab ?_)
  by_contra hneg
  have hlt : cmp a b < 0 := by omega
  rw [Int.sign_eq_neg_one_of_neg hlt] at hswap
  have hpos : 0 < cmp b a := Int.sign_eq_one_iff_pos.mp hswap
  omega

/-- Insertion sort, the smallest function that does what is asked of a sorting function. -/
def insertionSortBy (cmp : α → α → Int) (l : List α) : List α :=
  l.insertionSort fun a b => cmp a b ≤ 0

theorem insertionSortBy_perm (cmp : α → α → Int) (l : List α) : (insertionSortBy cmp l).Perm l :=
  List.perm_insertionSort _ l

theorem sortedBy_insertionSortBy (h : TotalPreorder cmp) (l : List α) :
    SortedBy cmp (insertionSortBy cmp l) := by
  have htotal : Std.Total fun a b => cmp a b ≤ 0 := ⟨h.total⟩
  have htrans : IsTrans α fun a b => cmp a b ≤ 0 := ⟨h.trans⟩
  exact List.pairwise_insertionSort _ l

end LabsOS
