import Mathlib.Data.Finset.Card
import Mathlib.Logic.Relation
import Mathlib.Order.Defs.PartialOrder

/-!
# Walks of a partial function

A partial function leads from a point to the next one until it is undefined.
Where it is defined on finitely many points only, a walk that does not end
comes back to a point it has left.

* `Walk.Ends.not_returns`    — a walk that ends does not come back.
* `Walk.ends_of_not_returns` — on a finite domain that is all there is to it.
* `Walk.ends_of_lt`          — a walk that only ascends on a finite domain ends.
* `Walk.Trail`               — the points of a walk that ends.
-/

namespace LabsOS.Walk

open Relation

variable {α : Type} (f : α → Option α)

/-- The walk goes from `x` to `y` next. -/
def Next (x y : α) : Prop := f x = some y

/-- The walk from `x` comes to a point that it comes to again. -/
def Returns (x : α) : Prop := ∃ y, ReflTransGen (Next f) x y ∧ TransGen (Next f) y y

/-- The walk from `x` ends. -/
def Ends (x : α) : Prop := Acc (fun y x => Next f x y) x

/-- The walk from `x` ends, and these are its points. -/
inductive Trail : α → List α → Prop where
  | last {x : α} (h : f x = none) : Trail x [x]
  | next {x y : α} {l : List α} (h : Next f x y) (hl : Trail y l) : Trail x (x :: l)

variable {f} {x y : α}

theorem Returns.of_next (h : Next f x y) (hy : Returns f y) : Returns f x := by
  obtain ⟨z, hz, hcycle⟩ := hy
  exact ⟨z, hz.head h, hcycle⟩

/-- A walk that returns goes on, and returns from the next point as well. -/
theorem Returns.next (h : Returns f x) : ∃ y, Next f x y ∧ Returns f y := by
  obtain ⟨z, hxz, hcycle⟩ := h
  rcases ReflTransGen.cases_head hxz with rfl | ⟨y, hxy, hyz⟩
  · obtain ⟨y, hxy, hyx⟩ := TransGen.head'_iff.mp hcycle
    exact ⟨y, hxy, x, hyx, hcycle⟩
  · exact ⟨y, hxy, z, hyz, hcycle⟩

theorem Ends.not_returns (h : Ends f x) : ¬ Returns f x := by
  induction h with
  | intro x _ ih =>
    intro hret
    obtain ⟨y, hxy, hy⟩ := hret.next
    exact ih y hxy hy

theorem Trail.ends {l : List α} (h : Trail f x l) : Ends f x := by
  induction h with
  | last hx => exact Acc.intro _ fun y hy => nomatch hx.symm.trans hy
  | next hxy _ ih =>
    apply Acc.intro _
    intro y hy
    obtain rfl := Option.some.inj (hxy.symm.trans hy)
    exact ih

/-- On a finite domain a walk ends that does not return: every step leaves a
point behind for good. -/
theorem ends_of_not_returns (S : Finset α) (hS : ∀ x y, Next f x y → x ∈ S)
    (h : ¬ Returns f x) : Ends f x := by
  classical
  let ahead (x : α) : Finset α := S.filter fun z => ReflTransGen (Next f) x z
  suffices H : ∀ n x, (ahead x).card = n → ¬ Returns f x → Ends f x from H _ x rfl h
  intro n
  induction n using Nat.strong_induction_on with
  | _ n ih =>
    rintro x rfl hx
    refine Acc.intro x fun y hxy => ih _ ?_ y rfl fun hy => hx (hy.of_next hxy)
    refine Finset.card_lt_card ⟨?_, ?_⟩
    · intro z hz
      obtain ⟨hzS, hyz⟩ := Finset.mem_filter.mp hz
      exact Finset.mem_filter.mpr ⟨hzS, hyz.head hxy⟩
    · intro hsub
      -- `x` itself is not ahead of `y`
      have hmem : x ∈ ahead x := Finset.mem_filter.mpr ⟨hS x y hxy, .refl⟩
      have hyx := (Finset.mem_filter.mp (hsub hmem)).2
      exact hx ⟨x, .refl, TransGen.head' hxy hyx⟩

/-- A walk that only ascends does not return. -/
theorem not_returns_of_lt [Preorder α] (hlt : ∀ x y, Next f x y → x < y) : ¬ Returns f x := by
  rintro ⟨y, -, hcycle⟩
  have hall : ∀ z, TransGen (Next f) y z → y < z := by
    intro z hz
    induction hz with
    | single h => exact hlt _ _ h
    | tail _ h ih => exact ih.trans (hlt _ _ h)
  exact lt_irrefl y (hall y hcycle)

theorem ends_of_lt [Preorder α] (S : Finset α) (hS : ∀ x y, Next f x y → x ∈ S)
    (hlt : ∀ x y, Next f x y → x < y) : Ends f x :=
  ends_of_not_returns S hS (not_returns_of_lt hlt)

/-- A walk that ends under `f` ends under every restriction of `f`. -/
theorem Ends.restrict {g : α → Option α} (hg : ∀ x y, Next g x y → Next f x y)
    (h : Ends f x) : Ends g x :=
  Subrelation.accessible (fun {_ _} => hg _ _) h

end LabsOS.Walk
