import LabsOS.Condvar.Invariant
import LabsOS.Kernel.Text
import Mathlib.Data.List.Nodup
import Mathlib.Order.Interval.Finset.Nat

/-!
# What the readers print

`readers_never_repeat`: every array line shows more elements than the one before
it, so that no state of the array is shown twice and at most as many lines are
printed as the array has elements.
-/

namespace LabsOS.Condvar

variable {ι : Type} {n w : Nat} {s : State ι}

/-- The line that shows the first `w` of `n` elements: `A B C _ _`. -/
def shownLine (n w : Nat) : Bytes :=
  ((List.range w).map letter ++ List.replicate (n - w) blank).intersperse space

/-- The lines show growing prefixes of the array. -/
structure NeverRepeats (n : Nat) (printed : List (Print ι)) : Prop where
  shown : ∀ p ∈ printed, p.line = shownLine n p.writeCounter
  bounds : ∀ p ∈ printed, 1 ≤ p.writeCounter ∧ p.writeCounter ≤ n
  increasing : printed.Pairwise fun p q => p.writeCounter < q.writeCounter
  length_le : printed.length ≤ n

-- ---------------------------------------------------------------------------
-- The printing loop
-- ---------------------------------------------------------------------------

/-- The elements that are shown, as the loop goes through them. -/
theorem shown_elements (h : w ≤ n) :
    (List.range w).map letter ++ List.replicate (n - w) blank =
      (List.range n).map fun k => if k < w then letter k else blank := by
  refine List.ext_getElem ?_ ?_
  · simp [h]
  · intro k hk hk'
    by_cases hkw : k < w
    · simp [hkw]
    · have hright : ((List.range w).map letter).length ≤ k := by simpa using hkw
      simp [List.getElem_append_right hright, hkw]

/-- The loop prints the elements with blanks between them. -/
theorem shownPrefix_eq (h : w ≤ n) : shownPrefix n w n = shownLine n w := by
  have hjoined : shownPrefix n w n =
      [space].intercalate ((List.range n).map fun k => [if k < w then letter k else blank]) :=
    flatMap_separated [space] (fun k => [if k < w then letter k else blank]) n
  rw [hjoined, shownLine, shown_elements h, ← intercalate_singletons, List.map_map]
  rfl

theorem length_le_of_increasing {printed : List (Print ι)}
    (hbounds : ∀ p ∈ printed, 1 ≤ p.writeCounter ∧ p.writeCounter ≤ n)
    (h : printed.Pairwise fun p q => p.writeCounter < q.writeCounter) : printed.length ≤ n := by
  have hnodup : (printed.map Print.writeCounter).Nodup :=
    (List.pairwise_map.mpr h).imp fun hlt => hlt.ne
  have hsub : (printed.map Print.writeCounter).toFinset ⊆ Finset.Icc 1 n := by
    intro w hw
    obtain ⟨p, hp, rfl⟩ := List.mem_map.mp (List.mem_toFinset.mp hw)
    exact Finset.mem_Icc.mpr (hbounds p hp)
  calc printed.length
      = (printed.map Print.writeCounter).toFinset.card := by
        rw [List.toFinset_card_of_nodup hnodup, List.length_map]
    _ ≤ (Finset.Icc 1 n).card := Finset.card_le_card hsub
    _ = n := by rw [Nat.card_Icc, Nat.add_sub_cancel]

variable [DecidableEq ι] [Fintype ι]

/-- **No state of the array is shown twice**, in any interleaving. -/
theorem readers_never_repeat (h : Reaches (step n) (start n) s) :
    NeverRepeats n s.shared.printed := by
  have hP := (inv_of_reaches h).protected_shared
  have hbounds : ∀ p ∈ s.shared.printed, 1 ≤ p.writeCounter ∧ p.writeCounter ≤ n := fun p hp =>
    ⟨(hP.lines p hp).2.1, (hP.lines p hp).2.2.trans hP.count_le⟩
  refine ⟨fun p hp => ?_, hbounds, hP.increasing, length_le_of_increasing hbounds hP.increasing⟩
  rw [(hP.lines p hp).1, shownPrefix_eq (hbounds p hp).2]

/-- The actions that write and show the only element of an array. -/
def writeAndShow : List (Action (Fin 1)) :=
  List.replicate 7 (.writer ∅) ++ List.replicate 5 (.reader 0)

theorem one_line_never_repeats : ∃ s : State (Fin 1), s.shared.printed.map Print.line = [[65]] ∧
    NeverRepeats 1 s.shared.printed := by
  have hrun : (steps (step 1) writeAndShow (start 1)).map (fun s => s.shared.printed.map Print.line) =
      some [[65]] := by decide +kernel
  obtain ⟨s, hs, hline⟩ := exists_reaches_of_map hrun
  exact ⟨s, hline, readers_never_repeat hs⟩

end LabsOS.Condvar
