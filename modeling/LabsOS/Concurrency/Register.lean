import Mathlib.Data.Finset.Erase
import Mathlib.Data.Finset.Range
import Mathlib.Data.List.Basic
import Mathlib.Logic.Function.Basic

/-!
# Registers that are copied cell by cell

A register of `n` cells that one writer fills with one version after the other, and that any
number of readers copy, each of them cell by cell in any order. Nothing protects it: a copy is
no version in general, but a mixture. Each of its cells is from a version between the last one
that was complete when the copy began and the last one begun when it ended (`Copying.load`,
`Copying.mono`).

`versions` and `complete` are history: the versions that were begun, the initial contents being
the first of them, and the last one that is complete.
-/

namespace LabsOS

structure Register (α : Type) where
  cells : Nat → α
  versions : List (Nat → α)
  complete : Nat

namespace Register

variable {α : Type} {n since j k : Nat} {a : α} {v data : Nat → α} {left : Finset Nat}
variable {r r' r'' : Register α}

def create (v : Nat → α) : Register α := ⟨v, [v], 0⟩

/-- The writer begins a version. -/
def begin (v : Nat → α) (r : Register α) : Register α := { r with versions := r.versions ++ [v] }

def store (j : Nat) (a : α) (r : Register α) : Register α :=
  { r with cells := Function.update r.cells j a }

/-- The writer has stored all of its version. -/
def finish (r : Register α) : Register α := { r with complete := r.versions.length - 1 }

/-- The cell `j` of the version `k`. -/
def Shows (r : Register α) (k j : Nat) (a : α) : Prop := ∃ v, r.versions[k]? = some v ∧ v j = a

-- ---------------------------------------------------------------------------
-- The writer
-- ---------------------------------------------------------------------------

/-- The register holds the last version. -/
structure Idle (n : Nat) (r : Register α) : Prop where
  length : r.versions.length = r.complete + 1
  shows : ∀ j < n, r.Shows r.complete j (r.cells j)

/-- The version `v` is being stored, all but the cells `left`. -/
structure Writing (n : Nat) (v : Nat → α) (left : Finset Nat) (r : Register α) : Prop where
  length : r.versions.length = r.complete + 2
  last : r.versions[r.complete + 1]? = some v
  shows : ∀ j < n, j ∈ left → r.Shows r.complete j (r.cells j)
  stored : ∀ j < n, j ∉ left → r.cells j = v j

/-- Every cell is from the last complete version or a later one. -/
def Sound (n : Nat) (r : Register α) : Prop :=
  ∀ j < n, ∃ k, r.complete ≤ k ∧ r.Shows k j (r.cells j)

theorem Idle.sound (h : Idle n r) : Sound n r := fun j hj => ⟨_, le_rfl, h.shows j hj⟩

theorem Writing.sound (h : Writing n v left r) : Sound n r := by
  intro j hj
  by_cases hleft : j ∈ left
  · exact ⟨_, le_rfl, h.shows j hj hleft⟩
  · exact ⟨_, Nat.le_succ _, v, h.last, (h.stored j hj hleft).symm⟩

theorem idle_create (n : Nat) (v : Nat → α) : Idle n (create v) := ⟨rfl, fun _ _ => ⟨v, rfl, rfl⟩⟩

/-- A cell that is stored again stays as it is. -/
theorem Idle.store (h : Idle n r) (hj : r.Shows r.complete j a) : Idle n (r.store j a) where
  length := h.length
  shows i hi := by
    by_cases hij : i = j
    · subst hij
      show r.Shows r.complete i (Function.update r.cells i a i)
      rw [Function.update_self]
      exact hj
    · show r.Shows r.complete i (Function.update r.cells j a i)
      rw [Function.update_of_ne hij]
      exact h.shows i hi

theorem Idle.begin (h : Idle n r) (v : Nat → α) : Writing n v (Finset.range n) (r.begin v) where
  length := by
    show (r.versions ++ [v]).length = _
    rw [List.length_append, h.length]
    rfl
  last := by
    show (r.versions ++ [v])[r.complete + 1]? = some v
    rw [← h.length, List.getElem?_concat_length]
  shows j hj _ := by
    obtain ⟨w, hw, heq⟩ := h.shows j hj
    refine ⟨w, ?_, heq⟩
    show (r.versions ++ [v])[r.complete]? = some w
    rw [List.getElem?_append_left (by rw [h.length]; exact Nat.lt_succ_self _)]
    exact hw
  stored j hj hnot := absurd (Finset.mem_range.mpr hj) hnot

theorem Writing.store (h : Writing n v left r) :
    Writing n v (left.erase j) (r.store j (v j)) where
  length := h.length
  last := h.last
  shows i hi hin := by
    obtain ⟨hij, hleft⟩ := Finset.mem_erase.mp hin
    show r.Shows r.complete i (Function.update r.cells j (v j) i)
    rw [Function.update_of_ne hij]
    exact h.shows i hi hleft
  stored i hi hnot := by
    show Function.update r.cells j (v j) i = v i
    by_cases hij : i = j
    · rw [hij, Function.update_self]
    · rw [Function.update_of_ne hij]
      exact h.stored i hi fun hleft => hnot (Finset.mem_erase.mpr ⟨hij, hleft⟩)

theorem Writing.finish (h : Writing n v ∅ r) : Idle n r.finish := by
  have hcomplete : r.versions.length - 1 = r.complete + 1 := by
    rw [h.length]
    rfl
  refine ⟨?_, fun j hj => ⟨v, ?_, (h.stored j hj (Finset.notMem_empty j)).symm⟩⟩
  · show r.versions.length = r.versions.length - 1 + 1
    rw [hcomplete, h.length]
  · show r.versions[r.versions.length - 1]? = some v
    rw [hcomplete]
    exact h.last

-- ---------------------------------------------------------------------------
-- The readers
-- ---------------------------------------------------------------------------

/-- What the writer does while others read. -/
structure Later (r r' : Register α) : Prop where
  versions : r.versions <+: r'.versions
  complete : r.complete ≤ r'.complete

theorem Later.refl : Later r r := ⟨List.prefix_rfl, le_rfl⟩

theorem Later.begin : Later r (r.begin v) := ⟨List.prefix_append .., le_rfl⟩

theorem Later.store : Later r (r.store j a) := ⟨List.prefix_rfl, le_rfl⟩

theorem Later.finish (h : r.complete < r.versions.length) : Later r r.finish :=
  ⟨List.prefix_rfl, Nat.le_sub_one_of_lt h⟩

theorem Shows.mono (h : r.Shows k j a) (hlater : Later r r') : r'.Shows k j a := by
  obtain ⟨v, hv, ha⟩ := h
  obtain ⟨rest, hrest⟩ := hlater.versions
  refine ⟨v, ?_, ha⟩
  rw [← hrest, List.getElem?_append_left (List.getElem?_eq_some_iff.mp hv).1]
  exact hv

theorem Shows.lt (h : r.Shows k j a) : k < r.versions.length := by
  obtain ⟨v, hv, -⟩ := h
  exact (List.getElem?_eq_some_iff.mp hv).1

/-- A copy that began when the version `since` was the last complete one, all but the cells
`left`. -/
structure Copying (n since : Nat) (left : Finset Nat) (data : Nat → α) (r : Register α) : Prop where
  since_le : since ≤ r.complete
  copied : ∀ j < n, j ∉ left → ∃ k, since ≤ k ∧ r.Shows k j (data j)

theorem Copying.start (data : Nat → α) : Copying n r.complete (Finset.range n) data r :=
  ⟨le_rfl, fun _ hj hnot => absurd (Finset.mem_range.mpr hj) hnot⟩

theorem Copying.load (h : Copying n since left data r) (hr : Sound n r) :
    Copying n since (left.erase j) (Function.update data j (r.cells j)) r where
  since_le := h.since_le
  copied i hi hnot := by
    by_cases hij : i = j
    · subst hij
      rw [Function.update_self]
      obtain ⟨k, hk, hshows⟩ := hr i hi
      exact ⟨k, h.since_le.trans hk, hshows⟩
    · rw [Function.update_of_ne hij]
      exact h.copied i hi fun hleft => hnot (Finset.mem_erase.mpr ⟨hij, hleft⟩)

theorem Copying.mono (h : Copying n since left data r) (hlater : Later r r') :
    Copying n since left data r' where
  since_le := h.since_le.trans hlater.complete
  copied j hj hnot := by
    obtain ⟨k, hk, hshows⟩ := h.copied j hj hnot
    exact ⟨k, hk, hshows.mono hlater⟩

end Register

end LabsOS
