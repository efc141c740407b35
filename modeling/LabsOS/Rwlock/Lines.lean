import LabsOS.Condvar.Lines
import LabsOS.Rwlock.Rwlock

/-!
# The line of a reader

`lineOf` is the line that shows the first `w` elements of the array. The calls of
`snprintf` make it up where it fits in the buffer (`Fits`), and it holds no NUL, so
that `printf` prints all of it.
-/

namespace LabsOS.Rwlock

open Condvar (letter blank space shownCell shownPrefix shownLine shownPrefix_succ shownPrefix_eq)

variable {ι : Type} {c : Config ι} {i : ι} {x : Shared ι} {n w k : Nat}

def lineOf (c : Config ι) (i : ι) (w : Nat) : Bytes :=
  heading c i ++ shownLine c.arraySize w ++ ascii "]\n"

/-- The line of the reader `i` and its NUL fit in `buffer`. -/
def Fits (c : Config ι) (i : ι) : Prop :=
  (heading c i).length + (2 * c.arraySize - 1) + 2 < bufferSize

instance (c : Config ι) (i : ι) : Decidable (Fits c i) := inferInstanceAs (Decidable (_ < _))

theorem length_shownCell : (shownCell n w k).length = if k + 1 < n then 2 else 1 := by
  unfold shownCell
  split <;> split <;> rfl

theorem length_shownPrefix (h : k < n) : (shownPrefix n w k).length = 2 * k := by
  induction k with
  | zero => rfl
  | succ k ih =>
    rw [shownPrefix_succ, List.length_append, ih (by omega), length_shownCell, if_pos h]
    omega

theorem length_shownPrefix_self (n w : Nat) : (shownPrefix n w n).length = 2 * n - 1 := by
  cases n with
  | zero => rfl
  | succ n =>
    rw [shownPrefix_succ, List.length_append, length_shownPrefix (Nat.lt_succ_self n),
      length_shownCell, if_neg (Nat.lt_irrefl _)]
    omega

theorem length_shownPrefix_le (h : k ≤ n) : (shownPrefix n w k).length ≤ 2 * n - 1 := by
  rcases Nat.lt_or_eq_of_le h with hk | rfl
  · rw [length_shownPrefix hk]
    omega
  · exact (length_shownPrefix_self k w).le

theorem length_lineOf (hw : w ≤ c.arraySize) :
    (lineOf c i w).length = (heading c i).length + (2 * c.arraySize - 1) + 2 := by
  rw [lineOf, ← shownPrefix_eq hw, List.length_append, List.length_append, length_shownPrefix_self]
  rfl

/-- The body of the loop appends a cell that fits. -/
theorem appendCell_fits {buffer : Bytes}
    (hshown : shownElement x k = if k < w then letter k else blank)
    (hfits : (buffer ++ shownCell c.arraySize w k).length < bufferSize) :
    appendCell c x k buffer buffer.length =
      some (buffer ++ shownCell c.arraySize w k,
        (buffer ++ shownCell c.arraySize w k).length) := by
  have hlen := length_shownCell (n := c.arraySize) (w := w) (k := k)
  rw [List.length_append, hlen] at hfits
  have helem : snprintf bufferSize buffer buffer.length [shownElement x k] =
      some (buffer ++ [shownElement x k], (buffer ++ [shownElement x k]).length) := by
    refine snprintf_fits ?_
    rw [List.length_append, List.length_singleton]
    split at hfits <;> omega
  simp only [appendCell, helem, Option.bind_eq_bind, Option.bind_some]
  unfold shownCell
  split
  · next hlt =>
    rw [if_pos hlt] at hfits
    rw [snprintf_fits (by simpa [Nat.add_assoc] using hfits), hshown, List.append_assoc]
    rfl
  · rw [hshown]
    rfl

theorem zero_notMem_heading : (0 : UInt8) ∉ heading c i := by
  have h₁ : (0 : UInt8) ∉ decimal (c.tid i) := zero_notMem_digits (by decide)
  have h₂ : (0 : UInt8) ∉ hexadecimal (c.self i) := zero_notMem_digits (by decide)
  simp only [heading, List.mem_append, h₁, h₂, or_false]
  decide

theorem letter_ne_nul (h : k < 191) : letter k ≠ 0 := by
  intro h0
  have hval : (65 + k) % 256 = 0 := by simpa [letter] using congrArg UInt8.toNat h0
  omega

theorem zero_notMem_shownPrefix (h : n < 191) : (0 : UInt8) ∉ shownPrefix n w n := by
  intro h0
  obtain ⟨k, hk, hmem⟩ := List.mem_flatMap.mp h0
  have hlt : k < 191 := (List.mem_range.mp hk).trans h
  rcases List.mem_cons.mp hmem with hmem | hmem
  · split at hmem
    · exact letter_ne_nul hlt hmem.symm
    · exact absurd hmem (by decide)
  · split at hmem
    · exact absurd (List.mem_singleton.mp hmem) (by decide)
    · cases hmem

/-- The string in the buffer is printed in full. -/
theorem ofBytes_lineOf (hfits : Fits c i) (hw : w ≤ c.arraySize) :
    (CString.ofBytes (lineOf c i w)).bytes = lineOf c i w := by
  have hn : c.arraySize < 191 := by
    unfold Fits bufferSize at hfits
    omega
  have h0 : (0 : UInt8) ∉ lineOf c i w := by
    simp only [lineOf, ← shownPrefix_eq hw, List.mem_append, zero_notMem_heading,
      zero_notMem_shownPrefix hn, false_or]
    decide
  apply List.takeWhile_eq_self_iff.mpr
  intro b hb
  have hne : b ≠ 0 := fun h => h0 (h ▸ hb)
  simpa using hne

end LabsOS.Rwlock
