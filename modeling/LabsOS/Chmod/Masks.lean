import LabsOS.Chmod.Symbolic

/-!
# Masks

What the masks of `apply_symbolic_mode` hold, bit by bit, and what the three
operations make of them: if the categories stand for the classes of a symbolic mode
and the flags for its permissions, the new mode is the one that is meant.
-/

namespace LabsOS.Chmod

/-- The bit of a class in the categories. -/
def Class.bit : Class → Word
  | .user => 4
  | .group => 2
  | .others => 1

/-- `S_IRWXU`, `S_IRWXG` or `S_IRWXO`. -/
def Class.mask : Class → Word
  | .user => irwxu
  | .group => irwxg
  | .others => irwxo

def Selected (categories : Word) (c : Class) : Prop := categories &&& c.bit ≠ 0

variable {categories flags current a b : Word} {c : Class} {p : Permission} {i : Nat}

theorem selected_or : Selected (a ||| b) c ↔ Selected a c ∨ Selected b c := by
  rw [Selected, Selected, Selected, BitVec.and_comm, BitVec.and_or_distrib_left,
    BitVec.and_comm c.bit, BitVec.and_comm c.bit, ← not_and_or]
  exact not_congr BitVec.or_eq_zero_iff

theorem not_selected_zero : ¬ Selected 0 c := fun h => h BitVec.zero_and

-- ---------------------------------------------------------------------------
-- The masks
-- ---------------------------------------------------------------------------

theorem getLsbD_mask (c c' : Class) (p : Permission) :
    c.mask.getLsbD (index (c', p)) = decide (c = c') := by
  cases c <;> cases c' <;> cases p <;> rfl

theorem getLsbD_mask_rest (c : Class) (hi : 9 ≤ i) : c.mask.getLsbD i = false := by
  have hlt : c.mask.toNat < 2 ^ 9 := by cases c <;> decide
  exact Nat.testBit_lt_two_pow (hlt.trans_le (Nat.pow_le_pow_right (by decide) hi))

theorem getLsbD_ifSelected (c : Class) (mask : Word) :
    (ifSelected categories c.bit mask).getLsbD i = true ↔
      Selected categories c ∧ mask.getLsbD i = true := by
  rw [ifSelected, Selected]
  split
  · next h => rw [and_iff_right h]
  · next h => exact ⟨fun h0 => absurd h0 (by simp), fun hc => absurd hc.1 h⟩

/-- The union over the classes, as the code writes it. -/
theorem getLsbD_classes (f : Class → Word) :
    (f .user ||| f .group ||| f .others).getLsbD i = true ↔ ∃ c, (f c).getLsbD i = true := by
  rw [BitVec.getLsbD_or, BitVec.getLsbD_or, Bool.or_eq_true, Bool.or_eq_true, or_assoc]
  constructor
  · rintro (h | h | h)
    · exact ⟨.user, h⟩
    · exact ⟨.group, h⟩
    · exact ⟨.others, h⟩
  · rintro ⟨_ | _ | _, h⟩
    · exact .inl h
    · exact .inr (.inl h)
    · exact .inr (.inr h)

theorem getLsbD_categoryMask : (categoryMask categories).getLsbD i = true ↔
    ∃ c, Selected categories c ∧ c.mask.getLsbD i = true :=
  (getLsbD_classes fun c => ifSelected categories c.bit c.mask).trans
    (exists_congr fun c => getLsbD_ifSelected c _)

theorem getLsbD_effectiveBits : (effectiveBits categories flags).getLsbD i = true ↔
    ∃ c, Selected categories c ∧ flags.getLsbD i = true ∧ c.mask.getLsbD i = true := by
  refine (getLsbD_classes fun c => ifSelected categories c.bit (flags &&& c.mask)).trans
    (exists_congr fun c => (getLsbD_ifSelected c _).trans ?_)
  rw [BitVec.getLsbD_and, Bool.and_eq_true]

theorem categoryMask_bit : (categoryMask categories).getLsbD (index (c, p)) = true ↔
    Selected categories c := by
  rw [getLsbD_categoryMask]
  simp [getLsbD_mask]

theorem effectiveBits_bit : (effectiveBits categories flags).getLsbD (index (c, p)) = true ↔
    Selected categories c ∧ flags.getLsbD (index (c, p)) = true := by
  rw [getLsbD_effectiveBits]
  simp [getLsbD_mask]

theorem categoryMask_rest (hi : 9 ≤ i) : (categoryMask categories).getLsbD i = false := by
  apply Bool.eq_false_iff.mpr
  intro h
  obtain ⟨c, -, hc⟩ := getLsbD_categoryMask.mp h
  exact absurd hc (Bool.eq_false_iff.mp (getLsbD_mask_rest c hi))

theorem effectiveBits_rest (hi : 9 ≤ i) : (effectiveBits categories flags).getLsbD i = false := by
  apply Bool.eq_false_iff.mpr
  intro h
  obtain ⟨c, -, -, hc⟩ := getLsbD_effectiveBits.mp h
  exact absurd hc (Bool.eq_false_iff.mp (getLsbD_mask_rest c hi))

-- ---------------------------------------------------------------------------
-- The operations
-- ---------------------------------------------------------------------------

theorem index_lt (b : Bit) : index b < 32 := by
  obtain ⟨c, p⟩ := b
  cases c <;> cases p <;> decide

theorem mem_bitsOf_toNat {b : Bit} {w : Word} : b ∈ bitsOf w.toNat ↔ w.getLsbD (index b) = true :=
  Iff.rfl

theorem newMode_rest (operation : Operation) (hi : 9 ≤ i) :
    (newMode categories flags current operation).getLsbD i = current.getLsbD i := by
  have hkeep : (current.getLsbD i && (decide (i < 32) && !false)) = current.getLsbD i := by
    by_cases h : i < 32
    · simp [h]
    · rw [BitVec.getLsbD_of_ge _ _ (Nat.le_of_not_lt h), Bool.false_and]
  cases operation with
  | add => rw [newMode, BitVec.getLsbD_or, effectiveBits_rest hi, Bool.or_false]
  | remove => rw [newMode, BitVec.getLsbD_and, BitVec.getLsbD_not, effectiveBits_rest hi, hkeep]
  | assign =>
    rw [newMode, BitVec.getLsbD_or, BitVec.getLsbD_and, BitVec.getLsbD_not, categoryMask_rest hi,
      effectiveBits_rest hi, hkeep, Bool.or_false]

/-- The new mode is the one that is meant. -/
theorem meant_newMode {m : Symbolic} (hclasses : ∀ c, Selected categories c ↔ c ∈ m.classes)
    (hperms : ∀ c p, flags.getLsbD (index (c, p)) = true ↔ p ∈ m.perms) :
    Meant m current.toNat (newMode categories flags current m.operation).toNat where
  add hop c p := by
    rw [mem_bitsOf_toNat, mem_bitsOf_toNat, hop, newMode, BitVec.getLsbD_or, Bool.or_eq_true,
      effectiveBits_bit, hclasses, hperms]
  remove hop c p := by
    rw [mem_bitsOf_toNat, mem_bitsOf_toNat, hop, newMode, BitVec.getLsbD_and, Bool.and_eq_true,
      BitVec.getLsbD_not, Bool.and_eq_true, decide_eq_true (index_lt _), Bool.not_eq_true',
      ← Bool.not_eq_true, effectiveBits_bit, hclasses, hperms]
    simp only [true_and]
  assign hop c hc p := by
    rw [mem_bitsOf_toNat, hop, newMode, BitVec.getLsbD_or, Bool.or_eq_true, effectiveBits_bit,
      BitVec.getLsbD_and, BitVec.getLsbD_not, hclasses, hperms]
    simp [categoryMask_bit.mpr ((hclasses c).mpr hc), hc]
  assign_other hop c hc p := by
    have hmask : (categoryMask categories).getLsbD (index (c, p)) = false := by
      apply Bool.eq_false_iff.mpr
      intro h
      exact hc ((hclasses c).mp (categoryMask_bit.mp h))
    rw [mem_bitsOf_toNat, mem_bitsOf_toNat, hop, newMode, BitVec.getLsbD_or, Bool.or_eq_true,
      effectiveBits_bit, BitVec.getLsbD_and, BitVec.getLsbD_not, hclasses, hmask]
    simp [hc, index_lt]
  rest _ hi := newMode_rest m.operation hi

end LabsOS.Chmod
