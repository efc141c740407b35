import LabsOS.Ls.Myls
import LabsOS.Order.Comparator

/-!
# The comparison of myls

`strcasecmp` is a total preorder on strings, under which two strings are equal if they differ
in the case of letters only, and `entry_sorter` is the same with the names that start with a
dot put in front.
-/

namespace LabsOS.Ls

variable {a b c : Bytes} {x y : UInt8}

theorem tolower_ne_zero (hx : x ≠ 0) : (tolower x).toNat ≠ 0 := by
  unfold tolower
  split
  · next h =>
    simp only [Bool.and_eq_true, decide_eq_true_eq, UInt8.le_iff_toNat_le] at h
    have h65 : (65 : UInt8).toNat = 65 := rfl
    have h90 : (90 : UInt8).toNat = 90 := rfl
    have h32 : (32 : UInt8).toNat = 32 := rfl
    rw [UInt8.toNat_add]
    omega
  · exact fun h => hx (UInt8.toNat_inj.mp h)

theorem toNat_tolower_ne (h : tolower x ≠ tolower y) : (tolower x).toNat ≠ (tolower y).toNat :=
  fun hxy => h (UInt8.toNat_inj.mp hxy)

theorem strcasecmp_refl (a : Bytes) : strcasecmp a a = 0 := by
  induction a with
  | nil => rfl
  | cons x a ih => rw [strcasecmp, if_pos rfl, ih]

theorem strcasecmp_swap (a b : Bytes) : strcasecmp b a = -strcasecmp a b := by
  induction a generalizing b with
  | nil =>
    cases b with
    | nil => rfl
    | cons y b => simp [strcasecmp]
  | cons x a ih =>
    cases b with
    | nil => simp [strcasecmp]
    | cons y b =>
      unfold strcasecmp
      by_cases hxy : tolower x = tolower y
      · rw [if_pos hxy, if_pos hxy.symm, ih]
      · rw [if_neg hxy, if_neg (Ne.symm hxy)]
        omega

theorem strcasecmp_trans (ha : (0 : UInt8) ∉ a) (hb : (0 : UInt8) ∉ b)
    (hab : strcasecmp a b ≤ 0) (hbc : strcasecmp b c ≤ 0) : strcasecmp a c ≤ 0 := by
  induction a generalizing b c with
  | nil => cases c <;> simp [strcasecmp]
  | cons x a ih =>
    have hx := tolower_ne_zero fun h : x = 0 => ha (h ▸ List.mem_cons_self ..)
    cases b with
    | nil =>
      rw [strcasecmp] at hab
      omega
    | cons y b =>
      have hy := tolower_ne_zero fun h : y = 0 => hb (h ▸ List.mem_cons_self ..)
      cases c with
      | nil =>
        rw [strcasecmp] at hbc
        omega
      | cons z c =>
        rw [strcasecmp] at hab hbc ⊢
        -- where the first letters decide, and where the rest does
        by_cases hxy : tolower x = tolower y
        · rw [if_pos hxy] at hab
          rw [hxy]
          by_cases hyz : tolower y = tolower z
          · rw [if_pos hyz] at hbc ⊢
            exact ih (fun h => ha (List.mem_cons_of_mem _ h))
              (fun h => hb (List.mem_cons_of_mem _ h)) hab hbc
          · rw [if_neg hyz] at hbc ⊢
            exact hbc
        · rw [if_neg hxy] at hab
          have hxy' := toNat_tolower_ne hxy
          by_cases hyz : tolower y = tolower z
          · rw [← hyz, if_neg hxy]
            exact hab
          · rw [if_neg hyz] at hbc
            have hxz : tolower x ≠ tolower z := by
              intro h
              rw [h] at hxy' hab
              omega
            rw [if_neg hxz]
            omega

/-- Two strings compare equal only if they differ in the case of letters at most. -/
theorem map_tolower_of_strcasecmp (ha : (0 : UInt8) ∉ a) (hb : (0 : UInt8) ∉ b)
    (h : strcasecmp a b = 0) : a.map tolower = b.map tolower := by
  induction a generalizing b with
  | nil =>
    cases b with
    | nil => rfl
    | cons y b =>
      have hy := tolower_ne_zero fun h : y = 0 => hb (h ▸ List.mem_cons_self ..)
      rw [strcasecmp] at h
      omega
  | cons x a ih =>
    cases b with
    | nil =>
      have hx := tolower_ne_zero fun h : x = 0 => ha (h ▸ List.mem_cons_self ..)
      rw [strcasecmp] at h
      omega
    | cons y b =>
      rw [strcasecmp] at h
      by_cases hxy : tolower x = tolower y
      · rw [if_pos hxy] at h
        rw [List.map_cons, List.map_cons, hxy,
          ih (fun h => ha (List.mem_cons_of_mem _ h)) (fun h => hb (List.mem_cons_of_mem _ h)) h]
      · rw [if_neg hxy] at h
        have := toNat_tolower_ne hxy
        omega

-- ---------------------------------------------------------------------------
-- Names
-- ---------------------------------------------------------------------------

/-- `strcasecmp` of two names. -/
def compareNames (d e : Dirent) : Int := strcasecmp d.dName.bytes e.dName.bytes

theorem totalPreorder_compareNames : TotalPreorder compareNames where
  refl d := strcasecmp_refl _
  swap d e := by
    rw [compareNames, strcasecmp_swap, Int.sign_neg]
    rfl
  trans d e f := strcasecmp_trans d.dName.noNul e.dName.noNul

theorem entrySorter_eq : entrySorter = classFirst startsWithDot compareNames := rfl

/-- `entry_sorter` is what `qsort` asks for. -/
theorem totalPreorder_entrySorter : TotalPreorder entrySorter :=
  entrySorter_eq ▸ totalPreorder_compareNames.classFirst startsWithDot

/-- Names that compare equal differ in the case of letters at most. -/
theorem map_tolower_of_entrySorter {d e : Dirent} (h : entrySorter d e = 0) :
    d.dName.bytes.map tolower = e.dName.bytes.map tolower := by
  unfold entrySorter at h
  split at h
  · cases h
  · split at h
    · cases h
    · exact map_tolower_of_strcasecmp d.dName.noNul e.dName.noNul h

end LabsOS.Ls
