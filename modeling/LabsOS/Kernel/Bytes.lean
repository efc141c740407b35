import Mathlib.Algebra.Ring.Int.Defs
import Mathlib.Algebra.Ring.Nat
import Mathlib.Data.List.Basic
import Mathlib.Data.List.TakeWhile

/-!
# Byte strings

Byte-level vocabulary of the kernel model: C strings, little-endian fields
of a C structure, and `splice`, what `write` does to the content of a file.
-/

namespace LabsOS

abbrev Bytes := List UInt8

-- ---------------------------------------------------------------------------
-- C strings
-- ---------------------------------------------------------------------------

/-- A C string, without its terminating NUL. -/
structure CString where
  bytes : Bytes
  noNul : (0 : UInt8) ∉ bytes
  deriving DecidableEq, Repr

/-- The C string that starts at the first of `b`. -/
def CString.ofBytes (b : Bytes) : CString where
  bytes := b.takeWhile (· ≠ 0)
  noNul h := by simpa using List.mem_takeWhile_imp h

@[ext] theorem CString.ext {p q : CString} (h : p.bytes = q.bytes) : p = q := by
  cases p
  cases q
  simpa using h

/-- A string followed by a NUL reads back, whatever comes after. -/
theorem CString.ofBytes_append_nul (p : CString) (rest : Bytes) :
    CString.ofBytes (p.bytes ++ 0 :: rest) = p := by
  ext1
  have hp : ∀ x ∈ p.bytes, decide (x ≠ 0) = true := by
    intro x hx
    have hne : x ≠ 0 := fun h => p.noNul (h ▸ hx)
    simpa using hne
  simp only [CString.ofBytes]
  rw [List.takeWhile_append_of_pos hp]
  simp

-- ---------------------------------------------------------------------------
-- Fields
-- ---------------------------------------------------------------------------

/-- The `n` bytes at offset `off`. -/
def slice (off n : Nat) (b : Bytes) : Bytes := (b.drop off).take n

/-- Overwrite the bytes at offset `off` by `v`. -/
def setSlice (off : Nat) (v b : Bytes) : Bytes := b.take off ++ v ++ b.drop (off + v.length)

theorem length_setSlice {off : Nat} {v b : Bytes} (h : off + v.length ≤ b.length) :
    (setSlice off v b).length = b.length := by
  simp only [setSlice, List.length_append, List.length_take, List.length_drop]
  omega

theorem slice_setSlice {off : Nat} {v b : Bytes} (h : off + v.length ≤ b.length) :
    slice off v.length (setSlice off v b) = v := by
  have hlen : (b.take off).length = off := by
    rw [List.length_take]
    omega
  have hdrop : (b.take off).drop off = [] := List.drop_eq_nil_of_le hlen.le
  rw [slice, setSlice, List.append_assoc, List.drop_append_of_le_length hlen.ge, hdrop,
    List.nil_append, List.take_left]

/-- A field in front of the bytes that are overwritten is kept. -/
theorem slice_setSlice_of_le {off n off' : Nat} {v b : Bytes} (h : off + n ≤ off')
    (hb : off' ≤ b.length) : slice off n (setSlice off' v b) = slice off n b := by
  have hlen : (b.take off').length = off' := List.length_take_of_le hb
  rw [slice, slice, setSlice, List.append_assoc, List.drop_append_of_le_length (by omega),
    List.take_append_of_le_length (by rw [List.length_drop]; omega), List.drop_take, List.take_take,
    Nat.min_eq_left (by omega)]

/-- A field behind the bytes that are overwritten is kept. -/
theorem slice_setSlice_of_ge {off n off' : Nat} {v b : Bytes} (h : off' + v.length ≤ off)
    (hb : off' + v.length ≤ b.length) : slice off n (setSlice off' v b) = slice off n b := by
  have hlen : (b.take off' ++ v).length = off' + v.length := by
    rw [List.length_append, List.length_take_of_le (by omega)]
  have hdrop : (setSlice off' v b).drop off = b.drop off := by
    rw [setSlice, List.drop_append, List.drop_eq_nil_of_le (by omega), List.nil_append, hlen,
      List.drop_drop]
    congr 1
    omega
  rw [slice, slice, hdrop]

/-- Little-endian value of a byte string. -/
def leNat : Bytes → Nat
  | [] => 0
  | b :: bs => b.toNat + 256 * leNat bs

/-- The `w` low bytes of `v`, little-endian. -/
def leBytes : Nat → Nat → Bytes
  | 0, _ => []
  | w + 1, v => UInt8.ofNat v :: leBytes w (v / 256)

@[simp] theorem length_leBytes (w v : Nat) : (leBytes w v).length = w := by
  induction w generalizing v with
  | zero => rfl
  | succ w ih => simp [leBytes, ih]

/-- The low bytes of a word come first. -/
theorem take_leBytes {w w' : Nat} (v : Nat) (h : w ≤ w') : (leBytes w' v).take w = leBytes w v := by
  induction w generalizing w' v with
  | zero => rw [List.take_zero, leBytes]
  | succ w ih =>
    obtain ⟨w', rfl⟩ : ∃ n, w' = n + 1 := ⟨w' - 1, by omega⟩
    rw [leBytes, leBytes, List.take_succ_cons, ih _ (by omega)]

theorem leNat_leBytes (w v : Nat) : leNat (leBytes w v) = v % 256 ^ w := by
  induction w generalizing v with
  | zero => simp [leBytes, leNat, Nat.mod_one]
  | succ w ih =>
    have hb : (UInt8.ofNat v).toNat = v % 256 := by simp
    rw [leBytes, leNat, ih, hb, Nat.pow_succ', Nat.mod_mul]

theorem leNat_lt (b : Bytes) : leNat b < 256 ^ b.length := by
  induction b with
  | nil => exact Nat.one_pos
  | cons x b ih =>
    have hx : x.toNat < 256 := x.toNat_lt
    rw [leNat, List.length_cons, Nat.pow_succ]
    omega

/-- A 64-bit word read as a signed integer (two's complement). -/
@[irreducible] def toInt64 (n : Nat) : Int := Int.bmod n (2 ^ 64)

/-- A signed integer that was read from a word is read back from its low 64 bits. -/
theorem toInt64_emod_toInt64 (n : Nat) : toInt64 (toInt64 n % 2 ^ 64).toNat = toInt64 n := by
  have hpos : 0 ≤ toInt64 n % 2 ^ 64 := Int.emod_nonneg _ (by decide)
  unfold toInt64 at hpos ⊢
  rw [Int.toNat_of_nonneg hpos]
  exact (Int.emod_bmod _ _).trans Int.bmod_bmod

theorem toInt64_of_lt {n : Nat} (h : n < 2 ^ 63) : toInt64 n = n := by
  unfold toInt64
  rw [Int.bmod_eq_of_le] <;> omega

-- ---------------------------------------------------------------------------
-- Writing into a file
-- ---------------------------------------------------------------------------

/-- The content of a file after `w` was written at `pos`: a gap before `pos` is
filled with zeros, and writing nothing changes nothing. -/
def splice (d : Bytes) (pos : Nat) (w : Bytes) : Bytes :=
  if w = [] then d
  else d.take pos ++ List.replicate (pos - d.length) 0 ++ w ++ d.drop (pos + w.length)

@[simp] theorem splice_nil (d : Bytes) (pos : Nat) : splice d pos [] = d := rfl

theorem splice_end (d w : Bytes) : splice d d.length w = d ++ w := by
  by_cases hw : w = []
  · simp [hw]
  · have hdrop : d.drop (d.length + w.length) = [] := List.drop_eq_nil_of_le (by omega)
    simp [splice, hw, hdrop]

/-- Overwriting inside a file keeps what stands before and behind. -/
theorem splice_middle (a b c w : Bytes) (h : w.length ≤ b.length) :
    splice (a ++ b ++ c) a.length w = a ++ (w ++ b.drop w.length) ++ c := by
  by_cases hw : w = []
  · simp [hw]
  · have hpos : a.length - (a ++ b ++ c).length = 0 := by
      simp only [List.length_append]
      omega
    rw [splice, if_neg hw, hpos, List.append_assoc a b c, List.take_left, List.drop_append,
      List.drop_of_length_le (by omega), Nat.add_sub_cancel_left, List.drop_append_of_le_length h]
    simp

end LabsOS
