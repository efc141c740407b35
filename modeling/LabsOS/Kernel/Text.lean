import LabsOS.Kernel.Bytes
import Mathlib.Data.List.Basic

/-!
# Text of numbers

What `printf` makes of the conversions `%d`, `%02d` and `%lx` of a number that is
not negative, `snprintf` into an array on the stack, and loops that print items with a
separator between them.
-/

namespace LabsOS

/-- The bytes of an ASCII text. -/
def ascii (text : String) : Bytes := text.toList.map fun c => UInt8.ofNat c.toNat

/-- A number in base `b`. -/
def digits (b n : Nat) : Bytes := (Nat.toDigits b n).map fun c => UInt8.ofNat c.toNat

/-- `%d`. -/
def decimal (n : Nat) : Bytes := digits 10 n

/-- `%d` of an `int` of either sign. -/
def signedDecimal (z : Int) : Bytes := if z < 0 then 45 :: decimal z.natAbs else decimal z.toNat

/-- A conversion with a minimal field width. -/
def padLeft (width : Nat) (text : Bytes) : Bytes :=
  List.replicate (width - text.length) 32 ++ text

/-- `%lx`. -/
def hexadecimal (n : Nat) : Bytes := digits 16 n

/-- `%02d`. -/
def twoDigits (n : Nat) : Bytes := List.replicate (2 - (decimal n).length) 48 ++ decimal n

/-- `pos += snprintf(buffer + pos, size - pos, text)`: the string in `buffer` and `pos`
after it. What does not fit is cut off but counted in `pos`; behind the end of the
array the behaviour is undefined. -/
def snprintf (size : Nat) (buffer : Bytes) (pos : Nat) (text : Bytes) : Option (Bytes × Nat) :=
  if pos ≤ size then some (buffer ++ text.take (size - 1 - pos), pos + text.length) else none

variable {b n k : Nat}

theorem length_digits_le (hb : 1 < b) (hk : 0 < k) (hn : n < b ^ k) : (digits b n).length ≤ k := by
  rw [digits, List.length_map]
  exact (Nat.length_toDigits_le_iff hb hk).mpr hn

theorem length_decimal_le (hn : n < 2 ^ 31) : (decimal n).length ≤ 10 :=
  length_digits_le (by decide) (by decide) (hn.trans (by decide))

theorem length_twoDigits (hn : n < 100) : (twoDigits n).length = 2 := by
  have hle : (decimal n).length ≤ 2 := length_digits_le (by decide) (by decide) hn
  rw [twoDigits, List.length_append, List.length_replicate]
  omega

theorem digitChar_ne_nul (d : Nat) : UInt8.ofNat d.digitChar.toNat ≠ 0 := by
  by_cases hd : d < 16
  · exact (by decide : ∀ d < 16, UInt8.ofNat (Nat.digitChar d).toNat ≠ 0) d hd
  · rw [Nat.digitChar_eq_star.mpr (by omega)]
    decide

theorem zero_notMem_digits (hb : 1 < b) : (0 : UInt8) ∉ digits b n := by
  induction n using Nat.strong_induction_on with
  | _ n ih =>
    intro h0
    rw [digits, Nat.toDigits_eq_if hb] at h0
    split at h0
    · exact digitChar_ne_nul n (List.mem_singleton.mp h0).symm
    · next hn =>
      rw [List.map_append, List.mem_append] at h0
      rcases h0 with h0 | h0
      · exact ih (n / b) (Nat.div_lt_self (by omega) hb) h0
      · exact digitChar_ne_nul (n % b) (List.mem_singleton.mp h0).symm

/-- The characters of a decimal number are the digits. -/
theorem mem_decimal {x : UInt8} (hx : x ∈ decimal n) : 48 ≤ x ∧ x ≤ 57 := by
  have hdigit : ∀ d < 10, 48 ≤ UInt8.ofNat (Nat.digitChar d).toNat ∧
      UInt8.ofNat (Nat.digitChar d).toNat ≤ 57 := by decide
  induction n using Nat.strong_induction_on with
  | _ n ih =>
    rw [decimal, digits, Nat.toDigits_eq_if (by decide)] at hx
    split at hx
    · next hn =>
      obtain rfl := List.mem_singleton.mp hx
      exact hdigit n hn
    · next hn =>
      rw [List.map_append, List.mem_append] at hx
      rcases hx with hx | hx
      · exact ih (n / 10) (Nat.div_lt_self (by omega) (by decide)) hx
      · obtain rfl := List.mem_singleton.mp hx
        exact hdigit (n % 10) (Nat.mod_lt n (by decide))

theorem decimal_eq_one (h : decimal n = [49]) : n = 1 := by
  have hlen : (Nat.toDigits 10 n).length ≤ 1 := by
    have := congrArg List.length h
    rw [decimal, digits, List.length_map] at this
    exact this.le
  have hn : n < 10 := (Nat.length_toDigits_le_iff (by decide) (by decide)).mp hlen
  exact (by decide : ∀ n < 10, decimal n = [49] → n = 1) n hn h

/-- No sign, space or letter of a decimal number is behind the digits. -/
theorem mem_signedDecimal {z : Int} {x : UInt8} (hx : x ∈ signedDecimal z) :
    x = 45 ∨ 48 ≤ x ∧ x ≤ 57 := by
  unfold signedDecimal at hx
  split at hx
  · rcases List.mem_cons.mp hx with hx | hx
    · exact .inl hx
    · exact .inr (mem_decimal hx)
  · exact .inr (mem_decimal hx)

theorem signedDecimal_eq_one {z : Int} (h : signedDecimal z = [49]) : z = 1 := by
  unfold signedDecimal at h
  split at h
  · exact absurd (List.cons.inj h).1 (by decide)
  · have hz := decimal_eq_one h
    omega

/-- A text that fits is appended. -/
theorem snprintf_fits {size : Nat} {buffer text : Bytes}
    (h : (buffer ++ text).length < size) :
    snprintf size buffer buffer.length text = some (buffer ++ text, (buffer ++ text).length) := by
  rw [List.length_append] at h
  rw [snprintf, if_pos (by omega), List.take_of_length_le (by omega), List.length_append]

-- ---------------------------------------------------------------------------
-- Separators
-- ---------------------------------------------------------------------------

theorem intercalate_concat {α : Type} (sep x : List α) (l : List (List α)) :
    sep.intercalate (l ++ [x]) = (l.flatMap fun y => y ++ sep) ++ x := by
  induction l with
  | nil => simp [List.intercalate]
  | cons y l ih =>
    cases l with
    | nil => simp [List.intercalate]
    | cons z l => simpa [List.intercalate] using ih

/-- A loop that prints `n` items, and `sep` behind all but the last. -/
theorem flatMap_separated (sep : Bytes) (item : Nat → Bytes) (n : Nat) :
    (List.range n).flatMap (fun k => item k ++ if k + 1 < n then sep else []) =
      sep.intercalate ((List.range n).map item) := by
  cases n with
  | zero => rfl
  | succ n =>
    have hitems : ∀ k ∈ List.range n,
        (item k ++ if k + 1 < n + 1 then sep else []) = item k ++ sep := by
      intro k hk
      rw [if_pos (Nat.succ_lt_succ (List.mem_range.mp hk))]
    rw [List.range_succ, List.flatMap_append, List.flatMap_congr hitems, List.flatMap_singleton,
      if_neg (Nat.lt_irrefl _), List.append_nil, List.map_append, List.map_singleton,
      intercalate_concat, List.flatMap_map]

theorem intercalate_singletons (sep : UInt8) (l : Bytes) :
    [sep].intercalate (l.map fun b => [b]) = l.intersperse sep := by
  induction l with
  | nil => rfl
  | cons b l ih =>
    cases l with
    | nil => rfl
    | cons c l => simpa [List.intercalate] using ih

end LabsOS
