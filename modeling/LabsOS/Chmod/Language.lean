import LabsOS.Chmod.Algebra

/-!
# The language of mychmod

A `Mode` is an octal number up to `07777`, with any number of leading zeros, or a
symbolic mode. `Follows` says that `mychmod` does with a mode string what it should.
It holds of every string but the empty one, which has no digit that could be wrong and
is taken for the number 0.
-/

namespace LabsOS.Chmod

open State

-- ---------------------------------------------------------------------------
-- Modes
-- ---------------------------------------------------------------------------

def digitByte (d : Fin 8) : UInt8 := UInt8.ofNat (48 + d)

/-- The number that octal digits stand for. -/
def number (digits : List (Fin 8)) : Nat := digits.foldl (fun v d => 8 * v + d.val) 0

/-- An octal mode. -/
structure Octal where
  digits   : List (Fin 8)
  nonempty : digits ≠ []
  small    : number digits ≤ 0o7777

inductive Mode where
  | octal (n : Octal)
  | symbolic (m : Symbolic)

namespace Mode

def bytes : Mode → Bytes
  | .octal n => n.digits.map digitByte
  | .symbolic m => m.bytes

/-- The mode turns the mode `old` of a file into `new`. -/
def Gives : Mode → Nat → Nat → Prop
  | .octal n, old, new => new % 0o10000 = number n.digits ∧ new / 0o10000 = old / 0o10000
  | .symbolic m, old, new => Meant m old new

end Mode

/-- What `mychmod` is to do with a mode string. If it is a mode, the file gets it or a
call has failed; if it is none, nothing changes. -/
structure Follows (str : CString) : Prop where
  halts : ∀ path, Total exec AnyOutcome (mychmod str path)
  accepted : ∀ mode : Mode, mode.bytes = str.bytes → ∀ path s tr s' r old,
    Runs exec s (mychmod str path) tr s' (.ret r) → fileMode s.fs path = some old →
    (r = .success ∧ ∃ new, fileMode s'.fs path = some new ∧ mode.Gives old new) ∨
    (r = .failure ∧ s'.fs = s.fs ∧ ∃ ev ∈ tr, ¬ Succeeds ev)
  rejected : (∀ mode : Mode, mode.bytes ≠ str.bytes) → ∀ path s tr s' r,
    Runs exec s (mychmod str path) tr s' (.ret r) → r = .failure ∧ s'.fs = s.fs

-- ---------------------------------------------------------------------------
-- Octal digits
-- ---------------------------------------------------------------------------

variable {str path : CString} {digits : List (Fin 8)} {text : Bytes}

theorem isOctalDigit_digitByte (d : Fin 8) : isOctalDigit (digitByte d) = true := by
  revert d
  decide

theorem isSpace_digitByte (d : Fin 8) : isSpace (digitByte d) = false := by
  revert d
  decide

theorem digitByte_ne_sign (d : Fin 8) : digitByte d ≠ 45 ∧ digitByte d ≠ 43 := by
  revert d
  decide

theorem toNat_digitByte (d : Fin 8) : (digitByte d).toNat = 48 + d := by
  revert d
  decide

theorem exists_digit {b : UInt8} (h : isOctalDigit b = true) : ∃ d, digitByte d = b := by
  obtain ⟨h48, h55⟩ : 48 ≤ b.toNat ∧ b.toNat ≤ 55 := by
    simpa [isOctalDigit, UInt8.le_iff_toNat_le] using h
  refine ⟨⟨b.toNat - 48, by omega⟩, UInt8.toNat_inj.mp ?_⟩
  rw [toNat_digitByte]
  exact Nat.add_sub_cancel' h48

theorem isNumeric_cons (b : UInt8) (text : Bytes) :
    isNumeric (b :: text) = (isOctalDigit b && isNumeric text) := by
  have hb : (b < 48 ∨ b > 55) ↔ isOctalDigit b = false := by
    simp only [isOctalDigit, Bool.and_eq_false_iff, decide_eq_false_iff_not, UInt8.not_le]
  rw [isNumeric]
  cases hd : isOctalDigit b with
  | true => rw [if_neg (by rw [hb, hd]; exact Bool.true_eq_false.mp), Bool.true_and]
  | false => rw [if_pos (hb.mpr hd), Bool.false_and]

@[simp] theorem isNumeric_digits (digits : List (Fin 8)) :
    isNumeric (digits.map digitByte) = true := by
  induction digits with
  | nil => rfl
  | cons d digits ih =>
    rw [List.map_cons, isNumeric_cons, isOctalDigit_digitByte, ih, Bool.and_self]

theorem exists_digits (h : isNumeric text = true) :
    ∃ digits : List (Fin 8), text = digits.map digitByte := by
  induction text with
  | nil => exact ⟨[], rfl⟩
  | cons b text ih =>
    rw [isNumeric_cons, Bool.and_eq_true] at h
    obtain ⟨d, rfl⟩ := exists_digit h.1
    obtain ⟨digits, rfl⟩ := ih h.2
    exact ⟨d :: digits, rfl⟩

/-- The digits can be read off the string. -/
theorem octalValue_digits (digits : List (Fin 8)) :
    octalValue (digits.map digitByte) = number digits := by
  rw [octalValue, number, List.foldl_map]
  refine congrArg (fun f => digits.foldl f 0) (funext₂ fun v d => ?_)
  rw [toNat_digitByte, Nat.add_sub_cancel_left]

theorem readSign_of_ne {b : UInt8} (hminus : b ≠ 45) (hplus : b ≠ 43) :
    readSign (b :: text) = (1, b :: text) := by
  unfold readSign
  split
  · next h => exact absurd (List.cons.inj h).1 hminus
  · next h => exact absurd (List.cons.inj h).1 hplus
  · rfl

theorem strtolOctal_digits (hne : digits ≠ []) :
    strtolOctal (digits.map digitByte) = (min longMax (number digits), []) := by
  have hall : ∀ b ∈ digits.map digitByte, isOctalDigit b = true := by
    intro b hb
    obtain ⟨d, -, rfl⟩ := List.mem_map.mp hb
    exact isOctalDigit_digitByte d
  have hsign : readSign ((digits.map digitByte).dropWhile isSpace) = (1, digits.map digitByte) := by
    cases digits with
    | nil => exact absurd rfl hne
    | cons d digits =>
      rw [List.map_cons, List.dropWhile_cons_of_neg (by rw [isSpace_digitByte]; decide)]
      exact readSign_of_ne (digitByte_ne_sign d).1 (digitByte_ne_sign d).2
  have htake := List.takeWhile_eq_self_iff.mpr hall
  have hdrop := List.dropWhile_eq_nil_iff.mpr hall
  have hlong : -longMax - 1 ≤ min longMax (1 * (number digits : Int)) := by
    rw [longMax]
    omega
  simp only [strtolOctal, hsign, htake, hdrop]
  split
  · next h => exact absurd (List.map_eq_nil_iff.mp h) hne
  · rw [octalValue_digits, max_eq_right hlong, Int.one_mul]

/-- A number up to `07777` is applied. -/
theorem applyNumericMode_small (hstr : str.bytes = digits.map digitByte) (hne : digits ≠ [])
    (hle : number digits ≤ 0o7777) : applyNumericMode str path = applyMode path (number digits) := by
  have hmin : min longMax (number digits : Int) = number digits := by
    rw [longMax]
    omega
  simp only [applyNumericMode, hstr, strtolOctal_digits hne, hmin]
  rw [if_neg (by simp; omega), Int.toNat_natCast]

/-- A larger one is rejected, however long it is. -/
theorem applyNumericMode_large (path : CString) (hstr : str.bytes = digits.map digitByte)
    (hne : digits ≠ []) (hlt : 0o7777 < number digits) :
    ∃ fmt args, applyNumericMode str path = reject fmt args := by
  have hmin : min longMax (number digits : Int) > 0o7777 := by
    rw [longMax]
    omega
  simp only [applyNumericMode, hstr, strtolOctal_digits hne]
  rw [if_pos (.inr (.inr hmin))]
  exact ⟨_, _, rfl⟩

-- ---------------------------------------------------------------------------
-- The two kinds of mode
-- ---------------------------------------------------------------------------

variable {s s' : State} {tr : List SysEvent} {r : ExitStatus} {m : Symbolic}

theorem isNumeric_symbolic (m : Symbolic) : isNumeric m.bytes = false := by
  have hop : isNumeric (m.operation.byte :: m.permissions.map Permission.byte) = false := by
    rw [isNumeric_cons]
    cases m.operation <;> rfl
  have hletter (l : ClassLetter) : isOctalDigit l.byte = false := by
    rcases l with (_ | _ | _) | _ <;> rfl
  rw [Symbolic.bytes]
  cases m.letters with
  | nil => exact hop
  | cons l letters => rw [List.map_cons, List.cons_append, isNumeric_cons, hletter, Bool.false_and]

theorem applyNumericMode_total (str path : CString) :
    Total exec AnyOutcome (applyNumericMode str path) := by
  rw [applyNumericMode]
  split
  split
  · exact reject_total _ _
  · exact applyMode_total _ _

theorem mychmod_total (str path : CString) : Total exec AnyOutcome (mychmod str path) := by
  rw [mychmod]
  split
  · exact applyNumericMode_total str path
  · exact applySymbolicMode_total str path

/-- An octal mode is given to the file. -/
theorem gives_octal (n : Octal) {old : Nat} (hold : fileMode s.fs path = some old)
    (hrun : Runs exec s (applyMode path (number n.digits)) tr s' (.ret r)) :
    (r = .success ∧ ∃ new, fileMode s'.fs path = some new ∧ (Mode.octal n).Gives old new) ∨
    (r = .failure ∧ s'.fs = s.fs ∧ ∃ ev ∈ tr, ¬ Succeeds ev) := by
  obtain ⟨-, ⟨rfl, i, hi, hfs⟩ | hfail⟩ := runs_applyMode hrun
  · have hsmall := n.small
    refine .inl ⟨rfl, _, hfs ▸ fileMode_chmod hi hold _, ?_, ?_⟩ <;> omega
  · exact .inr hfail

/-- What is not made of octal digits alone is a symbolic mode or none. -/
theorem follows_other (hnum : isNumeric str.bytes = false) : Follows str where
  halts := mychmod_total str
  accepted mode hmode path s tr s' r old hrun hold := by
    rw [mychmod, hnum, if_neg Bool.false_ne_true] at hrun
    cases mode with
    | octal n =>
      rw [← hmode, Mode.bytes, isNumeric_digits] at hnum
      cases hnum
    | symbolic m =>
      rcases runs_symbolic hmode hrun with ⟨rfl, old', new, hold', hnew, hmeant⟩ | hfail
      · obtain rfl := Option.some.inj (hold.symm.trans hold')
        exact .inl ⟨rfl, new, hnew, hmeant⟩
      · exact .inr hfail
  rejected hmode path s tr s' r hrun := by
    rw [mychmod, hnum, if_neg Bool.false_ne_true] at hrun
    obtain ⟨o, tr', rfl, ⟨st, -, hrest⟩ | ⟨-, hrest⟩⟩ := runs_applySymbolicMode hrun
    · obtain ⟨hr, hfs, -⟩ := runs_applyTo_other (fun m => hmode (.symbolic m)) hrest
      exact ⟨hr, hfs⟩
    · obtain ⟨hr, hfs, -⟩ := runs_reject hrest
      exact ⟨hr, hfs⟩

theorem number_inj {n : Octal} (h : n.digits.map digitByte = digits.map digitByte) :
    number n.digits = number digits := by
  rw [← octalValue_digits, h, octalValue_digits]

/-- Octal digits are an octal mode if their number is not too large. -/
theorem follows_numeric (hne : str.bytes ≠ []) (hnum : isNumeric str.bytes = true) :
    Follows str := by
  obtain ⟨digits, hdigits⟩ := exists_digits hnum
  have hdne : digits ≠ [] := fun h => hne (by rw [hdigits, h, List.map_nil])
  refine ⟨mychmod_total str, fun mode hmode path s tr s' r old hrun hold => ?_,
    fun hmode path s tr s' r hrun => ?_⟩
  · rw [mychmod, if_pos hnum] at hrun
    cases mode with
    | symbolic m =>
      rw [← hmode, Mode.bytes, isNumeric_symbolic] at hnum
      cases hnum
    | octal n =>
      have hn : number n.digits = number digits := number_inj (hmode.trans hdigits)
      rw [applyNumericMode_small hdigits hdne (hn ▸ n.small), ← hn] at hrun
      exact gives_octal n hold hrun
  · rw [mychmod, if_pos hnum] at hrun
    have hlt : 0o7777 < number digits :=
      Nat.lt_of_not_le fun hle => hmode (.octal ⟨digits, hdne, hle⟩) hdigits.symm
    obtain ⟨fmt, args, hreject⟩ := applyNumericMode_large path hdigits hdne hlt
    rw [hreject] at hrun
    obtain ⟨hr, hfs, -⟩ := runs_reject hrun
    exact ⟨hr, hfs⟩

-- ---------------------------------------------------------------------------
-- The empty string
-- ---------------------------------------------------------------------------

def emptyMode : CString := ⟨[], List.not_mem_nil⟩

/-- A file whose owner may write it. -/
def oneFile : State := .boot (.flat [(nameA, .file [])]) 0

theorem bytes_ne_nil : (mode : Mode) → mode.bytes ≠ []
  | .octal n => fun h => n.nonempty (List.map_eq_nil_iff.mp h)
  | .symbolic _ => fun h => nomatch (List.append_eq_nil_iff.mp h).2

/-- On the empty string the file loses all its permissions. -/
theorem run_empty : ∃ tr s', Runs exec oneFile (mychmod emptyMode nameA) tr s' (.ret .success) ∧
    fileMode oneFile.fs nameA = some 0o100644 ∧ fileMode s'.fs nameA = some 0o100000 :=
  ⟨_, _, .call Outcome.ok (.refl _ _), rfl, rfl⟩

theorem not_follows_empty : ¬ Follows emptyMode := by
  intro h
  obtain ⟨tr, s', hrun, -, -⟩ := run_empty
  cases (h.rejected bytes_ne_nil nameA _ _ _ _ hrun).1

/-- The empty string is no mode and is applied all the same. -/
theorem empty_mode_applied : (∀ mode : Mode, mode.bytes ≠ emptyMode.bytes) ∧ ¬ Follows emptyMode ∧
    ∃ tr s', Runs exec oneFile (mychmod emptyMode nameA) tr s' (.ret .success) ∧
      fileMode oneFile.fs nameA = some 0o100644 ∧ fileMode s'.fs nameA = some 0o100000 :=
  ⟨bytes_ne_nil, not_follows_empty, run_empty⟩

/-- **`mychmod` accepts its language and nothing else**, but for the empty string. -/
theorem follows_iff (str : CString) : Follows str ↔ str.bytes ≠ [] := by
  constructor
  · intro h hnil
    obtain rfl : str = emptyMode := CString.ext hnil
    exact not_follows_empty h
  · intro hne
    cases hnum : isNumeric str.bytes with
    | true => exact follows_numeric hne hnum
    | false => exact follows_other hnum

end LabsOS.Chmod
