import LabsOS.Chmod.Edits
import LabsOS.Chmod.Mychmod
import Mathlib.Data.Set.Prod

/-!
# Symbolic modes

A `Symbolic` mode is a word of the language `[ugoa]*[+-=][rwx]*`, given by its
letters. It denotes the classes and the permissions it names and edits the nine
permission bits of a mode (`Symbolic.edit`). `Meant` is what it does to them, bit by
bit.
-/

namespace LabsOS.Chmod

-- ---------------------------------------------------------------------------
-- The language
-- ---------------------------------------------------------------------------

inductive Class where
  | user
  | group
  | others
  deriving DecidableEq, Repr

inductive Permission where
  | read
  | write
  | execute
  deriving DecidableEq, Repr

inductive ClassLetter where
  | one (c : Class)
  | all
  deriving DecidableEq, Repr

def ClassLetter.byte : ClassLetter → UInt8
  | .one .user => 117
  | .one .group => 103
  | .one .others => 111
  | .all => 97

def Operation.byte : Operation → UInt8
  | .add => 43
  | .remove => 45
  | .assign => 61

def Permission.byte : Permission → UInt8
  | .read => 114
  | .write => 119
  | .execute => 120

/-- A word of the language. -/
structure Symbolic where
  letters : List ClassLetter
  operation : Operation
  permissions : List Permission
  deriving DecidableEq, Repr

namespace Symbolic

def bytes (m : Symbolic) : Bytes :=
  m.letters.map ClassLetter.byte ++ m.operation.byte :: m.permissions.map Permission.byte

/-- The classes the mode names: all of them if it names none. -/
def classes (m : Symbolic) : Set Class :=
  {c | m.letters = [] ∨ .all ∈ m.letters ∨ .one c ∈ m.letters}

/-- The permissions the mode names. -/
def perms (m : Symbolic) : Set Permission := {p | p ∈ m.permissions}

end Symbolic

-- ---------------------------------------------------------------------------
-- Permission bits
-- ---------------------------------------------------------------------------

abbrev Bit := Class × Permission

/-- The number of a permission bit in a mode. -/
def index : Bit → Nat
  | (.user, .read) => 8
  | (.user, .write) => 7
  | (.user, .execute) => 6
  | (.group, .read) => 5
  | (.group, .write) => 4
  | (.group, .execute) => 3
  | (.others, .read) => 2
  | (.others, .write) => 1
  | (.others, .execute) => 0

theorem exists_index {i : Nat} (hi : i < 9) : ∃ b, index b = i := by
  match i, hi with
  | 0, _ => exact ⟨(.others, .execute), rfl⟩
  | 1, _ => exact ⟨(.others, .write), rfl⟩
  | 2, _ => exact ⟨(.others, .read), rfl⟩
  | 3, _ => exact ⟨(.group, .execute), rfl⟩
  | 4, _ => exact ⟨(.group, .write), rfl⟩
  | 5, _ => exact ⟨(.group, .read), rfl⟩
  | 6, _ => exact ⟨(.user, .execute), rfl⟩
  | 7, _ => exact ⟨(.user, .write), rfl⟩
  | 8, _ => exact ⟨(.user, .read), rfl⟩

/-- The permission bits that are set in a mode. -/
def bitsOf (mode : Nat) : Set Bit := {b | mode.testBit (index b)}

/-- The modes differ in their permission bits only. -/
def SameRest (old new : Nat) : Prop := ∀ i, 9 ≤ i → new.testBit i = old.testBit i

/-- What a symbolic mode is to do to a mode. -/
structure Meant (m : Symbolic) (old new : Nat) : Prop where
  add : m.operation = .add → ∀ c p, (c, p) ∈ bitsOf new ↔
    (c, p) ∈ bitsOf old ∨ (c ∈ m.classes ∧ p ∈ m.perms)
  remove : m.operation = .remove → ∀ c p, (c, p) ∈ bitsOf new ↔
    (c, p) ∈ bitsOf old ∧ ¬ (c ∈ m.classes ∧ p ∈ m.perms)
  assign : m.operation = .assign → ∀ c ∈ m.classes, ∀ p, (c, p) ∈ bitsOf new ↔ p ∈ m.perms
  assign_other : m.operation = .assign → ∀ c ∉ m.classes, ∀ p,
    (c, p) ∈ bitsOf new ↔ (c, p) ∈ bitsOf old
  rest : SameRest old new

/-- The bits that the mode names. -/
def Symbolic.named (m : Symbolic) : Set Bit := m.classes ×ˢ m.perms

/-- The edit of the permission bits. -/
def Symbolic.edit (m : Symbolic) : Edit Bit :=
  match m.operation with
  | .add => ⟨∅, m.named⟩
  | .remove => ⟨m.named, ∅⟩
  | .assign => ⟨m.classes ×ˢ Set.univ, m.named⟩

variable {m : Symbolic} {old new old' new' : Nat}

theorem Meant.bitsOf_eq (h : Meant m old new) : bitsOf new = m.edit.act (bitsOf old) := by
  ext ⟨c, p⟩
  rw [Edit.mem_act, Symbolic.edit]
  cases hop : m.operation with
  | add => simp [h.add hop c p, Symbolic.named]
  | remove => simp [h.remove hop c p, Symbolic.named]
  | assign =>
    by_cases hc : c ∈ m.classes
    · simp [h.assign hop c hc p, Symbolic.named, hc]
    · simp [h.assign_other hop c hc p, Symbolic.named, hc]

theorem SameRest.trans {mid : Nat} (h : SameRest old mid) (h' : SameRest mid new) :
    SameRest old new := fun i hi => (h' i hi).trans (h i hi)

theorem SameRest.symm (h : SameRest old new) : SameRest new old := fun i hi => (h i hi).symm

/-- A mode is its permission bits and the rest. -/
theorem eq_of_bitsOf_eq (hbits : bitsOf old = bitsOf new) (hrest : SameRest old new) :
    old = new := by
  apply Nat.eq_of_testBit_eq
  intro i
  by_cases hi : 9 ≤ i
  · exact (hrest i hi).symm
  · obtain ⟨b, rfl⟩ := exists_index (Nat.lt_of_not_le hi)
    exact Bool.eq_iff_iff.mpr (Set.ext_iff.mp hbits b)

end LabsOS.Chmod
