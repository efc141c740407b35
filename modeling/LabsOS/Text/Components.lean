import Mathlib.Data.List.DropRight

/-!
# Components of a path

A path is cut at its last separator. A name without a separator that occurs in the path occurs
on one side of it.
-/

namespace LabsOS

variable {α : Type} {sep : α} {name dir base : List α}

/-- What stands behind the last separator. -/
def lastComponent [DecidableEq α] (sep : α) (path : List α) : List α :=
  path.rtakeWhile fun a => decide (a ≠ sep)

/-- What stands in front of it, the separator included. -/
def directoryPart [DecidableEq α] (sep : α) (path : List α) : List α :=
  path.rdropWhile fun a => decide (a ≠ sep)

/-- Nothing, or a path that ends in a separator. -/
def IsDirectory (sep : α) (dir : List α) : Prop := dir = [] ∨ ∃ d, dir = d ++ [sep]

theorem directoryPart_append_lastComponent [DecidableEq α] (sep : α) (path : List α) :
    directoryPart sep path ++ lastComponent sep path = path :=
  List.rdropWhile_append_rtakeWhile

theorem isDirectory_directoryPart [DecidableEq α] (sep : α) (path : List α) :
    IsDirectory sep (directoryPart sep path) := by
  by_cases hnil : directoryPart sep path = []
  · exact .inl hnil
  · have hlast : (directoryPart sep path).getLast hnil = sep := by
      by_contra hne
      exact List.rdropWhile_last_not _ _ hnil (decide_eq_true hne)
    have hsplit := List.dropLast_append_getLast hnil
    rw [hlast] at hsplit
    exact .inr ⟨_, hsplit.symm⟩

/-- A name without a separator does not reach over the end of a directory. -/
theorem infix_directory_append_iff (hdir : IsDirectory sep dir) (hname : sep ∉ name) :
    name <:+: dir ++ base ↔ name <:+: dir ∨ name <:+: base := by
  rw [List.infix_append_iff]
  constructor
  · rintro (h | h | ⟨l₁, l₂, rfl, h₁, h₂⟩)
    · exact .inl h
    · exact .inr h
    · rcases hdir with rfl | ⟨d, rfl⟩
      · obtain rfl := List.suffix_nil.mp h₁
        exact .inr h₂.isInfix
      · -- a part that ends the directory would hold its separator
        rcases List.suffix_concat_iff.mp h₁ with rfl | ⟨l, rfl, -⟩
        · exact .inr h₂.isInfix
        · simp at hname
  · rintro (h | h)
    · exact .inl h
    · exact .inr (.inl h)

end LabsOS
