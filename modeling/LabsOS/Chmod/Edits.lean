import Mathlib.Data.Set.Basic
import Mathlib.Tactic.Tauto

/-!
# Edits of a set

An `Edit` takes the elements of one set out and puts those of another in. Edits are
idempotent; two of them commute if they touch disjoint sets, if both only put
elements in or if both only take elements out.
-/

namespace LabsOS

structure Edit (α : Type*) where
  cleared : Set α
  added : Set α

namespace Edit

variable {α : Type*} {e f : Edit α} {s : Set α}

def act (e : Edit α) (s : Set α) : Set α := s \ e.cleared ∪ e.added

/-- The elements an edit may change. -/
def touched (e : Edit α) : Set α := e.cleared ∪ e.added

theorem mem_act {a : α} : a ∈ e.act s ↔ (a ∈ s ∧ a ∉ e.cleared) ∨ a ∈ e.added := Iff.rfl

theorem mem_act_of_notMem {a : α} (h : a ∉ e.touched) : a ∈ e.act s ↔ a ∈ s := by
  rw [touched, Set.mem_union, not_or] at h
  rw [mem_act, or_iff_left h.2, and_iff_left h.1]

@[simp] theorem act_act_self (e : Edit α) (s : Set α) : e.act (e.act s) = e.act s := by
  ext a
  simp only [mem_act]
  tauto

theorem act_comm_of_disjoint (h : ∀ a ∈ e.touched, a ∉ f.touched) (s : Set α) :
    e.act (f.act s) = f.act (e.act s) := by
  ext a
  by_cases ha : a ∈ e.touched
  · have hf : a ∉ f.touched := h a ha
    rw [mem_act_of_notMem hf, mem_act (e := e), mem_act (e := e), mem_act_of_notMem hf]
  · rw [mem_act_of_notMem ha, mem_act (e := f), mem_act (e := f), mem_act_of_notMem ha]

theorem act_comm_of_added (he : e.cleared = ∅) (hf : f.cleared = ∅) (s : Set α) :
    e.act (f.act s) = f.act (e.act s) := by
  ext a
  simp only [mem_act, he, hf, Set.mem_empty_iff_false]
  tauto

theorem act_comm_of_cleared (he : e.added = ∅) (hf : f.added = ∅) (s : Set α) :
    e.act (f.act s) = f.act (e.act s) := by
  ext a
  simp only [mem_act, he, hf, Set.mem_empty_iff_false]
  tauto

/-- Clearing and then adding is one edit. -/
theorem act_clear_then_add (t u s : Set α) :
    (Edit.mk ∅ u).act ((Edit.mk t ∅).act s) = (Edit.mk t u).act s := by
  ext a
  simp only [mem_act, Set.mem_empty_iff_false]
  tauto

end Edit

end LabsOS
