import Mathlib.Data.List.Basic

/-!
# Sequences of self-delimiting items

A framing writes an item as a non-empty string that tells where it ends. A
string is then read item by item until what is left starts with no complete
item. `decodeAll` does this on any string and returns that rest as well.

* `Framing.decodeAll_encodeAll_append` — what was written reads back, whatever follows.
* `Framing.encodeAll_decodeAll`        — reading loses no byte.
* `Framing.complete_iff`               — nothing is left over exactly of the strings written.
-/

namespace LabsOS

/-- A way to write items of `α` as strings over `β` that read back unambiguously. -/
structure Framing (α β : Type) where
  enc : α → List β
  dec : List β → Option (α × List β)
  dec_enc    : ∀ a rest, dec (enc a ++ rest) = some (a, rest)
  enc_dec    : ∀ l a rest, dec l = some (a, rest) → l = enc a ++ rest
  enc_ne_nil : ∀ a, enc a ≠ []

namespace Framing

variable {α β : Type} (F : Framing α β)

theorem dec_nil : F.dec [] = none := by
  cases h : F.dec [] with
  | none => rfl
  | some p =>
    have hnil := F.enc_dec [] p.1 p.2 h
    exact absurd (List.append_eq_nil_iff.mp hnil.symm).1 (F.enc_ne_nil p.1)

theorem length_rest {l : List β} {a : α} {rest : List β} (h : F.dec l = some (a, rest)) :
    rest.length < l.length := by
  have hlen := congrArg List.length (F.enc_dec l a rest h)
  have hpos := List.length_pos_iff.mpr (F.enc_ne_nil a)
  rw [List.length_append] at hlen
  omega

def encodeAll (as : List α) : List β := as.flatMap F.enc

@[simp] theorem encodeAll_nil : F.encodeAll [] = [] := rfl

@[simp] theorem encodeAll_cons (a : α) (as : List α) :
    F.encodeAll (a :: as) = F.enc a ++ F.encodeAll as := by simp [encodeAll]

@[simp] theorem encodeAll_append (as bs : List α) :
    F.encodeAll (as ++ bs) = F.encodeAll as ++ F.encodeAll bs := by simp [encodeAll]

/-- The items at the head of a string and the rest that starts with none. -/
def decodeAll (l : List β) : List α × List β :=
  match _h : F.dec l with
  | none => ([], l)
  | some (a, rest) => (a :: (decodeAll rest).1, (decodeAll rest).2)
  termination_by l.length
  decreasing_by all_goals exact F.length_rest _h

theorem decodeAll_none {l : List β} (h : F.dec l = none) : F.decodeAll l = ([], l) := by
  rw [decodeAll]
  split
  · rfl
  · next h' => rw [h] at h'; cases h'

theorem decodeAll_some {l : List β} {a : α} {rest : List β} (h : F.dec l = some (a, rest)) :
    F.decodeAll l = (a :: (F.decodeAll rest).1, (F.decodeAll rest).2) := by
  rw [decodeAll]
  split
  · next h' => rw [h] at h'; cases h'
  · next a' rest' h' =>
    rw [h] at h'
    cases h'
    rfl

/-- **What was written reads back**, before anything that follows. -/
theorem decodeAll_encodeAll_append (as : List α) (l : List β) :
    F.decodeAll (F.encodeAll as ++ l) = (as ++ (F.decodeAll l).1, (F.decodeAll l).2) := by
  induction as with
  | nil => rfl
  | cons a as ih =>
    have hdec : F.dec (F.encodeAll (a :: as) ++ l) = some (a, F.encodeAll as ++ l) := by
      rw [encodeAll_cons, List.append_assoc, F.dec_enc]
    rw [F.decodeAll_some hdec, ih]
    rfl

@[simp] theorem decodeAll_nil : F.decodeAll [] = ([], []) := F.decodeAll_none F.dec_nil

@[simp] theorem decodeAll_encodeAll (as : List α) : F.decodeAll (F.encodeAll as) = (as, []) := by
  have h := F.decodeAll_encodeAll_append as []
  simpa using h

/-- Reading loses no byte. -/
theorem encodeAll_decodeAll (l : List β) :
    F.encodeAll (F.decodeAll l).1 ++ (F.decodeAll l).2 = l := by
  fun_induction F.decodeAll l with
  | case1 l _ => rfl
  | case2 l a rest h ih => simp [F.enc_dec l a rest h, List.append_assoc, ih]

theorem encodeAll_injective {as bs : List α} (h : F.encodeAll as = F.encodeAll bs) : as = bs := by
  have hdec := congrArg F.decodeAll h
  simpa using hdec

/-- A string of complete items, with nothing left over. -/
def Complete (l : List β) : Prop := (F.decodeAll l).2 = []

theorem complete_encodeAll (as : List α) : F.Complete (F.encodeAll as) := by
  simp [Complete]

theorem complete_iff {l : List β} : F.Complete l ↔ ∃ as, l = F.encodeAll as := by
  constructor
  · intro h
    refine ⟨(F.decodeAll l).1, ?_⟩
    have hl := F.encodeAll_decodeAll l
    rw [h, List.append_nil] at hl
    exact hl.symm
  · rintro ⟨as, rfl⟩
    exact F.complete_encodeAll as

end Framing

end LabsOS
