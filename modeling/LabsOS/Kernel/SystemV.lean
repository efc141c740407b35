import Mathlib.Data.List.Basic
import Mathlib.Data.List.Nodup

/-!
# System V objects

What a kernel keeps of its shared memory segments and semaphore sets: identifiers, which are
unique and count from zero, and keys, which are not. An exclusive creation fails where its key
is taken; an object is removed by its identifier, if the caller may.
-/

namespace LabsOS.SystemV

/-- A segment or a set, and whether the process that is modelled may remove it. -/
structure Object where
  id : Nat
  key : Nat
  removable : Bool
  deriving DecidableEq, Repr

structure Table where
  objects : List Object
  nodup : (objects.map Object.id).Nodup
  deriving DecidableEq

namespace Table

instance : Membership Object Table := ⟨fun t o => o ∈ t.objects⟩

instance (o : Object) (t : Table) : Decidable (o ∈ t) := inferInstanceAs (Decidable (o ∈ t.objects))

def empty : Table := ⟨[], .nil⟩

variable {t t' : Table} {o : Object} {id : Int}

-- ---------------------------------------------------------------------------
-- Creating
-- ---------------------------------------------------------------------------

/-- `shmget` or `semget` with `IPC_CREAT | IPC_EXCL`, where the kernel picks the identifier
`id`. One that is in use stands for a failure too. -/
def create (key id : Nat) (t : Table) : Option Table :=
  if h : id ∉ t.objects.map Object.id then
    if key ∈ t.objects.map Object.key then none
    else some ⟨⟨id, key, true⟩ :: t.objects, List.nodup_cons.mpr ⟨h, t.nodup⟩⟩
  else none

theorem create_eq_some {key n : Nat} (h : t.create key n = some t') :
    (∀ o ∈ t, o.id ≠ n) ∧ (∀ o ∈ t, o.key ≠ key) ∧ t'.objects = ⟨n, key, true⟩ :: t.objects := by
  unfold create at h
  split at h
  · next hid =>
    split at h
    · cases h
    · next hkey =>
      obtain rfl := Option.some.inj h
      refine ⟨fun o ho heq => hid ?_, fun o ho heq => hkey ?_, rfl⟩
      · rw [← heq]
        exact List.mem_map_of_mem ho
      · rw [← heq]
        exact List.mem_map_of_mem ho
  · cases h

-- ---------------------------------------------------------------------------
-- Removing
-- ---------------------------------------------------------------------------

/-- `IPC_RMID`. -/
def remove (id : Int) (t : Table) : Table where
  objects := t.objects.filter fun o => !(o.id == id && o.removable)
  nodup := t.nodup.sublist (List.filter_sublist.map _)

/-- The identifier is not that of an object that can be removed. -/
def Harmless (t : Table) (id : Int) : Prop := ∀ o ∈ t, (o.id : Int) = id → o.removable = false

instance (t : Table) (id : Int) : Decidable (t.Harmless id) :=
  inferInstanceAs (Decidable (∀ o ∈ t.objects, _))

theorem mem_remove : o ∈ t.remove id ↔ o ∈ t ∧ ((o.id : Int) = id → o.removable = false) := by
  show o ∈ List.filter _ _ ↔ _
  rw [List.mem_filter]
  apply and_congr_right
  intro _
  cases o.removable <;> simp

/-- No object of `t` is lost when another identifier is removed. -/
theorem Harmless.subset_remove {s : Table} (h : s.Harmless id) (hsub : ∀ o ∈ s, o ∈ t) :
    ∀ o ∈ s, o ∈ t.remove id :=
  fun o ho => mem_remove.mpr ⟨hsub o ho, h o ho⟩

/-- A negative number is no identifier. -/
theorem harmless_of_neg (h : id < 0) : t.Harmless id := by
  intro o _ hid
  omega

/-- An exclusive creation loses no object, and its identifier is that of none before. -/
theorem create_keeps {s : Table} {key n : Nat} (hsub : ∀ o ∈ s, o ∈ t)
    (h : t.create key n = some t') : (∀ o ∈ s, o ∈ t') ∧ s.Harmless n := by
  obtain ⟨hfresh, -, hobjects⟩ := create_eq_some h
  constructor
  · intro o ho
    show o ∈ t'.objects
    rw [hobjects]
    exact List.mem_cons_of_mem _ (hsub o ho)
  · intro o ho hid
    exact absurd (Int.ofNat.inj hid) (hfresh o (hsub o ho))

/-- `t'` has one object more, with the identifier `id`. -/
def Adds (t t' : Table) (id : Int) : Prop := ∃ key n, t.create key n = some t' ∧ id = n

/-- What was created is removed. -/
theorem Adds.remove (h : t.Adds t' id) : t'.remove id = t := by
  obtain ⟨key, n, hcreate, rfl⟩ := h
  obtain ⟨hfresh, -, hobjects⟩ := create_eq_some hcreate
  have hkept : t'.objects.filter (fun o => !(o.id == (n : Int) && o.removable)) = t.objects := by
    rw [hobjects, List.filter_cons_of_neg (by simp), List.filter_eq_self]
    intro o ho
    have hne : (o.id : Int) ≠ n := fun heq => hfresh o ho (Int.ofNat.inj heq)
    simp [hne]
  obtain ⟨objects, nodup⟩ := t
  show Table.mk (t'.objects.filter _) _ = _
  congr

end Table

-- ---------------------------------------------------------------------------
-- The system
-- ---------------------------------------------------------------------------

/-- The objects of the system, and whether the key file of the processes exists. -/
structure System where
  keyFile : Bool
  segments : Table
  sets : Table
  deriving DecidableEq

/-- What the kernel decides about a call: whether it succeeds, the identifier of the object it
creates, and the key of the key file. -/
structure Answer where
  ok : Bool
  id : Nat
  key : Nat
  deriving DecidableEq, Repr

/-- An exclusive creation, if the call is carried out. -/
def Answer.create (a : Answer) (key : Nat) (t : Table) : Option Table :=
  if a.ok then t.create key a.id else none

theorem Answer.create_eq_some {a : Answer} {key : Nat} {t t' : Table}
    (h : a.create key t = some t') : t.create key a.id = some t' := by
  unfold Answer.create at h
  split at h
  · exact h
  · cases h

/-- Nothing of `s` is missing in `s'`. -/
structure System.Keeps (s s' : System) : Prop where
  segments : ∀ o ∈ s.segments, o ∈ s'.segments
  sets : ∀ o ∈ s.sets, o ∈ s'.sets

theorem System.Keeps.refl (s : System) : s.Keeps s := ⟨fun _ h => h, fun _ h => h⟩

end LabsOS.SystemV
