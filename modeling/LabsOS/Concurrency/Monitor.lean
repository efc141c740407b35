import Mathlib.Data.Finset.Basic

/-!
# Mutexes and condition variables

A mutex is held by the one thread inside its critical sections, if any. The
data it protects satisfies a resource invariant `R` while the mutex is free and
what its holder `t` asserts, `A t`, while it is held. `Guards` is what such a
discipline keeps; its rules have one case for each thing a thread can do: take
the mutex, work inside, give it back, or move outside.

`Signals` is what a signal to a condition variable may do: it wakes some of the
threads that are asleep, at least one if there is any.
-/

namespace LabsOS

section Guards

variable {T S : Type} {mutex : Option T} {t : T} {inside inside' : T → Prop}
variable {R : S → Prop} {A A' : T → S → Prop} {x x' : S}

/-- The thread inside holds the mutex, and the data is as its holder asserts. -/
structure Guards (mutex : Option T) (inside : T → Prop) (R : S → Prop) (A : T → S → Prop)
    (x : S) : Prop where
  excl : ∀ t, inside t ↔ mutex = some t
  free : mutex = none → R x
  held : ∀ t, mutex = some t → A t x

namespace Guards

/-- No two threads are inside. -/
theorem eq_of_inside (h : Guards mutex inside R A x) {u : T} (ht : inside t) (hu : inside u) :
    u = t := Option.some.inj (((h.excl u).mp hu).symm.trans ((h.excl t).mp ht))

theorem assert_of_inside (h : Guards mutex inside R A x) (ht : inside t) : A t x :=
  h.held t ((h.excl t).mp ht)

/-- A thread takes the mutex. -/
theorem acquire (h : Guards none inside R A x) (hin : ∀ u, inside' u ↔ u = t ∨ inside u)
    (hA : R x → A' t x) : Guards (some t) inside' R A' x where
  excl u := by
    have hu : ¬ inside u := fun hu => nomatch (h.excl u).mp hu
    rw [hin, or_iff_left hu, Option.some.injEq, eq_comm]
  free := nofun
  held u hu := by
    obtain rfl := Option.some.inj hu
    exact hA (h.free rfl)

/-- The holder works on the data. -/
theorem work (h : Guards mutex inside R A x) (ht : inside t) (hin : ∀ u, inside' u ↔ inside u)
    (hA : A t x → A' t x') : Guards mutex inside' R A' x' where
  excl u := (hin u).trans (h.excl u)
  free hfree := nomatch hfree.symm.trans ((h.excl t).mp ht)
  held u hu := by
    obtain rfl := Option.some.inj (hu.symm.trans ((h.excl t).mp ht))
    exact hA (h.held u hu)

/-- The holder gives the mutex back. -/
theorem release (h : Guards mutex inside R A x) (ht : inside t)
    (hin : ∀ u, inside' u ↔ u ≠ t ∧ inside u) (hR : A t x → R x') :
    Guards none inside' R A' x' where
  excl u := by
    rw [hin]
    exact ⟨fun hu => absurd (h.eq_of_inside ht hu.2) hu.1, nofun⟩
  free _ := hR (h.assert_of_inside ht)
  held := nofun

/-- A thread moves outside. -/
theorem outside (h : Guards mutex inside R A x) (hin : ∀ u, inside' u ↔ inside u)
    (hA : ∀ u, inside u → A u x → A' u x) : Guards mutex inside' R A' x where
  excl u := (hin u).trans (h.excl u)
  free := h.free
  held u hu := hA u ((h.excl u).mpr hu) (h.held u hu)

end Guards

end Guards

section Signals

variable {T : Type} {asleep woken : Finset T}

/-- A signal wakes the threads `woken` of those that are asleep. -/
def Signals (asleep woken : Finset T) : Prop :=
  woken ⊆ asleep ∧ (asleep.Nonempty → woken.Nonempty)

instance [DecidableEq T] (asleep woken : Finset T) : Decidable (Signals asleep woken) :=
  inferInstanceAs (Decidable (_ ∧ _))

/-- A signal may wake all threads. -/
theorem Signals.all (asleep : Finset T) : Signals asleep asleep := ⟨subset_rfl, id⟩

end Signals

end LabsOS
