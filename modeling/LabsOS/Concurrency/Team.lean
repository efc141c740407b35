import LabsOS.Concurrency.Steps
import Mathlib.Logic.Function.Basic

/-!
# Teams of threads

A `Team` is a state that its threads share and the local state of each of them.
The action `a` is a step of the thread `actor a`, which sees the shared state and
its own.

An `Outline` annotates the threads: what holds of the shared state at any time,
what a thread asserts at its local states, and what it guarantees about the shared
state to the others, whose assertions are stable under it. What an outline says
holds in every state that is reached (`Outline.holds_of_reaches`).

`Respects` is the guarantee of a thread that works on the shared state under a lock.
-/

namespace LabsOS

variable {T A X : Type}

structure Team (X : Type) {T : Type} (L : T → Type) where
  shared : X
  locals : (t : T) → L t

namespace Team

variable {L : T → Type} [DecidableEq T] {actor : A → T}

def step (actor : A → T) (next : (a : A) → X → L (actor a) → Option (X × L (actor a))) (a : A)
    (s : Team X L) : Option (Team X L) :=
  (next a s.shared (s.locals (actor a))).map fun r =>
    ⟨r.1, Function.update s.locals (actor a) r.2⟩

variable {next : (a : A) → X → L (actor a) → Option (X × L (actor a))} {s s' : Team X L}

/-- A step of a thread changes the shared state and the local state of that thread. -/
theorem step_eq_some {a : A} (h : step actor next a s = some s') :
    ∃ l', next a s.shared (s.locals (actor a)) = some (s'.shared, l') ∧
      s'.locals = Function.update s.locals (actor a) l' := by
  obtain ⟨⟨x', l'⟩, hnext, rfl⟩ := Option.map_eq_some_iff.mp h
  exact ⟨l', hnext, rfl⟩

theorem step_of_next {a : A} {x' : X} {l' : L (actor a)}
    (h : next a s.shared (s.locals (actor a)) = some (x', l')) :
    step actor next a s = some ⟨x', Function.update s.locals (actor a) l'⟩ := by
  rw [step, h]
  rfl

/-- The other threads stay where they are. -/
theorem step_self {a : A} (h : step actor next a s = some s') :
    next a s.shared (s.locals (actor a)) = some (s'.shared, s'.locals (actor a)) ∧
      ∀ u ≠ actor a, s'.locals u = s.locals u := by
  obtain ⟨l', hnext, hlocals⟩ := step_eq_some h
  have hself : s'.locals (actor a) = l' := by
    rw [hlocals]
    exact Function.update_self ..
  refine ⟨hself ▸ hnext, fun u hu => ?_⟩
  rw [hlocals]
  exact Function.update_of_ne hu ..

/-- A thread that has no next step stays where it is. -/
theorem locals_of_stuck {next : (t : T) → X → L t → Option (X × L t)} {t u : T}
    (hstuck : ∀ x, next t x (s.locals t) = none) (h : step id next u s = some s') :
    s'.locals t = s.locals t := by
  obtain ⟨l', hnext, hlocals⟩ := step_eq_some h
  by_cases htu : t = u
  · subst htu
    cases (hstuck s.shared).symm.trans hnext
  · rw [hlocals]
    exact Function.update_of_ne htu ..

-- ---------------------------------------------------------------------------
-- Outlines
-- ---------------------------------------------------------------------------

/-- An outline of the actions that are taken where `Allowed`. -/
structure Outline (actor : A → T)
    (next : (a : A) → X → L (actor a) → Option (X × L (actor a))) where
  Allowed : (a : A) → X → L (actor a) → Prop
  Global : X → Prop
  Assert : (t : T) → X → L t → Prop
  Guarantee : T → X → X → Prop
  own : ∀ a x l x' l', Global x → Assert (actor a) x l → Allowed a x l →
    next a x l = some (x', l') →
    Global x' ∧ Assert (actor a) x' l' ∧ Guarantee (actor a) x x'
  stable : ∀ t u x x' l, u ≠ t → Global x' → Guarantee t x x' → Assert u x l → Assert u x' l

namespace Outline

variable (o : Outline actor next)

/-- What the outline says of a state. -/
structure Holds (s : Team X L) : Prop where
  global : o.Global s.shared
  assert : ∀ t, o.Assert t s.shared (s.locals t)

variable {o}

theorem Holds.step {a : A} (h : o.Holds s) (hC : o.Allowed a s.shared (s.locals (actor a)))
    (ha : Team.step actor next a s = some s') : o.Holds s' := by
  obtain ⟨l', hnext, hlocals⟩ := step_eq_some ha
  obtain ⟨hglobal, hassert, hguar⟩ := o.own a _ _ _ _ h.global (h.assert _) hC hnext
  refine ⟨hglobal, fun t => ?_⟩
  rw [hlocals]
  by_cases ht : t = actor a
  · subst ht
    rwa [Function.update_self]
  · rw [Function.update_of_ne ht]
    exact o.stable _ t _ _ _ ht hglobal hguar (h.assert t)

/-- **The rule of rely and guarantee.** -/
theorem holds_of_reachesWhen
    (h : ReachesWhen (fun a s => o.Allowed a s.shared (s.locals (actor a))) (Team.step actor next)
      s s')
    (hs : o.Holds s) : o.Holds s' :=
  h.invariant hs fun _ _ _ hI hC ha => hI.step hC ha

theorem holds_of_reaches (h : Reaches (Team.step actor next) s s') (hs : o.Holds s)
    (hC : ∀ a x l, o.Allowed a x l) : o.Holds s' :=
  holds_of_reachesWhen (h.when fun _ _ => hC _ _ _) hs

end Outline

end Team

-- ---------------------------------------------------------------------------
-- Locks
-- ---------------------------------------------------------------------------

/-- What `t` does to a shared state with a lock: it takes the lock for itself and
gives back its own, and while another thread holds it nothing changes. -/
structure Respects (holder : X → Option T) (t : T) (x x' : X) : Prop where
  holder_iff : ∀ u ≠ t, (holder x' = some u ↔ holder x = some u)
  eq_of_held : ∀ u ≠ t, holder x = some u → x' = x

namespace Respects

variable {holder : X → Option T} {t u : T} {x x' : X}

theorem refl : Respects holder t x x := ⟨fun _ _ => Iff.rfl, fun _ _ _ => rfl⟩

/-- No other thread holds the lock before or after. -/
theorem of_holder (h : ∀ u, holder x = some u → u = t) (h' : ∀ u, holder x' = some u → u = t) :
    Respects holder t x x' where
  holder_iff u hu := ⟨fun hx' => absurd (h' u hx') hu, fun hx => absurd (h u hx) hu⟩
  eq_of_held u hu hx := absurd (h u hx) hu

/-- `t` takes the lock. -/
theorem acquire (h : holder x = none) (h' : holder x' = some t) : Respects holder t x x' :=
  of_holder (fun u hu => by cases h.symm.trans hu) fun u hu => Option.some.inj (hu.symm.trans h')

/-- `t` works under the lock. -/
theorem work (h : holder x = some t) (h' : holder x' = some t) : Respects holder t x x' :=
  of_holder (fun _ hu => Option.some.inj (hu.symm.trans h))
    fun _ hu => Option.some.inj (hu.symm.trans h')

/-- `t` gives the lock back. -/
theorem release (h : holder x = some t) (h' : holder x' = none) : Respects holder t x x' :=
  of_holder (fun _ hu => Option.some.inj (hu.symm.trans h)) fun u hu => by cases h'.symm.trans hu

end Respects

end LabsOS
