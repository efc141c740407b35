import LabsOS.Concurrency.Team
import Mathlib.Algebra.BigOperators.Group.Finset.Basic
import Mathlib.Algebra.Order.BigOperators.Group.Finset
import Mathlib.Data.Fintype.EquivFin
import Mathlib.Order.OrderIsoNat

/-!
# Runs that do not end

A `Run` takes one action after the other for ever. It `Starves` the actions `P` when from some
point on it takes none of them although it could again and again; a run that is strongly `Fair`
to `P` does not.

Such runs are excluded with measures that go down in a well-founded order. A measure that no
action brings up goes down finitely often (`Run.exists_forall_not`), one that every action
brings down excludes the run (`Run.false_of_forall_lt`), and one that goes down wherever `P`
fails makes `P` hold again and again (`Run.frequently_of_lt`). `Team.total` adds up what is left
to do of each thread.
-/

namespace LabsOS

variable {A : Type} {S : Type*} {step : A → S → Option S} {s s' : S} {P : A → Prop}

-- ---------------------------------------------------------------------------
-- Runs
-- ---------------------------------------------------------------------------

/-- A run from `s` that does not end. -/
structure Run (step : A → S → Option S) (s : S) where
  act : Nat → A
  state : Nat → S
  state_zero : state 0 = s
  step_eq : ∀ n, step (act n) (state n) = some (state (n + 1))

/-- Some action `P` can be taken. -/
def CanTake (step : A → S → Option S) (P : A → Prop) (s : S) : Prop :=
  ∃ a, P a ∧ (step a s).isSome

namespace Run

/-- The run behind its first `n` actions. -/
def drop (r : Run step s) (n : Nat) : Run step (r.state n) where
  act m := r.act (n + m)
  state m := r.state (n + m)
  state_zero := rfl
  step_eq m := r.step_eq (n + m)

variable (r : Run step s)

theorem reaches (n : Nat) : Reaches step s (r.state n) := by
  induction n with
  | zero =>
    rw [r.state_zero]
    exact .refl
  | succ n ih => exact ih.step _ (r.step_eq n)

/-- What holds at some point and is preserved holds from there on. -/
theorem invariant_of_le {I : S → Prop} {m n : Nat} (h : m ≤ n) (hm : I (r.state m))
    (hstep : ∀ k, m ≤ k → I (r.state k) → I (r.state (k + 1))) : I (r.state n) := by
  induction h with
  | refl => exact hm
  | @step n hmn ih => exact hstep n hmn ih

-- ---------------------------------------------------------------------------
-- Measures
-- ---------------------------------------------------------------------------

variable {α : Type*} (f : S → α)

/-- A measure does not go down for ever. -/
theorem false_of_forall_lt [Preorder α] [WellFoundedLT α] {n : Nat}
    (h : ∀ m, n ≤ m → f (r.state (m + 1)) < f (r.state m)) : False := by
  have hstrict : StrictAnti fun m => f (r.state (n + m)) := by
    apply strictAnti_nat_of_succ_lt
    intro m
    exact h (n + m) (Nat.le_add_right n m)
  exact not_strictAnti_of_wellFoundedLT _ hstrict

/-- A measure that no action brings up goes down finitely often. -/
theorem exists_forall_not [PartialOrder α] [WellFoundedLT α]
    (hle : ∀ n, f (r.state (n + 1)) ≤ f (r.state n))
    (hlt : ∀ n, P (r.act n) → f (r.state (n + 1)) < f (r.state n)) :
    ∃ n, ∀ m, n ≤ m → ¬ P (r.act m) := by
  have hanti : Antitone fun n => f (r.state n) := antitone_nat_of_succ_le hle
  obtain ⟨n, hn⟩ := WellFoundedLT.antitone_chain_condition hanti
  refine ⟨n, fun m hm hP => ?_⟩
  have hm₀ : f (r.state n) = f (r.state m) := hn m hm
  have hm₁ : f (r.state n) = f (r.state (m + 1)) := hn (m + 1) (Nat.le_succ_of_le hm)
  have hdown := hlt m hP
  rw [← hm₀, ← hm₁] at hdown
  exact lt_irrefl _ hdown

/-- What a measure that goes down meanwhile keeps waiting holds again and again. -/
theorem frequently_of_lt [Preorder α] [WellFoundedLT α] {Q : S → Prop} {n : Nat}
    (h : ∀ m, n ≤ m → ¬ Q (r.state m) → ¬ Q (r.state (m + 1)) →
      f (r.state (m + 1)) < f (r.state m)) (m : Nat) : ∃ k, m ≤ k ∧ n ≤ k ∧ Q (r.state k) := by
  by_contra hnot
  push Not at hnot
  apply r.false_of_forall_lt f (n := max m n)
  intro k hk
  have hmk : m ≤ k := (le_max_left m n).trans hk
  have hnk : n ≤ k := (le_max_right m n).trans hk
  exact h k hnk (hnot k hmk hnk) (hnot (k + 1) (Nat.le_succ_of_le hmk) (Nat.le_succ_of_le hnk))

-- ---------------------------------------------------------------------------
-- Fairness
-- ---------------------------------------------------------------------------

/-- From some point on no action `P` is taken, although one could be again and again. -/
structure Starves (P : A → Prop) : Prop where
  idle : ∃ n, ∀ m, n ≤ m → ¬ P (r.act m)
  able : ∀ n, ∃ m, n ≤ m ∧ CanTake step P (r.state m)

/-- Strong fairness: an action `P` that could be taken again and again is. -/
def Fair (P : A → Prop) : Prop :=
  (∀ n, ∃ m, n ≤ m ∧ CanTake step P (r.state m)) → ∀ n, ∃ m, n ≤ m ∧ P (r.act m)

variable {r}

theorem Fair.not_starves (h : r.Fair P) : ¬ r.Starves P := by
  intro hstarves
  obtain ⟨n, hidle⟩ := hstarves.idle
  obtain ⟨m, hm, hP⟩ := h hstarves.able n
  exact hidle m hm hP

end Run

-- ---------------------------------------------------------------------------
-- Runs in turns
-- ---------------------------------------------------------------------------

namespace Run

variable {I : Nat → S → Prop} {f : Nat → S → Nat} {Q : Nat → A → Prop}

/-- A state with the number of its turn. -/
structure Turn (I : Nat → S → Prop) where
  turn : Nat
  state : S
  holds : I turn state

/-- The action goes on with the turn, whose measure goes down, or is one that ends it. -/
def Turn.Next (step : A → S → Option S) (f : Nat → S → Nat) (Q : Nat → A → Prop)
    (p : Turn I) (a : A) (p' : Turn I) : Prop :=
  step a p.state = some p'.state ∧
    (p'.turn = p.turn ∧ f p.turn p'.state < f p.turn p.state ∨ p'.turn = p.turn + 1 ∧ Q p.turn a)

variable {act : Nat → A} {turns : Nat → Turn I}

/-- Every turn ends. -/
theorem exists_turn_end (h : ∀ n, (turns n).Next step f Q (act n) (turns (n + 1))) (m n : Nat)
    (hm : f (turns n).turn (turns n).state ≤ m) : ∃ n', (turns n').turn = (turns n).turn ∧
      (turns (n' + 1)).turn = (turns n).turn + 1 ∧ Q (turns n).turn (act n') := by
  induction m generalizing n with
  | zero =>
    rcases (h n).2 with ⟨-, hlt⟩ | hend
    · omega
    · exact ⟨n, rfl, hend⟩
  | succ m ih =>
    rcases (h n).2 with ⟨hsame, hlt⟩ | hend
    · have hle : f (turns (n + 1)).turn (turns (n + 1)).state ≤ m := by
        rw [hsame]
        omega
      have hlater := ih (n + 1) hle
      rw [hsame] at hlater
      exact hlater
    · exact ⟨n, rfl, hend⟩

theorem exists_turn_eq (h : ∀ n, (turns n).Next step f Q (act n) (turns (n + 1)))
    (hzero : (turns 0).turn = 0) (k : Nat) : ∃ n, (turns n).turn = k := by
  induction k with
  | zero => exact ⟨0, hzero⟩
  | succ k ih =>
    obtain ⟨n, hn⟩ := ih
    obtain ⟨n', -, hend, -⟩ := exists_turn_end h _ n le_rfl
    exact ⟨n' + 1, by rw [hend, hn]⟩

theorem turn_le (h : ∀ n, (turns n).Next step f Q (act n) (turns (n + 1)))
    (hzero : (turns 0).turn = 0) (n : Nat) : (turns n).turn ≤ n := by
  induction n with
  | zero => exact hzero.le
  | succ n ih => rcases (h n).2 with ⟨hsame, -⟩ | ⟨hend, -⟩ <;> omega

/-- **A run in turns** does not end, and every turn does. -/
theorem exists_of_turns (hs : I 0 s)
    (h : ∀ p : Turn I, ∃ a p', p.Next step f Q a p') :
    ∃ r : Run step s, (∀ n, ∃ k, I k (r.state n)) ∧
      ∀ k, ∃ n, k ≤ n ∧ I k (r.state n) ∧ Q k (r.act n) := by
  choose act next hnext using h
  let turns : Nat → Turn I := fun n => next^[n] ⟨0, s, hs⟩
  have hturns : ∀ n, (turns n).Next step f Q (act (turns n)) (turns (n + 1)) := by
    intro n
    show (turns n).Next step f Q (act (turns n)) (next^[n + 1] ⟨0, s, hs⟩)
    rw [Function.iterate_succ_apply']
    exact hnext _
  refine ⟨⟨fun n => act (turns n), fun n => (turns n).state, rfl, fun n => (hturns n).1⟩,
    fun n => ⟨_, (turns n).holds⟩, fun k => ?_⟩
  obtain ⟨n, hn⟩ := exists_turn_eq hturns rfl k
  obtain ⟨n', hsame, -, hQ⟩ := exists_turn_end hturns _ n le_rfl
  have hle := turn_le hturns rfl n'
  rw [hn] at hQ hsame
  exact ⟨n', by omega, hsame ▸ (turns n').holds, hQ⟩

end Run

/-- Two threads or more can take turns for ever, so that the next one is always another. -/
theorem exists_round_robin {T : Type*} [Fintype T] (h : 2 ≤ Fintype.card T) :
    ∃ turn : Nat → T, (∀ k, turn k ≠ turn (k + 1)) ∧ ∀ t n, ∃ k, n ≤ k ∧ turn k = t := by
  obtain ⟨m, hm⟩ : ∃ m, Fintype.card T = m + 2 := Nat.exists_eq_add_of_le' h
  let e : T ≃ Fin (m + 2) := Fintype.equivFinOfCardEq hm
  refine ⟨fun k => e.symm (Fin.ofNat (m + 2) k), fun k heq => ?_, fun t n => ?_⟩
  · have hmod : k % (m + 2) = (k + 1) % (m + 2) := congrArg Fin.val (e.symm.injective heq)
    have hlt : k % (m + 2) < m + 2 := Nat.mod_lt _ (by omega)
    rw [Nat.add_mod, Nat.mod_eq_of_lt (show 1 < m + 2 by omega)] at hmod
    by_cases hlast : k % (m + 2) = m + 1
    · rw [hlast, Nat.mod_self] at hmod
      omega
    · rw [Nat.mod_eq_of_lt (show k % (m + 2) + 1 < m + 2 by omega)] at hmod
      omega
  · refine ⟨e t + (m + 2) * n, ?_, ?_⟩
    · have hle : 1 * n ≤ (m + 2) * n := Nat.mul_le_mul_right n (by omega)
      omega
    · apply e.symm_apply_eq.mpr
      apply Fin.ext
      show (↑(e t) + (m + 2) * n) % (m + 2) = ↑(e t)
      rw [Nat.add_mul_mod_self_left, Nat.mod_eq_of_lt (e t).isLt]

-- ---------------------------------------------------------------------------
-- Teams
-- ---------------------------------------------------------------------------

/-- One of the threads has less left to do than before. -/
theorem sum_update_lt {T : Type*} {L : T → Type*} [Fintype T] [DecidableEq T]
    (μ : (t : T) → L t → Nat) {f : (t : T) → L t} {t : T} {l : L t} (h : μ t l < μ t (f t)) :
    ∑ u, μ u (Function.update f t l u) < ∑ u, μ u (f u) := by
  apply Finset.sum_lt_sum
  · intro u _
    by_cases hu : u = t
    · subst hu
      rw [Function.update_self]
      exact h.le
    · rw [Function.update_of_ne hu]
  · refine ⟨t, Finset.mem_univ t, ?_⟩
    rw [Function.update_self]
    exact h

namespace Team

variable {T X : Type} {L : T → Type} [DecidableEq T] {actor : A → T}
variable {next : (a : A) → X → L (actor a) → Option (X × L (actor a))} {s s' : Team X L}

/-- The sum of a measure of the threads. -/
def total [Fintype T] (μ : (t : T) → L t → Nat) (s : Team X L) : Nat := ∑ t, μ t (s.locals t)

theorem total_lt [Fintype T] {μ : (t : T) → L t → Nat} {a : A}
    (h : Team.step actor next a s = some s')
    (hlt : μ (actor a) (s'.locals (actor a)) < μ (actor a) (s.locals (actor a))) :
    total μ s' < total μ s := by
  obtain ⟨l', -, hlocals⟩ := step_eq_some h
  rw [hlocals, Function.update_self] at hlt
  rw [total, hlocals]
  exact sum_update_lt μ hlt

end Team

end LabsOS
