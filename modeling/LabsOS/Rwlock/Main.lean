import LabsOS.Mtx.Main
import LabsOS.Rwlock.Snapshots

/-!
# The main thread of the array

`main` of `lab10_rwlock/rwlock.c` around the threads of `LabsOS.Rwlock.Rwlock`, with `n`
readers. It differs from that of the buffer in what it does when a reader cannot be created:
it destroys the lock at once, without asking the threads to terminate.

`destroyed_unused_iff` says of both programs when the lock that `main` destroys is unused.
-/

namespace LabsOS.Rwlock

open Condvar (Thread)

variable {ι : Type} [DecidableEq ι] {n : Nat}

/-- The thread has returned. -/
def finished : Thread ι → State ι → Bool
  | .writer, s => s.locals .writer = .finished
  | .reader i, s => s.locals (.reader i) = .finished

/-- No thread is ever asked to terminate, so that it does not matter where it would. -/
def launch (c : Config (Fin n)) : Launch (Thread (Fin n)) (State (Fin n)) where
  step := step c
  start := start c
  finished := finished
  cancelPoint := fun _ _ => false
  order := Mtx.createOrder n
  joins := Mtx.joinOrder n
  cancels := false

theorem finished_next {c : Config ι} {t : Thread ι} {s : State ι} (h : finished t s = true)
    (x : Shared ι) : next c t x (s.locals t) = none := by
  cases t with
  | writer =>
    have hpc : s.locals .writer = .finished := of_decide_eq_true h
    rw [hpc]
    rfl
  | reader i =>
    have hpc : s.locals (.reader i) = .finished := of_decide_eq_true h
    rw [hpc]
    rfl

omit [DecidableEq ι] in
theorem finished_congr {t : Thread ι} {s s' : State ι} (h : s'.locals t = s.locals t) :
    finished t s' = finished t s := by
  cases t with
  | writer => rw [finished, finished, h]
  | reader i => rw [finished, finished, h]

theorem launch_stable (c : Config (Fin n)) : (launch c).Stable := by
  intro t u s s' hfinished hstep
  show finished t s' = true
  rw [finished_congr (Team.locals_of_stuck (finished_next hfinished) hstep)]
  exact hfinished

/-- Nobody holds the lock. -/
def Free (s : State ι) : Prop := s.shared.wrlocked = false ∧ s.shared.rdlocked = ∅

/-- Threads that have all returned hold no lock. -/
theorem free_of_finished {c : Config ι} {s : State ι} (h : Reaches (step c) (start c) s)
    (hall : ∀ t, finished t s = true) : Free s := by
  have hs : (outline c).Holds s :=
    Team.Outline.holds_of_reaches h outline_start fun _ _ _ => trivial
  constructor
  · have hA : Assert c .writer s.shared (s.locals .writer) := hs.assert .writer
    have hpc : s.locals .writer = .finished := of_decide_eq_true (hall .writer)
    rw [hpc] at hA
    exact Bool.eq_false_iff.mpr fun hlock => hA.1.mp hlock
  · apply Finset.eq_empty_of_forall_notMem
    intro i hi
    have hA : Assert c (.reader i) s.shared (s.locals (.reader i)) := hs.assert (.reader i)
    have hpc : s.locals (.reader i) = .finished := of_decide_eq_true (hall (.reader i))
    rw [hpc] at hA
    exact hA.1.mp hi

theorem unused_iff (c : Config (Fin n)) (mayFail : Thread (Fin n) → Prop) :
    (∀ s, ReachesWhen (Launch.OnlyFails mayFail) (launch c).next (launch c).boot s →
      s.main = .destroy → (launch c).Unused Free s) ↔ ∀ i, ¬ mayFail (.reader i) := by
  rw [← Mtx.forall_mem_tail_createOrder (p := fun t => ¬ mayFail t)]
  exact Launch.unused_iff (launch_stable c) (fun t _ => Mtx.mem_joinOrder t)
    (fun t _ => by cases t <;> rfl) ⟨rfl, rfl⟩
    fun x hx hall => free_of_finished hx fun t => hall t (Mtx.mem_createOrder t)

-- ---------------------------------------------------------------------------
-- Both programs
-- ---------------------------------------------------------------------------

/-- **The lock is destroyed unused.** In either program, whenever `main` destroys the lock all
threads it created have terminated and nobody holds it, if and only if no reader may fail to
be created. -/
theorem destroyed_unused_iff (n bufferSize : Nat) (c : Config (Fin n))
    (mayFail : Thread (Fin n) → Prop) :
    ((∀ s, ReachesWhen (Launch.OnlyFails mayFail) (Mtx.launch n bufferSize).next
        (Mtx.launch n bufferSize).boot s → s.main = .destroy →
        (Mtx.launch n bufferSize).Unused Mtx.Free s) ↔ ∀ i, ¬ mayFail (.reader i)) ∧
    ((∀ s, ReachesWhen (Launch.OnlyFails mayFail) (launch c).next (launch c).boot s →
        s.main = .destroy → (launch c).Unused Free s) ↔ ∀ i, ¬ mayFail (.reader i)) :=
  ⟨Mtx.unused_iff n bufferSize mayFail, unused_iff c mayFail⟩

/-- The writer is created and takes the lock, and the reader cannot be created. -/
def failAfterLock : List (Launch.Action (Thread (Fin 1))) :=
  [.main true, .run .writer, .run .writer, .main false]

/-- Both programs then destroy the lock that the writer holds. Under the mutex the writer has
been cancelled, and has not yet noticed. -/
theorem destroyed_in_use :
    (∃ s, Reaches (Mtx.launch 1 10).next (Mtx.launch 1 10).boot s ∧ s.main = .destroy ∧
      s.created = [.writer] ∧ s.dead = [] ∧ s.threads.shared.bufferLock = some .writer ∧
      s.threads.locals .writer = .ifTest) ∧
    ∃ s, Reaches (launch ⟨10, fun _ => 1, fun _ => 0⟩).next
        (launch (n := 1) ⟨10, fun _ => 1, fun _ => 0⟩).boot s ∧ s.main = .destroy ∧
      s.created = [.writer] ∧ s.dead = [] ∧ s.threads.shared.wrlocked = true ∧
      s.threads.locals .writer = .ifTest := by
  have hmutex : (steps (Mtx.launch 1 10).next (failAfterLock ++ [.main true, .main true])
      (Mtx.launch 1 10).boot).map (fun s => decide (s.main = .destroy ∧ s.created = [.writer] ∧
        s.dead = [] ∧ s.threads.shared.bufferLock = some .writer ∧
        s.threads.locals .writer = .ifTest)) = some true := by decide +kernel
  have hrwlock : (steps (launch (n := 1) ⟨10, fun _ => 1, fun _ => 0⟩).next
      (failAfterLock ++ [.main true]) (launch ⟨10, fun _ => 1, fun _ => 0⟩).boot).map
      (fun s => decide (s.main = .destroy ∧ s.created = [.writer] ∧ s.dead = [] ∧
        s.threads.shared.wrlocked = true ∧ s.threads.locals .writer = .ifTest)) =
      some true := by decide +kernel
  obtain ⟨s, hs, hobs⟩ := exists_reaches_of_map hmutex
  obtain ⟨s', hs', hobs'⟩ := exists_reaches_of_map hrwlock
  exact ⟨⟨s, hs, of_decide_eq_true hobs⟩, s', hs', of_decide_eq_true hobs'⟩

end LabsOS.Rwlock
