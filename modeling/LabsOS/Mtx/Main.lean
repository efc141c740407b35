import LabsOS.Concurrency.Launch
import LabsOS.Mtx.Buffer
import Mathlib.Data.List.FinRange

/-!
# The main thread of the buffer

`main` of `lab8_mtx/main.c` around the threads of `LabsOS.Mtx.Mtx`, with `n` readers: it
creates the writer and the readers, waits for the readers and the writer, and destroys the
mutex. When a reader cannot be created it cancels the threads created so far and destroys the
mutex at once.

`pthread_cancel` is deferred: a thread acts on it in `usleep` or `printf`, and these stand in
the critical sections too, in front of the next statement.
-/

namespace LabsOS.Mtx

open Condvar (Thread)

variable {ι : Type} {n bufferSize : Nat}

-- ---------------------------------------------------------------------------
-- The order of the threads
-- ---------------------------------------------------------------------------

def createOrder (n : Nat) : List (Thread (Fin n)) := .writer :: (List.finRange n).map .reader

def joinOrder (n : Nat) : List (Thread (Fin n)) := (List.finRange n).map .reader ++ [.writer]

theorem mem_createOrder (t : Thread (Fin n)) : t ∈ createOrder n := by
  cases t with
  | writer => exact List.mem_cons_self ..
  | reader i => exact List.mem_cons_of_mem _ (List.mem_map_of_mem (List.mem_finRange i))

theorem mem_joinOrder (t : Thread (Fin n)) : t ∈ joinOrder n := by
  cases t with
  | writer => exact List.mem_append_right _ (List.mem_cons_self ..)
  | reader i => exact List.mem_append_left _ (List.mem_map_of_mem (List.mem_finRange i))

/-- The threads behind the first are the readers. -/
theorem forall_mem_tail_createOrder {p : Thread (Fin n) → Prop} :
    (∀ t ∈ (createOrder n).tail, p t) ↔ ∀ i, p (.reader i) := by
  show (∀ t ∈ (List.finRange n).map Thread.reader, p t) ↔ _
  simp only [List.forall_mem_map, List.mem_finRange, true_implies]

-- ---------------------------------------------------------------------------
-- The threads
-- ---------------------------------------------------------------------------

/-- The thread has returned. -/
def finished : Thread ι → State ι → Bool
  | .writer, s => s.locals .writer = .finished
  | .reader i, s => s.locals (.reader i) = .finished

variable [DecidableEq ι]

/-- The thread has called `usleep` or `printf` in front of its next statement. -/
def cancelPoint : Thread ι → State ι → Bool
  | .writer, s =>
    match s.locals .writer with
    | .whileTest => 0 < s.shared.writePosition
    | .ifTest | .count => true
    | _ => false
  | .reader i, s =>
    match s.locals (.reader i) with
    | .lock => (linesOf i s.shared.printed).length ≠ 0
    | .print .. | .ifTest => true
    | _ => false

def launch (n bufferSize : Nat) : Launch (Thread (Fin n)) (State (Fin n)) where
  step := step bufferSize
  start := start bufferSize
  finished := finished
  cancelPoint := cancelPoint
  order := createOrder n
  joins := joinOrder n
  cancels := true

omit [DecidableEq ι] in
theorem finished_next {t : Thread ι} {s : State ι} (h : finished t s = true) (x : Shared ι) :
    next bufferSize t x (s.locals t) = none := by
  cases t with
  | writer =>
    have hpc : s.locals .writer = .finished := of_decide_eq_true h
    rw [hpc]
    rfl
  | reader i =>
    have hpc : s.locals (.reader i) = .finished := of_decide_eq_true h
    rw [hpc]
    rfl

omit [DecidableEq ι] in
theorem finished_congr {t : Thread ι} {s s' : State ι} (h : s'.locals t = s.locals t) :
    finished t s' = finished t s := by
  cases t with
  | writer => rw [finished, finished, h]
  | reader i => rw [finished, finished, h]

theorem launch_stable : (launch n bufferSize).Stable := by
  intro t u s s' hfinished hstep
  show finished t s' = true
  rw [finished_congr (Team.locals_of_stuck (finished_next hfinished) hstep)]
  exact hfinished

omit [DecidableEq ι] in
theorem not_inside_of_finished {t : Thread ι} {s : State ι} (h : finished t s = true) :
    ¬ Inside t (s.locals t) := by
  cases t with
  | writer =>
    have hpc : s.locals .writer = .finished := of_decide_eq_true h
    rw [hpc]
    simp [Inside]
  | reader i =>
    have hpc : s.locals (.reader i) = .finished := of_decide_eq_true h
    rw [hpc]
    simp [Inside]

/-- Threads that have all returned hold no mutex. -/
theorem free_of_finished {s : State ι} (h : Reaches (step bufferSize) (start bufferSize) s)
    (hall : ∀ t, finished t s = true) : s.shared.bufferLock = none := by
  have hs : (outline bufferSize).Holds s :=
    Team.Outline.holds_of_reaches h outline_start fun _ _ _ => trivial
  cases hlock : s.shared.bufferLock with
  | none => rfl
  | some t =>
    have hA : Assert bufferSize t s.shared (s.locals t) := hs.assert t
    exact absurd (hA.lock_iff.mp hlock) (not_inside_of_finished (hall t))

/-- The mutex is free. -/
def Free (s : State ι) : Prop := s.shared.bufferLock = none

theorem unused_iff (n bufferSize : Nat) (mayFail : Thread (Fin n) → Prop) :
    (∀ s, ReachesWhen (Launch.OnlyFails mayFail) (launch n bufferSize).next
      (launch n bufferSize).boot s → s.main = .destroy → (launch n bufferSize).Unused Free s) ↔
    ∀ i, ¬ mayFail (.reader i) := by
  rw [← forall_mem_tail_createOrder (p := fun t => ¬ mayFail t)]
  exact Launch.unused_iff launch_stable (fun t _ => mem_joinOrder t)
    (fun t _ => by cases t <;> rfl) rfl
    fun x hx hall => free_of_finished hx fun t => hall t (mem_createOrder t)

end LabsOS.Mtx
