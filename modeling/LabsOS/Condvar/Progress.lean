import LabsOS.Condvar.Invariant
import Mathlib.Data.Fintype.Basic

/-!
# No deadlock and no lost wake-up

While some thread has not finished, some thread can go on without a spurious
wake-up, and once the writer has made its broadcast no reader is asleep
(`no_deadlock_no_lost_wakeup`). A thread inside its critical section can always
go on; while the mutex is free, every thread that is awake can.
-/

namespace LabsOS.Condvar

variable {ι : Type} {n : Nat} {s : State ι} {i : ι}

def State.Finished (s : State ι) : Thread ι → Prop
  | .writer => s.writer = .finished
  | .reader i => s.readers i = .finished

/-- The action is a step of a thread, not a spurious wake-up. -/
def Action.OfThread : Action ι → Prop
  | .wakeUp _ => False
  | _ => True

theorem acquire_isSome {t : Thread ι} (h : s.mutex = none) (f : State ι → State ι) :
    ((s.acquire t).map f).isSome := by
  simp [State.acquire, h]

variable [DecidableEq ι] [Fintype ι]

/-- Some thread can go on. -/
def State.CanStep (n : Nat) (s : State ι) : Prop :=
  ∃ a : Action ι, a.OfThread ∧ (step n a s).isSome

/-- The writer can go on inside its critical sections and while the mutex is free. -/
theorem writerStep_isSome (hne : s.writer ≠ .finished) (h : s.writer.Inside ∨ s.mutex = none) :
    (writerStep n s.asleep s).isSome := by
  unfold writerStep
  revert hne h
  cases hpc : s.writer with
  | lock | lockLast => exact fun _ h => acquire_isSome (h.resolve_left id) _
  | signal => exact fun _ _ => by simp [Signals.all]
  | finished => exact fun hne _ => absurd rfl hne
  | _ => exact fun _ _ => rfl

theorem canStep_of_writer (hne : s.writer ≠ .finished) (h : s.writer.Inside ∨ s.mutex = none) :
    s.CanStep n := ⟨.writer s.asleep, trivial, writerStep_isSome hne h⟩

/-- So can a reader that is awake. -/
theorem canStep_of_reader (hne : s.readers i ≠ .finished) (hawake : s.readers i ≠ .asleep)
    (h : (s.readers i).Inside ∨ s.mutex = none) : s.CanStep n := by
  refine ⟨.reader i, trivial, ?_⟩
  show (readerStep n i s).isSome
  unfold readerStep
  revert hne hawake h
  cases hpc : s.readers i with
  | lock | woken => exact fun _ _ h => acquire_isSome (h.resolve_left id) _
  | asleep => exact fun _ hawake _ => absurd rfl hawake
  | finished => exact fun hne _ _ => absurd rfl hne
  | print k line =>
    intro _ _ _
    dsimp only
    split <;> rfl
  | _ => exact fun _ _ _ => rfl

theorem Inv.canStep (h : Inv n s) {t : Thread ι} (ht : ¬ s.Finished t) : s.CanStep n := by
  cases hm : s.mutex with
  | some u =>
    -- the holder of the mutex goes on
    have hin := (h.guards.excl u).mpr hm
    cases u with
    | writer =>
      have hne : s.writer ≠ .finished := fun hpc => by
        rw [State.Inside, hpc] at hin
        exact hin
      exact canStep_of_writer hne (.inl hin)
    | reader i =>
      have hne : s.readers i ≠ .finished := fun hpc => by
        rw [State.Inside, hpc] at hin
        exact hin
      exact canStep_of_reader hne (ReaderPc.ne_asleep_of_inside hin) (.inl hin)
  | none =>
    by_cases hw : s.writer = .finished
    · -- the broadcast is over: no reader is asleep
      cases t with
      | writer => exact absurd hw ht
      | reader i => exact canStep_of_reader ht (h.awake (.inr hw) i) (.inr hm)
    · exact canStep_of_writer hw (.inr hm)

/-- **No deadlock and no lost wake-up**, in any interleaving. -/
theorem no_deadlock_no_lost_wakeup (h : Reaches (step n) (start n) s) :
    ((∃ t, ¬ s.Finished t) → s.CanStep n) ∧
      (s.shared.allWritten = true → s.writer.PastBroadcast →
        ∀ i, s.readers i ≠ .asleep ∧ s.readers i ≠ .wait) := by
  have hinv := inv_of_reaches h
  refine ⟨fun ⟨t, ht⟩ => hinv.canStep ht, fun hall hpast i => ⟨hinv.awake hpast i, fun hwait => ?_⟩⟩
  have hin : (s.readers i).Inside := hwait ▸ trivial
  have hA : ReaderAt n s.shared (s.readers i) :=
    hinv.guards.assert_of_inside (t := Thread.reader i) hin
  rw [hwait] at hA
  cases hA.2.symm.trans hall

/-- A reader falls asleep before the writer starts. -/
theorem sleeping_reader_no_deadlock : ∃ s : State (Fin 1), s.readers 0 = .asleep ∧ s.CanStep 1 := by
  have hrun : (steps (step 1) (List.replicate 3 (Action.reader (0 : Fin 1))) (start 1)).map
      (fun s => s.readers 0) = some .asleep := by decide +kernel
  obtain ⟨s, hs, hpc⟩ := exists_reaches_of_map hrun
  refine ⟨s, hpc, (no_deadlock_no_lost_wakeup hs).1 ⟨.reader 0, ?_⟩⟩
  rw [State.Finished, hpc]
  nofun

end LabsOS.Condvar
