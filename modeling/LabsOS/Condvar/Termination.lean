import LabsOS.Concurrency.Fairness
import LabsOS.Condvar.Lines
import LabsOS.Condvar.Progress
import Mathlib.Data.Prod.Lex

/-!
# The writer and the readers come to an end

A reader that finds no new data sleeps, so that the threads of `lab11_condvar/condvar.c` end
under any scheduler at all as long as the spurious wake-ups do; a run with spurious wake-ups
for ever starves the writer, and where no thread can go on all have finished and main prints
the complete array (`ends_unless_woken_for_ever`).

Between two statements of the writer the readers can do no more than to print the array once,
if there is data, and to fall asleep (`measure`).
-/

namespace LabsOS.Condvar

variable {ι : Type} {n k : Nat} {s s' : State ι} {x : Shared ι} {i : ι}

-- ---------------------------------------------------------------------------
-- What is left to do
-- ---------------------------------------------------------------------------

/-- The statements of the writer when `k` elements are missing. -/
def WriterPc.left (k : Nat) : WriterPc → Nat
  | .setDataAvailable => 8 * k + 10
  | .signal => 8 * k + 9
  | .unlock => 8 * k + 8
  | .whileTest => 8 * k + 7
  | .lock => max (8 * k + 5) 13
  | .store => max (8 * k + 4) 12
  | .count => max (8 * k + 3) 11
  | .lockLast => 5
  | .setAllWritten => 4
  | .setDataAvailableLast => 3
  | .broadcast => 2
  | .unlockLast => 1
  | .finished => 0

/-- The statements of a reader until it takes the data, falls asleep or finishes. -/
def ReaderPc.left (n : Nat) : ReaderPc → Nat
  | .unlock => n + 5
  | .lock | .woken => n + 4
  | .whileTest => n + 3
  | .ifTest => n + 2
  | .print k _ => n - k + 1
  | .wait | .unlockLast => 1
  | .clearDataAvailable | .asleep | .finished => 0

/-- The statements of a reader until it gives the mutex back; a reader that is asleep may be
woken meanwhile. -/
def ReaderPc.heldLeft (n : Nat) : ReaderPc → Nat
  | .whileTest => n + 5
  | .ifTest => n + 4
  | .print k _ => n - k + 3
  | .clearDataAvailable => 2
  | .wait | .asleep | .unlock | .unlockLast => 1
  | .lock | .woken | .finished => 0

section Steps

variable [DecidableEq ι]

theorem writerStep_left_lt [Fintype ι] {woken : Finset ι} (h : writerStep n woken s = some s') :
    s'.writer.left (n - s'.shared.writeCounter) < s.writer.left (n - s.shared.writeCounter) := by
  unfold writerStep at h
  revert h
  cases hpc : s.writer with
  | whileTest =>
    rintro ⟨⟩
    show WriterPc.left (n - s.shared.writeCounter) (if _ then _ else _) <
      8 * (n - s.shared.writeCounter) + 7
    split
    · show max (8 * (n - s.shared.writeCounter) + 5) 13 < 8 * (n - s.shared.writeCounter) + 7
      omega
    · show 5 < 8 * (n - s.shared.writeCounter) + 7
      omega
  | lock =>
    intro h
    obtain ⟨-, rfl⟩ := acquire_map_eq_some h
    show max (8 * (n - s.shared.writeCounter) + 4) 12 < max (8 * (n - s.shared.writeCounter) + 5) 13
    omega
  | store =>
    rintro ⟨⟩
    show max (8 * (n - s.shared.writeCounter) + 3) 11 < max (8 * (n - s.shared.writeCounter) + 4) 12
    omega
  | count =>
    rintro ⟨⟩
    show 8 * (n - (s.shared.writeCounter + 1)) + 10 < max (8 * (n - s.shared.writeCounter) + 3) 11
    omega
  | setDataAvailable =>
    rintro ⟨⟩
    show 8 * (n - s.shared.writeCounter) + 9 < 8 * (n - s.shared.writeCounter) + 10
    omega
  | signal =>
    intro h
    dsimp only at h
    split at h
    · obtain rfl := Option.some.inj h
      show 8 * (n - s.shared.writeCounter) + 8 < 8 * (n - s.shared.writeCounter) + 9
      omega
    · cases h
  | unlock =>
    rintro ⟨⟩
    show 8 * (n - s.shared.writeCounter) + 7 < 8 * (n - s.shared.writeCounter) + 8
    omega
  | lockLast =>
    intro h
    obtain ⟨-, rfl⟩ := acquire_map_eq_some h
    show 4 < 5
    omega
  | setAllWritten =>
    rintro ⟨⟩
    show 3 < 4
    omega
  | setDataAvailableLast =>
    rintro ⟨⟩
    show 2 < 3
    omega
  | broadcast =>
    rintro ⟨⟩
    show 1 < 2
    omega
  | unlockLast =>
    rintro ⟨⟩
    show 0 < 1
    omega
  | finished => nofun

/-- What a step of the reader `i` does: it moves on, and takes the data at one statement. -/
structure ReaderMoves (n : Nat) (i : ι) (s s' : State ι) (pc : ReaderPc) : Prop where
  readers : s'.readers = Function.update s.readers i pc
  writer : s'.writer = s.writer
  writeCounter : s'.shared.writeCounter = s.shared.writeCounter
  left : s.readers i = .clearDataAvailable ∧ s'.shared.dataAvailable = false ∨
    s'.shared.dataAvailable = s.shared.dataAvailable ∧ pc.left n < (s.readers i).left n
  heldLeft : s.mutex ≠ none → s'.mutex ≠ none → pc.heldLeft n < (s.readers i).heldLeft n

theorem readerMoves_of_readerStep (h : readerStep n i s = some s') :
    ∃ pc, ReaderMoves n i s s' pc := by
  unfold readerStep at h
  revert h
  cases hpc : s.readers i with
  | lock | woken =>
    intro h
    obtain ⟨hfree, rfl⟩ := acquire_map_eq_some h
    refine ⟨.whileTest, rfl, rfl, rfl, .inr ⟨rfl, ?_⟩, fun hlock => absurd hfree hlock⟩
    rw [hpc]
    show n + 3 < n + 4
    omega
  | whileTest =>
    rintro ⟨⟩
    refine ⟨_, rfl, rfl, rfl, .inr ⟨rfl, ?_⟩, fun _ _ => ?_⟩
    · rw [hpc]
      split
      · show 1 < n + 3
        omega
      · show n + 2 < n + 3
        omega
    · rw [hpc]
      split
      · show 1 < n + 5
        omega
      · show n + 4 < n + 5
        omega
  | wait =>
    rintro ⟨⟩
    refine ⟨.asleep, rfl, rfl, rfl, .inr ⟨rfl, ?_⟩, fun _ hlock => absurd rfl hlock⟩
    rw [hpc]
    show 0 < 1
    omega
  | asleep => nofun
  | ifTest =>
    rintro ⟨⟩
    refine ⟨_, rfl, rfl, rfl, .inr ⟨rfl, ?_⟩, fun _ _ => ?_⟩
    · rw [hpc]
      split
      · show 1 < n + 2
        omega
      · show n - 0 + 1 < n + 2
        omega
    · rw [hpc]
      split
      · show 1 < n + 4
        omega
      · show n - 0 + 3 < n + 4
        omega
  | print k line =>
    intro h
    dsimp only at h
    split at h
    · obtain rfl := Option.some.inj h
      refine ⟨.print (k + 1) _, rfl, rfl, rfl, .inr ⟨rfl, ?_⟩, fun _ _ => ?_⟩
      · rw [hpc]
        show n - (k + 1) + 1 < n - k + 1
        omega
      · rw [hpc]
        show n - (k + 1) + 3 < n - k + 3
        omega
    · obtain rfl := Option.some.inj h
      refine ⟨.clearDataAvailable, rfl, rfl, rfl, .inr ⟨rfl, ?_⟩, fun _ _ => ?_⟩
      · rw [hpc]
        show 0 < n - k + 1
        omega
      · rw [hpc]
        show 2 < n - k + 3
        omega
  | clearDataAvailable =>
    rintro ⟨⟩
    refine ⟨.unlock, rfl, rfl, rfl, .inl ⟨hpc, rfl⟩, fun _ _ => ?_⟩
    rw [hpc]
    show 1 < 2
    omega
  | unlock =>
    rintro ⟨⟩
    refine ⟨.lock, rfl, rfl, rfl, .inr ⟨rfl, ?_⟩, fun _ hlock => absurd rfl hlock⟩
    rw [hpc]
    show n + 4 < n + 5
    omega
  | unlockLast =>
    rintro ⟨⟩
    refine ⟨.finished, rfl, rfl, rfl, .inr ⟨rfl, ?_⟩, fun _ hlock => absurd rfl hlock⟩
    rw [hpc]
    show 0 < 1
    omega
  | finished => nofun

theorem wakeUp_eq_some (h : wakeUp i s = some s') : s.readers i = .asleep ∧ s' = s.wake {i} := by
  unfold wakeUp at h
  split at h
  · next hpc => exact ⟨hpc, (Option.some.inj h).symm⟩
  · cases h

end Steps

-- ---------------------------------------------------------------------------
-- The data a reader takes
-- ---------------------------------------------------------------------------

/-- The reader is about to show the array and to take the data. -/
def ReaderPc.Takes : ReaderPc → Prop
  | .print .. | .clearDataAvailable => True
  | _ => False

/-- A reader that takes the data has found some. -/
def Takes (s : State ι) : Prop := ∀ i, (s.readers i).Takes → s.shared.dataAvailable = true

theorem ReaderPc.Takes.inside {pc : ReaderPc} (h : pc.Takes) : pc.Inside := by
  cases pc with
  | print | clearDataAvailable => trivial
  | _ => exact h.elim

section Steps

variable [DecidableEq ι]

theorem Takes.wake (h : Takes s) (woken : Finset ι) : Takes (s.wake woken) := by
  intro i hi
  have hpc : (if i ∈ woken then ReaderPc.woken else s.readers i).Takes := hi
  split at hpc
  · exact hpc.elim
  · exact h i hpc

theorem Takes.writerStep [Fintype ι] {woken : Finset ι} (h : Takes s)
    (hs : writerStep n woken s = some s') : Takes s' := by
  unfold Condvar.writerStep at hs
  revert hs
  cases s.writer with
  | lock | lockLast =>
    intro hs
    obtain ⟨-, rfl⟩ := acquire_map_eq_some hs
    exact h
  | setDataAvailable | setDataAvailableLast =>
    rintro ⟨⟩
    exact fun _ _ => rfl
  | signal =>
    intro hs
    dsimp only at hs
    split at hs
    · obtain rfl := Option.some.inj hs
      exact h.wake woken
    · cases hs
  | broadcast =>
    rintro ⟨⟩
    exact h.wake s.asleep
  | finished => nofun
  | _ =>
    rintro ⟨⟩
    exact h

/-- Only the reader that goes on to show the array need find data. -/
theorem Takes.readerTo {s₀ : State ι} (h : Takes s) (hreaders : s₀.readers = s.readers)
    (hdata : s₀.shared.dataAvailable = s.shared.dataAvailable) {pc : ReaderPc}
    (hpc : pc.Takes → s.shared.dataAvailable = true) : Takes (s₀.readerTo i pc) := by
  intro j hj
  have hupdate : (Function.update s₀.readers i pc j).Takes := hj
  show s₀.shared.dataAvailable = true
  rw [hdata]
  by_cases hji : j = i
  · subst hji
    rw [Function.update_self] at hupdate
    exact hpc hupdate
  · rw [Function.update_of_ne hji, hreaders] at hupdate
    exact h j hupdate

theorem Takes.readerStep (h : Takes s) (hinv : Inv n s) (hs : readerStep n i s = some s') :
    Takes s' := by
  unfold Condvar.readerStep at hs
  revert hs
  cases hpc : s.readers i with
  | lock | woken =>
    intro hs
    obtain ⟨-, rfl⟩ := acquire_map_eq_some hs
    exact h.readerTo rfl rfl nofun
  | whileTest =>
    rintro ⟨⟩
    apply h.readerTo rfl rfl
    split <;> exact False.elim
  | wait | unlock | unlockLast =>
    rintro ⟨⟩
    exact h.readerTo rfl rfl nofun
  | asleep => nofun
  | ifTest =>
    rintro ⟨⟩
    apply h.readerTo rfl rfl
    split
    · exact False.elim
    · next htest =>
      intro _
      have hin : (s.readers i).Inside := hpc ▸ trivial
      have hA : ReaderAt n s.shared (s.readers i) :=
        hinv.guards.assert_of_inside (t := Thread.reader i) hin
      rw [hpc] at hA
      -- the array is not complete, so that it is data that the reader was waiting for
      exact hA.2.resolve_right fun hall => htest ⟨hall, hA.1.complete hall⟩
  | print k line =>
    have hdata : s.shared.dataAvailable = true := h i (hpc ▸ trivial)
    intro hs
    dsimp only at hs
    split at hs
    · obtain rfl := Option.some.inj hs
      exact h.readerTo rfl rfl fun _ => hdata
    · obtain rfl := Option.some.inj hs
      exact h.readerTo rfl rfl fun _ => hdata
  | clearDataAvailable =>
    rintro ⟨⟩
    intro j hj
    have hupdate : (Function.update s.readers i .unlock j).Takes := hj
    by_cases hji : j = i
    · subst hji
      rw [Function.update_self] at hupdate
      exact hupdate.elim
    · -- no other reader is inside
      rw [Function.update_of_ne hji] at hupdate
      have hi : s.Inside (.reader i) := show (s.readers i).Inside from hpc ▸ trivial
      have hj : s.Inside (.reader j) := hupdate.inside
      exact absurd (Thread.reader.inj (hinv.guards.eq_of_inside hi hj)) hji
  | finished => nofun

variable [Fintype ι]

theorem takes_of_reaches (h : Reaches (step n) (start n) s) : Takes s := by
  suffices hboth : Inv n s ∧ Takes s from hboth.2
  apply h.invariant (I := fun s => Inv n s ∧ Takes s) ⟨inv_start, fun _ hi => hi.elim⟩
  rintro a s s' ⟨hinv, hs⟩ ha
  cases a with
  | writer woken => exact ⟨hinv.writerStep ha, hs.writerStep ha⟩
  | reader i => exact ⟨hinv.readerStep ha, hs.readerStep hinv ha⟩
  | wakeUp i =>
    refine ⟨hinv.wakeUp ha, ?_⟩
    obtain ⟨-, rfl⟩ := wakeUp_eq_some ha
    exact hs.wake {i}

-- ---------------------------------------------------------------------------
-- The measure
-- ---------------------------------------------------------------------------

/-- What is left to do: for the writer, then whether there is data, then for the readers. -/
def measure (n : Nat) (s : State ι) : Nat ×ₗ Nat ×ₗ Nat :=
  toLex (s.writer.left (n - s.shared.writeCounter),
    toLex (s.shared.dataAvailable.toNat, ∑ i, (s.readers i).left n))

/-- Every step of a thread brings the measure down. -/
theorem measure_lt {a : Action ι} (h : Reaches (step n) (start n) s) (ha : a.OfThread)
    (hstep : step n a s = some s') : measure n s' < measure n s := by
  cases a with
  | writer woken => exact Prod.Lex.toLex_lt_toLex.mpr (.inl (writerStep_left_lt hstep))
  | reader i =>
    obtain ⟨pc, hmoves⟩ := readerMoves_of_readerStep hstep
    apply Prod.Lex.toLex_lt_toLex.mpr
    refine .inr ⟨by rw [hmoves.writer, hmoves.writeCounter], Prod.Lex.toLex_lt_toLex.mpr ?_⟩
    rcases hmoves.left with ⟨hpc, hdata⟩ | ⟨hdata, hleft⟩
    · left
      rw [hdata, takes_of_reaches h i (hpc ▸ trivial)]
      exact Nat.one_pos
    · right
      refine ⟨by rw [hdata], ?_⟩
      rw [hmoves.readers]
      exact sum_update_lt (fun _ => ReaderPc.left n) hleft
  | wakeUp i => exact ha.elim

end Steps

-- ---------------------------------------------------------------------------
-- Runs that do not end
-- ---------------------------------------------------------------------------

/-- A statement of the writer. -/
def Action.OfWriter : Action ι → Prop
  | .writer _ => True
  | _ => False

section Runs

variable [DecidableEq ι] [Fintype ι] {s₀ : State ι}

/-- The other actions leave the writer and its variables alone. -/
theorem writer_eq_of_step {a : Action ι} (ha : ¬ a.OfWriter) (hstep : step n a s = some s') :
    s'.writer = s.writer ∧ s'.shared.writeCounter = s.shared.writeCounter := by
  cases a with
  | writer woken => exact absurd trivial ha
  | reader i =>
    obtain ⟨pc, hmoves⟩ := readerMoves_of_readerStep hstep
    exact ⟨hmoves.writer, hmoves.writeCounter⟩
  | wakeUp i =>
    obtain ⟨-, rfl⟩ := wakeUp_eq_some hstep
    exact ⟨rfl, rfl⟩

variable (r : Run (step n) s₀)

theorem exists_forall_not_writer : ∃ N, ∀ m, N ≤ m → ¬ (r.act m).OfWriter := by
  apply r.exists_forall_not fun s => s.writer.left (n - s.shared.writeCounter)
  · intro m
    by_cases hact : (r.act m).OfWriter
    · cases hact' : r.act m with
      | writer woken => exact (writerStep_left_lt (hact' ▸ r.step_eq m)).le
      | reader i | wakeUp i =>
        rw [hact'] at hact
        exact hact.elim
    · obtain ⟨hwriter, hcounter⟩ := writer_eq_of_step hact (r.step_eq m)
      rw [hwriter, hcounter]
  · intro m hact
    cases hact' : r.act m with
    | writer woken => exact writerStep_left_lt (hact' ▸ r.step_eq m)
    | reader i | wakeUp i =>
      rw [hact'] at hact
      exact hact.elim

/-- Somebody gives the mutex back again and again, or the writer has it. -/
theorem frequently_free (k : Nat) : ∃ m, k ≤ m ∧
    ((r.state m).writer.Inside ∨ (r.state m).mutex = none) := by
  obtain ⟨N, hidle⟩ := exists_forall_not_writer r
  obtain ⟨m, hkm, -, hfree⟩ := r.frequently_of_lt (fun s => ∑ i, (s.readers i).heldLeft n)
    (Q := fun s => s.writer.Inside ∨ s.mutex = none) (n := N) (by
      intro m hm hlock hlock'
      have hstep := r.step_eq m
      cases hact : r.act m with
      | writer woken => exact absurd (hact ▸ trivial) (hidle m hm)
      | reader i =>
        rw [hact] at hstep
        obtain ⟨pc, hmoves⟩ := readerMoves_of_readerStep hstep
        rw [hmoves.readers]
        apply sum_update_lt (fun _ => ReaderPc.heldLeft n)
        exact hmoves.heldLeft (fun hnone => hlock (.inr hnone)) fun hnone => hlock' (.inr hnone)
      | wakeUp i =>
        rw [hact] at hstep
        obtain ⟨hasleep, heq⟩ := wakeUp_eq_some hstep
        have hreaders : (r.state (m + 1)).readers =
            Function.update (r.state m).readers i .woken := by
          rw [heq]
          funext j
          by_cases hj : j = i
          · subst hj
            simp [State.wake]
          · simp [State.wake, hj]
        rw [hreaders]
        apply sum_update_lt (fun _ => ReaderPc.heldLeft n)
        rw [hasleep]
        show 0 < 1
        omega) k
  exact ⟨m, hkm, hfree⟩

variable {r} (h : Reaches (step n) (start n) s₀)
include h

theorem wakes_for_ever (k : Nat) : ∃ m, k ≤ m ∧ ¬ (r.act m).OfThread := by
  by_contra hnot
  push Not at hnot
  apply r.false_of_forall_lt (measure n) (n := k)
  intro m hm
  exact measure_lt (h.trans (r.reaches m)) (hnot m hm) (r.step_eq m)

/-- Once the writer has finished, nobody sleeps. -/
theorem writer_ne_finished (m : Nat) : (r.state m).writer ≠ .finished := by
  intro hwriter
  have hstays : ∀ k, m ≤ k → (r.state k).writer = .finished := fun k hk => by
    apply r.invariant_of_le (I := fun s => s.writer = .finished) hk hwriter
    intro j _ hj
    by_cases hact : (r.act j).OfWriter
    · cases hact' : r.act j with
      | writer woken =>
        have hstep := r.step_eq j
        rw [hact'] at hstep
        have hnext : writerStep n woken (r.state j) = some (r.state (j + 1)) := hstep
        rw [writerStep, hj] at hnext
        cases hnext
      | reader i | wakeUp i =>
        rw [hact'] at hact
        exact hact.elim
    · exact (writer_eq_of_step hact (r.step_eq j)).1.trans hj
  obtain ⟨k, hk, hact⟩ := wakes_for_ever (r := r) h m
  have hstep := r.step_eq k
  cases hact' : r.act k with
  | writer woken | reader i =>
    rw [hact'] at hact
    exact hact trivial
  | wakeUp i =>
    rw [hact'] at hstep
    obtain ⟨hasleep, -⟩ := wakeUp_eq_some hstep
    exact (inv_of_reaches (h.trans (r.reaches k))).awake (.inr (hstays k hk)) i hasleep

theorem starves_writer : r.Starves Action.OfWriter := by
  refine ⟨exists_forall_not_writer r, fun k => ?_⟩
  obtain ⟨m, hkm, hfree⟩ := frequently_free r k
  refine ⟨m, hkm, .writer (r.state m).asleep, trivial, ?_⟩
  exact writerStep_isSome (writer_ne_finished h m) hfree

end Runs

-- ---------------------------------------------------------------------------
-- The program
-- ---------------------------------------------------------------------------

/-- What main prints of the final state. -/
def finalState (arraySize : Nat) (x : Shared ι) : Bytes :=
  ascii "\n=== Final state of shared array ===\n" ++ ascii "Final array: [" ++
    (List.range arraySize).flatMap (fun i =>
      x.sharedArray.getD i 0 :: if i + 1 < arraySize then [space] else []) ++ ascii "]\n"

/-- Main prints the complete array once the writer has finished. -/
theorem finalState_eq (hinv : Inv n s) (hwriter : s.writer = .finished) :
    finalState n s.shared = ascii "\n=== Final state of shared array ===\n" ++
      ascii "Final array: [" ++ ((List.range n).map letter).intersperse space ++ ascii "]\n" := by
  have hknows := hinv.knows
  rw [hwriter] at hknows
  have hcount : s.shared.writeCounter = n := hinv.protected_shared.complete hknows
  have hcells : (List.range n).flatMap (fun i =>
      s.shared.sharedArray.getD i 0 :: if i + 1 < n then [space] else []) = shownPrefix n n n := by
    apply List.flatMap_congr
    intro k hk
    have hlt : k < n := List.mem_range.mp hk
    rw [List.getD_eq_getElem?_getD, hinv.protected_shared.written k (by omega), Option.getD_some,
      shownCell, if_pos hlt]
  rw [finalState, hcells, shownPrefix_eq le_rfl, shownLine, Nat.sub_self, List.replicate_zero,
    List.append_nil]

/-- **The program ends with the complete array** under any scheduler, unless some reader is
woken spuriously for ever, and even then the writer is starved. -/
theorem ends_unless_woken_for_ever (ι : Type) [DecidableEq ι] [Fintype ι] (n : Nat) :
    (∀ r : Run (step n) (start n : State ι),
      (∀ k, ∃ m, k ≤ m ∧ ¬ (r.act m).OfThread) ∧ r.Starves Action.OfWriter) ∧
    ∀ s : State ι, Reaches (step n) (start n) s →
      (∀ a : Action ι, a.OfThread → step n a s = none) →
      (∀ t, s.Finished t) ∧ finalState n s.shared =
        ascii "\n=== Final state of shared array ===\n" ++ ascii "Final array: [" ++
          ((List.range n).map letter).intersperse space ++ ascii "]\n" := by
  refine ⟨fun r => ⟨wakes_for_ever .refl, starves_writer .refl⟩, fun s hs hstuck => ?_⟩
  have hall : ∀ t, s.Finished t := by
    intro t
    by_contra ht
    obtain ⟨a, ha, hsome⟩ := (inv_of_reaches hs).canStep ht
    rw [hstuck a ha] at hsome
    cases hsome
  exact ⟨hall, finalState_eq (inv_of_reaches hs) (hall .writer)⟩

end LabsOS.Condvar
