import LabsOS.Concurrency.Ending
import LabsOS.Mtx.Main

/-!
# The buffer gets filled

No thread of `lab8_mtx/main.c` ever waits for a mutex that nobody gives back: where no thread
has a next step, all have returned and the buffer is full. The readers poll, so there are runs
that do not end; in each of them the writer is starved (`ends_unless_writer_starves`).

The writer has a bounded number of statements left (`WriterPc.left`), and so has a reader in
its critical section, and one at any statement once the buffer is full (`ReaderPc.left`).
-/

namespace LabsOS.Mtx

open Condvar (Thread)

variable {ι : Type} {n w : Nat} {i : ι} {x x' : Shared ι}

-- ---------------------------------------------------------------------------
-- What is left to do
-- ---------------------------------------------------------------------------

/-- The statements of the writer when `k` elements are missing. It goes round the loop once
more if it has the mutex and nothing to write. -/
def WriterPc.left (k : Nat) : WriterPc → Nat
  | .unlock => 8 * k + 8
  | .whileTest => 8 * k + 7
  | .lock => max (8 * k + 6) 12
  | .ifTest => max (8 * k + 5) 11
  | .store => max (8 * k + 4) 10
  | .count => max (8 * k + 3) 9
  | .finished => 0

/-- The statements of a reader up to the end of its critical section, or to its last statement
once all `n` elements are written. -/
def ReaderPc.left (n w : Nat) : ReaderPc → Nat
  | .unlock => if w < n then 2 else w + 6
  | .lock => w + 5
  | .print k _ => w - k + 4
  | .ifTest => 3
  | .unlockLast => 2
  | .finished => 0

theorem writerNext_left_lt {pc pc' : WriterPc} (h : writerNext n x pc = some (x', pc')) :
    pc'.left (n - x'.writePosition) < pc.left (n - x.writePosition) := by
  cases pc with
  | whileTest =>
    obtain ⟨rfl, rfl⟩ := Prod.mk.inj (Option.some.inj h)
    split
    · next hlt =>
      show max (8 * (n - x.writePosition) + 6) 12 < 8 * (n - x.writePosition) + 7
      omega
    · exact Nat.succ_pos _
  | lock =>
    obtain ⟨x₁, hacq, heq⟩ := Option.map_eq_some_iff.mp h
    obtain ⟨rfl, rfl⟩ := Prod.mk.inj heq
    obtain ⟨-, rfl⟩ := acquire_eq_some hacq
    show max (8 * (n - x.writePosition) + 5) 11 < max (8 * (n - x.writePosition) + 6) 12
    omega
  | ifTest =>
    obtain ⟨rfl, rfl⟩ := Prod.mk.inj (Option.some.inj h)
    split
    · next hlt =>
      show max (8 * (n - x.writePosition) + 4) 10 < max (8 * (n - x.writePosition) + 5) 11
      omega
    · next hge =>
      show 8 * (n - x.writePosition) + 8 < max (8 * (n - x.writePosition) + 5) 11
      omega
  | store =>
    obtain ⟨rfl, rfl⟩ := Prod.mk.inj (Option.some.inj h)
    show max (8 * (n - x.writePosition) + 3) 9 < max (8 * (n - x.writePosition) + 4) 10
    omega
  | count =>
    obtain ⟨rfl, rfl⟩ := Prod.mk.inj (Option.some.inj h)
    show 8 * (n - (x.writePosition + 1)) + 8 < max (8 * (n - x.writePosition) + 3) 9
    omega
  | unlock =>
    obtain ⟨rfl, rfl⟩ := Prod.mk.inj (Option.some.inj h)
    show 8 * (n - x.writePosition) + 7 < 8 * (n - x.writePosition) + 8
    omega
  | finished => cases h

/-- The writer returns when the buffer is full. -/
theorem writerNext_finished {pc : WriterPc} (h : writerNext n x pc = some (x', .finished)) :
    n ≤ x'.writePosition := by
  cases pc with
  | whileTest =>
    obtain ⟨rfl, hpc⟩ := Prod.mk.inj (Option.some.inj h)
    split at hpc
    · cases hpc
    · next hge => exact Nat.le_of_not_lt hge
  | lock =>
    obtain ⟨_, -, heq⟩ := Option.map_eq_some_iff.mp h
    cases heq
  | ifTest =>
    obtain ⟨-, hpc⟩ := Prod.mk.inj (Option.some.inj h)
    split at hpc <;> cases hpc
  | store | count | unlock => cases h
  | finished => cases h

/-- A reader that writes nothing has less left to do, unless it gives the mutex back to poll
again. -/
theorem readerNext_left {pc pc' : ReaderPc} (h : readerNext n i x pc = some (x', pc')) :
    x'.writePosition = x.writePosition ∧
      (pc'.left n x'.writePosition < pc.left n x.writePosition ∨
        x.writePosition < n ∧ x'.bufferLock = none) := by
  cases pc with
  | lock =>
    obtain ⟨x₁, hacq, heq⟩ := Option.map_eq_some_iff.mp h
    obtain ⟨rfl, rfl⟩ := Prod.mk.inj heq
    obtain ⟨-, rfl⟩ := acquire_eq_some hacq
    refine ⟨rfl, .inl ?_⟩
    show x.writePosition - 0 + 4 < x.writePosition + 5
    omega
  | print k contents =>
    rw [readerNext] at h
    split at h
    · next hk =>
      obtain ⟨rfl, rfl⟩ := Prod.mk.inj (Option.some.inj h)
      refine ⟨rfl, .inl ?_⟩
      show x.writePosition - (k + 1) + 4 < x.writePosition - k + 4
      omega
    · obtain ⟨rfl, rfl⟩ := Prod.mk.inj (Option.some.inj h)
      refine ⟨rfl, .inl ?_⟩
      show 3 < x.writePosition - k + 4
      omega
  | ifTest =>
    obtain ⟨rfl, rfl⟩ := Prod.mk.inj (Option.some.inj h)
    refine ⟨rfl, .inl ?_⟩
    split
    · show 2 < 3
      omega
    · next hlt =>
      show (if x.writePosition < n then 2 else x.writePosition + 6) < 3
      rw [if_pos (by omega)]
      omega
  | unlock =>
    obtain ⟨rfl, rfl⟩ := Prod.mk.inj (Option.some.inj h)
    refine ⟨rfl, ?_⟩
    by_cases hlt : x.writePosition < n
    · exact .inr ⟨hlt, rfl⟩
    · left
      show x.writePosition + 5 < if x.writePosition < n then 2 else x.writePosition + 6
      rw [if_neg hlt]
      omega
  | unlockLast =>
    obtain ⟨rfl, rfl⟩ := Prod.mk.inj (Option.some.inj h)
    exact ⟨rfl, .inl (by show 0 < 2; omega)⟩
  | finished => cases h

-- ---------------------------------------------------------------------------
-- No deadlock
-- ---------------------------------------------------------------------------

/-- A writer that has not returned goes on inside its critical section and while the mutex is
free. -/
theorem writerNext_isSome {pc : WriterPc} (hne : pc ≠ .finished)
    (h : Inside (.writer : Thread ι) pc ∨ x.bufferLock = none) : (writerNext n x pc).isSome := by
  cases pc with
  | lock =>
    have hfree : x.bufferLock = none := h.resolve_left (by simp [Inside])
    simp [writerNext, Shared.acquire, hfree]
  | finished => exact absurd rfl hne
  | whileTest | ifTest | store | count | unlock => rfl

/-- So does a reader. -/
theorem readerNext_isSome {pc : ReaderPc} (hne : pc ≠ .finished)
    (h : Inside (.reader i) pc ∨ x.bufferLock = none) : (readerNext n i x pc).isSome := by
  cases pc with
  | lock =>
    have hfree : x.bufferLock = none := h.resolve_left (by simp [Inside])
    simp [readerNext, Shared.acquire, hfree]
  | print k contents =>
    rw [readerNext]
    split <;> rfl
  | finished => exact absurd rfl hne
  | ifTest | unlock | unlockLast => rfl

variable [DecidableEq ι] {s s' : State ι} {t : Thread ι}

theorem step_isSome (hne : finished t s = false)
    (h : Inside t (s.locals t) ∨ s.shared.bufferLock = none) : (step n t s).isSome := by
  rw [step, Team.step, Option.isSome_map]
  cases t with
  | writer => exact writerNext_isSome (of_decide_eq_false hne) h
  | reader i => exact readerNext_isSome (of_decide_eq_false hne) h

omit [DecidableEq ι] in
theorem not_finished_of_inside (h : Inside t (s.locals t)) : finished t s = false := by
  rw [← Bool.not_eq_true]
  exact fun hfinished => not_inside_of_finished hfinished h

theorem outline_holds (h : Reaches (step n) (start n) s) : (outline n).Holds s :=
  Team.Outline.holds_of_reaches h outline_start fun _ _ _ => trivial

theorem lock_iff (h : Reaches (step n) (start n) s) (t : Thread ι) :
    s.shared.bufferLock = some t ↔ Inside t (s.locals t) := by
  have hA : Assert n t s.shared (s.locals t) := (outline_holds h).assert t
  exact hA.lock_iff

/-- Where no thread can go on, all have returned. -/
theorem finished_of_stuck (h : Reaches (step n) (start n) s) (hstuck : ∀ t, step n t s = none)
    (t : Thread ι) : finished t s = true := by
  have hfree : s.shared.bufferLock = none := by
    cases hlock : s.shared.bufferLock with
    | none => rfl
    | some u =>
      have hin : Inside u (s.locals u) := (lock_iff h u).mp hlock
      have hsome := step_isSome (n := n) (not_finished_of_inside hin) (.inl hin)
      rw [hstuck u] at hsome
      cases hsome
  by_contra hne
  have hsome := step_isSome (n := n) (Bool.eq_false_iff.mpr hne) (.inr hfree)
  rw [hstuck t] at hsome
  cases hsome

-- ---------------------------------------------------------------------------
-- The full buffer
-- ---------------------------------------------------------------------------

/-- The writer has returned, and all elements are written. -/
def Filled (n : Nat) (s : State ι) : Prop :=
  s.locals .writer = .finished ∧ n ≤ s.shared.writePosition

theorem step_writer (h : step n .writer s = some s') :
    writerNext n s.shared (s.locals .writer) = some (s'.shared, s'.locals .writer) :=
  (Team.step_self h).1

theorem step_reader (h : step n (.reader i) s = some s') :
    readerNext n i s.shared (s.locals (.reader i)) = some (s'.shared, s'.locals (.reader i)) ∧
      s'.locals .writer = s.locals .writer :=
  ⟨(Team.step_self h).1, (Team.step_self h).2 .writer nofun⟩

theorem Filled.step (h : Filled n s) (hstep : step n t s = some s') : Filled n s' := by
  cases t with
  | writer =>
    have hnext := step_writer hstep
    rw [h.1] at hnext
    cases hnext
  | reader i =>
    obtain ⟨hnext, hwriter⟩ := step_reader hstep
    exact ⟨hwriter.trans h.1, (readerNext_left hnext).1 ▸ h.2⟩

theorem filled_of_finished (h : Reaches (step n) (start n) s)
    (hfinished : s.locals .writer = .finished) : Filled n s := by
  apply h.invariant (I := fun s => s.locals .writer = .finished → Filled n s) nofun ?_ hfinished
  intro t s s' hs hstep hfinished
  cases t with
  | writer =>
    have hnext := step_writer hstep
    rw [hfinished] at hnext
    exact ⟨hfinished, writerNext_finished hnext⟩
  | reader i =>
    rw [(step_reader hstep).2] at hfinished
    exact (hs hfinished).step hstep

/-- Threads that have all returned leave the buffer full. -/
theorem full_of_finished (h : Reaches (step n) (start n) s) (hall : ∀ t, finished t s = true) :
    s.shared.writePosition = n ∧ s.shared.sharedData = (List.range n).map (· + 1) := by
  have hG : Global n s.shared := (outline_holds h).global
  have hle : n ≤ s.shared.writePosition :=
    (filled_of_finished h (of_decide_eq_true (hall .writer))).2
  have hposition : s.shared.writePosition = n := hG.position_le.antisymm hle
  refine ⟨hposition, List.ext_getElem? fun j => ?_⟩
  by_cases hj : j < n
  · rw [hG.written j (by omega)]
    simp [List.getElem?_range hj]
  · rw [List.getElem?_eq_none (by rw [hG.size]; omega), List.getElem?_eq_none (by simp; omega)]

-- ---------------------------------------------------------------------------
-- Runs that do not end
-- ---------------------------------------------------------------------------

/-- What the holder of the mutex has left to do. -/
def holderLeft (n : Nat) (s : State ι) : Nat :=
  match s.shared.bufferLock with
  | some (.reader i) => (s.locals (.reader i)).left n s.shared.writePosition
  | _ => 0

/-- While a reader keeps the mutex, the readers have less and less to do in it. -/
theorem holderLeft_lt (h : Reaches (step n) (start n) s)
    (hstep : step n (.reader i) s = some s') (hlock : s.shared.bufferLock ≠ none)
    (hlock' : s'.shared.bufferLock ≠ none) : holderLeft n s' < holderLeft n s := by
  obtain ⟨hnext, -⟩ := step_reader hstep
  have hin : Inside (.reader i) (s.locals (.reader i)) := by
    by_contra hout
    -- outside it waits for the mutex, or has returned
    have hpc : s.locals (.reader i) = .lock ∨ s.locals (.reader i) = .finished := by
      simp only [Inside, not_and_or, not_not] at hout
      exact hout
    rcases hpc with hpc | hpc
    · rw [hpc, readerNext, Shared.acquire, if_neg hlock] at hnext
      cases hnext
    · rw [hpc] at hnext
      cases hnext
  have hheld : s.shared.bufferLock = some (.reader i) := (lock_iff h _).mpr hin
  have hheld' : s'.shared.bufferLock = some (.reader i) := by
    have hA : Assert n (.reader i) s.shared (s.locals (.reader i)) := (outline_holds h).assert _
    obtain ⟨-, -, hguar⟩ := reader_own (outline_holds h).global hA hnext
    cases hlock₀ : s'.shared.bufferLock with
    | none => exact absurd hlock₀ hlock'
    | some u =>
      by_contra hne
      have hu : u ≠ .reader i := fun hu => hne (hu ▸ rfl)
      have hsame := (hguar.respects.holder_iff u hu).mp hlock₀
      exact hu (Option.some.inj (hsame.symm.trans hheld))
  obtain ⟨-, hleft⟩ := readerNext_left hnext
  rw [holderLeft, holderLeft, hheld, hheld']
  exact hleft.resolve_right fun hfree => hlock' hfree.2

/-- What a thread has left to do once the buffer is full. -/
def threadLeft (n : Nat) : (t : Thread ι) → Pc t → Nat
  | .writer, _ => 0
  | .reader _, pc => pc.left n n

theorem threadLeft_lt [Fintype ι] (h : Reaches (step n) (start n) s) (hfilled : Filled n s)
    (hstep : step n t s = some s') :
    Team.total (threadLeft n) s' < Team.total (threadLeft n) s := by
  apply Team.total_lt hstep
  cases t with
  | writer =>
    have hnext := step_writer hstep
    rw [hfilled.1] at hnext
    cases hnext
  | reader i =>
    obtain ⟨hnext, -⟩ := step_reader hstep
    have hposition : s.shared.writePosition = n :=
      (outline_holds h).global.position_le.antisymm hfilled.2
    obtain ⟨hposition', hleft⟩ := readerNext_left hnext
    rw [hposition', hposition] at hleft
    exact hleft.resolve_right fun hlt => absurd hlt.1 (lt_irrefl n)

variable {s₀ : State ι} (r : Run (step n) s₀)

theorem exists_forall_ne_writer : ∃ N, ∀ m, N ≤ m → r.act m ≠ .writer := by
  apply r.exists_forall_not (P := (· = .writer)) fun s =>
    (s.locals .writer).left (n - s.shared.writePosition)
  · intro m
    have hstep := r.step_eq m
    cases hact : r.act m with
    | writer => exact (writerNext_left_lt (step_writer (hact ▸ hstep))).le
    | reader i =>
      obtain ⟨hnext, hwriter⟩ := step_reader (hact ▸ hstep)
      rw [hwriter, (readerNext_left hnext).1]
  · intro m hact
    exact writerNext_left_lt (step_writer (hact ▸ r.step_eq m))

/-- The buffer is never full in a run that does not end. -/
theorem not_filled [Fintype ι] (h : Reaches (step n) (start n) s₀) (m : Nat) :
    ¬ Filled n (r.state m) := by
  intro hfilled
  have hreach : ∀ k, Reaches (step n) (start n) (r.state k) := fun k => h.trans (r.reaches k)
  have hstays : ∀ k, m ≤ k → Filled n (r.state k) := fun k hk =>
    r.invariant_of_le hk hfilled fun j _ hj => hj.step (r.step_eq j)
  apply r.false_of_forall_lt (Team.total (threadLeft n)) (n := m)
  intro k hk
  exact threadLeft_lt (hreach k) (hstays k hk) (r.step_eq k)

/-- **The writer is starved** in every run that does not end. -/
theorem starves_writer [Fintype ι] (h : Reaches (step n) (start n) s₀) :
    r.Starves (· = .writer) := by
  have hreach : ∀ k, Reaches (step n) (start n) (r.state k) := fun k => h.trans (r.reaches k)
  obtain ⟨N, hidle⟩ := exists_forall_ne_writer r
  refine ⟨⟨N, hidle⟩, fun k => ?_⟩
  -- the readers give the mutex back again and again
  obtain ⟨m, hkm, -, hfree⟩ := r.frequently_of_lt (holderLeft n)
    (Q := fun s => s.shared.bufferLock = none) (n := N) (by
      intro m hm hlock hlock'
      cases hact : r.act m with
      | writer => exact absurd hact (hidle m hm)
      | reader i => exact holderLeft_lt (hreach m) (hact ▸ r.step_eq m) hlock hlock') k
  refine ⟨m, hkm, .writer, rfl, step_isSome ?_ (.inr hfree)⟩
  rw [← Bool.not_eq_true]
  intro hfinished
  exact not_filled r h m (filled_of_finished (hreach m) (of_decide_eq_true hfinished))

-- ---------------------------------------------------------------------------
-- The program
-- ---------------------------------------------------------------------------

/-- What main prints of the final state. -/
def finalState (x : Shared ι) : Bytes :=
  ascii "\n=== Final Buffer State ===\n" ++
    ascii "Total elements written: " ++ decimal x.writePosition ++ ascii "\n" ++
    ascii "Buffer contents: [" ++ (List.range x.writePosition).flatMap (cell x) ++ ascii "]\n"

/-- What it prints when all elements are written. -/
def fullState (n : Nat) : Bytes :=
  ascii "\n=== Final Buffer State ===\n" ++
    ascii "Total elements written: " ++ decimal n ++ ascii "\n" ++
    ascii "Buffer contents: [" ++ upTo n ++ ascii "]\n"

theorem finalState_eq (h : Reaches (step n) (start n) s) (hall : ∀ t, finished t s = true) :
    finalState s.shared = fullState n := by
  have hG : Global n s.shared := (outline_holds h).global
  obtain ⟨hposition, -⟩ := full_of_finished h hall
  have hcells : (List.range n).flatMap (cell s.shared) = upTo n := by
    rw [← shownPrefix_self, shownPrefix]
    apply List.flatMap_congr
    intro k hk
    rw [hG.cell_eq (by rw [hposition]; exact List.mem_range.mp hk), hposition]
  rw [finalState, fullState, hposition, hcells]

/-- **The program ends with a full buffer**, whatever threads can be created, unless main or
the writer is starved: where it cannot go on main has returned, and when main has waited for
all threads each of them has seen all elements and main prints them all. -/
theorem ends_unless_writer_starves (n bufferSize : Nat) :
    (∀ r : Run (launch n bufferSize).live (launch n bufferSize).boot,
      r.Starves Launch.OfMain ∨ r.Starves fun a => a = .run .writer) ∧
    ∀ s, Reaches (launch n bufferSize).live (launch n bufferSize).boot s →
      ((∀ a, (launch n bufferSize).live a s = none) → s.main = .done) ∧
      (s.main = .join [] → finalState s.threads.shared = fullState bufferSize ∧
        ∀ i, LastShows i bufferSize s.threads.shared) := by
  refine ⟨fun r => ?_, fun s hs => ⟨fun hstuck => ?_, fun hmain => ?_⟩⟩
  · by_cases hmain : r.Starves Launch.OfMain
    · exact .inl hmain
    · obtain ⟨x, hx, r', hstarves⟩ := Launch.threads_run r launch_stable mem_createOrder hmain
      have := hstarves _ (starves_writer r' hx)
      simp only [exists_eq_left] at this
      exact .inr this
  · exact Launch.done_of_stuck launch_stable mem_createOrder
      (fun x hx hstuck => finished_of_stuck hx hstuck) hs hstuck
  · have hreach : Reaches (step bufferSize) (start bufferSize) s.threads :=
      Launch.threads_reach_of_live hs
    have hall : ∀ t, finished t s.threads = true := fun t =>
      Launch.finished_of_joined launch_stable hs hmain (mem_joinOrder t)
    refine ⟨finalState_eq hreach hall, fun i => ?_⟩
    have hA : Assert bufferSize (.reader i) s.threads.shared (s.threads.locals (.reader i)) :=
      (outline_holds hreach).assert _
    have hpc : s.threads.locals (.reader i) = .finished := of_decide_eq_true (hall (.reader i))
    rw [hpc] at hA
    exact hA.holds

end LabsOS.Mtx
