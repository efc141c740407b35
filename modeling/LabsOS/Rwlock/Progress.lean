import LabsOS.Concurrency.Fairness
import LabsOS.Rwlock.Main

/-!
# The readers can shut the writer out

No thread of `lab10_rwlock/rwlock.c` is blocked for ever by one that has returned: where no
thread has a next step, all have returned. But a reader may take the lock while another one
holds it, so that the lock need never become free. `writer_shut_out_iff` says when there is a
run that does not end although it is fair to every thread: when there are two readers or more.
-/

namespace LabsOS.Rwlock

open Condvar (Thread)

variable {ι : Type} [DecidableEq ι] {c : Config ι} {n k : Nat} {i j : ι} {x x' : Shared ι}
variable {s s' : State ι} {t : Thread ι}

-- ---------------------------------------------------------------------------
-- What is left to do
-- ---------------------------------------------------------------------------

/-- The statements of the writer when `k` elements are missing. It goes round the loop once
more if it has the lock and nothing to write. -/
def WriterPc.left (k : Nat) : WriterPc → Nat
  | .unlock => 8 * k + 8
  | .whileTest => 8 * k + 7
  | .wrlock => max (8 * k + 6) 12
  | .ifTest => max (8 * k + 5) 11
  | .store => max (8 * k + 4) 10
  | .count => max (8 * k + 3) 9
  | .wrlockLast => 3
  | .setReadFinished => 2
  | .unlockLast => 1
  | .finished => 0

/-- The statements of a reader up to the end of its critical section, or to its last statement
once the flag is set. -/
def ReaderPc.left (n : Nat) (readFinished : Bool) : ReaderPc → Nat
  | .rdlock => if readFinished then 3 else n + 9
  | .ifTest => if readFinished then 2 else n + 8
  | .heading => n + 7
  | .cells k _ _ => n - k + 6
  | .print _ => 5
  | .unlock => if readFinished then 4 else 1
  | .unlockLast => 1
  | .finished => 0

theorem writerNext_left_lt {pc pc' : WriterPc} (h : writerNext c x pc = some (x', pc')) :
    pc'.left (c.arraySize - x'.data.writeCounter) <
      pc.left (c.arraySize - x.data.writeCounter) := by
  cases pc with
  | whileTest =>
    obtain ⟨rfl, rfl⟩ := Prod.mk.inj (Option.some.inj h)
    split
    · show max (8 * (c.arraySize - x.data.writeCounter) + 6) 12 <
        8 * (c.arraySize - x.data.writeCounter) + 7
      omega
    · show 3 < 8 * (c.arraySize - x.data.writeCounter) + 7
      omega
  | wrlock =>
    obtain ⟨x₁, hacq, heq⟩ := Option.map_eq_some_iff.mp h
    obtain ⟨rfl, rfl⟩ := Prod.mk.inj heq
    obtain ⟨-, -, rfl⟩ := wrlock_eq_some hacq
    show max (8 * (c.arraySize - x.data.writeCounter) + 5) 11 <
      max (8 * (c.arraySize - x.data.writeCounter) + 6) 12
    omega
  | ifTest =>
    obtain ⟨rfl, rfl⟩ := Prod.mk.inj (Option.some.inj h)
    split
    · show max (8 * (c.arraySize - x.data.writeCounter) + 4) 10 <
        max (8 * (c.arraySize - x.data.writeCounter) + 5) 11
      omega
    · show 8 * (c.arraySize - x.data.writeCounter) + 8 <
        max (8 * (c.arraySize - x.data.writeCounter) + 5) 11
      omega
  | store =>
    obtain ⟨rfl, rfl⟩ := Prod.mk.inj (Option.some.inj h)
    show max (8 * (c.arraySize - x.data.writeCounter) + 3) 9 <
      max (8 * (c.arraySize - x.data.writeCounter) + 4) 10
    omega
  | count =>
    obtain ⟨rfl, rfl⟩ := Prod.mk.inj (Option.some.inj h)
    show 8 * (c.arraySize - (x.data.writeCounter + 1)) + 8 <
      max (8 * (c.arraySize - x.data.writeCounter) + 3) 9
    omega
  | unlock =>
    obtain ⟨rfl, rfl⟩ := Prod.mk.inj (Option.some.inj h)
    show 8 * (c.arraySize - x.data.writeCounter) + 7 < 8 * (c.arraySize - x.data.writeCounter) + 8
    omega
  | wrlockLast =>
    obtain ⟨x₁, hacq, heq⟩ := Option.map_eq_some_iff.mp h
    obtain ⟨rfl, rfl⟩ := Prod.mk.inj heq
    show 2 < 3
    omega
  | setReadFinished =>
    obtain ⟨rfl, rfl⟩ := Prod.mk.inj (Option.some.inj h)
    show 1 < 2
    omega
  | unlockLast =>
    obtain ⟨rfl, rfl⟩ := Prod.mk.inj (Option.some.inj h)
    show 0 < 1
    omega
  | finished => cases h

/-- A reader has less left to do, unless it gives the lock back to poll again. -/
theorem readerNext_left {pc pc' : ReaderPc} (h : readerNext c i x pc = some (x', pc')) :
    x'.data = x.data ∧ (pc'.left c.arraySize x.data.readFinished <
      pc.left c.arraySize x.data.readFinished ∨ x.data.readFinished = false ∧ pc' = .rdlock) := by
  cases pc with
  | rdlock =>
    obtain ⟨x₁, hacq, heq⟩ := Option.map_eq_some_iff.mp h
    obtain ⟨rfl, rfl⟩ := Prod.mk.inj heq
    obtain ⟨-, rfl⟩ := rdlock_eq_some hacq
    refine ⟨rfl, .inl ?_⟩
    cases hf : x.data.readFinished with
    | true => show 2 < 3; omega
    | false => show c.arraySize + 8 < c.arraySize + 9; omega
  | ifTest =>
    obtain ⟨rfl, rfl⟩ := Prod.mk.inj (Option.some.inj h)
    refine ⟨rfl, .inl ?_⟩
    cases hf : x.data.readFinished with
    | true => show 1 < 2; omega
    | false => show c.arraySize + 7 < c.arraySize + 8; omega
  | heading =>
    rw [readerNext] at h
    obtain ⟨⟨buffer, pos⟩, -, heq⟩ := Option.bind_eq_some_iff.mp h
    obtain ⟨rfl, rfl⟩ := Prod.mk.inj (Option.some.inj heq)
    refine ⟨rfl, .inl ?_⟩
    show c.arraySize - 0 + 6 < c.arraySize + 7
    omega
  | cells k buffer pos =>
    rw [readerNext] at h
    split at h
    · next hk =>
      obtain ⟨⟨buffer', pos'⟩, -, heq⟩ := Option.bind_eq_some_iff.mp h
      obtain ⟨rfl, rfl⟩ := Prod.mk.inj (Option.some.inj heq)
      refine ⟨rfl, .inl ?_⟩
      show c.arraySize - (k + 1) + 6 < c.arraySize - k + 6
      omega
    · obtain ⟨⟨buffer', pos'⟩, -, heq⟩ := Option.bind_eq_some_iff.mp h
      obtain ⟨rfl, rfl⟩ := Prod.mk.inj (Option.some.inj heq)
      refine ⟨rfl, .inl ?_⟩
      show 5 < c.arraySize - k + 6
      omega
  | print buffer =>
    obtain ⟨rfl, rfl⟩ := Prod.mk.inj (Option.some.inj h)
    refine ⟨rfl, .inl ?_⟩
    cases hf : x.data.readFinished with
    | true => show 4 < 5; omega
    | false => show 1 < 5; omega
  | unlock =>
    obtain ⟨rfl, rfl⟩ := Prod.mk.inj (Option.some.inj h)
    refine ⟨rfl, ?_⟩
    cases hf : x.data.readFinished with
    | true => left; show 3 < 4; omega
    | false => exact .inr ⟨rfl, rfl⟩
  | unlockLast =>
    obtain ⟨rfl, rfl⟩ := Prod.mk.inj (Option.some.inj h)
    refine ⟨rfl, .inl ?_⟩
    show 0 < 1
    omega
  | finished => cases h

-- ---------------------------------------------------------------------------
-- No deadlock
-- ---------------------------------------------------------------------------

/-- A writer that has not returned goes on under its lock and while nobody holds it. -/
theorem writerNext_isSome {pc : WriterPc} (hne : pc ≠ .finished)
    (h : pc.Inside ∨ x.wrlocked = false ∧ x.rdlocked = ∅) : (writerNext c x pc).isSome := by
  cases pc with
  | wrlock | wrlockLast =>
    have hfree : x.wrlocked = false ∧ x.rdlocked = ∅ := h.resolve_left id
    simp [writerNext, Shared.wrlock, hfree]
  | finished => exact absurd rfl hne
  | whileTest | ifTest | store | count | unlock | setReadFinished | unlockLast => rfl

/-- A reader whose line fits goes on under its lock and while the writer does not hold it. -/
theorem readerNext_isSome {pc : ReaderPc} (hfits : Fits c i) (hG : Global c x)
    (hA : Assert c (.reader i) x pc) (hne : pc ≠ .finished) (h : pc.Inside ∨ x.wrlocked = false) :
    (readerNext c i x pc).isSome := by
  obtain ⟨-, hat⟩ := hA
  cases pc with
  | rdlock =>
    have hfree : x.wrlocked = false := h.resolve_left id
    simp [readerNext, Shared.rdlock, hfree]
  | heading =>
    have hlen : ([] ++ heading c i).length < bufferSize := by
      unfold Fits at hfits
      rw [List.nil_append]
      omega
    rw [readerNext, show snprintf bufferSize [] 0 (heading c i) = _ from snprintf_fits hlen]
    rfl
  | cells k buffer pos =>
    obtain ⟨hle, rfl, rfl⟩ := hat hfits
    rw [readerNext]
    split
    · next hk =>
      have hlen := length_line_lt (w := x.data.writeCounter) hfits (Nat.succ_le_of_lt hk)
      rw [Condvar.shownPrefix_succ, ← List.append_assoc, List.length_append] at hlen
      rw [appendCell_fits (hG.shownElement_eq k) (Nat.lt_of_le_of_lt (Nat.le_add_right ..) hlen)]
      rfl
    · rw [snprintf_fits (length_line_lt (w := x.data.writeCounter) hfits hle)]
      rfl
  | finished => exact absurd rfl hne
  | ifTest | print | unlock | unlockLast => rfl

theorem outline_holds (h : Reaches (step c) (start c) s) : (outline c).Holds s :=
  Team.Outline.holds_of_reaches h outline_start fun _ _ _ => trivial

theorem reader_asserts (h : Reaches (step c) (start c) s) (i : ι) :
    Assert c (.reader i) s.shared (s.locals (.reader i)) := (outline_holds h).assert (.reader i)

theorem writer_asserts (h : Reaches (step c) (start c) s) :
    Assert c .writer s.shared (s.locals .writer) := (outline_holds h).assert .writer

theorem step_writer_isSome (hne : s.locals .writer ≠ .finished)
    (h : (s.locals .writer).Inside ∨ s.shared.wrlocked = false ∧ s.shared.rdlocked = ∅) :
    (step c .writer s).isSome := by
  rw [step, Team.step, Option.isSome_map]
  exact writerNext_isSome hne h

theorem step_reader_isSome (hfits : Fits c i) (h : Reaches (step c) (start c) s)
    (hne : s.locals (.reader i) ≠ .finished)
    (hin : (s.locals (.reader i)).Inside ∨ s.shared.wrlocked = false) :
    (step c (.reader i) s).isSome := by
  rw [step, Team.step, Option.isSome_map]
  exact readerNext_isSome hfits (outline_holds h).global (reader_asserts h i) hne hin

/-- Where no thread can go on, all have returned. -/
theorem finished_of_stuck (hfits : ∀ i, Fits c i) (h : Reaches (step c) (start c) s)
    (hstuck : ∀ t, step c t s = none) (t : Thread ι) : finished t s = true := by
  have hnot : ∀ t, ¬ (step c t s).isSome := by
    intro t hsome
    rw [hstuck t] at hsome
    cases hsome
  have hwr : s.shared.wrlocked = false := by
    by_contra hlock
    have hin : (s.locals .writer).Inside :=
      (writer_asserts h).1.mp (Bool.not_eq_false _ ▸ hlock)
    have hne : s.locals .writer ≠ .finished := by
      intro hpc
      rw [hpc] at hin
      exact hin
    exact hnot _ (step_writer_isSome hne (.inl hin))
  have hreaders : ∀ i, s.locals (.reader i) = .finished := by
    intro i
    by_contra hne
    exact hnot _ (step_reader_isSome (hfits i) h hne (.inr hwr))
  have hrd : s.shared.rdlocked = ∅ := by
    apply Finset.eq_empty_of_forall_notMem
    intro i hi
    have hin : (s.locals (.reader i)).Inside := (reader_asserts h i).1.mp hi
    rw [hreaders i] at hin
    exact hin
  cases t with
  | writer =>
    by_contra hne
    exact hnot _ (step_writer_isSome (fun hpc => hne (decide_eq_true hpc)) (.inr ⟨hwr, hrd⟩))
  | reader i => exact decide_eq_true (hreaders i)

-- ---------------------------------------------------------------------------
-- Runs that do not end
-- ---------------------------------------------------------------------------

theorem step_writer (h : step c .writer s = some s') :
    writerNext c s.shared (s.locals .writer) = some (s'.shared, s'.locals .writer) :=
  (Team.step_self h).1

theorem step_reader (h : step c (.reader i) s = some s') :
    readerNext c i s.shared (s.locals (.reader i)) = some (s'.shared, s'.locals (.reader i)) ∧
      s'.locals .writer = s.locals .writer ∧
      ∀ u ≠ i, s'.locals (.reader u) = s.locals (.reader u) :=
  ⟨(Team.step_self h).1, (Team.step_self h).2 .writer nofun,
    fun _ hu => (Team.step_self h).2 _ fun heq => hu (Thread.reader.inj heq)⟩

/-- What a thread has left to do once the writer has returned. -/
def threadLeft (n : Nat) : (t : Thread ι) → Pc t → Nat
  | .writer, _ => 0
  | .reader _, pc => pc.left n true

theorem threadLeft_lt [Fintype ι] (h : Reaches (step c) (start c) s)
    (hwriter : s.locals .writer = .finished) (hstep : step c t s = some s') :
    s'.locals .writer = .finished ∧
      Team.total (threadLeft c.arraySize) s' < Team.total (threadLeft c.arraySize) s := by
  cases t with
  | writer =>
    have hnext := step_writer hstep
    rw [hwriter] at hnext
    cases hnext
  | reader i =>
    obtain ⟨hnext, hwriter', -⟩ := step_reader hstep
    have hflag : s.shared.data.readFinished = true := by
      have hA := (writer_asserts h).2
      rw [hwriter] at hA
      exact hA
    refine ⟨hwriter'.trans hwriter, Team.total_lt hstep ?_⟩
    obtain ⟨-, hleft⟩ := readerNext_left hnext
    rw [hflag] at hleft
    exact hleft.resolve_right fun hpoll => nomatch hpoll.1

section Runs

variable {s₀ : State ι} (r : Run (step c) s₀)

theorem exists_forall_ne_writer : ∃ N, ∀ m, N ≤ m → r.act m ≠ .writer := by
  apply r.exists_forall_not (P := (· = .writer)) fun s =>
    (s.locals .writer).left (c.arraySize - s.shared.data.writeCounter)
  · intro m
    have hstep := r.step_eq m
    cases hact : r.act m with
    | writer => exact (writerNext_left_lt (step_writer (hact ▸ hstep))).le
    | reader i =>
      obtain ⟨hnext, hwriter, -⟩ := step_reader (hact ▸ hstep)
      rw [hwriter, (readerNext_left hnext).1]
  · intro m hact
    exact writerNext_left_lt (step_writer (hact ▸ r.step_eq m))

/-- The writer does not return in a run that does not end. -/
theorem writer_ne_finished [Fintype ι] (h : Reaches (step c) (start c) s₀) (m : Nat) :
    (r.state m).locals .writer ≠ .finished := by
  intro hwriter
  have hreach : ∀ k, Reaches (step c) (start c) (r.state k) := fun k => h.trans (r.reaches k)
  have hstays : ∀ k, m ≤ k → (r.state k).locals .writer = .finished := fun k hk =>
    r.invariant_of_le (I := fun s => s.locals .writer = .finished) hk hwriter
      fun j _ hj => (threadLeft_lt (hreach j) hj (r.step_eq j)).1
  apply r.false_of_forall_lt (Team.total (threadLeft c.arraySize)) (n := m)
  intro k hk
  exact (threadLeft_lt (hreach k) (hstays k hk) (r.step_eq k)).2

/-- **A single reader** gives the lock back again and again, so that the writer is starved. -/
theorem starves_writer [Fintype ι] [Subsingleton ι] (h : Reaches (step c) (start c) s₀) :
    r.Starves (· = .writer) := by
  have hreach : ∀ k, Reaches (step c) (start c) (r.state k) := fun k => h.trans (r.reaches k)
  obtain ⟨N, hidle⟩ := exists_forall_ne_writer r
  refine ⟨⟨N, hidle⟩, fun k => ?_⟩
  -- the reader that acts
  obtain ⟨i, -⟩ : ∃ i, r.act N = .reader i := by
    cases hact : r.act N with
    | writer => exact absurd hact (hidle N le_rfl)
    | reader i => exact ⟨i, rfl⟩
  obtain ⟨m, hkm, -, hpoll⟩ := r.frequently_of_lt
    (fun s => (s.locals (.reader i)).left c.arraySize s.shared.data.readFinished)
    (Q := fun s => s.locals (.reader i) = .rdlock) (n := N) (by
      intro m hm _ hpoll'
      cases hact : r.act m with
      | writer => exact absurd hact (hidle m hm)
      | reader j =>
        obtain rfl : j = i := Subsingleton.elim ..
        obtain ⟨hnext, -⟩ := step_reader (hact ▸ r.step_eq m)
        obtain ⟨hdata, hleft⟩ := readerNext_left hnext
        rw [hdata]
        exact hleft.resolve_right fun hpoll => hpoll' hpoll.2) k
  refine ⟨m, hkm, .writer, rfl, step_writer_isSome (writer_ne_finished r h m) ?_⟩
  by_cases hin : ((r.state m).locals .writer).Inside
  · exact .inl hin
  · right
    refine ⟨?_, Finset.eq_empty_of_forall_notMem fun j hj => ?_⟩
    · exact Bool.eq_false_iff.mpr fun hlock => hin ((writer_asserts (hreach m)).1.mp hlock)
    · obtain rfl : j = i := Subsingleton.elim ..
      have hin : ((r.state m).locals (.reader j)).Inside := (reader_asserts (hreach m) j).1.mp hj
      rw [hpoll] at hin
      exact hin

end Runs

-- ---------------------------------------------------------------------------
-- Readers that take turns
-- ---------------------------------------------------------------------------

/-- The reader `i` holds the lock, `j` comes next, and everybody else waits for it. -/
structure Turned (c : Config ι) (i j : ι) (s : State ι) : Prop where
  reach : Reaches (step c) (start c) s
  unfinished : s.shared.data.readFinished = false
  writer : s.locals .writer = .wrlock ∨ s.locals .writer = .wrlockLast
  holder : (s.locals (.reader i)).Inside
  others : ∀ u, u ≠ i → u ≠ j → s.locals (.reader u) = .rdlock
  next : s.locals (.reader j) = .rdlock ∨ s.locals (.reader j) = .ifTest

/-- The statements up to the next turn. -/
def turnLeft (c : Config ι) (i j : ι) (s : State ι) : Nat :=
  (s.locals (.reader i)).left c.arraySize false + (s.locals (.reader j)).left c.arraySize false

namespace Turned

theorem wrlocked (h : Turned c i j s) : s.shared.wrlocked = false := by
  apply Bool.eq_false_iff.mpr
  intro hlock
  have hin : (s.locals .writer).Inside := (writer_asserts h.reach).1.mp hlock
  rcases h.writer with hpc | hpc
  · rw [hpc] at hin
    exact hin
  · rw [hpc] at hin
    exact hin

/-- The lock is not free. -/
theorem rdlocked_ne (h : Turned c i j s) : s.shared.rdlocked ≠ ∅ :=
  Finset.ne_empty_of_mem ((reader_asserts h.reach i).1.mpr h.holder)

/-- The writer has to wait. -/
theorem not_canTake (h : Turned c i j s) : ¬ CanTake (step c) (· = .writer) s := by
  rintro ⟨_, rfl, hsome⟩
  obtain ⟨s', hs'⟩ := Option.isSome_iff_exists.mp hsome
  have hnext := step_writer hs'
  have hacq : ∃ x', s.shared.wrlock = some x' := by
    rcases h.writer with hpc | hpc
    · rw [hpc] at hnext
      obtain ⟨x', hx', -⟩ := Option.map_eq_some_iff.mp hnext
      exact ⟨x', hx'⟩
    · rw [hpc] at hnext
      obtain ⟨x', hx', -⟩ := Option.map_eq_some_iff.mp hnext
      exact ⟨x', hx'⟩
  obtain ⟨x', hx'⟩ := hacq
  exact h.rdlocked_ne (wrlock_eq_some hx').2.1

/-- The next reader takes the lock too, or the holder goes on with its section. -/
theorem advance (hfits : ∀ i, Fits c i) (hij : i ≠ j) {k : ι} (hjk : j ≠ k)
    (h : Turned c i j s) : ∃ a s', step c a s = some s' ∧
      (Turned c i j s' ∧ turnLeft c i j s' < turnLeft c i j s ∨
        Turned c j k s' ∧ a = .reader i) := by
  rcases h.next with hpc | hpc
  · -- the next reader is still to come
    have hne : s.locals (.reader j) ≠ .finished := by
      rw [hpc]
      nofun
    obtain ⟨s', hs'⟩ := Option.isSome_iff_exists.mp
      (step_reader_isSome (hfits j) h.reach hne (.inr h.wrlocked))
    obtain ⟨hnext, hwriter, hothers⟩ := step_reader hs'
    have hi : s'.locals (.reader i) = s.locals (.reader i) := hothers i hij
    rw [hpc] at hnext
    obtain ⟨x₁, hacq, heq⟩ := Option.map_eq_some_iff.mp hnext
    obtain ⟨hx₁, hpc'⟩ := Prod.mk.inj heq
    obtain ⟨-, hx⟩ := rdlock_eq_some hacq
    have hdata : s'.shared.data = s.shared.data := by rw [← hx₁, hx]
    refine ⟨.reader j, s', hs', .inl ⟨⟨h.reach.step _ hs', ?_, ?_, ?_, ?_, .inr hpc'.symm⟩, ?_⟩⟩
    · rw [hdata]
      exact h.unfinished
    · rw [hwriter]
      exact h.writer
    · rw [hi]
      exact h.holder
    · intro u hui huj
      rw [hothers u huj]
      exact h.others u hui huj
    · rw [turnLeft, turnLeft, hi, hpc, ← hpc']
      show _ + (c.arraySize + 8) < _ + (c.arraySize + 9)
      omega
  · -- the holder goes on
    have hne : s.locals (.reader i) ≠ .finished := by
      intro hfinished
      have hin := h.holder
      rw [hfinished] at hin
      exact hin
    obtain ⟨s', hs'⟩ := Option.isSome_iff_exists.mp
      (step_reader_isSome (hfits i) h.reach hne (.inl h.holder))
    obtain ⟨hnext, hwriter, hothers⟩ := step_reader hs'
    have hreach' := h.reach.step _ hs'
    obtain ⟨hdata, hleft⟩ := readerNext_left hnext
    have hflag : s'.shared.data.readFinished = false := by
      rw [hdata]
      exact h.unfinished
    have hwaits : s'.locals .writer = .wrlock ∨ s'.locals .writer = .wrlockLast := by
      rw [hwriter]
      exact h.writer
    have hj : s'.locals (.reader j) = s.locals (.reader j) := hothers j hij.symm
    rw [h.unfinished] at hleft
    refine ⟨.reader i, s', hs', ?_⟩
    by_cases hin : (s'.locals (.reader i)).Inside
    · left
      refine ⟨⟨hreach', hflag, hwaits, hin, ?_, .inr (hj.trans hpc)⟩, ?_⟩
      · intro u hui huj
        rw [hothers u hui]
        exact h.others u hui huj
      · have hlt := hleft.resolve_right fun hpoll => by
          rw [hpoll.2] at hin
          exact hin
        rw [turnLeft, turnLeft, hj]
        omega
    · right
      -- it has given the lock back, and polls again
      have hpoll : s'.locals (.reader i) = .rdlock := by
        cases hpc' : s'.locals (.reader i) with
        | rdlock => rfl
        | finished =>
          have hA := (reader_asserts hreach' i).2
          rw [hpc'] at hA
          cases hflag.symm.trans hA
        | _ =>
          rw [hpc'] at hin
          exact absurd trivial hin
      have hrest : ∀ u, u ≠ j → s'.locals (.reader u) = .rdlock := by
        intro u huj
        by_cases hui : u = i
        · rw [hui]
          exact hpoll
        · rw [hothers u hui]
          exact h.others u hui huj
      refine ⟨⟨hreach', hflag, hwaits, ?_, fun u huj _ => hrest u huj, .inl (hrest k hjk.symm)⟩,
        rfl⟩
      rw [hj, hpc]
      trivial

end Turned

/-- The writer comes to its lock, and the reader `i` has taken it before. -/
theorem exists_turned (hij : i ≠ j) : ∃ s, Turned c i j s := by
  have hfirst : (step c .writer (start c : State ι)).isSome := rfl
  obtain ⟨s, hs⟩ := Option.isSome_iff_exists.mp hfirst
  have hreach : Reaches (step c) (start c) s := Reaches.refl.step _ hs
  have hreaders : ∀ u, s.locals (.reader u) = .rdlock := fun u => (Team.step_self hs).2 _ nofun
  obtain ⟨hshared, hpc⟩ := Prod.mk.inj (Option.some.inj (step_writer hs))
  have hwaits : s.locals .writer = .wrlock ∨ s.locals .writer = .wrlockLast := by
    rw [← hpc]
    split
    · exact .inl rfl
    · exact .inr rfl
  have hlock : s.shared.rdlock i = some { s.shared with
      rdlocked := insert i s.shared.rdlocked
      phase := if s.shared.rdlocked = ∅ then s.shared.phase + 1 else s.shared.phase } := by
    rw [Shared.rdlock, if_pos (by rw [← hshared]; rfl)]
  have hsome : (step c (.reader i) s).isSome := by
    rw [step, Team.step, Option.isSome_map]
    show (readerNext c i s.shared (s.locals (.reader i))).isSome
    rw [hreaders i, readerNext, hlock]
    rfl
  obtain ⟨s', hs'⟩ := Option.isSome_iff_exists.mp hsome
  obtain ⟨hnext', hwriter, hothers⟩ := step_reader hs'
  rw [hreaders i, readerNext, hlock] at hnext'
  obtain ⟨hshared', hpc'⟩ := Prod.mk.inj (Option.some.inj hnext')
  refine ⟨s', hreach.step _ hs', ?_, ?_, ?_, ?_, ?_⟩
  · rw [← hshared', ← hshared]
    rfl
  · rw [hwriter]
    exact hwaits
  · rw [← hpc']
    trivial
  · intro u hu _
    rw [hothers u hu, hreaders u]
  · rw [hothers j hij.symm]
    exact .inl (hreaders j)

/-- Two readers or more can shut the writer out. -/
theorem exists_fair_run [Fintype ι] (hfits : ∀ i, Fits c i) (hcard : 2 ≤ Fintype.card ι) :
    ∃ s, Reaches (step c) (start c) s ∧ ∃ r : Run (step c) s, ∀ t, r.Fair (· = t) := by
  obtain ⟨turn, hturn, hall⟩ := exists_round_robin hcard
  obtain ⟨s, hs⟩ := exists_turned (c := c) (hturn 0)
  obtain ⟨r, hinv, hacts⟩ := Run.exists_of_turns
    (I := fun k s => Turned c (turn k) (turn (k + 1)) s)
    (f := fun k s => turnLeft c (turn k) (turn (k + 1)) s)
    (Q := fun k a => a = Thread.reader (turn k)) hs (by
      intro p
      obtain ⟨a, s', hstep, hnext⟩ := p.holds.advance hfits (hturn p.turn) (hturn (p.turn + 1))
      rcases hnext with ⟨hsame, hlt⟩ | ⟨hnew, ha⟩
      · exact ⟨a, ⟨p.turn, s', hsame⟩, hstep, .inl ⟨rfl, hlt⟩⟩
      · exact ⟨a, ⟨p.turn + 1, s', hnew⟩, hstep, .inr ⟨rfl, ha⟩⟩)
  refine ⟨s, hs.reach, r, fun t => ?_⟩
  cases t with
  | writer =>
    -- it can never go on
    intro hable
    obtain ⟨m, -, hcan⟩ := hable 0
    obtain ⟨k, hk⟩ := hinv m
    exact absurd hcan hk.not_canTake
  | reader i =>
    intro _ n
    obtain ⟨k, hnk, hki⟩ := hall i n
    obtain ⟨m, hkm, -, hact⟩ := hacts k
    refine ⟨m, hnk.trans hkm, ?_⟩
    rw [hact, hki]

/-- **When the readers can shut the writer out.** Threads that cannot go on have all returned;
and there is a run that does not end although it is fair to every thread if and only if there
are two readers or more. -/
theorem writer_shut_out_iff [Fintype ι] (hfits : ∀ i, Fits c i) :
    (∀ s, Reaches (step c) (start c) s → (∀ t, step c t s = none) → ∀ t, finished t s = true) ∧
    ((∃ s, Reaches (step c) (start c) s ∧ ∃ r : Run (step c) s, ∀ t, r.Fair (· = t)) ↔
      2 ≤ Fintype.card ι) := by
  refine ⟨fun s hs hstuck => finished_of_stuck hfits hs hstuck, ?_, exists_fair_run hfits⟩
  rintro ⟨s, hs, r, hfair⟩
  by_contra hcard
  have hsub : Subsingleton ι := Fintype.card_le_one_iff_subsingleton.mp (by omega)
  exact (hfair .writer).not_starves (starves_writer r hs)

/-- Two readers, numbered from 1. -/
def twoReaders (arraySize : Nat) : Config (Fin 2) :=
  ⟨arraySize, fun i => i.val + 1, fun _ => 0x7f0000000000⟩

theorem two_readers_shut_writer_out : (∀ i, Fits (twoReaders 10) i) ∧
    ∃ s, Reaches (step (twoReaders 10)) (start (twoReaders 10)) s ∧
      ∃ r : Run (step (twoReaders 10)) s, ∀ t, r.Fair (· = t) := by
  have hfits : ∀ i, Fits (twoReaders 10) i := by decide +kernel
  exact ⟨hfits, (writer_shut_out_iff hfits).2.mpr (by decide)⟩

end LabsOS.Rwlock
