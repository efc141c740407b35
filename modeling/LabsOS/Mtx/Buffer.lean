import LabsOS.Mtx.Mtx
import Mathlib.Data.List.Basic

/-!
# What the readers of the buffer print

`buffer_protocol`: while the mutex is free the buffer holds `1, 2, …` up to
`write_position` and zeros behind it; every line shows exactly the elements
written, a reader never sees fewer than before, and its last line is full. The
outline of the threads says what each of them knows at its statements.
-/

namespace LabsOS.Mtx

open Condvar (Thread)

variable {ι : Type} {n k w : Nat} {i : ι} {x x' : Shared ι}

/-- `1, 2, …, k`. -/
def upTo (k : Nat) : Bytes := (ascii ", ").intercalate ((List.range k).map fun i => decimal (i + 1))

-- ---------------------------------------------------------------------------
-- The printing loop
-- ---------------------------------------------------------------------------

/-- What one round prints where `w` elements are written. -/
def shownCell (w k : Nat) : Bytes := decimal (k + 1) ++ (if k + 1 < w then ascii ", " else [])

/-- The first `k` rounds. -/
def shownPrefix (w k : Nat) : Bytes := (List.range k).flatMap (shownCell w)

theorem shownPrefix_succ (w k : Nat) :
    shownPrefix w (k + 1) = shownPrefix w k ++ shownCell w k := by
  simp [shownPrefix, List.range_succ]

/-- The loop prints all elements with commas between them. -/
theorem shownPrefix_self (w : Nat) : shownPrefix w w = upTo w :=
  flatMap_separated (ascii ", ") (fun k => decimal (k + 1)) w

-- ---------------------------------------------------------------------------
-- Statements on the shared data
-- ---------------------------------------------------------------------------

/-- The elements from `k` on are zero. -/
def ZeroFrom (n k : Nat) (data : List Nat) : Prop := ∀ j, k ≤ j → j < n → data[j]? = some 0

/-- What holds of the shared data at any time. -/
structure Global (n : Nat) (x : Shared ι) : Prop where
  size : x.sharedData.length = n
  position_le : x.writePosition ≤ n
  written : ∀ j < x.writePosition, x.sharedData[j]? = some (j + 1)
  zero : x.bufferLock ≠ some .writer → ZeroFrom n x.writePosition x.sharedData
  lines : ∀ p ∈ x.printed, p.contents = upTo p.writePosition ∧ p.writePosition ≤ x.writePosition
  increasing : x.printed.Pairwise fun p q => p.writePosition ≤ q.writePosition

theorem acquire_eq_some {t : Thread ι} (h : x.acquire t = some x') :
    x.bufferLock = none ∧ x' = { x with bufferLock := some t } := by
  unfold Shared.acquire at h
  split at h
  · next hfree => exact ⟨hfree, (Option.some.inj h).symm⟩
  · cases h

/-- Taking or giving back the mutex leaves the data as it is. -/
theorem Global.withLock (h : Global n x) (lock : Option (Thread ι))
    (hzero : lock ≠ some .writer → ZeroFrom n x.writePosition x.sharedData) :
    Global n { x with bufferLock := lock } :=
  ⟨h.size, h.position_le, h.written, hzero, h.lines, h.increasing⟩

/-- `shared_data[write_position] = write_position + 1`. -/
theorem Global.store (h : Global n x) (hlock : x.bufferLock = some .writer)
    (hlt : x.writePosition < n) (hzero : ZeroFrom n x.writePosition x.sharedData) :
    Global n { x with sharedData := x.sharedData.set x.writePosition (x.writePosition + 1) } ∧
      (x.sharedData.set x.writePosition (x.writePosition + 1))[x.writePosition]? =
        some (x.writePosition + 1) ∧
      ZeroFrom n (x.writePosition + 1)
        (x.sharedData.set x.writePosition (x.writePosition + 1)) := by
  refine ⟨⟨?_, h.position_le, fun j hj => ?_, fun hne => absurd hlock hne, h.lines, h.increasing⟩,
    ?_, fun j hj hjn => ?_⟩
  · rw [List.length_set, h.size]
  · rw [List.getElem?_set_ne (Nat.ne_of_gt hj), h.written j hj]
  · exact List.getElem?_set_self (by rwa [h.size])
  · rw [List.getElem?_set_ne (by omega), hzero j (by omega) hjn]

/-- `write_position++`. -/
theorem Global.count (h : Global n x) (hlock : x.bufferLock = some .writer)
    (hlt : x.writePosition < n)
    (hnew : x.sharedData[x.writePosition]? = some (x.writePosition + 1)) :
    Global n { x with writePosition := x.writePosition + 1 } := by
  refine ⟨h.size, hlt, ?_, fun hne => absurd hlock hne, ?_, h.increasing⟩
  · intro j hj
    rcases Nat.lt_succ_iff_lt_or_eq.mp hj with hj | rfl
    · exact h.written j hj
    · exact hnew
  · intro p hp
    exact ⟨(h.lines p hp).1, Nat.le_succ_of_le (h.lines p hp).2⟩

/-- The line of a reader shows all elements written. -/
theorem Global.print (h : Global n x) (i : ι) {contents : Bytes}
    (hcontents : contents = shownPrefix x.writePosition x.writePosition) :
    Global n { x with printed := x.printed ++ [⟨i, x.writePosition, contents⟩] } := by
  refine ⟨h.size, h.position_le, h.written, h.zero, ?_, ?_⟩
  · intro p hp
    rcases List.mem_append.mp hp with hp | hp
    · exact h.lines p hp
    · rw [List.mem_singleton.mp hp]
      exact ⟨hcontents.trans (shownPrefix_self _), le_rfl⟩
  · refine List.pairwise_append.mpr ⟨h.increasing, List.pairwise_singleton .., fun p hp q hq => ?_⟩
    rw [List.mem_singleton.mp hq]
    exact (h.lines p hp).2

theorem Global.cell_eq (h : Global n x) (hk : k < x.writePosition) :
    cell x k = shownCell x.writePosition k := by
  rw [cell, shownCell, List.getD_eq_getElem?_getD, h.written k hk, Option.getD_some]

-- ---------------------------------------------------------------------------
-- The outline
-- ---------------------------------------------------------------------------

variable [DecidableEq ι]

/-- The lines of the reader `i`. -/
def linesOf (i : ι) (printed : List (Print ι)) : List (Print ι) := printed.filter (·.reader = i)

/-- The last line of the reader `i` shows `k` elements. -/
def LastShows (i : ι) (k : Nat) (x : Shared ι) : Prop :=
  (linesOf i x.printed).getLast?.map Print.writePosition = some k

/-- The thread holds the mutex. -/
def Inside : (t : Thread ι) → Pc t → Prop
  | .writer, pc => pc = .ifTest ∨ pc = .store ∨ pc = .count ∨ pc = .unlock
  | .reader _, pc => pc ≠ .lock ∧ pc ≠ .finished

/-- What the writer asserts at each statement. -/
def WriterAt (n : Nat) (x : Shared ι) : WriterPc → Prop
  | .ifTest | .unlock => ZeroFrom n x.writePosition x.sharedData
  | .store => x.writePosition < n ∧ ZeroFrom n x.writePosition x.sharedData
  | .count => x.sharedData[x.writePosition]? = some (x.writePosition + 1) ∧ x.writePosition < n ∧
      ZeroFrom n (x.writePosition + 1) x.sharedData
  | _ => True

/-- What the reader `i` asserts at each statement. -/
def ReaderAt (n : Nat) (i : ι) (x : Shared ι) : ReaderPc → Prop
  | .print k contents => k ≤ x.writePosition ∧ contents = shownPrefix x.writePosition k
  | .ifTest => LastShows i x.writePosition x
  | .unlockLast | .finished => LastShows i n x
  | _ => True

def At (n : Nat) : (t : Thread ι) → Shared ι → Pc t → Prop
  | .writer, x, pc => WriterAt n x pc
  | .reader i, x, pc => ReaderAt n i x pc

/-- The thread knows whether it holds the mutex, and what it asserts. -/
structure Assert (n : Nat) (t : Thread ι) (x : Shared ι) (pc : Pc t) : Prop where
  lock_iff : x.bufferLock = some t ↔ Inside t pc
  holds : At n t x pc

/-- A thread works under the mutex and prints no line of another reader. -/
structure Guarantee (t : Thread ι) (x x' : Shared ι) : Prop where
  respects : Respects Shared.bufferLock t x x'
  lines : ∀ i, Thread.reader i ≠ t → linesOf i x'.printed = linesOf i x.printed

theorem Assert.stable {t u : Thread ι} {pc : Pc u} (hu : u ≠ t) (hguar : Guarantee t x x')
    (h : Assert n u x pc) : Assert n u x' pc := by
  refine ⟨(hguar.respects.holder_iff u hu).trans h.lock_iff, ?_⟩
  by_cases hin : Inside u pc
  · rw [hguar.respects.eq_of_held u hu (h.lock_iff.mpr hin)]
    exact h.holds
  · cases u with
    | writer =>
      cases pc with
      | whileTest | lock | finished => trivial
      | ifTest | store | count | unlock => exact absurd (by simp [Inside]) hin
    | reader i =>
      cases pc with
      | lock => trivial
      | finished =>
        have hlast : LastShows i n x := h.holds
        show LastShows i n x'
        rwa [LastShows, hguar.lines i hu]
      | print | ifTest | unlock | unlockLast => exact absurd (by simp [Inside]) hin

theorem Guarantee.refl {t : Thread ι} : Guarantee t x x := ⟨.refl, fun _ _ => rfl⟩

/-- A thread that prints nothing. -/
theorem Guarantee.of_respects {t : Thread ι} (h : Respects Shared.bufferLock t x x')
    (hprinted : x'.printed = x.printed) : Guarantee t x x' :=
  ⟨h, fun _ _ => by rw [hprinted]⟩

theorem writer_own {pc pc' : WriterPc} (hG : Global n x) (hA : Assert n .writer x pc)
    (h : writerNext n x pc = some (x', pc')) :
    Global n x' ∧ Assert n .writer x' pc' ∧ Guarantee .writer x x' := by
  have hlock : Inside .writer pc → x.bufferLock = some .writer := hA.lock_iff.mpr
  have hat : WriterAt n x pc := hA.holds
  cases pc with
  | whileTest =>
    obtain ⟨rfl, rfl⟩ := Prod.mk.inj (Option.some.inj h)
    refine ⟨hG, ⟨hA.lock_iff.trans ?_, ?_⟩, .refl⟩
    · split <;> simp [Inside]
    · split <;> trivial
  | lock =>
    obtain ⟨x₁, hacq, heq⟩ := Option.map_eq_some_iff.mp h
    obtain ⟨rfl, rfl⟩ := Prod.mk.inj heq
    obtain ⟨hfree, rfl⟩ := acquire_eq_some hacq
    have hzero := hG.zero (by rw [hfree]; nofun)
    exact ⟨hG.withLock _ fun _ => hzero, ⟨by simp [Inside], hzero⟩,
      .of_respects (.acquire hfree rfl) rfl⟩
  | ifTest =>
    obtain ⟨rfl, rfl⟩ := Prod.mk.inj (Option.some.inj h)
    have hl := hlock (.inl rfl)
    refine ⟨hG, ⟨?_, ?_⟩, .refl⟩
    · split <;> simp [Inside, hl]
    · split
      · next hlt => exact ⟨hlt, hat⟩
      · exact hat
  | store =>
    obtain ⟨rfl, rfl⟩ := Prod.mk.inj (Option.some.inj h)
    have hl := hlock (.inr (.inl rfl))
    obtain ⟨hglobal, hnew, hzero⟩ := hG.store hl hat.1 hat.2
    exact ⟨hglobal, ⟨by simp [Inside, hl], hnew, hat.1, hzero⟩, .of_respects (.work hl hl) rfl⟩
  | count =>
    obtain ⟨rfl, rfl⟩ := Prod.mk.inj (Option.some.inj h)
    have hl := hlock (.inr (.inr (.inl rfl)))
    exact ⟨hG.count hl hat.2.1 hat.1, ⟨by simp [Inside, hl], hat.2.2⟩,
      .of_respects (.work hl hl) rfl⟩
  | unlock =>
    obtain ⟨rfl, rfl⟩ := Prod.mk.inj (Option.some.inj h)
    have hl := hlock (.inr (.inr (.inr rfl)))
    exact ⟨hG.withLock none fun _ => hat, ⟨by simp [Inside, Shared.release], trivial⟩,
      .of_respects (.release hl rfl) rfl⟩
  | finished => cases h

theorem reader_own {pc pc' : ReaderPc} (hG : Global n x) (hA : Assert n (.reader i) x pc)
    (h : readerNext n i x pc = some (x', pc')) :
    Global n x' ∧ Assert n (.reader i) x' pc' ∧ Guarantee (.reader i) x x' := by
  have hlock : Inside (.reader i) pc → x.bufferLock = some (.reader i) := hA.lock_iff.mpr
  have hat : ReaderAt n i x pc := hA.holds
  cases pc with
  | lock =>
    obtain ⟨x₁, hacq, heq⟩ := Option.map_eq_some_iff.mp h
    obtain ⟨rfl, rfl⟩ := Prod.mk.inj heq
    obtain ⟨hfree, rfl⟩ := acquire_eq_some hacq
    have hzero := hG.zero (by rw [hfree]; nofun)
    exact ⟨hG.withLock _ fun _ => hzero, ⟨by simp [Inside], Nat.zero_le _, rfl⟩,
      .of_respects (.acquire hfree rfl) rfl⟩
  | print k contents =>
    have hl := hlock (by simp [Inside])
    rw [readerNext] at h
    split at h
    · next hk =>
      obtain ⟨rfl, rfl⟩ := Prod.mk.inj (Option.some.inj h)
      refine ⟨hG, ⟨by simp [Inside, hl], hk, ?_⟩, .refl⟩
      rw [shownPrefix_succ, ← hG.cell_eq hk, hat.2]
    · next hk =>
      obtain ⟨rfl, rfl⟩ := Prod.mk.inj (Option.some.inj h)
      have hdone : k = x.writePosition := by
        have := hat.1
        omega
      refine ⟨hG.print i (hdone ▸ hat.2), ⟨by simp [Inside, hl], ?_⟩, .work hl hl, ?_⟩
      · simp [At, ReaderAt, LastShows, linesOf]
      · intro j hj
        have hne : i ≠ j := fun hij => hj (congrArg Thread.reader hij.symm)
        simp [linesOf, hne]
  | ifTest =>
    obtain ⟨rfl, rfl⟩ := Prod.mk.inj (Option.some.inj h)
    have hl := hlock (by simp [Inside])
    refine ⟨hG, ⟨?_, ?_⟩, .refl⟩
    · split <;> simp [Inside, hl]
    · split
      · next hge =>
        have hn : x.writePosition = n := le_antisymm hG.position_le hge
        exact hn ▸ hat
      · trivial
  | unlock =>
    obtain ⟨rfl, rfl⟩ := Prod.mk.inj (Option.some.inj h)
    have hl := hlock (by simp [Inside])
    exact ⟨hG.withLock none fun _ => hG.zero (by rw [hl]; nofun),
      ⟨by simp [Inside, Shared.release], trivial⟩, .of_respects (.release hl rfl) rfl⟩
  | unlockLast =>
    obtain ⟨rfl, rfl⟩ := Prod.mk.inj (Option.some.inj h)
    have hl := hlock (by simp [Inside])
    exact ⟨hG.withLock none fun _ => hG.zero (by rw [hl]; nofun),
      ⟨by simp [Inside, Shared.release], hat⟩, .of_respects (.release hl rfl) rfl⟩
  | finished => cases h

/-- The outline of the threads. -/
def outline (n : Nat) : Team.Outline (A := Thread ι) id (next n) where
  Allowed _ _ _ := True
  Global := Global n
  Assert := Assert n
  Guarantee := Guarantee
  own t x pc x' pc' hG hA _ h := by
    cases t with
    | writer => exact writer_own hG hA h
    | reader i => exact reader_own hG hA h
  stable t u x x' pc hu _ hguar hA := hA.stable hu hguar

theorem outline_start : (outline n).Holds (start n : State ι) where
  global :=
    { size := List.length_replicate
      position_le := Nat.zero_le n
      written := nofun
      zero := fun _ j _ hj => by simp [start, hj]
      lines := nofun
      increasing := .nil }
  assert t := by cases t <;> exact ⟨by simp [start, Inside], trivial⟩

-- ---------------------------------------------------------------------------
-- The protocol
-- ---------------------------------------------------------------------------

/-- The elements written stand at the front of the buffer, and all that was
printed is in order. -/
structure BufferProtocol (n : Nat) (s : State ι) : Prop where
  free : s.shared.bufferLock = none → s.shared.sharedData.length = n ∧ s.shared.writePosition ≤ n ∧
    (∀ k < s.shared.writePosition, s.shared.sharedData[k]? = some (k + 1)) ∧
    ∀ k, s.shared.writePosition ≤ k → k < n → s.shared.sharedData[k]? = some 0
  lines : ∀ p ∈ s.shared.printed, p.contents = upTo p.writePosition
  increasing : ∀ i, (linesOf i s.shared.printed).Pairwise fun p q => p.writePosition ≤ q.writePosition
  last_full : ∀ i, s.locals (.reader i) = .finished →
    (linesOf i s.shared.printed).getLast?.map Print.contents = some (upTo n)

/-- **The buffer protocol**, in any interleaving. -/
theorem buffer_protocol {s : State ι} (h : Reaches (step n) (start n) s) : BufferProtocol n s := by
  have hs : (outline n).Holds s := Team.Outline.holds_of_reaches h outline_start fun _ _ _ => trivial
  have hG : Global n s.shared := hs.global
  refine ⟨fun hfree => ?_, fun p hp => (hG.lines p hp).1, fun i => hG.increasing.filter _,
    fun i hpc => ?_⟩
  · exact ⟨hG.size, hG.position_le, hG.written, hG.zero (by rw [hfree]; nofun)⟩
  · have hA : Assert n (.reader i) s.shared (s.locals (.reader i)) := hs.assert (.reader i)
    rw [hpc] at hA
    obtain ⟨p, hp, hshown⟩ := Option.map_eq_some_iff.mp (show LastShows i n s.shared from hA.holds)
    rw [hp, Option.map_some, ← hshown,
      (hG.lines p (List.mem_of_mem_filter (List.mem_of_getLast? hp))).1]

/-- The writer fills a buffer of two elements and the reader `i` shows it. -/
def fillAndShow (i : ι) : List (Thread ι) := List.replicate 12 .writer ++ List.replicate 6 (.reader i)

theorem two_elements_shown : ∃ s : State (Fin 1), s.locals (.reader 0) = .finished ∧
    s.shared.printed.map Print.contents = [ascii "1, 2"] ∧ BufferProtocol 2 s := by
  have hrun : (steps (step 2) (fillAndShow (0 : Fin 1)) (start 2)).map (fun s =>
      (s.locals (.reader 0), s.shared.printed.map Print.contents)) =
      some (.finished, [ascii "1, 2"]) := by decide +kernel
  obtain ⟨s, hs, hobs⟩ := exists_reaches_of_map hrun
  obtain ⟨hpc, hlines⟩ := Prod.mk.inj hobs
  exact ⟨s, hpc, hlines, buffer_protocol hs⟩

end LabsOS.Mtx
