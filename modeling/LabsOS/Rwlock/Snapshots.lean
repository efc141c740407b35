import LabsOS.Rwlock.Lines

/-!
# What the readers of the array print

`snapshots_consistent`: nobody writes while a reader holds the lock; a line that
fits in its buffer shows a prefix of the array, which does not shrink for a reader
and is the same in one read phase; and once `read_finished` is set the array is
complete. `line_cut_off` is an array whose line does not fit.
-/

namespace LabsOS.Rwlock

open Condvar (Thread letter blank space shownPrefix shownLine shownPrefix_succ shownPrefix_eq)

variable {ι : Type} {c : Config ι} {n k w : Nat} {i : ι} {x x' : Shared ι} {d : Data}

-- ---------------------------------------------------------------------------
-- Assertions
-- ---------------------------------------------------------------------------

/-- What holds of the protected variables at any time. -/
structure Consistent (n : Nat) (d : Data) : Prop where
  size : d.sharedArray.length = n
  count_le : d.writeCounter ≤ n
  written : ∀ k < d.writeCounter, d.sharedArray[k]? = some (letter k)
  complete : d.readFinished = true → d.writeCounter = n

/-- What holds of the shared state at any time. -/
structure Global (c : Config ι) (x : Shared ι) : Prop where
  data : Consistent c.arraySize x.data
  excl : x.wrlocked = true → x.rdlocked = ∅
  lines : ∀ p ∈ x.printed, (Fits c p.reader → p.line = lineOf c p.reader p.writeCounter) ∧
    p.writeCounter ≤ x.data.writeCounter ∧ p.phase ≤ x.phase
  current : x.rdlocked.Nonempty → ∀ p ∈ x.printed, p.phase = x.phase →
    p.writeCounter = x.data.writeCounter
  increasing : x.printed.Pairwise fun p q => p.writeCounter ≤ q.writeCounter
  same : x.printed.Pairwise fun p q => p.phase = q.phase → p.writeCounter = q.writeCounter

/-- The writer holds the lock. -/
def WriterPc.Inside : WriterPc → Prop
  | .ifTest | .store | .count | .unlock | .setReadFinished | .unlockLast => True
  | _ => False

/-- The statement writes a protected variable. -/
def WriterPc.Writes : WriterPc → Prop
  | .store | .count | .setReadFinished => True
  | _ => False

/-- The reader holds the lock. -/
def ReaderPc.Inside : ReaderPc → Prop
  | .rdlock | .finished => False
  | _ => True

/-- The reader has left its loop. -/
def ReaderPc.Left : ReaderPc → Prop
  | .unlockLast | .finished => True
  | _ => False

theorem WriterPc.Writes.inside {pc : WriterPc} (h : pc.Writes) : pc.Inside := by
  cases pc with
  | store | count | setReadFinished => trivial
  | _ => exact h.elim

/-- What the writer asserts at each statement. -/
def WriterAt (n : Nat) (d : Data) : WriterPc → Prop
  | .store => d.readFinished = false ∧ d.writeCounter < n
  | .count => d.readFinished = false ∧ d.writeCounter < n ∧
      d.sharedArray[d.writeCounter]? = some (letter d.writeCounter)
  | .wrlockLast | .setReadFinished => d.readFinished = false ∧ d.writeCounter = n
  | .unlockLast | .finished => d.readFinished = true
  | _ => d.readFinished = false

/-- What the reader `i` asserts at each statement. -/
def ReaderAt (c : Config ι) (i : ι) (d : Data) : ReaderPc → Prop
  | .cells k buffer pos => Fits c i → k ≤ c.arraySize ∧
      buffer = heading c i ++ shownPrefix c.arraySize d.writeCounter k ∧ pos = buffer.length
  | .print buffer => Fits c i → buffer = lineOf c i d.writeCounter
  | .unlockLast | .finished => d.readFinished = true
  | _ => True

/-- The thread knows whether it holds the lock, and what it asserts. -/
def Assert (c : Config ι) : (t : Thread ι) → Shared ι → Pc t → Prop
  | .writer, x, pc => (x.wrlocked = true ↔ pc.Inside) ∧ WriterAt c.arraySize x.data pc
  | .reader i, x, pc => (i ∈ x.rdlocked ↔ pc.Inside) ∧ ReaderAt c i x.data pc

/-- The writer leaves the protected variables alone while a reader holds the lock,
and the readers do at any time. -/
def Guarantee : Thread ι → Shared ι → Shared ι → Prop
  | .writer, x, x' => x'.rdlocked = x.rdlocked ∧ (x.rdlocked.Nonempty → x'.data = x.data) ∧
      (x.data.readFinished = true → x'.data.readFinished = true)
  | .reader i, x, x' => x'.wrlocked = x.wrlocked ∧ x'.data = x.data ∧
      ∀ j ≠ i, (j ∈ x'.rdlocked ↔ j ∈ x.rdlocked)

theorem Assert.stable {t u : Thread ι} {pc : Pc u} (hu : u ≠ t) (hguar : Guarantee t x x')
    (h : Assert c u x pc) : Assert c u x' pc := by
  cases t with
  | reader i =>
    obtain ⟨hlock, hdata, hothers⟩ := hguar
    cases u with
    | writer => exact ⟨hlock ▸ h.1, hdata ▸ h.2⟩
    | reader j =>
      have hj : j ≠ i := fun hji => hu (congrArg Thread.reader hji)
      exact ⟨(hothers j hj).trans h.1, hdata ▸ h.2⟩
  | writer =>
    obtain ⟨hlock, hdata, hfinished⟩ := hguar
    cases u with
    | writer => exact absurd rfl hu
    | reader j =>
      refine ⟨hlock ▸ h.1, ?_⟩
      by_cases hin : j ∈ x.rdlocked
      · rw [hdata ⟨j, hin⟩]
        exact h.2
      · -- a reader outside only knows of the flag
        have hpc : ¬ ReaderPc.Inside pc := fun hp => hin (h.1.mpr hp)
        cases pc with
        | rdlock => trivial
        | finished => exact hfinished h.2
        | _ => exact absurd trivial hpc

-- ---------------------------------------------------------------------------
-- Statements of the writer
-- ---------------------------------------------------------------------------

/-- `shared_array[write_counter] = 'A' + write_counter`. -/
theorem Consistent.store (h : Consistent n d) (hlt : d.writeCounter < n) :
    Consistent n { d with sharedArray := d.sharedArray.set d.writeCounter (letter d.writeCounter) } ∧
      (d.sharedArray.set d.writeCounter (letter d.writeCounter))[d.writeCounter]? =
        some (letter d.writeCounter) := by
  refine ⟨⟨?_, h.count_le, ?_, h.complete⟩, ?_⟩
  · rw [List.length_set, h.size]
  · intro k hk
    rw [List.getElem?_set_ne (Nat.ne_of_gt hk), h.written k hk]
  · exact List.getElem?_set_self (by rwa [h.size])

/-- `write_counter++`. -/
theorem Consistent.count (h : Consistent n d) (hlt : d.writeCounter < n)
    (hfinished : d.readFinished = false)
    (hnew : d.sharedArray[d.writeCounter]? = some (letter d.writeCounter)) :
    Consistent n { d with writeCounter := d.writeCounter + 1 } := by
  refine ⟨h.size, hlt, ?_, ?_⟩
  · intro k hk
    rcases Nat.lt_succ_iff_lt_or_eq.mp hk with hk | rfl
    · exact h.written k hk
    · exact hnew
  · intro hf
    cases hfinished.symm.trans hf

/-- `read_finished = 1`. -/
theorem Consistent.setReadFinished (h : Consistent n d) (hcount : d.writeCounter = n) :
    Consistent n { d with readFinished := true } :=
  ⟨h.size, h.count_le, h.written, fun _ => hcount⟩

theorem Consistent.sharedArray_eq (h : Consistent n d) (hcount : d.writeCounter = n) :
    d.sharedArray = (List.range n).map letter := by
  apply List.ext_getElem?
  intro k
  by_cases hk : k < n
  · rw [h.written k (by omega), List.getElem?_map, List.getElem?_range hk, Option.map_some]
  · rw [List.getElem?_eq_none (by rw [h.size]; omega), List.getElem?_eq_none (by simpa using hk)]

/-- The writer works under the lock. -/
theorem Global.withData (h : Global c x) (hlock : x.wrlocked = true)
    (hd : Consistent c.arraySize d) (hcount : x.data.writeCounter ≤ d.writeCounter) :
    Global c (x.withData d) where
  data := hd
  excl := h.excl
  lines p hp := ⟨(h.lines p hp).1, (h.lines p hp).2.1.trans hcount, (h.lines p hp).2.2⟩
  current hne := absurd (h.excl hlock) hne.ne_empty
  increasing := h.increasing
  same := h.same

theorem Guarantee.withData (h : Global c x) (hlock : x.wrlocked = true)
    (hfinished : x.data.readFinished = true → d.readFinished = true) :
    Guarantee .writer x (x.withData d) :=
  ⟨rfl, fun hne => absurd (h.excl hlock) hne.ne_empty, hfinished⟩

theorem Global.wrunlock (h : Global c x) : Global c x.wrunlock :=
  ⟨h.data, nofun, h.lines, h.current, h.increasing, h.same⟩

/-- A step of the writer that is no write. -/
theorem Guarantee.of_data (hrd : x'.rdlocked = x.rdlocked) (hdata : x'.data = x.data) :
    Guarantee .writer x x' := ⟨hrd, fun _ => hdata, fun hf => hdata ▸ hf⟩

section Threads

variable [DecidableEq ι]

theorem wrlock_eq_some (h : x.wrlock = some x') :
    x.wrlocked = false ∧ x.rdlocked = ∅ ∧ x' = { x with wrlocked := true } := by
  unfold Shared.wrlock at h
  split at h
  · next hfree => exact ⟨hfree.1, hfree.2, (Option.some.inj h).symm⟩
  · cases h

/-- The other statements of the writer leave the protected variables as they are. -/
theorem writes_or_data_eq {pc pc' : WriterPc} (h : writerNext c x pc = some (x', pc')) :
    pc.Writes ∨ x'.data = x.data := by
  cases pc with
  | store | count | setReadFinished => exact .inl trivial
  | wrlock | wrlockLast =>
    obtain ⟨x₁, hacq, heq⟩ := Option.map_eq_some_iff.mp h
    obtain ⟨rfl, rfl⟩ := Prod.mk.inj heq
    obtain ⟨-, -, rfl⟩ := wrlock_eq_some hacq
    exact .inr rfl
  | finished => cases h
  | _ =>
    obtain ⟨rfl, rfl⟩ := Prod.mk.inj (Option.some.inj h)
    exact .inr rfl

theorem Global.wrlock (h : Global c x) (hlock : x.wrlock = some x') : Global c x' := by
  obtain ⟨-, hrd, rfl⟩ := wrlock_eq_some hlock
  exact ⟨h.data, fun _ => hrd, h.lines, h.current, h.increasing, h.same⟩

theorem writer_own {pc pc' : WriterPc} (hG : Global c x) (hA : Assert c .writer x pc)
    (h : writerNext c x pc = some (x', pc')) :
    Global c x' ∧ Assert c .writer x' pc' ∧ Guarantee .writer x x' := by
  obtain ⟨hlock, hat⟩ := hA
  cases pc with
  | whileTest =>
    obtain ⟨rfl, rfl⟩ := Prod.mk.inj (Option.some.inj h)
    refine ⟨hG, ⟨hlock.trans ?_, ?_⟩, .of_data rfl rfl⟩
    · split <;> exact Iff.rfl
    · split
      · exact hat
      · next hge => exact ⟨hat, le_antisymm hG.data.count_le (Nat.le_of_not_lt hge)⟩
  | wrlock | wrlockLast =>
    obtain ⟨x₁, hacq, heq⟩ := Option.map_eq_some_iff.mp h
    obtain ⟨rfl, rfl⟩ := Prod.mk.inj heq
    have hglobal := hG.wrlock hacq
    obtain ⟨-, -, rfl⟩ := wrlock_eq_some hacq
    exact ⟨hglobal, ⟨iff_of_true rfl trivial, hat⟩, .of_data rfl rfl⟩
  | ifTest =>
    obtain ⟨rfl, rfl⟩ := Prod.mk.inj (Option.some.inj h)
    refine ⟨hG, ⟨hlock.trans ?_, ?_⟩, .of_data rfl rfl⟩
    · split <;> exact Iff.rfl
    · split
      · next hlt => exact ⟨hat, hlt⟩
      · exact hat
  | store =>
    obtain ⟨rfl, rfl⟩ := Prod.mk.inj (Option.some.inj h)
    have hl := hlock.mpr trivial
    obtain ⟨hdata, hnew⟩ := hG.data.store hat.2
    exact ⟨hG.withData hl hdata le_rfl, ⟨hlock, hat.1, hat.2, hnew⟩, .withData hG hl id⟩
  | count =>
    obtain ⟨rfl, rfl⟩ := Prod.mk.inj (Option.some.inj h)
    have hl := hlock.mpr trivial
    exact ⟨hG.withData hl (hG.data.count hat.2.1 hat.1 hat.2.2) (Nat.le_succ _), ⟨hlock, hat.1⟩,
      .withData hG hl id⟩
  | unlock | unlockLast =>
    obtain ⟨rfl, rfl⟩ := Prod.mk.inj (Option.some.inj h)
    exact ⟨hG.wrunlock, ⟨iff_of_false nofun id, hat⟩, .of_data rfl rfl⟩
  | setReadFinished =>
    obtain ⟨rfl, rfl⟩ := Prod.mk.inj (Option.some.inj h)
    have hl := hlock.mpr trivial
    exact ⟨hG.withData hl (hG.data.setReadFinished hat.2) le_rfl, ⟨hlock, rfl⟩,
      .withData hG hl fun _ => rfl⟩
  | finished => cases h

-- ---------------------------------------------------------------------------
-- Statements of the readers
-- ---------------------------------------------------------------------------

omit [DecidableEq ι] in
theorem Global.shownElement_eq (h : Global c x) (k : Nat) :
    shownElement x k = if k < x.data.writeCounter then letter k else blank := by
  unfold shownElement
  split
  · next hk => rw [List.getD_eq_getElem?_getD, h.data.written k hk, Option.getD_some]
  · rfl

omit [DecidableEq ι] in
/-- What the calls of `snprintf` have appended to a line that fits. -/
theorem length_line_lt (hfits : Fits c i) (hk : k ≤ c.arraySize) :
    (heading c i ++ shownPrefix c.arraySize w k ++ ascii "]\n").length < bufferSize := by
  have hlen := length_shownPrefix_le (w := w) hk
  have htail : (ascii "]\n").length = 2 := by decide
  unfold Fits at hfits
  rw [List.length_append, List.length_append, htail]
  omega

theorem rdlock_eq_some (h : x.rdlock i = some x') :
    x.wrlocked = false ∧ x' = { x with
      rdlocked := insert i x.rdlocked
      phase := if x.rdlocked = ∅ then x.phase + 1 else x.phase } := by
  unfold Shared.rdlock at h
  split at h
  · next hfree => exact ⟨hfree, (Option.some.inj h).symm⟩
  · cases h

/-- A read phase goes on, or a new one begins in which nothing was printed yet. -/
theorem Global.rdlock (h : Global c x) (hlock : x.rdlock i = some x') : Global c x' := by
  obtain ⟨hfree, rfl⟩ := rdlock_eq_some hlock
  refine ⟨h.data, fun hw => ?_, fun p hp => ?_, fun _ p hp hphase => ?_, h.increasing,
    h.same⟩
  · cases hfree.symm.trans hw
  · obtain ⟨hline, hcount, hle⟩ := h.lines p hp
    refine ⟨hline, hcount, hle.trans ?_⟩
    dsimp only
    split <;> omega
  · have hle := (h.lines p hp).2.2
    by_cases hempty : x.rdlocked = ∅
    · simp only [if_pos hempty] at hphase
      omega
    · simp only [if_neg hempty] at hphase
      exact h.current (Finset.nonempty_iff_ne_empty.mpr hempty) p hp hphase

theorem Global.rdunlock (h : Global c x) (i : ι) : Global c (x.rdunlock i) where
  data := h.data
  excl hw := by
    show x.rdlocked.erase i = ∅
    rw [h.excl hw, Finset.erase_empty]
  lines := h.lines
  current hne := h.current (hne.mono (Finset.erase_subset ..))
  increasing := h.increasing
  same := h.same

omit [DecidableEq ι] in
/-- The line of a reader shows all elements written. -/
theorem Global.print (h : Global c x) (hin : i ∈ x.rdlocked) {line : Bytes}
    (hline : Fits c i → line = lineOf c i x.data.writeCounter) :
    Global c { x with printed := x.printed ++ [⟨i, x.phase, x.data.writeCounter, line⟩] } := by
  refine ⟨h.data, h.excl, ?_, ?_, ?_, ?_⟩
  · intro p hp
    rcases List.mem_append.mp hp with hp | hp
    · exact h.lines p hp
    · rw [List.mem_singleton.mp hp]
      exact ⟨hline, le_rfl, le_rfl⟩
  · intro _ p hp hphase
    rcases List.mem_append.mp hp with hp | hp
    · exact h.current ⟨i, hin⟩ p hp hphase
    · rw [List.mem_singleton.mp hp]
  · refine List.pairwise_append.mpr ⟨h.increasing, List.pairwise_singleton .., fun p hp q hq => ?_⟩
    rw [List.mem_singleton.mp hq]
    exact (h.lines p hp).2.1
  · refine List.pairwise_append.mpr ⟨h.same, List.pairwise_singleton .., fun p hp q hq hphase => ?_⟩
    rw [List.mem_singleton.mp hq] at hphase ⊢
    exact h.current ⟨i, hin⟩ p hp hphase

omit [DecidableEq ι] in
/-- A step of the reader `i` that leaves the lock as it is. -/
theorem Guarantee.of_locks (hw : x'.wrlocked = x.wrlocked) (hdata : x'.data = x.data)
    (hr : x'.rdlocked = x.rdlocked) : Guarantee (.reader i) x x' :=
  ⟨hw, hdata, fun _ _ => by rw [hr]⟩

theorem Guarantee.rdunlock : Guarantee (.reader i) x (x.rdunlock i) :=
  ⟨rfl, rfl, fun _ hj => Finset.mem_erase.trans (and_iff_right hj)⟩

theorem reader_own {pc pc' : ReaderPc} (hG : Global c x) (hA : Assert c (.reader i) x pc)
    (h : readerNext c i x pc = some (x', pc')) :
    Global c x' ∧ Assert c (.reader i) x' pc' ∧ Guarantee (.reader i) x x' := by
  obtain ⟨hlock, hat⟩ := hA
  cases pc with
  | rdlock =>
    obtain ⟨x₁, hacq, heq⟩ := Option.map_eq_some_iff.mp h
    obtain ⟨rfl, rfl⟩ := Prod.mk.inj heq
    have hglobal := hG.rdlock hacq
    obtain ⟨-, rfl⟩ := rdlock_eq_some hacq
    refine ⟨hglobal, ⟨iff_of_true (Finset.mem_insert_self ..) trivial, trivial⟩, rfl, rfl, ?_⟩
    exact fun j hj => Finset.mem_insert.trans (or_iff_right hj)
  | ifTest =>
    obtain ⟨rfl, rfl⟩ := Prod.mk.inj (Option.some.inj h)
    refine ⟨hG, ⟨hlock.trans ?_, ?_⟩, .of_locks rfl rfl rfl⟩
    · split <;> exact Iff.rfl
    · split
      · next hf => exact hf
      · trivial
  | heading =>
    rw [readerNext] at h
    obtain ⟨⟨buffer, pos⟩, hs, heq⟩ := Option.bind_eq_some_iff.mp h
    obtain ⟨rfl, rfl⟩ := Prod.mk.inj (Option.some.inj heq)
    refine ⟨hG, ⟨hlock, fun hfits => ⟨Nat.zero_le _, ?_⟩⟩, .of_locks rfl rfl rfl⟩
    have hlen : ([] ++ heading c i).length < bufferSize := by
      unfold Fits at hfits
      rw [List.nil_append]
      omega
    obtain ⟨rfl, rfl⟩ := Prod.mk.inj (Option.some.inj ((snprintf_fits hlen).symm.trans hs))
    exact ⟨(List.append_nil _).symm, rfl⟩
  | cells k buffer pos =>
    rw [readerNext] at h
    split at h
    · next hk =>
      obtain ⟨⟨buffer', pos'⟩, hs, heq⟩ := Option.bind_eq_some_iff.mp h
      obtain ⟨rfl, rfl⟩ := Prod.mk.inj (Option.some.inj heq)
      refine ⟨hG, ⟨hlock, fun hfits => ⟨hk, ?_⟩⟩, .of_locks rfl rfl rfl⟩
      obtain ⟨-, rfl, rfl⟩ := hat hfits
      have hlen := length_line_lt (w := x.data.writeCounter) hfits (Nat.succ_le_of_lt hk)
      rw [shownPrefix_succ, ← List.append_assoc, List.length_append] at hlen
      have happend := appendCell_fits (hG.shownElement_eq k)
        (Nat.lt_of_le_of_lt (Nat.le_add_right ..) hlen)
      obtain ⟨rfl, rfl⟩ := Prod.mk.inj (Option.some.inj (happend.symm.trans hs))
      rw [shownPrefix_succ, ← List.append_assoc]
      exact ⟨rfl, rfl⟩
    · next hk =>
      obtain ⟨⟨buffer', pos'⟩, hs, heq⟩ := Option.bind_eq_some_iff.mp h
      obtain ⟨rfl, rfl⟩ := Prod.mk.inj (Option.some.inj heq)
      refine ⟨hG, ⟨hlock, fun hfits => ?_⟩, .of_locks rfl rfl rfl⟩
      obtain ⟨hle, rfl, rfl⟩ := hat hfits
      have hlast := snprintf_fits (length_line_lt (w := x.data.writeCounter) hfits hle)
      obtain ⟨rfl, -⟩ := Prod.mk.inj (Option.some.inj (hlast.symm.trans hs))
      rw [lineOf, ← shownPrefix_eq hG.data.count_le, le_antisymm hle (Nat.le_of_not_lt hk)]
  | print buffer =>
    obtain ⟨rfl, rfl⟩ := Prod.mk.inj (Option.some.inj h)
    refine ⟨hG.print (hlock.mpr trivial) fun hfits => ?_, ⟨hlock, trivial⟩, .of_locks rfl rfl rfl⟩
    rw [hat hfits, ofBytes_lineOf hfits hG.data.count_le]
  | unlock =>
    obtain ⟨rfl, rfl⟩ := Prod.mk.inj (Option.some.inj h)
    exact ⟨hG.rdunlock i, ⟨iff_of_false (Finset.notMem_erase i x.rdlocked) id, trivial⟩, .rdunlock⟩
  | unlockLast =>
    obtain ⟨rfl, rfl⟩ := Prod.mk.inj (Option.some.inj h)
    exact ⟨hG.rdunlock i, ⟨iff_of_false (Finset.notMem_erase i x.rdlocked) id, hat⟩, .rdunlock⟩
  | finished => cases h

/-- The outline of the threads. -/
def outline (c : Config ι) : Team.Outline (A := Thread ι) id (next c) where
  Allowed _ _ _ := True
  Global := Global c
  Assert := Assert c
  Guarantee := Guarantee
  own t x pc x' pc' hG hA _ h := by
    cases t with
    | writer => exact writer_own hG hA h
    | reader i => exact reader_own hG hA h
  stable t u x x' pc hu _ hguar hA := hA.stable hu hguar

theorem outline_start : (outline c).Holds (start c : State ι) where
  global :=
    { data := ⟨List.length_replicate, Nat.zero_le _, nofun, nofun⟩
      excl := nofun
      lines := nofun
      current := nofun
      increasing := .nil
      same := .nil }
  assert t := by
    cases t with
    | writer => exact ⟨iff_of_false nofun id, rfl⟩
    | reader i => exact ⟨iff_of_false (Finset.notMem_empty i) id, trivial⟩

-- ---------------------------------------------------------------------------
-- The snapshots
-- ---------------------------------------------------------------------------

/-- The lines of the reader `i`. -/
def linesOf (i : ι) (printed : List (Print ι)) : List (Print ι) := printed.filter (·.reader = i)

omit [DecidableEq ι] in
/-- The array holds all its elements. -/
def Complete (c : Config ι) (d : Data) : Prop :=
  d.writeCounter = c.arraySize ∧ d.sharedArray = (List.range c.arraySize).map letter

/-- The readers see consistent snapshots, and `read_finished` is truthful. -/
structure Snapshots (c : Config ι) (s : State ι) : Prop where
  holders : ∀ i, i ∈ s.shared.rdlocked ↔ (s.locals (.reader i)).Inside
  writes : ∀ t s', step c t s = some s' → s'.shared.data ≠ s.shared.data →
    t = .writer ∧ (s.locals .writer).Writes
  no_write : (s.locals .writer).Writes → s.shared.rdlocked = ∅
  lines : ∀ p ∈ s.shared.printed, p.writeCounter ≤ c.arraySize ∧
    (Fits c p.reader → p.line = lineOf c p.reader p.writeCounter)
  increasing : ∀ i, (linesOf i s.shared.printed).Pairwise fun p q => p.writeCounter ≤ q.writeCounter
  same_phase : s.shared.printed.Pairwise fun p q =>
    p.phase = q.phase → p.writeCounter = q.writeCounter
  finished : s.shared.data.readFinished = true → Complete c s.shared.data
  left : ∀ i, (s.locals (.reader i)).Left → Complete c s.shared.data
  joined : s.locals .writer = .finished → Complete c s.shared.data

omit [DecidableEq ι] in
theorem readFinished_of_left {pc : ReaderPc} (h : Assert c (.reader i) x pc) (hpc : pc.Left) :
    x.data.readFinished = true := by
  cases pc with
  | unlockLast | finished => exact h.2
  | _ => exact hpc.elim

/-- **The snapshots are consistent**, in any interleaving. -/
theorem snapshots_consistent {s : State ι} (h : Reaches (step c) (start c) s) :
    Snapshots c s := by
  have hs : (outline c).Holds s := Team.Outline.holds_of_reaches h outline_start fun _ _ _ => trivial
  have hG : Global c s.shared := hs.global
  have hA : ∀ t, Assert c t s.shared (s.locals t) := hs.assert
  have hcomplete : s.shared.data.readFinished = true → Complete c s.shared.data := fun hf =>
    ⟨hG.data.complete hf, hG.data.sharedArray_eq (hG.data.complete hf)⟩
  refine ⟨fun i => (hA (.reader i)).1, fun t s' hstep hne => ?_,
    fun hw => hG.excl ((hA .writer).1.mpr hw.inside), fun p hp => ?_,
    fun i => hG.increasing.filter _, hG.same, hcomplete,
    fun i hpc => hcomplete (readFinished_of_left (hA (.reader i)) hpc), fun hpc => hcomplete ?_⟩
  · obtain ⟨l', hnext, -⟩ := Team.step_eq_some hstep
    cases t with
    | writer => exact ⟨rfl, (writes_or_data_eq hnext).resolve_right hne⟩
    | reader i => exact absurd (reader_own hG (hA (.reader i)) hnext).2.2.2.1 hne
  · obtain ⟨hline, hcount, -⟩ := hG.lines p hp
    exact ⟨hcount.trans hG.data.count_le, hline⟩
  · have hwriter := (hA .writer).2
    rw [hpc] at hwriter
    exact hwriter

end Threads

/-- One reader, numbered 1, with a thread id of twelve hexadecimal digits. -/
def oneReader (arraySize : Nat) : Config (Fin 1) := ⟨arraySize, fun _ => 1, fun _ => 0x7f0000000000⟩

/-- The writer writes the first of two elements, the reader `i` shows it, the writer
writes the second one and sets the flag, and the reader leaves. -/
def showAndLeave (i : ι) : List (Thread ι) :=
  List.replicate 6 .writer ++ List.replicate 8 (.reader i) ++ List.replicate 10 .writer ++
    List.replicate 3 (.reader i)

theorem two_elements_snapshot : ∃ s : State (Fin 1), s.locals (.reader 0) = .finished ∧
    s.shared.printed.map Print.line = [ascii "Reader 1 (TID: 7f0000000000): Array = [A _]\n"] ∧
    Snapshots (oneReader 2) s := by
  have hrun : (steps (step (oneReader 2)) (showAndLeave 0) (start (oneReader 2))).map (fun s =>
      (s.locals (.reader 0), s.shared.printed.map Print.line)) =
      some (.finished, [ascii "Reader 1 (TID: 7f0000000000): Array = [A _]\n"]) := by decide +kernel
  obtain ⟨s, hs, hobs⟩ := exists_reaches_of_map hrun
  obtain ⟨hpc, hlines⟩ := Prod.mk.inj hobs
  exact ⟨s, hpc, hlines, snapshots_consistent hs⟩

/-- The line of an array of 109 elements is cut off in the buffer: it shows no
prefix of the array followed by blanks. -/
theorem line_cut_off : ∃ s : State (Fin 1),
    Reaches (step (oneReader 109)) (start (oneReader 109)) s ∧
      ∃ p ∈ s.shared.printed, ∀ w ≤ 109, p.line ≠ lineOf (oneReader 109) p.reader w := by
  have hrun : (steps (step (oneReader 109)) (List.replicate 114 (.reader 0))
      (start (oneReader 109))).map (fun s => s.shared.printed.map fun p => p.line.length) =
      some [255] := by decide +kernel
  obtain ⟨s, hs, hlen⟩ := exists_reaches_of_map hrun
  obtain ⟨p, hp, hlast⟩ := List.map_eq_singleton_iff.mp hlen
  refine ⟨s, hs, p, by rw [hp]; exact List.mem_singleton_self p, fun w hw hline => ?_⟩
  have hreader : p.reader = 0 := Subsingleton.elim ..
  have hheading : (heading (oneReader 109) 0).length = 39 := by decide +kernel
  have hfull : p.line.length = 258 := by rw [hline, length_lineOf hw, hreader, hheading]; rfl
  exact absurd (hfull.symm.trans hlast) (by decide)

end LabsOS.Rwlock
