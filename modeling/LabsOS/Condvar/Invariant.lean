import LabsOS.Condvar.Condvar

/-!
# The invariant of the writer and the readers

What holds of the shared data while the mutex is free (`Unlocked`) and at each
statement of the thread that holds it (`WriterAt`, `ReaderAt`), what the writer
knows of the variables that only it writes (`WriterKnows`), and that no reader
sleeps through the broadcast. Together they hold in every reachable state
(`inv_of_reaches`).
-/

namespace LabsOS.Condvar

variable {ι : Type} {n : Nat} {s s' : State ι} {x : Shared ι} {i j : ι}

-- ---------------------------------------------------------------------------
-- Critical sections
-- ---------------------------------------------------------------------------

/-- The writer holds the mutex. -/
def WriterPc.Inside : WriterPc → Prop
  | .whileTest | .lock | .lockLast | .finished => False
  | _ => True

/-- The reader holds the mutex. -/
def ReaderPc.Inside : ReaderPc → Prop
  | .lock | .asleep | .woken | .finished => False
  | _ => True

def State.Inside (s : State ι) : Thread ι → Prop
  | .writer => s.writer.Inside
  | .reader i => (s.readers i).Inside

/-- The writer has made its broadcast. -/
def WriterPc.PastBroadcast (pc : WriterPc) : Prop := pc = .unlockLast ∨ pc = .finished

theorem ReaderPc.ne_asleep_of_inside {pc : ReaderPc} (h : pc.Inside) : pc ≠ .asleep := by
  rintro rfl
  exact h

-- ---------------------------------------------------------------------------
-- Assertions
-- ---------------------------------------------------------------------------

/-- What one round of the printing loop prints where `w` elements are written. -/
def shownCell (n w k : Nat) : Bytes :=
  (if k < w then letter k else blank) :: (if k + 1 < n then [space] else [])

/-- The first `k` cells of an array of which `w` elements are written. -/
def shownPrefix (n w k : Nat) : Bytes := (List.range k).flatMap (shownCell n w)

/-- What holds at any time of the shared data while its holder does not write. -/
structure Protected (n : Nat) (x : Shared ι) : Prop where
  size : x.sharedArray.length = n
  count_le : x.writeCounter ≤ n
  written : ∀ k < x.writeCounter, x.sharedArray[k]? = some (letter k)
  complete : x.allWritten = true → x.writeCounter = n
  lines : ∀ p ∈ x.printed, p.line = shownPrefix n p.writeCounter n ∧
    1 ≤ p.writeCounter ∧ p.writeCounter ≤ x.writeCounter
  increasing : x.printed.Pairwise fun p q => p.writeCounter < q.writeCounter

/-- There is an element that no line has shown. -/
structure Fresh (x : Shared ι) : Prop where
  pos : 1 ≤ x.writeCounter
  new : ∀ p ∈ x.printed, p.writeCounter < x.writeCounter

/-- What holds of the shared data while the mutex is free. -/
structure Unlocked (n : Nat) (x : Shared ι) : Prop extends Protected n x where
  fresh : x.dataAvailable = true → x.allWritten = false → Fresh x

/-- What the writer asserts at each statement of its critical sections. -/
def WriterAt (n : Nat) (x : Shared ι) : WriterPc → Prop
  | .count => Unlocked n x ∧ x.sharedArray[x.writeCounter]? = some (letter x.writeCounter)
  | .setDataAvailable => Unlocked n x ∧ Fresh x
  | _ => Unlocked n x

/-- What a reader asserts at each statement of its critical sections. -/
def ReaderAt (n : Nat) (x : Shared ι) : ReaderPc → Prop
  | .wait => Unlocked n x ∧ x.allWritten = false
  | .ifTest => Unlocked n x ∧ (x.dataAvailable = true ∨ x.allWritten = true)
  | .print k line =>
    Protected n x ∧ Fresh x ∧ k ≤ n ∧ line = shownPrefix n x.writeCounter k
  | .clearDataAvailable => Protected n x
  | _ => Unlocked n x

def State.Asserts (n : Nat) (s : State ι) : Thread ι → Shared ι → Prop
  | .writer, x => WriterAt n x s.writer
  | .reader i, x => ReaderAt n x (s.readers i)

/-- What the writer knows of the variables that only it writes. -/
def WriterKnows (n : Nat) (x : Shared ι) : WriterPc → Prop
  | .whileTest | .setDataAvailable | .signal | .unlock =>
    x.allWritten = false ∧ x.writeCounter ≤ n
  | .lock | .store | .count => x.allWritten = false ∧ x.writeCounter < n
  | .lockLast | .setAllWritten => x.allWritten = false ∧ x.writeCounter = n
  | _ => x.allWritten = true

/-- The invariant. -/
structure Inv (n : Nat) (s : State ι) : Prop where
  guards : Guards s.mutex s.Inside (Unlocked n) (s.Asserts n) s.shared
  knows : WriterKnows n s.shared s.writer
  awake : s.writer.PastBroadcast → ∀ i, s.readers i ≠ .asleep

theorem WriterAt.protected_shared {pc : WriterPc} (h : WriterAt n x pc) : Protected n x := by
  cases pc with
  | count | setDataAvailable => exact h.1.toProtected
  | _ => exact Unlocked.toProtected h

theorem ReaderAt.protected_shared {pc : ReaderPc} (h : ReaderAt n x pc) : Protected n x := by
  cases pc with
  | wait | ifTest => exact h.1.toProtected
  | print => exact h.1
  | clearDataAvailable => exact h
  | _ => exact Unlocked.toProtected h

/-- The shared data is in order whoever holds the mutex. -/
theorem Inv.protected_shared (h : Inv n s) : Protected n s.shared := by
  cases hm : s.mutex with
  | none => exact (h.guards.free hm).toProtected
  | some t =>
    have hA := h.guards.held t hm
    cases t with
    | writer => exact WriterAt.protected_shared hA
    | reader i => exact ReaderAt.protected_shared hA

theorem inv_start : Inv n (start n : State ι) where
  guards :=
    { excl := by rintro (_ | i) <;> exact ⟨False.elim, nofun⟩
      free := fun _ =>
        { size := List.length_replicate
          count_le := Nat.zero_le n
          written := nofun
          complete := nofun
          lines := nofun
          increasing := .nil
          fresh := nofun }
      held := nofun }
  knows := ⟨rfl, Nat.zero_le n⟩
  awake := nofun

-- ---------------------------------------------------------------------------
-- Statements on the shared data
-- ---------------------------------------------------------------------------

section Data

variable {k : Nat} {line : Bytes}

theorem shownPrefix_succ (n w k : Nat) :
    shownPrefix n w (k + 1) = shownPrefix n w k ++ shownCell n w k := by
  simp [shownPrefix, List.range_succ]

theorem Protected.cell_eq (h : Protected n x) (k : Nat) :
    cell n x k = shownCell n x.writeCounter k := by
  unfold cell shownCell
  split
  · next hk => rw [List.getD_eq_getElem?_getD, h.written k hk, Option.getD_some]
  · rfl

theorem Fresh.congr {x' : Shared ι} (h : Fresh x) (hcount : x'.writeCounter = x.writeCounter)
    (hprinted : x'.printed = x.printed) : Fresh x' :=
  ⟨hcount ▸ h.pos, by rw [hprinted, hcount]; exact h.new⟩

/-- `shared_array[write_counter] = 'A' + write_counter`. -/
theorem Unlocked.store (h : Unlocked n x) (hlt : x.writeCounter < n) :
    Unlocked n { x with sharedArray := x.sharedArray.set x.writeCounter (letter x.writeCounter) } ∧
      (x.sharedArray.set x.writeCounter (letter x.writeCounter))[x.writeCounter]? =
        some (letter x.writeCounter) := by
  refine ⟨⟨⟨?_, h.count_le, fun k hk => ?_, h.complete, h.lines, h.increasing⟩,
    fun hd ha => (h.fresh hd ha).congr rfl rfl⟩, ?_⟩
  · rw [List.length_set, h.size]
  · rw [List.getElem?_set_ne (Nat.ne_of_gt hk), h.written k hk]
  · exact List.getElem?_set_self (by rwa [h.size])

/-- `write_counter++`: the element just written is one that no line has shown. -/
theorem Unlocked.count (h : Unlocked n x) (hlt : x.writeCounter < n) (hall : x.allWritten = false)
    (hnew : x.sharedArray[x.writeCounter]? = some (letter x.writeCounter)) :
    Unlocked n { x with writeCounter := x.writeCounter + 1 } ∧
      Fresh { x with writeCounter := x.writeCounter + 1 } := by
  have hfresh : Fresh { x with writeCounter := x.writeCounter + 1 } :=
    ⟨Nat.le_add_left .., fun p hp => Nat.lt_succ_of_le (h.lines p hp).2.2⟩
  refine ⟨⟨⟨h.size, hlt, fun k hk => ?_, fun ha => ?_, fun p hp => ?_, h.increasing⟩,
    fun _ _ => hfresh⟩, hfresh⟩
  · rcases Nat.lt_succ_iff_lt_or_eq.mp hk with hk | rfl
    · exact h.written k hk
    · exact hnew
  · cases hall.symm.trans ha
  · obtain ⟨hline, hpos, hle⟩ := h.lines p hp
    exact ⟨hline, hpos, Nat.le_succ_of_le hle⟩

/-- `data_available = 1`. -/
theorem Unlocked.setDataAvailable (h : Unlocked n x) (hfresh : x.allWritten = false → Fresh x) :
    Unlocked n { x with dataAvailable := true } :=
  ⟨⟨h.size, h.count_le, h.written, h.complete, h.lines, h.increasing⟩,
    fun _ ha => (hfresh ha).congr rfl rfl⟩

/-- `all_written = 1`. -/
theorem Unlocked.setAllWritten (h : Unlocked n x) (hcount : x.writeCounter = n) :
    Unlocked n { x with allWritten := true } :=
  ⟨⟨h.size, h.count_le, h.written, fun _ => hcount, h.lines, h.increasing⟩, nofun⟩

/-- The line of a reader shows more than all lines before it. -/
theorem Protected.print (h : Protected n x) (hfresh : Fresh x) (i : ι)
    (hline : line = shownPrefix n x.writeCounter n) :
    Protected n { x with printed := x.printed ++ [⟨i, x.writeCounter, line⟩] } := by
  refine ⟨h.size, h.count_le, h.written, h.complete, ?_, ?_⟩
  · intro p hp
    rcases List.mem_append.mp hp with hp | hp
    · exact h.lines p hp
    · rw [List.mem_singleton.mp hp]
      exact ⟨hline, hfresh.pos, le_rfl⟩
  · refine List.pairwise_append.mpr ⟨h.increasing, List.pairwise_singleton .., fun p hp q hq => ?_⟩
    rw [List.mem_singleton.mp hq]
    exact hfresh.new p hp

/-- `data_available = 0`. -/
theorem Protected.clearDataAvailable (h : Protected n x) :
    Unlocked n { x with dataAvailable := false } :=
  ⟨⟨h.size, h.count_le, h.written, h.complete, h.lines, h.increasing⟩, nofun⟩

end Data

-- ---------------------------------------------------------------------------
-- Moves of the writer
-- ---------------------------------------------------------------------------

section Moves

namespace Inv

theorem writer_acquire (h : Inv n s) (hfree : s.mutex = none) (pc : WriterPc) (hpc : pc.Inside)
    (hA : Unlocked n s.shared → WriterAt n s.shared pc) (hK : WriterKnows n s.shared pc)
    (hawake : ¬ pc.PastBroadcast) :
    Inv n (State.writerTo pc { s with mutex := some .writer }) where
  guards := by
    have hg := h.guards
    rw [hfree] at hg
    refine hg.acquire (fun u => ?_) hA
    cases u with
    | writer => exact ⟨fun _ => .inl rfl, fun _ => hpc⟩
    | reader i => exact ⟨.inr, fun hu => hu.resolve_left nofun⟩
  knows := hK
  awake hb := absurd hb hawake

theorem writer_work {pc₀ : WriterPc} (h : Inv n s) (hpc₀ : s.writer = pc₀) (hin : pc₀.Inside)
    (x : Shared ι) (pc : WriterPc) (hpc : pc.Inside)
    (hA : WriterAt n s.shared pc₀ → WriterAt n x pc) (hK : WriterKnows n x pc)
    (hawake : pc.PastBroadcast → ∀ i, s.readers i ≠ .asleep) :
    Inv n ((s.withShared x).writerTo pc) where
  guards := by
    subst hpc₀
    refine h.guards.work (t := Thread.writer) hin (fun u => ?_) hA
    cases u with
    | writer => exact ⟨fun _ => hin, fun _ => hpc⟩
    | reader i => exact Iff.rfl
  knows := hK
  awake := hawake

theorem writer_release {pc₀ : WriterPc} (h : Inv n s) (hpc₀ : s.writer = pc₀) (hin : pc₀.Inside)
    (pc : WriterPc) (hpc : ¬ pc.Inside) (hR : WriterAt n s.shared pc₀ → Unlocked n s.shared)
    (hK : WriterKnows n s.shared pc) (hawake : pc.PastBroadcast → pc₀.PastBroadcast) :
    Inv n (s.release.writerTo pc) where
  guards := by
    subst hpc₀
    refine h.guards.release (t := Thread.writer) hin (fun u => ?_) hR
    cases u with
    | writer => exact ⟨fun hu => absurd hu hpc, fun hu => absurd rfl hu.1⟩
    | reader i => exact ⟨fun hu => ⟨nofun, hu⟩, And.right⟩
  knows := hK
  awake hb := h.awake (hpc₀ ▸ hawake hb)

theorem writer_outside {pc₀ : WriterPc} (h : Inv n s) (hpc₀ : s.writer = pc₀) (hout : ¬ pc₀.Inside)
    (pc : WriterPc) (hpc : ¬ pc.Inside) (hK : WriterKnows n s.shared pc)
    (hawake : ¬ pc.PastBroadcast) : Inv n (s.writerTo pc) where
  guards := by
    subst hpc₀
    refine h.guards.outside ?_ ?_
    · intro u
      cases u with
      | writer => exact ⟨fun hu => absurd hu hpc, fun hu => absurd hu hout⟩
      | reader i => exact Iff.rfl
    · intro u hu hA
      cases u with
      | writer => exact absurd hu hout
      | reader i => exact hA
  knows := hK
  awake hb := absurd hb hawake

-- ---------------------------------------------------------------------------
-- Moves of the readers
-- ---------------------------------------------------------------------------

/-- A reader does not write the variables of the writer. -/
theorem knows_congr {pc : WriterPc} (h : WriterKnows n s.shared pc)
    (hcount : x.writeCounter = s.shared.writeCounter) (hall : x.allWritten = s.shared.allWritten) :
    WriterKnows n x pc := by
  cases pc <;> simpa only [WriterKnows, hcount, hall] using h

theorem allWritten_of_pastBroadcast (h : Inv n s) (hb : s.writer.PastBroadcast) :
    s.shared.allWritten = true := by
  have hknows := h.knows
  rcases hb with hb | hb
  · rwa [hb] at hknows
  · rwa [hb] at hknows

variable [DecidableEq ι]

theorem inside_readerTo_self (pc : ReaderPc) :
    (s.readerTo i pc).Inside (.reader i) ↔ pc.Inside := by
  simp [State.Inside, State.readerTo]

theorem inside_readerTo_ne (pc : ReaderPc) {u : Thread ι} (hu : u ≠ .reader i) :
    (s.readerTo i pc).Inside u ↔ s.Inside u := by
  cases u with
  | writer => exact Iff.rfl
  | reader j =>
    have hj : j ≠ i := fun hj => hu (congrArg Thread.reader hj)
    simp [State.Inside, State.readerTo, Function.update_of_ne hj]

theorem asserts_readerTo_self (pc : ReaderPc) :
    (s.readerTo i pc).Asserts n (.reader i) x ↔ ReaderAt n x pc := by
  simp [State.Asserts, State.readerTo]

/-- A reader that moves to a statement other than the sleep stays awake. -/
theorem awake_readerTo (h : ∀ j, s.readers j ≠ .asleep) (i : ι) {pc : ReaderPc}
    (hpc : pc ≠ .asleep) (j : ι) : (s.readerTo i pc).readers j ≠ .asleep := by
  by_cases hj : j = i
  · subst hj
    simpa [State.readerTo] using hpc
  · simpa [State.readerTo, Function.update_of_ne hj] using h j

theorem reader_acquire (h : Inv n s) (hfree : s.mutex = none) (i : ι) (pc : ReaderPc)
    (hpc : pc.Inside) (hA : Unlocked n s.shared → ReaderAt n s.shared pc) :
    Inv n (State.readerTo i pc { s with mutex := some (.reader i) }) where
  guards := by
    have hg := h.guards
    rw [hfree] at hg
    refine hg.acquire (fun u => ?_) fun hR => (asserts_readerTo_self pc).mpr (hA hR)
    by_cases hu : u = .reader i
    · subst hu
      exact ⟨fun _ => .inl rfl, fun _ => (inside_readerTo_self pc).mpr hpc⟩
    · exact (inside_readerTo_ne pc hu).trans (or_iff_right hu).symm
  knows := h.knows
  awake hb := awake_readerTo (s := { s with mutex := _ }) (h.awake hb) i
    (ReaderPc.ne_asleep_of_inside hpc)

theorem reader_work {pc₀ : ReaderPc} (h : Inv n s) (hpc₀ : s.readers i = pc₀) (hin : pc₀.Inside)
    (x : Shared ι) (pc : ReaderPc) (hpc : pc.Inside)
    (hcount : x.writeCounter = s.shared.writeCounter) (hall : x.allWritten = s.shared.allWritten)
    (hA : ReaderAt n s.shared pc₀ → ReaderAt n x pc) :
    Inv n ((s.withShared x).readerTo i pc) where
  guards := by
    subst hpc₀
    refine h.guards.work (t := Thread.reader i) hin (fun u => ?_) fun hR =>
      (asserts_readerTo_self pc).mpr (hA hR)
    by_cases hu : u = .reader i
    · subst hu
      exact (inside_readerTo_self pc).trans (iff_of_true hpc hin)
    · exact inside_readerTo_ne pc hu
  knows := knows_congr h.knows hcount hall
  awake hb := awake_readerTo (s := s.withShared x) (h.awake hb) i
    (ReaderPc.ne_asleep_of_inside hpc)

theorem reader_release {pc₀ : ReaderPc} (h : Inv n s) (hpc₀ : s.readers i = pc₀)
    (hin : pc₀.Inside) (pc : ReaderPc) (hpc : ¬ pc.Inside)
    (hR : ReaderAt n s.shared pc₀ → Unlocked n s.shared)
    (hsleep : pc = .asleep → ReaderAt n s.shared pc₀ → s.shared.allWritten = false) :
    Inv n (s.release.readerTo i pc) where
  guards := by
    subst hpc₀
    refine h.guards.release (t := Thread.reader i) hin (fun u => ?_) hR
    by_cases hu : u = .reader i
    · subst hu
      exact (inside_readerTo_self pc).trans
        (iff_of_false hpc fun hu => hu.1 rfl)
    · exact (inside_readerTo_ne pc hu).trans (and_iff_right hu).symm
  knows := h.knows
  awake hb := by
    subst hpc₀
    apply awake_readerTo (s := s.release) (h.awake hb) i
    intro hpc
    have hall := hsleep hpc (h.guards.assert_of_inside (t := Thread.reader i) hin)
    cases hall.symm.trans (h.allWritten_of_pastBroadcast hb)

/-- Waking readers that are asleep. -/
theorem wake (h : Inv n s) (woken : Finset ι) (hwoken : ∀ i ∈ woken, s.readers i = .asleep) :
    Inv n (s.wake woken) where
  guards := by
    refine h.guards.outside ?_ ?_
    · intro u
      cases u with
      | writer => exact Iff.rfl
      | reader i =>
        by_cases hi : i ∈ woken
        · simp [State.Inside, State.wake, hi, hwoken i hi, ReaderPc.Inside]
        · simp [State.Inside, State.wake, hi]
    · intro u hu hA
      cases u with
      | writer => exact hA
      | reader i =>
        by_cases hi : i ∈ woken
        · simp [State.Inside, hwoken i hi, ReaderPc.Inside] at hu
        · simpa [State.Asserts, State.wake, hi] using hA
  knows := h.knows
  awake hb i := by
    by_cases hi : i ∈ woken
    · simp [State.wake, hi]
    · simpa [State.wake, hi] using h.awake hb i

end Inv

end Moves

-- ---------------------------------------------------------------------------
-- Every action
-- ---------------------------------------------------------------------------

section Step

theorem acquire_eq_some {t : Thread ι} (h : s.acquire t = some s') :
    s.mutex = none ∧ s' = { s with mutex := some t } := by
  unfold State.acquire at h
  split at h
  · next hfree => exact ⟨hfree, (Option.some.inj h).symm⟩
  · cases h

theorem acquire_map_eq_some {t : Thread ι} {f : State ι → State ι}
    (h : (s.acquire t).map f = some s') :
    s.mutex = none ∧ s' = f { s with mutex := some t } := by
  obtain ⟨s₁, hs₁, rfl⟩ := Option.map_eq_some_iff.mp h
  obtain ⟨hfree, rfl⟩ := acquire_eq_some hs₁
  exact ⟨hfree, rfl⟩

variable [Fintype ι]

theorem mem_asleep : i ∈ s.asleep ↔ s.readers i = .asleep := by simp [State.asleep]

variable [DecidableEq ι] {woken : Finset ι}

/-- **The writer keeps the invariant.** -/
theorem Inv.writerStep (h : Inv n s) (hs : writerStep n woken s = some s') : Inv n s' := by
  have hK := h.knows
  unfold LabsOS.Condvar.writerStep at hs
  revert hs hK
  cases hpc : s.writer with
  | whileTest =>
    rintro ⟨⟩ ⟨hall, hle⟩
    split
    · next hlt => exact h.writer_outside hpc id _ id ⟨hall, hlt⟩ nofun
    · next hge => exact h.writer_outside hpc id _ id ⟨hall, by omega⟩ nofun
  | lock =>
    intro hs hK
    obtain ⟨hfree, rfl⟩ := acquire_map_eq_some hs
    exact h.writer_acquire hfree _ trivial id hK nofun
  | store =>
    rintro ⟨⟩ hK
    exact h.writer_work hpc trivial _ _ trivial (fun hA => Unlocked.store hA hK.2) hK nofun
  | count =>
    rintro ⟨⟩ ⟨hall, hlt⟩
    exact h.writer_work hpc trivial _ _ trivial (fun hA => Unlocked.count hA.1 hlt hall hA.2)
      ⟨hall, hlt⟩ nofun
  | setDataAvailable =>
    rintro ⟨⟩ hK
    exact h.writer_work hpc trivial _ _ trivial
      (fun hA => Unlocked.setDataAvailable hA.1 fun _ => hA.2) hK nofun
  | signal =>
    intro hs hK
    dsimp only at hs
    split at hs
    · next hsignal =>
      obtain rfl := Option.some.inj hs
      have hw := h.wake woken fun i hi => mem_asleep.mp (hsignal.1 hi)
      exact hw.writer_work hpc trivial _ _ trivial id hK nofun
    · cases hs
  | unlock =>
    rintro ⟨⟩ hK
    exact h.writer_release hpc trivial _ id id hK nofun
  | lockLast =>
    intro hs hK
    obtain ⟨hfree, rfl⟩ := acquire_map_eq_some hs
    exact h.writer_acquire hfree _ trivial id hK nofun
  | setAllWritten =>
    rintro ⟨⟩ hK
    exact h.writer_work hpc trivial _ _ trivial (fun hA => Unlocked.setAllWritten hA hK.2) rfl nofun
  | setDataAvailableLast =>
    rintro ⟨⟩ hall
    exact h.writer_work hpc trivial _ _ trivial
      (fun hA => Unlocked.setDataAvailable hA fun hall' => nomatch hall'.symm.trans hall) hall nofun
  | broadcast =>
    rintro ⟨⟩ hK
    have hw := h.wake s.asleep fun i hi => mem_asleep.mp hi
    refine hw.writer_work hpc trivial _ _ trivial id hK ?_
    intro _ i
    by_cases hi : s.readers i = .asleep
    · simp [State.wake, mem_asleep, hi]
    · simp [State.wake, mem_asleep, hi]
  | unlockLast =>
    rintro ⟨⟩ hK
    exact h.writer_release hpc trivial _ id id hK fun _ => .inl rfl
  | finished => nofun

omit [Fintype ι] in
/-- **Every reader keeps the invariant.** -/
theorem Inv.readerStep (h : Inv n s) (hs : readerStep n i s = some s') : Inv n s' := by
  unfold LabsOS.Condvar.readerStep at hs
  revert hs
  cases hpc : s.readers i with
  | lock =>
    intro hs
    obtain ⟨hfree, rfl⟩ := acquire_map_eq_some hs
    exact h.reader_acquire hfree i _ trivial id
  | whileTest =>
    rintro ⟨⟩
    split
    · next htest =>
      have hall : s.shared.allWritten = false := by simpa using (Bool.and_eq_true_iff.mp htest).2
      exact h.reader_work hpc trivial s.shared _ trivial rfl rfl fun hA => ⟨hA, hall⟩
    · next htest =>
      have hdata : s.shared.dataAvailable = true ∨ s.shared.allWritten = true := by
        cases hd : s.shared.dataAvailable <;> cases ha : s.shared.allWritten <;> simp_all
      exact h.reader_work hpc trivial s.shared _ trivial rfl rfl fun hA => ⟨hA, hdata⟩
  | wait =>
    rintro ⟨⟩
    exact h.reader_release hpc trivial _ id (fun hA => hA.1) fun _ hA => hA.2
  | asleep => nofun
  | woken =>
    intro hs
    obtain ⟨hfree, rfl⟩ := acquire_map_eq_some hs
    exact h.reader_acquire hfree i _ trivial id
  | ifTest =>
    rintro ⟨⟩
    split
    · exact h.reader_work hpc trivial s.shared _ trivial rfl rfl fun hA => hA.1
    · next htest =>
      refine h.reader_work hpc trivial s.shared _ trivial rfl rfl ?_
      rintro ⟨hU, hdata⟩
      -- the array is not complete: it is the data that the reader was waiting for
      have hall : s.shared.allWritten = false := by
        by_contra hall
        rw [Bool.not_eq_false] at hall
        exact htest ⟨hall, hU.complete hall⟩
      have hdata' : s.shared.dataAvailable = true :=
        hdata.resolve_right fun hall' => nomatch hall.symm.trans hall'
      exact ⟨hU.toProtected, hU.fresh hdata' hall, Nat.zero_le n, rfl⟩
  | print k line =>
    intro hs
    dsimp only at hs
    split at hs
    · next hlt =>
      obtain rfl := Option.some.inj hs
      refine h.reader_work hpc trivial s.shared _ trivial rfl rfl ?_
      rintro ⟨hP, hfresh, -, hline⟩
      exact ⟨hP, hfresh, hlt, by rw [shownPrefix_succ, hline, hP.cell_eq]⟩
    · next hge =>
      obtain rfl := Option.some.inj hs
      refine h.reader_work hpc trivial _ _ trivial rfl rfl ?_
      rintro ⟨hP, hfresh, hle, hline⟩
      obtain rfl : k = n := by omega
      exact hP.print hfresh i hline
  | clearDataAvailable =>
    rintro ⟨⟩
    exact h.reader_work hpc trivial _ _ trivial rfl rfl Protected.clearDataAvailable
  | unlock =>
    rintro ⟨⟩
    exact h.reader_release hpc trivial _ id id nofun
  | unlockLast =>
    rintro ⟨⟩
    exact h.reader_release hpc trivial _ id id nofun
  | finished => nofun

omit [Fintype ι] in
theorem Inv.wakeUp (h : Inv n s) (hs : wakeUp i s = some s') : Inv n s' := by
  unfold LabsOS.Condvar.wakeUp at hs
  split at hs
  · next hpc =>
    obtain rfl := Option.some.inj hs
    exact h.wake {i} fun j hj => Finset.mem_singleton.mp hj ▸ hpc
  · cases hs

/-- **The invariant** holds in every reachable state. -/
theorem inv_of_reaches (h : Reaches (step n) (start n) s) : Inv n s := by
  apply h.invariant inv_start
  intro a s s' hs hstep
  cases a with
  | writer woken => exact hs.writerStep hstep
  | reader i => exact hs.readerStep hstep
  | wakeUp i => exact hs.wakeUp hstep

end Step

end LabsOS.Condvar
