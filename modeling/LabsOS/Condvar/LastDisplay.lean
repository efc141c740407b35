import LabsOS.Condvar.Lines

/-!
# The last state of the array

A reader leaves its loop once `all_written` is set, whether or not a line has shown
the complete array. It has where the flag is set only after such a line
(`displayed_of_left`).
-/

namespace LabsOS.Condvar

variable {ι : Type} {n : Nat}

/-- Some line has shown the complete array. -/
def Displayed (n : Nat) (x : Shared ι) : Prop := ∃ p ∈ x.printed, p.line = shownLine n n

instance (n : Nat) (x : Shared ι) : Decidable (Displayed n x) :=
  inferInstanceAs (Decidable (∃ p ∈ x.printed, _))

/-- The reader has left its loop. -/
def ReaderPc.Left (pc : ReaderPc) : Prop := pc = .unlockLast ∨ pc = .finished

/-- The action is the writer's `all_written = 1`. -/
def SetsFlag : Action ι → State ι → Prop
  | .writer _, s => s.writer = .setAllWritten
  | _, _ => False

instance : (a : Action ι) → (s : State ι) → Decidable (SetsFlag a s)
  | .writer _, s => inferInstanceAs (Decidable (s.writer = .setAllWritten))
  | .reader _, _ => .isFalse id
  | .wakeUp _, _ => .isFalse id

/-- The flag is set only after some line has shown the complete array. -/
def FlagAfterDisplay (n : Nat) (a : Action ι) (s : State ι) : Prop :=
  SetsFlag a s → Displayed n s.shared

instance (n : Nat) (a : Action ι) (s : State ι) : Decidable (FlagAfterDisplay n a s) :=
  inferInstanceAs (Decidable (_ → _))

theorem Displayed.mono {x x' : Shared ι} (h : Displayed n x) (hx : x.printed <+: x'.printed) :
    Displayed n x' := by
  obtain ⟨p, hp, hline⟩ := h
  exact ⟨p, hx.subset hp, hline⟩

-- ---------------------------------------------------------------------------
-- What a step does to the lines, the flag and the readers that have left
-- ---------------------------------------------------------------------------

/-- Lines are added, the flag is set only by its statement and never cleared, and a
reader leaves only while it is set. -/
structure Moves (sets : Prop) (s s' : State ι) : Prop where
  printed : s.shared.printed <+: s'.shared.printed
  flag : s'.shared.allWritten = true → s.shared.allWritten = true ∨ sets
  flag_stays : s.shared.allWritten = true → s'.shared.allWritten = true
  left : ∀ i, (s'.readers i).Left → (s.readers i).Left ∨ s.shared.allWritten = true

variable {s s' : State ι} {i : ι} {sets : Prop}

theorem Moves.of_flag_eq (hprinted : s.shared.printed <+: s'.shared.printed)
    (hflag : s'.shared.allWritten = s.shared.allWritten)
    (hleft : ∀ i, (s'.readers i).Left → (s.readers i).Left ∨ s.shared.allWritten = true) :
    Moves sets s s' :=
  ⟨hprinted, fun h => .inl (hflag ▸ h), fun h => hflag ▸ h, hleft⟩

variable [DecidableEq ι]

theorem left_wake {woken : Finset ι} (h : ((s.wake woken).readers i).Left) : (s.readers i).Left := by
  unfold State.wake at h
  dsimp only at h
  split at h
  · rcases h with h | h <;> cases h
  · exact h

theorem left_readerTo {pc : ReaderPc}
    (hpc : pc.Left → (s.readers i).Left ∨ s.shared.allWritten = true) (j : ι)
    (h : ((s.readerTo i pc).readers j).Left) :
    (s.readers j).Left ∨ s.shared.allWritten = true := by
  unfold State.readerTo at h
  by_cases hj : j = i
  · subst hj
    exact hpc (by simpa using h)
  · exact .inl (by simpa [Function.update_of_ne hj] using h)

/-- A reader that goes to a statement inside its loop. -/
theorem Moves.reader {x : Shared ι} {pc : ReaderPc} {mutex : Option (Thread ι)}
    (hprinted : s.shared.printed <+: x.printed) (hflag : x.allWritten = s.shared.allWritten)
    (hpc : pc.Left → (s.readers i).Left ∨ s.shared.allWritten = true) :
    Moves sets s (State.readerTo i pc { s with shared := x, mutex := mutex }) :=
  .of_flag_eq hprinted hflag (left_readerTo hpc)

variable [Fintype ι]

theorem writerStep_moves {woken : Finset ι} (h : writerStep n woken s = some s') :
    Moves (s.writer = .setAllWritten) s s' := by
  unfold writerStep at h
  cases hpc : s.writer with
  | lock | lockLast =>
    rw [hpc] at h
    obtain ⟨-, rfl⟩ := acquire_map_eq_some h
    exact .of_flag_eq List.prefix_rfl rfl fun _ => .inl
  | signal =>
    rw [hpc] at h
    dsimp only at h
    split at h
    · cases h
      exact .of_flag_eq List.prefix_rfl rfl fun _ hl => .inl (left_wake hl)
    · cases h
  | broadcast =>
    rw [hpc] at h
    cases h
    exact .of_flag_eq List.prefix_rfl rfl fun _ hl => .inl (left_wake hl)
  | setAllWritten =>
    rw [hpc] at h
    cases h
    exact ⟨List.prefix_rfl, fun _ => .inr rfl, fun _ => rfl, fun _ => .inl⟩
  | finished =>
    rw [hpc] at h
    cases h
  | _ =>
    rw [hpc] at h
    cases h
    exact .of_flag_eq List.prefix_rfl rfl fun _ => .inl

omit [Fintype ι] in
theorem readerStep_moves (h : readerStep n i s = some s') : Moves sets s s' := by
  unfold readerStep at h
  cases hpc : s.readers i with
  | lock | woken =>
    rw [hpc] at h
    obtain ⟨-, rfl⟩ := acquire_map_eq_some h
    exact .reader List.prefix_rfl rfl (by rintro (h | h) <;> cases h)
  | whileTest =>
    rw [hpc] at h
    cases h
    refine .reader List.prefix_rfl rfl ?_
    intro hl
    split at hl <;> rcases hl with hl | hl <;> cases hl
  | ifTest =>
    rw [hpc] at h
    cases h
    refine .reader List.prefix_rfl rfl ?_
    intro hl
    split at hl
    · next hdone => exact .inr hdone.1
    · rcases hl with hl | hl <;> cases hl
  | print k line =>
    rw [hpc] at h
    dsimp only at h
    split at h
    · cases h
      exact .reader List.prefix_rfl rfl (by rintro (h | h) <;> cases h)
    · cases h
      exact .reader (List.prefix_append ..) rfl (by rintro (h | h) <;> cases h)
  | wait | clearDataAvailable | unlock =>
    rw [hpc] at h
    cases h
    exact .reader List.prefix_rfl rfl (by rintro (h | h) <;> cases h)
  | unlockLast =>
    rw [hpc] at h
    cases h
    exact .reader List.prefix_rfl rfl fun _ => .inl (.inl hpc)
  | asleep | finished =>
    rw [hpc] at h
    cases h

theorem step_moves {a : Action ι} (h : step n a s = some s') : Moves (SetsFlag a s) s s' := by
  cases a with
  | writer woken => exact writerStep_moves h
  | reader i => exact readerStep_moves h
  | wakeUp i =>
    change wakeUp i s = some s' at h
    unfold wakeUp at h
    split at h
    · cases h
      exact .of_flag_eq List.prefix_rfl rfl fun _ hl => .inl (left_wake hl)
    · cases h

/-- The readers leave only while the flag is set, and it is set only where the
complete array was shown. -/
structure FlagShown (n : Nat) (s : State ι) : Prop where
  displayed : s.shared.allWritten = true → Displayed n s.shared
  left : ∀ i, (s.readers i).Left → s.shared.allWritten = true

theorem flagShown_of_reaches (h : ReachesWhen (FlagAfterDisplay n) (step n) (start n) s) :
    FlagShown n s := by
  refine h.invariant ⟨nofun, ?_⟩ ?_
  · intro i hl
    rcases hl with hl | hl <;> cases hl
  · intro a s s' hI hC ha
    have hm := step_moves ha
    refine ⟨fun hflag => ?_, fun j hj => hm.flag_stays ((hm.left j hj).elim (hI.left j) id)⟩
    exact Displayed.mono ((hm.flag hflag).elim hI.displayed hC) hm.printed

/-- In every run in which the flag is set only after a line has shown the complete
array, no reader leaves before. -/
theorem displayed_of_left (h : ReachesWhen (FlagAfterDisplay n) (step n) (start n) s)
    (hleft : (s.readers i).Left) : Displayed n s.shared :=
  (flagShown_of_reaches h).displayed ((flagShown_of_reaches h).left i hleft)

end LabsOS.Condvar
