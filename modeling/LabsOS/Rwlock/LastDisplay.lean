import LabsOS.Condvar.LastDisplay
import LabsOS.Rwlock.Snapshots

/-!
# The last state of the array, with the lock and with the condition variable

In both programs a reader leaves its loop once the writer has set its flag, whether
or not a line has shown the complete array (`leave_without_display`). It has in
every run in which the flag is set only after such a line
(`complete_display_before_exit`).
-/

namespace LabsOS.Rwlock

open Condvar (Thread)

variable {ι : Type} {c : Config ι} {i : ι} {x x' : Shared ι}

/-- Some line has shown the complete array. -/
def Displayed (c : Config ι) (x : Shared ι) : Prop :=
  ∃ p ∈ x.printed, p.line = lineOf c p.reader c.arraySize

instance (c : Config ι) (x : Shared ι) : Decidable (Displayed c x) :=
  inferInstanceAs (Decidable (∃ p ∈ x.printed, _))

/-- The action is the writer's `read_finished = 1`. -/
def SetsFlag : (t : Thread ι) → Pc t → Prop
  | .writer, pc => pc = .setReadFinished
  | .reader _, _ => False

instance : (t : Thread ι) → (pc : Pc t) → Decidable (SetsFlag t pc)
  | .writer, pc => inferInstanceAs (Decidable (pc = WriterPc.setReadFinished))
  | .reader _, _ => .isFalse id

/-- The flag is set only after some line has shown the complete array. -/
def FlagAfterDisplay (c : Config ι) (t : Thread ι) (s : State ι) : Prop :=
  SetsFlag t (s.locals t) → Displayed c s.shared

instance (c : Config ι) (t : Thread ι) (s : State ι) : Decidable (FlagAfterDisplay c t s) :=
  inferInstanceAs (Decidable (_ → _))

theorem Displayed.mono (h : Displayed c x) (hx : x.printed <+: x'.printed) : Displayed c x' := by
  obtain ⟨p, hp, hline⟩ := h
  exact ⟨p, hx.subset hp, hline⟩

variable [DecidableEq ι]

/-- Lines are added, and the flag is set only by its statement. -/
theorem next_moves {t : Thread ι} {pc pc' : Pc t} (h : next c t x pc = some (x', pc')) :
    x.printed <+: x'.printed ∧
      (x'.data.readFinished = true → x.data.readFinished = true ∨ SetsFlag t pc) := by
  cases t with
  | writer =>
    cases pc with
    | wrlock | wrlockLast =>
      obtain ⟨x₁, hacq, heq⟩ := Option.map_eq_some_iff.mp h
      obtain ⟨rfl, rfl⟩ := Prod.mk.inj heq
      obtain ⟨-, -, rfl⟩ := wrlock_eq_some hacq
      exact ⟨List.prefix_rfl, .inl⟩
    | setReadFinished =>
      cases h
      exact ⟨List.prefix_rfl, fun _ => .inr rfl⟩
    | finished => cases h
    | _ =>
      cases h
      exact ⟨List.prefix_rfl, .inl⟩
  | reader i =>
    change readerNext c i x pc = some (x', pc') at h
    cases pc with
    | rdlock =>
      obtain ⟨x₁, hacq, heq⟩ := Option.map_eq_some_iff.mp h
      obtain ⟨rfl, rfl⟩ := Prod.mk.inj heq
      obtain ⟨-, rfl⟩ := rdlock_eq_some hacq
      exact ⟨List.prefix_rfl, .inl⟩
    | heading =>
      rw [readerNext] at h
      obtain ⟨_, -, heq⟩ := Option.bind_eq_some_iff.mp h
      cases heq
      exact ⟨List.prefix_rfl, .inl⟩
    | cells k buffer pos =>
      rw [readerNext] at h
      split at h
      · obtain ⟨_, -, heq⟩ := Option.bind_eq_some_iff.mp h
        cases heq
        exact ⟨List.prefix_rfl, .inl⟩
      · obtain ⟨_, -, heq⟩ := Option.bind_eq_some_iff.mp h
        cases heq
        exact ⟨List.prefix_rfl, .inl⟩
    | print buffer =>
      cases h
      exact ⟨List.prefix_append .., .inl⟩
    | finished => cases h
    | _ =>
      cases h
      exact ⟨List.prefix_rfl, .inl⟩

/-- The flag is set only where the complete array was shown. -/
def FlagShown (c : Config ι) (s : State ι) : Prop :=
  s.shared.data.readFinished = true → Displayed c s.shared

theorem flagShown_of_reaches {s : State ι}
    (h : ReachesWhen (FlagAfterDisplay c) (step c) (start c) s) : FlagShown c s := by
  apply h.invariant (fun hflag => by cases hflag)
  intro t s s' hI hC ha hflag
  obtain ⟨l', hnext, -⟩ := Team.step_eq_some ha
  obtain ⟨hprinted, hsets⟩ := next_moves hnext
  exact Displayed.mono ((hsets hflag).elim hI hC) hprinted

/-- In every run in which the flag is set only after a line has shown the complete
array, no reader leaves before. -/
theorem displayed_of_left {s : State ι}
    (h : ReachesWhen (FlagAfterDisplay c) (step c) (start c) s)
    (hleft : (s.locals (.reader i)).Left) : Displayed c s.shared := by
  have hs : (outline c).Holds s :=
    Team.Outline.holds_of_reaches h.reaches outline_start fun _ _ _ => trivial
  exact flagShown_of_reaches h (readFinished_of_left (hs.assert (.reader i)) hleft)

-- ---------------------------------------------------------------------------
-- Both programs
-- ---------------------------------------------------------------------------

/-- **The complete array is displayed before a reader leaves**, in every run of
either program in which the flag is set only after it was. -/
theorem complete_display_before_exit [Fintype ι] :
    (∀ (c : Config ι) (s : State ι), ReachesWhen (FlagAfterDisplay c) (step c) (start c) s →
      ∀ i, (s.locals (.reader i)).Left → Displayed c s.shared) ∧
    (∀ (n : Nat) (s : Condvar.State ι),
      ReachesWhen (Condvar.FlagAfterDisplay n) (Condvar.step n) (Condvar.start n) s →
      ∀ i, (s.readers i).Left → Condvar.Displayed n s.shared) :=
  ⟨fun _ _ h _ => displayed_of_left h, fun _ _ h _ => Condvar.displayed_of_left h⟩

omit [DecidableEq ι] in
/-- The writer writes the only element, the reader `i` shows it, the writer sets the
flag and the reader leaves. -/
def writeShowLeave (i : ι) : List (Thread ι) :=
  List.replicate 6 .writer ++ List.replicate 7 (.reader i) ++ List.replicate 4 .writer ++
    List.replicate 3 (.reader i)

omit [DecidableEq ι] in
/-- The same with the condition variable. -/
def writeShowLeaveCondvar (i : ι) : List (Condvar.Action ι) :=
  List.replicate 7 (.writer ∅) ++ List.replicate 7 (.reader i) ++ List.replicate 6 (.writer ∅) ++
    List.replicate 4 (.reader i)

theorem one_element_displayed :
    (∃ s : State (Fin 1), s.locals (.reader 0) = .finished ∧ Displayed (oneReader 1) s.shared) ∧
      ∃ s : Condvar.State (Fin 1), s.readers 0 = .finished ∧ Condvar.Displayed 1 s.shared := by
  have hrun : (steps (fun t s => if FlagAfterDisplay (oneReader 1) t s then step (oneReader 1) t s
      else none) (writeShowLeave 0) (start (oneReader 1))).map (fun s => s.locals (.reader 0)) =
      some .finished := by decide +kernel
  have hrun' : (steps (fun a s => if Condvar.FlagAfterDisplay 1 a s then Condvar.step 1 a s
      else none) (writeShowLeaveCondvar (0 : Fin 1)) (Condvar.start 1)).map (fun s => s.readers 0) =
      some .finished := by decide +kernel
  obtain ⟨s, hs, hpc⟩ := exists_reachesWhen_of_map hrun
  obtain ⟨s', hs', hpc'⟩ := exists_reachesWhen_of_map hrun'
  refine ⟨⟨s, hpc, complete_display_before_exit.1 _ s hs 0 ?_⟩,
    ⟨s', hpc', complete_display_before_exit.2 _ s' hs' 0 (.inr hpc')⟩⟩
  rw [hpc]
  trivial

/-- The writer does all its work before the only reader starts, which leaves without
having shown anything, with the lock and with the condition variable. -/
theorem leave_without_display :
    (∃ s : State (Fin 1), Reaches (step (oneReader 10)) (start (oneReader 10)) s ∧
      s.locals (.reader 0) = .finished ∧ ¬ Displayed (oneReader 10) s.shared) ∧
    ∃ s : Condvar.State (Fin 1), Reaches (Condvar.step 10) (Condvar.start 10) s ∧
      s.readers 0 = .finished ∧ ¬ Condvar.Displayed 10 s.shared := by
  have hrun : (steps (step (oneReader 10)) (List.replicate 64 .writer ++
      List.replicate 3 (.reader 0)) (start (oneReader 10))).map (fun s =>
      (s.locals (.reader 0), decide (Displayed (oneReader 10) s.shared))) =
      some (.finished, false) := by decide +kernel
  have hrun' : (steps (Condvar.step 10) (List.replicate 76 (.writer ∅) ++
      List.replicate 4 (.reader (0 : Fin 1))) (Condvar.start 10)).map (fun s =>
      (s.readers 0, decide (Condvar.Displayed 10 s.shared))) =
      some (.finished, false) := by decide +kernel
  obtain ⟨s, hs, hobs⟩ := exists_reaches_of_map hrun
  obtain ⟨s', hs', hobs'⟩ := exists_reaches_of_map hrun'
  obtain ⟨hpc, hshown⟩ := Prod.mk.inj hobs
  obtain ⟨hpc', hshown'⟩ := Prod.mk.inj hobs'
  exact ⟨⟨s, hs, hpc, of_decide_eq_false hshown⟩, ⟨s', hs', hpc', of_decide_eq_false hshown'⟩⟩

end LabsOS.Rwlock
