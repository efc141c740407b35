import LabsOS.Fork.Runs

/-!
# A run without a signal or a failing call

If no call fails and no signal is sent, `lab3_fork/main.c` prints the same lines in every order of
its two processes. Only where its output is not a terminal, the line that the parent has in its
buffer when it calls `fork` is printed twice (`undisturbed`).
-/

namespace LabsOS.Fork

open Signals

variable {tty resets : Bool} {side : Side} {p p' : Proc} {s s' : State} {a : Action}

/-- The status that a process exits with. -/
def Side.status : Side → Nat
  | .parent => 0
  | .child => 42

/-- Where a process is that nothing has happened to, and which handlers it has installed. -/
def Smooth (side : Side) (p : Proc) : Pc → Prop
  | .atexit | .signalInt => side = .parent
  | .sigaction => side = .parent ∧ p.handled .int = true
  | .printInitialized | .fork | .printCreated | .wait | .printParentComplete =>
    side = .parent ∧ ∀ sig, p.handled sig = true
  | .report how => (side = .parent ∧ how = .exited 42) ∧ ∀ sig, p.handled sig = true
  | .printActive | .sleep | .printChildComplete => side = .child ∧ ∀ sig, p.handled sig = true
  | .leaving status | .cleanup status | .flush status | .ended (.exited status) =>
    status = side.status ∧ ∀ sig, p.handled sig = true
  | .handler _ | .ended (.signaled ..) => False

/-- Nothing has happened to any process. -/
structure Calm (s : State) : Prop where
  errors : s.errors = []
  smooth : ∀ side p, s.procs side = some p → Smooth side p p.pc ∧ ∀ sig, p.blocked sig = false

/-- No call fails, and there are no signals. -/
def Undisturbed (a : Action) (_ : State) : Prop := ∃ side, a = .run side true

theorem Calm.set (h : Calm s) (hp : s.procs side = some p)
    (hprocs : s'.procs = Function.update s.procs side (some p')) (herrors : s'.errors = s.errors)
    (hblocked : p'.blocked = p.blocked) (hsmooth : Smooth side p' p'.pc) : Calm s' := by
  refine ⟨herrors.trans h.errors, fun side' q hq => ?_⟩
  rw [hprocs] at hq
  by_cases hside : side' = side
  · subst hside
    rw [Function.update_self] at hq
    obtain rfl := Option.some.inj hq
    exact ⟨hsmooth, hblocked ▸ (h.smooth side' p hp).2⟩
  · rw [Function.update_of_ne hside] at hq
    exact h.smooth side' q hq

theorem Calm.print {line : Line} {pc : Pc} (h : Calm s) (hp : s.procs side = some p)
    (hsmooth : ∀ q : Proc, q.handled = p.handled → Smooth side q pc) :
    Calm (s.print side p tty line pc) := by
  cases tty with
  | true => exact h.set hp rfl rfl rfl (hsmooth _ rfl)
  | false => exact h.set hp rfl rfl rfl (hsmooth _ rfl)

/-- A child that has ended has exited with 42. -/
theorem Calm.childEnd {how : Status} (h : Calm s) (hend : s.childEnd = some how) :
    how = .exited 42 := by
  rw [State.childEnd] at hend
  split at hend
  · next c hc =>
    split at hend
    · next how' hpc =>
      obtain rfl := Option.some.inj hend
      have hsmooth := (h.smooth .child c hc).1
      rw [hpc] at hsmooth
      cases how' with
      | exited status => exact congrArg Status.exited hsmooth.1
      | signaled k core => exact hsmooth.elim
    · cases hend
  · cases hend

theorem Calm.runProc (h : Calm s) (hp : s.procs side = some p)
    (hs : Fork.runProc tty true side s p = some s') : Calm s' := by
  have hat := (h.smooth side p hp).1
  unfold Fork.runProc at hs
  revert hs hat
  cases hpc : p.pc with
  | atexit =>
    rintro ⟨⟩ hside
    exact h.set hp rfl rfl rfl hside
  | signalInt =>
    rintro ⟨⟩ hside
    exact h.set hp rfl rfl rfl ⟨hside, rfl⟩
  | sigaction =>
    rintro ⟨⟩ ⟨hside, hhandled⟩
    refine h.set hp rfl rfl rfl ⟨hside, fun sig => ?_⟩
    cases sig with
    | int => exact hhandled
    | term => rfl
  | fork =>
    rintro ⟨⟩ ⟨rfl, hhandled⟩
    have hparent : Calm (s.set .parent { p with pc := .printCreated }) :=
      h.set hp rfl rfl rfl ⟨rfl, hhandled⟩
    refine ⟨h.errors, fun side q hq => ?_⟩
    cases side with
    | parent => exact hparent.smooth .parent q hq
    | child =>
      obtain rfl := Option.some.inj hq
      exact ⟨⟨rfl, hhandled⟩, (h.smooth .parent p hp).2⟩
  | wait =>
    rintro hs ⟨hside, hhandled⟩
    obtain ⟨how, hend, rfl⟩ := Option.map_eq_some_iff.mp hs
    exact h.set hp rfl rfl rfl ⟨⟨hside, h.childEnd hend⟩, hhandled⟩
  | printInitialized | printCreated =>
    rintro ⟨⟩ ⟨hside, hhandled⟩
    exact h.print hp fun q hq => ⟨hside, hq ▸ hhandled⟩
  | report how =>
    rintro ⟨⟩ ⟨⟨hside, -⟩, hhandled⟩
    exact h.print hp fun q hq => ⟨hside, hq ▸ hhandled⟩
  | printParentComplete =>
    rintro ⟨⟩ ⟨rfl, hhandled⟩
    exact h.print hp fun q hq => ⟨rfl, hq ▸ hhandled⟩
  | printActive =>
    rintro ⟨⟩ ⟨hside, hhandled⟩
    exact h.print hp fun q hq => ⟨hside, hq ▸ hhandled⟩
  | printChildComplete =>
    rintro ⟨⟩ ⟨rfl, hhandled⟩
    exact h.print hp fun q hq => ⟨rfl, hq ▸ hhandled⟩
  | handler sig => exact fun _ hat => hat.elim
  | sleep | leaving status =>
    rintro ⟨⟩ hat
    exact h.set hp rfl rfl rfl hat
  | cleanup status =>
    rintro hs hat
    dsimp only at hs
    split at hs
    · obtain rfl := Option.some.inj hs
      exact h.print hp fun q hq => ⟨hat.1, hq ▸ hat.2⟩
    · obtain rfl := Option.some.inj hs
      exact h.set hp rfl rfl rfl hat
  | flush status =>
    rintro ⟨⟩ hat
    exact h.set hp rfl rfl rfl hat
  | ended how => nofun

theorem calm_of_reachesWhen (h : ReachesWhen Undisturbed (step tty resets) start s) : Calm s := by
  apply h.invariant
  · refine ⟨rfl, ?_⟩
    rintro (_ | _) p ⟨⟩
    exact ⟨rfl, fun _ => rfl⟩
  · rintro _ s s' hs ⟨side, rfl⟩ ha
    obtain ⟨p, hp, hact⟩ := Option.bind_eq_some_iff.mp ha
    exact hs.runProc hp hact

/-- What a process has printed that has ended without a signal. -/
theorem Calm.account (h : Calm s) (hinv : Inv tty s) (hp : s.procs side = some p)
    (hover : p.pc.Over = true) : p.pc = .ended (.exited side.status) ∧
      s.by side = script tty s.childEnd side ++ [.cleanup side] ∧
      (side = .parent → s.childEnd.isSome) := by
  obtain ⟨hsmooth, hblocked⟩ := h.smooth side p hp
  obtain ⟨n, sigs, cleaned, hfits⟩ := hinv.fits side p hp
  have hat := hfits.place
  have hby : s.by side = p.written tty := by
    rw [hinv.written, hp]
    rfl
  revert hover hsmooth hat
  cases hpc : p.pc with
  | ended how =>
    cases how with
    | signaled k core => exact fun _ hsmooth => hsmooth.elim
    | exited status =>
      rintro - ⟨rfl, hhandled⟩ ⟨houtcome, rfl⟩
      have hsigs : sigs = [] := by
        rw [List.eq_nil_iff_forall_not_mem]
        intro sig hsig
        rcases hfits.spent sig hsig with hspent | hspent
        · rw [hblocked] at hspent
          cases hspent
        · rw [hhandled] at hspent
          cases hspent
      subst hsigs
      obtain ⟨hne, -⟩ | ⟨-, houtcome⟩ := houtcome
      · exact absurd rfl hne
      have hn : n = (script tty s.childEnd side).length ∧ n ≠ 0 ∧
          (side = .parent → s.childEnd.isSome) := by
        rcases houtcome with ⟨rfl, hstatus⟩ | ⟨rfl, -, rfl⟩
        · obtain ⟨-, rfl⟩ := hstatus.resolve_left (by decide)
          have hle := hfits.le
          cases he : s.childEnd with
          | none =>
            rw [he] at hle
            exact absurd hle (show ¬ 4 ≤ 2 by decide)
          | some how => exact ⟨rfl, by decide, fun _ => rfl⟩
        · refine ⟨?_, by omega, by rintro ⟨⟩⟩
          rw [script, List.length_append]
          rfl
      obtain ⟨rfl, hpos, hend⟩ := hn
      refine ⟨rfl, ?_, hend⟩
      have hregistered := registered_of_pos hfits hpos
      rw [hby, Proc.written, hpc, Pc.Exited, Bool.or_true, if_pos rfl, hfits.said, hregistered]
      rw [List.take_length, List.map_nil, List.append_nil, if_pos rfl]
  | _ => rintro ⟨⟩

/-- **The undisturbed run**: nothing is reported as failed, the child exits with 42 and the parent
with 0, and each has printed its lines. -/
theorem undisturbed (tty resets : Bool) (s : State)
    (h : ReachesWhen Undisturbed (step tty resets) start s)
    (hstuck : ∀ a, step tty resets a s = none) :
    s.errors = [] ∧
    (∀ side, ∃ p, s.procs side = some p ∧ p.pc = .ended (.exited side.status)) ∧
    s.by .child = (if tty then [] else [.initialized]) ++
      [.active, .childComplete, .cleanup .child] ∧
    s.by .parent = [.initialized, .created, .exitedWith 42, .parentComplete, .cleanup .parent] := by
  have hcalm := calm_of_reachesWhen h
  have hinv := inv_of_reaches h.reaches
  have haccount : ∀ side p, s.procs side = some p → p.pc = .ended (.exited side.status) ∧
      s.by side = script tty s.childEnd side ++ [.cleanup side] ∧
      (side = .parent → s.childEnd.isSome) :=
    fun side p hp => hcalm.account hinv hp (hinv.over_of_stuck hstuck hp)
  obtain ⟨p, hp⟩ := hinv.parent
  obtain ⟨hpc, hparent, hend⟩ := haccount .parent p hp
  obtain ⟨how, hhow⟩ := Option.isSome_iff_exists.mp (hend rfl)
  obtain ⟨c, hc⟩ : ∃ c, s.procs .child = some c := by
    cases hc : s.procs .child with
    | none =>
      rw [State.childEnd, hc] at hhow
      cases hhow
    | some c => exact ⟨c, rfl⟩
  obtain ⟨hcpc, hchild, -⟩ := haccount .child c hc
  obtain rfl := hcalm.childEnd hhow
  refine ⟨hcalm.errors, ?_, ?_, ?_⟩
  · rintro (_ | _)
    · exact ⟨p, hp, hpc⟩
    · exact ⟨c, hc, hcpc⟩
  · rw [hchild, script, List.append_assoc]
    rfl
  · rw [hparent, hhow, script]
    rfl

/-- The child runs while the parent waits. -/
def untouched : List Action :=
  List.replicate 6 (.run .parent true) ++ List.replicate 6 (.run .child true) ++
    List.replicate 6 (.run .parent true)

/-- Into a file, the first line is printed twice. -/
theorem initialized_twice : ∃ s, Reaches (step false false) start s ∧
    s.by .child = [.initialized, .active, .childComplete, .cleanup .child] ∧
    s.by .parent = [.initialized, .created, .exitedWith 42, .parentComplete, .cleanup .parent] := by
  have hrun : (steps (fun a s => if a ∈ untouched then step false false a s else none) untouched
      start).map State.places = some (some (.ended (.exited 0)), some (.ended (.exited 42))) := by
    decide +kernel
  obtain ⟨s, hs, hplaces⟩ := exists_reachesWhen_of_map (C := fun a _ => a ∈ untouched) hrun
  have hundisturbed : ReachesWhen Undisturbed (step false false) start s := by
    apply hs.mono
    intro a _ ha
    simp only [untouched, List.mem_append, List.mem_replicate] at ha
    rcases ha with (⟨-, rfl⟩ | ⟨-, rfl⟩) | ⟨-, rfl⟩
    · exact ⟨.parent, rfl⟩
    · exact ⟨.child, rfl⟩
    · exact ⟨.parent, rfl⟩
  have hstuck : ∀ a, step false false a s = none := stuck_of_places hplaces
  exact ⟨s, hs.reaches, (undisturbed false false s hundisturbed hstuck).2.2⟩

end LabsOS.Fork
