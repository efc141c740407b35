import LabsOS.Sems.Senders
import LabsOS.Shmem.Send

/-!
# Several senders of the time

Any number of the senders of `lab7_shmem/send.c` that are started in one system, as
`LabsOS.Sems.Senders` has the other ones. `senders_exclusive` is about both.
-/

namespace LabsOS.Shmem

open Signals SystemV

/-- The senders share the system. -/
def shares : Shares Vars System where
  get := Vars.system
  set sys x := { x with system := sys }
  get_set _ _ := rfl
  set_get _ := rfl

/-- The key file exists. -/
def Locked (sys : System) : Prop := sys.keyFile = true

theorem locks : sender.Locks shares Locked .openFile where
  installed_set _ _ := rfl
  first a x := by
    show mainNext a x .openFile = (x, .exiting 1) ∨ ¬ x.system.keyFile = true ∧
      (mainNext a x .openFile).1.system.keyFile = true ∧
      ∃ pc ≠ MainPc.openFile, (mainNext a x .openFile).2 = .main pc
    rw [mainNext]
    split
    · next hopen => exact .inr ⟨by simp [hopen.2], rfl, .close, by rintro ⟨⟩, rfl⟩
    · exact .inl rfl
  main_locked a x pc _ hlocked := mainNext_keyFile a x pc hlocked
  main_control a x pc hpc := by
    show (∃ pc' ≠ MainPc.openFile, (mainNext a x pc).2 = .main pc') ∨
      (mainNext a x pc).2 = .exiting 1
    cases pc with
    | openFile => exact absurd rfl hpc
    | close | signalTerm | signalInt | loop =>
      refine .inl ⟨_, ?_, rfl⟩
      rintro ⟨⟩
    | perror => exact .inr rfl
    | _ =>
      rw [mainNext]
      split <;> refine .inl ⟨_, ?_, rfl⟩ <;> rintro ⟨⟩
  handler a x pc := by
    cases pc with
    | unlink => exact .inr rfl
    | _ => exact .inl ⟨_, rfl, id⟩

-- ---------------------------------------------------------------------------
-- The objects of the owner
-- ---------------------------------------------------------------------------

/-- What the sender that has the key file has created at each statement. -/
def Created (sys : System) (x : Vars) : Control MainPc HandlerPc → Prop
  | .main .close | .main .ftok | .main (.shmget _) | .handler .unlink =>
    x.system.segments = sys.segments
  | .main (.storeSegment result) => result ≠ -1 → sys.segments.Adds x.system.segments result
  | .main .shmat | .main .signalTerm | .main .signalInt | .main .loop
  | .handler .detach | .handler .removeSegment => sys.segments.Adds x.system.segments x.shmid
  | _ => True

/-- The key file, and what the sender has created. -/
structure Held (sys : System) (x : Vars) (c : Control MainPc HandlerPc) : Prop where
  locked : x.system.keyFile = true
  created : Created sys x c
  sets : x.system.sets = sys.sets

theorem created_main {sys : System} {a : Answer} {x : Vars} {pc : MainPc} (hpc : pc ≠ .openFile)
    (h : Created sys x (.main pc)) : Created sys (mainNext a x pc).1 (mainNext a x pc).2 := by
  cases pc with
  | openFile => exact absurd rfl hpc
  | close | loop => exact h
  | perror => trivial
  | signalTerm | signalInt =>
    rw [mainNext]
    split <;> exact h
  | ftok | shmat =>
    rw [mainNext]
    split
    · exact h
    · trivial
  | shmget key =>
    rw [mainNext]
    split
    · next t ht =>
      refine fun _ => ⟨key, a.id, ?_, rfl⟩
      have hsegments : x.system.segments = sys.segments := h
      rw [← hsegments]
      exact Answer.create_eq_some ht
    · exact fun hne => absurd rfl hne
  | storeSegment result =>
    rw [mainNext]
    split
    · trivial
    · next hne => exact h hne

/-- The sender has no semaphore. -/
theorem mainNext_sets (a : Answer) (x : Vars) (pc : MainPc) :
    (mainNext a x pc).1.system.sets = x.system.sets := by
  cases pc with
  | openFile | shmget | signalTerm | signalInt =>
    rw [mainNext]
    split <;> rfl
  | _ => rfl

theorem custody (sys : System) :
    sender.Custody shares Locked .openFile (sender.SignalledAt .loop) (Held sys)
      (· = { sys with keyFile := false }) where
  locked_of_held _ _ hheld := hheld.locked
  first a x hfree hlocked := by
    have hsystem : x.system = { sys with keyFile := false } := hfree
    refine ⟨hlocked, ?_, ?_⟩
    · show Created _ (mainNext a x .openFile).1 (mainNext a x .openFile).2
      rw [mainNext]
      split
      · show x.system.segments = sys.segments
        rw [hsystem]
      · trivial
    · show (mainNext a x .openFile).1.system.sets = sys.sets
      rw [mainNext_sets, hsystem]
  main a x pc hpc hheld := ⟨mainNext_keyFile a x pc hheld.locked, created_main hpc hheld.created,
    (mainNext_sets a x pc).trans hheld.sets⟩
  handler a x pc hheld := by
    obtain ⟨hlocked, hcreated, hsets⟩ := hheld
    cases pc with
    | detach => exact .inl ⟨hlocked, hcreated, hsets⟩
    | removeSegment => exact .inl ⟨hlocked, hcreated.remove, hsets⟩
    | unlink =>
      refine .inr ⟨rfl, ?_⟩
      have hsegments : x.system.segments = sys.segments := hcreated
      show System.mk false x.system.segments x.system.sets = _
      rw [hsegments, hsets]
  signal sig s hat hinstalled _ := by
    rcases hat sig rfl with hpc | hnone
    · rw [Program.Inside, hpc]
      exact ⟨by rintro ⟨⟩, fun hheld => ⟨hheld.locked, hheld.created, hheld.sets⟩⟩
    · exact Bool.noConfusion (hnone.symm.trans hinstalled)

-- ---------------------------------------------------------------------------
-- Runs of several senders
-- ---------------------------------------------------------------------------

/-- The senders `T`, which are started in the system `sys`. -/
def startAll (T : Type) (sys : System) : Program.Crew T Vars System MainPc HandlerPc :=
  Program.crewBoot shares T (.initial sys) .openFile

theorem exclusive {T : Type} [DecidableEq T] {sys : System}
    {s : Program.Crew T Vars System MainPc HandlerPc}
    (h : ReachesWhen (fun a s => Program.OneSignal a.2 (Program.seen shares s a.1))
      (sender.crewStep shares) (startAll T sys) s) (t u : T)
    (ht : sender.Inside .openFile (s.locals t)) (hu : sender.Inside .openFile (s.locals u)) :
    t = u :=
  locks.exclusive (fun _ => rfl) h t u ht hu

/-- Where no key file is left, nothing else is. -/
theorem restored {T : Type} [DecidableEq T] {sys : System}
    {s : Program.Crew T Vars System MainPc HandlerPc}
    (h : ReachesWhen (fun a s => sender.SignalledAt .loop a.2 (Program.seen shares s a.1))
      (sender.crewStep shares) (startAll T sys) s) (hkey : s.shared.keyFile = false) :
    s.shared = { sys with keyFile := false } := by
  have hstart : Locked sys ∨ sys = { sys with keyFile := false } := by
    obtain ⟨keyFile, segments, sets⟩ := sys
    cases keyFile with
    | true => exact .inl rfl
    | false => exact .inr rfl
  have hguarded := (custody sys).guarded (x := Vars.initial sys) locks (fun _ => rfl) hstart h
  have hopen : ¬ Locked s.shared := by
    intro hlocked
    exact Bool.noConfusion (hkey.symm.trans hlocked)
  refine (hguarded.free fun t ht => hopen ?_).resolve_left hopen
  exact (hguarded.held t ht).locked

/-- The sender `t` goes `n` statements on. -/
def goes (t : Fin 3) (n : Nat) : List (Fin 3 × Signals.Action Answer) :=
  List.replicate n (t, .run ⟨true, 4, 7⟩)

/-- A second signal makes the sender `t` remove the key file of `u`, so that `v` starts too. -/
def signalledTwice (t u v : Fin 3) : List (Fin 3 × Signals.Action Answer) :=
  goes t 9 ++ [(t, .signal .int)] ++ goes t 3 ++ goes u 9 ++ [(t, .signal .term)] ++ goes t 3 ++
    goes v 9

theorem two_in_loop : ∃ s,
    Reaches (sender.crewStep shares) (startAll (Fin 3) ⟨false, .empty, .empty⟩) s ∧
    (s.locals 1).control = .main .loop ∧ (s.locals 2).control = .main .loop := by
  have hrun : (steps (sender.crewStep shares) (signalledTwice 0 1 2)
      (startAll (Fin 3) ⟨false, .empty, .empty⟩)).map
        (fun s => ((s.locals 1).control, (s.locals 2).control)) =
      some (.main .loop, .main .loop) := by
    decide +kernel
  obtain ⟨s, hs, hobs⟩ := exists_reaches_of_map hrun
  exact ⟨s, hs, Prod.mk.inj hobs⟩

-- ---------------------------------------------------------------------------
-- Both senders
-- ---------------------------------------------------------------------------

/-- **The senders exclude each other** by their key file, any number of them and in any order: as
long as no sender gets a second signal, one at most is behind its `open`. A sender that gets one
while it exits may remove the key file of the next, so that two come to their loops. If signals
that are handled come in the loop, nothing that the senders created is left where the key file is
not, whatever calls fail. -/
theorem senders_exclusive (T : Type) [DecidableEq T] (sys : System) :
    ((∀ s, ReachesWhen (fun a s => Program.OneSignal a.2 (Program.seen shares s a.1))
        (sender.crewStep shares) (startAll T sys) s → ∀ t u, sender.Inside .openFile (s.locals t) →
          sender.Inside .openFile (s.locals u) → t = u) ∧
      (∃ s, Reaches (sender.crewStep shares) (startAll (Fin 3) ⟨false, .empty, .empty⟩) s ∧
        (s.locals 1).control = .main .loop ∧ (s.locals 2).control = .main .loop) ∧
      ∀ s, ReachesWhen (fun a s => sender.SignalledAt .loop a.2 (Program.seen shares s a.1))
        (sender.crewStep shares) (startAll T sys) s → s.shared.keyFile = false →
          s.shared = { sys with keyFile := false }) ∧
    (∀ s, ReachesWhen (fun a s => Program.OneSignal a.2 (Program.seen Sems.Startup.shares s a.1))
        (Sems.Startup.sender.crewStep Sems.Startup.shares) (Sems.Startup.startAll T sys) s →
          ∀ t u, Sems.Startup.sender.Inside .openFile (s.locals t) →
            Sems.Startup.sender.Inside .openFile (s.locals u) → t = u) ∧
      (∃ s, Reaches (Sems.Startup.sender.crewStep Sems.Startup.shares)
          (Sems.Startup.startAll (Fin 3) ⟨false, .empty, .empty⟩) s ∧
        (s.locals 1).control = .main .loop ∧ (s.locals 2).control = .main .loop) ∧
      ∀ s, ReachesWhen (fun a s =>
          Sems.Startup.sender.SignalledAt .loop a.2 (Program.seen Sems.Startup.shares s a.1))
        (Sems.Startup.sender.crewStep Sems.Startup.shares) (Sems.Startup.startAll T sys) s →
          s.shared.keyFile = false → s.shared = { sys with keyFile := false } :=
  ⟨⟨fun _ h => exclusive h, two_in_loop, fun _ h => restored h⟩,
    fun _ h => Sems.Startup.exclusive h, Sems.Startup.two_in_loop,
    fun _ h => Sems.Startup.restored h⟩

end LabsOS.Shmem
