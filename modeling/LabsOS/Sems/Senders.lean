import LabsOS.Concurrency.Crew
import LabsOS.Sems.Startup

/-!
# Several senders

Any number of the senders of `lab9_sems/send.c` that are started in one system. They exclude each
other by the key file, which the first statement creates and the handler removes at the end.

At most one sender is behind its `open` if none gets a signal while it handles one (`exclusive`),
and otherwise there may be two (`two_in_loop`). If the signals come in the loop, a sender that is
ended by one leaves the system as it was (`restored`).
-/

namespace LabsOS.Sems.Startup

open Signals SystemV

/-- The senders share the system. -/
def shares : Shares Vars System where
  get := Vars.system
  set sys x := { x with system := sys }
  get_set _ _ := rfl
  set_get _ := rfl

/-- The key file exists. -/
def Locked (sys : System) : Prop := sys.keyFile = true

theorem locks : sender.Locks shares Locked .openFile where
  installed_set _ _ := rfl
  first a x := by
    show mainNext a x .openFile = (x, .exiting 1) ∨ ¬ x.system.keyFile = true ∧
      (mainNext a x .openFile).1.system.keyFile = true ∧
      ∃ pc ≠ MainPc.openFile, (mainNext a x .openFile).2 = .main pc
    rw [mainNext]
    split
    · next hopen => exact .inr ⟨by simp [hopen.2], rfl, .close, by rintro ⟨⟩, rfl⟩
    · exact .inl rfl
  main_locked a x pc _ hlocked := mainNext_keyFile a x pc hlocked
  main_control a x pc hpc := by
    show (∃ pc' ≠ MainPc.openFile, (mainNext a x pc).2 = .main pc') ∨
      (mainNext a x pc).2 = .exiting 1
    cases pc with
    | openFile => exact absurd rfl hpc
    | close | loop =>
      refine .inl ⟨_, ?_, rfl⟩
      rintro ⟨⟩
    | reportError => exact .inr rfl
    | _ =>
      rw [mainNext]
      split <;> refine .inl ⟨_, ?_, rfl⟩ <;> rintro ⟨⟩
  handler a x pc := by
    cases pc with
    | removeFile => exact .inr rfl
    | _ => exact .inl ⟨_, rfl, id⟩

-- ---------------------------------------------------------------------------
-- The objects of the owner
-- ---------------------------------------------------------------------------

/-- What the sender that has the key file has created at each statement. -/
def Created (sys : System) (x : Vars) : Control MainPc HandlerPc → Prop
  | .main .close | .main .signalInt | .main .signalTerm | .main .ftok | .main (.shmget _)
  | .handler .removeFile => x.system.segments = sys.segments ∧ x.system.sets = sys.sets
  | .main (.storeSegment _ result) =>
    (result ≠ -1 → sys.segments.Adds x.system.segments result) ∧ x.system.sets = sys.sets
  | .main (.shmat _) | .main (.semget _) =>
    sys.segments.Adds x.system.segments x.sharedMemoryId ∧ x.system.sets = sys.sets
  | .main (.storeSet result) =>
    sys.segments.Adds x.system.segments x.sharedMemoryId ∧
      (result ≠ -1 → sys.sets.Adds x.system.sets result)
  | .main .setval | .main .loop | .handler .detach | .handler .removeSegment =>
    sys.segments.Adds x.system.segments x.sharedMemoryId ∧
      sys.sets.Adds x.system.sets x.semaphoreId
  | .handler .removeSet =>
    x.system.segments = sys.segments ∧ sys.sets.Adds x.system.sets x.semaphoreId
  | _ => True

/-- The key file, and what the sender has created. -/
def Held (sys : System) (x : Vars) (c : Control MainPc HandlerPc) : Prop :=
  x.system.keyFile = true ∧ Created sys x c

theorem created_main {sys : System} {a : Answer} {x : Vars} {pc : MainPc} (hpc : pc ≠ .openFile)
    (h : Created sys x (.main pc)) : Created sys (mainNext a x pc).1 (mainNext a x pc).2 := by
  cases pc with
  | openFile => exact absurd rfl hpc
  | close | loop => exact h
  | reportError => trivial
  | signalInt | signalTerm =>
    rw [mainNext]
    split
    · exact h
    · trivial
  | ftok | shmat | setval =>
    rw [mainNext]
    split
    · exact h
    · trivial
  | shmget key =>
    rw [mainNext]
    split
    · next t ht =>
      refine ⟨fun _ => ⟨key, a.id, ?_, rfl⟩, h.2⟩
      rw [← h.1]
      exact Answer.create_eq_some ht
    · exact ⟨fun hne => absurd rfl hne, h.2⟩
  | storeSegment key result =>
    rw [mainNext]
    split
    · trivial
    · next hne => exact ⟨h.1 hne, h.2⟩
  | semget key =>
    rw [mainNext]
    split
    · next t ht =>
      refine ⟨h.1, fun _ => ⟨key, a.id, ?_, rfl⟩⟩
      rw [← h.2]
      exact Answer.create_eq_some ht
    · exact ⟨h.1, fun hne => absurd rfl hne⟩
  | storeSet result =>
    rw [mainNext]
    split
    · trivial
    · next hne => exact ⟨h.1, h.2 hne⟩

theorem custody (sys : System) :
    sender.Custody shares Locked .openFile (sender.SignalledAt .loop) (Held sys)
      (· = { sys with keyFile := false }) where
  locked_of_held _ _ hheld := hheld.1
  first a x hfree hlocked := by
    have hsystem : x.system = { sys with keyFile := false } := hfree
    refine ⟨hlocked, ?_⟩
    show Created _ (mainNext a x .openFile).1 (mainNext a x .openFile).2
    rw [mainNext]
    split
    · constructor
      · show x.system.segments = sys.segments
        rw [hsystem]
      · show x.system.sets = sys.sets
        rw [hsystem]
    · trivial
  main a x pc hpc hheld := ⟨mainNext_keyFile a x pc hheld.1, created_main hpc hheld.2⟩
  handler a x pc hheld := by
    obtain ⟨hlocked, hcreated⟩ := hheld
    cases pc with
    | detach => exact .inl ⟨hlocked, hcreated⟩
    | removeSegment => exact .inl ⟨hlocked, hcreated.1.remove, hcreated.2⟩
    | removeSet => exact .inl ⟨hlocked, hcreated.1, hcreated.2.remove⟩
    | removeFile =>
      refine .inr ⟨rfl, ?_⟩
      show System.mk false x.system.segments x.system.sets = _
      rw [hcreated.1, hcreated.2]
  signal sig s hat hinstalled _ := by
    rcases hat sig rfl with hpc | hnone
    · rw [Program.Inside, hpc]
      exact ⟨by rintro ⟨⟩, id⟩
    · exact Bool.noConfusion (hnone.symm.trans hinstalled)

-- ---------------------------------------------------------------------------
-- Runs of several senders
-- ---------------------------------------------------------------------------

/-- The senders `T`, which are started in the system `sys`. -/
def startAll (T : Type) (sys : System) : Program.Crew T Vars System MainPc HandlerPc :=
  Program.crewBoot shares T (.initial sys) .openFile

theorem exclusive {T : Type} [DecidableEq T] {sys : System}
    {s : Program.Crew T Vars System MainPc HandlerPc}
    (h : ReachesWhen (fun a s => Program.OneSignal a.2 (Program.seen shares s a.1))
      (sender.crewStep shares) (startAll T sys) s) (t u : T)
    (ht : sender.Inside .openFile (s.locals t)) (hu : sender.Inside .openFile (s.locals u)) :
    t = u :=
  locks.exclusive (fun _ => rfl) h t u ht hu

/-- Where no key file is left, nothing else is. -/
theorem restored {T : Type} [DecidableEq T] {sys : System}
    {s : Program.Crew T Vars System MainPc HandlerPc}
    (h : ReachesWhen (fun a s => sender.SignalledAt .loop a.2 (Program.seen shares s a.1))
      (sender.crewStep shares) (startAll T sys) s) (hkey : s.shared.keyFile = false) :
    s.shared = { sys with keyFile := false } := by
  have hstart : Locked sys ∨ sys = { sys with keyFile := false } := by
    obtain ⟨keyFile, segments, sets⟩ := sys
    cases keyFile with
    | true => exact .inl rfl
    | false => exact .inr rfl
  have hguarded := (custody sys).guarded (x := Vars.initial sys) locks (fun _ => rfl) hstart h
  have hopen : ¬ Locked s.shared := by
    intro hlocked
    exact Bool.noConfusion (hkey.symm.trans hlocked)
  refine (hguarded.free fun t ht => hopen ?_).resolve_left hopen
  exact (hguarded.held t ht).1

/-- The sender `t` goes `n` statements on. -/
def goes (t : Fin 3) (n : Nat) : List (Fin 3 × Signals.Action Answer) :=
  List.replicate n (t, .run ⟨true, 4, 7⟩)

/-- A second signal makes the first sender remove the key file of the second. -/
def signalledTwice : List (Fin 3 × Signals.Action Answer) :=
  goes 0 11 ++ [(0, .signal .int)] ++ goes 0 4 ++ goes 1 11 ++ [(0, .signal .term)] ++ goes 0 4 ++
    goes 2 11

theorem two_in_loop : ∃ s,
    Reaches (sender.crewStep shares) (startAll (Fin 3) ⟨false, .empty, .empty⟩) s ∧
    (s.locals 1).control = .main .loop ∧ (s.locals 2).control = .main .loop := by
  have hrun : (steps (sender.crewStep shares) signalledTwice
      (startAll (Fin 3) ⟨false, .empty, .empty⟩)).map
        (fun s => ((s.locals 1).control, (s.locals 2).control)) =
      some (.main .loop, .main .loop) := by
    decide +kernel
  obtain ⟨s, hs, hobs⟩ := exists_reaches_of_map hrun
  exact ⟨s, hs, Prod.mk.inj hobs⟩

end LabsOS.Sems.Startup
