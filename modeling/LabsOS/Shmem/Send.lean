import LabsOS.Sems.Startup

/-!
# The sender of the time

`main` and `free_at_exit` of `lab7_shmem/send.c`, one statement for each call, as
`LabsOS.Sems.Startup` has the other sender. It has no semaphore, and installs its handler behind
the last call that can fail.

`failed_start_not_undone` says of both senders what a start that fails leaves behind.
-/

namespace LabsOS.Shmem

open Signals SystemV

-- ---------------------------------------------------------------------------
-- The program
-- ---------------------------------------------------------------------------

/-- The global variable, the handlers installed, and the system. -/
structure Vars where
  system : System
  shmid : Int
  handled : Signal → Bool

/-- The next statement of `main`, with the key and with the result that is to be stored.
`perror` stands for the exit behind it too. -/
inductive MainPc where
  | openFile
  | close
  | ftok
  | shmget (key : Nat)
  | storeSegment (result : Int)
  | shmat
  | signalTerm
  | signalInt
  | loop
  | perror
  deriving DecidableEq, Repr

/-- The next statement of `free_at_exit`. -/
inductive HandlerPc where
  | detach
  | removeSegment
  | unlink
  deriving DecidableEq, Repr

namespace Vars

variable (x : Vars)

def install (sig : Signal) : Vars := { x with handled := Function.update x.handled sig true }

def setKeyFile (present : Bool) : Vars := { x with system := { x.system with keyFile := present } }

def setSegments (t : Table) : Vars := { x with system := { x.system with segments := t } }

end Vars

def mainNext (a : Answer) (x : Vars) : MainPc → Vars × Control MainPc HandlerPc
  | .openFile =>
    if a.ok ∧ x.system.keyFile = false then (x.setKeyFile true, .main .close)
    else (x, .exiting 1)
  | .close => (x, .main .ftok)
  | .ftok => (x, .main (if a.ok ∧ x.system.keyFile = true then .shmget a.key else .perror))
  | .shmget key =>
    match a.create key x.system.segments with
    | some t => (x.setSegments t, .main (.storeSegment a.id))
    | none => (x, .main (.storeSegment (-1)))
  | .storeSegment result =>
    ({ x with shmid := result }, .main (if result = -1 then .perror else .shmat))
  | .shmat => (x, .main (if a.ok then .signalTerm else .perror))
  -- what `signal` returns is not looked at
  | .signalTerm => (if a.ok then x.install .term else x, .main .signalInt)
  | .signalInt => (if a.ok then x.install .int else x, .main .loop)
  | .loop => (x, .main .loop)
  | .perror => (x, .exiting 1)

def handlerNext (x : Vars) : HandlerPc → Vars × Control MainPc HandlerPc
  | .detach => (x, .handler .removeSegment)
  | .removeSegment => (x.setSegments (x.system.segments.remove x.shmid), .handler .unlink)
  | .unlink => (x.setKeyFile false, .exiting 0)

def sender : Program Answer Vars MainPc HandlerPc where
  main := mainNext
  handler := fun _ => handlerNext
  entry := .detach
  installed := Vars.handled

/-- The variables at the start, in the system `sys`. -/
def Vars.initial (sys : System) : Vars := ⟨sys, 0, fun _ => false⟩

def start (sys : System) : Signals.Process Vars MainPc HandlerPc :=
  Program.boot (.initial sys) .openFile

variable {sys : System} {x : Vars} {s : Signals.Process Vars MainPc HandlerPc}

-- ---------------------------------------------------------------------------
-- The key file
-- ---------------------------------------------------------------------------

theorem openFile_refused (hkey : sys.keyFile = true) (a : Answer) :
    mainNext a (.initial sys) .openFile = (.initial sys, .exiting 1) := by
  rw [mainNext, if_neg]
  rintro ⟨-, hnone⟩
  cases hkey.symm.trans hnone

theorem refused (hkey : sys.keyFile = true) (h : Reaches sender.step (start sys) s) :
    Program.RefusedAt (.initial sys) .openFile 1 s.vars s.control :=
  Program.refusedAt_of_reaches (openFile_refused hkey) (fun _ => rfl) h

/-- `main` never removes the key file. -/
theorem mainNext_keyFile (a : Answer) (x : Vars) (pc : MainPc) (h : x.system.keyFile = true) :
    (mainNext a x pc).1.system.keyFile = true := by
  cases pc with
  | openFile =>
    rw [mainNext]
    split
    · rfl
    · exact h
  | signalTerm | signalInt | shmget =>
    rw [mainNext]
    split <;> exact h
  | _ => exact h

theorem handlerExits : sender.HandlerExits 0 := by
  intro a x pc
  cases pc with
  | unlink => exact .inr rfl
  | _ => exact .inl ⟨_, rfl⟩

theorem close_behind : sender.Behind .openFile .close where
  ne := nofun
  first a x := by
    show (mainNext a x .openFile).2 ≠ _
    rw [mainNext]
    split <;> exact nofun
  rest a x pc hpc := by
    show (mainNext a x pc).2 ≠ _ ∧ (mainNext a x pc).2 ≠ _
    cases pc with
    | openFile => exact absurd rfl hpc
    | close | signalTerm | signalInt | loop | perror => exact ⟨nofun, nofun⟩
    | _ =>
      rw [mainNext]
      split <;> exact ⟨nofun, nofun⟩

theorem openFile_creates {a : Answer}
    (h : mainNext a (.initial sys) .openFile = (x, .main .close)) :
    sys.keyFile = false ∧ x.system.keyFile = true := by
  rw [mainNext] at h
  split at h
  · next hopen =>
    obtain ⟨rfl, -⟩ := Prod.mk.inj h
    exact ⟨hopen.2, rfl⟩
  · cases h

/-- A sender that gives up behind `open` leaves the key file. -/
theorem keyFile_of_exited (h : sender.ExitsBehind (start sys) .close 1 s) :
    sys.keyFile = false ∧ s.vars.system.keyFile = true :=
  h.of_first (P := fun x : Vars => sys.keyFile = false ∧ x.system.keyFile = true) close_behind
    handlerExits (by decide) (fun _ _ hfirst => openFile_creates hfirst)
    fun a x pc hx => ⟨hx.1, mainNext_keyFile a x pc hx.2⟩

-- ---------------------------------------------------------------------------
-- Both senders
-- ---------------------------------------------------------------------------

/-- **A start that fails is not undone.** A sender that has created the key file and exits with
failure leaves the system changed, wherever it failed; and the next sender goes no further than
its `open`. -/
theorem failed_start_not_undone (sys : System) :
    (∀ s, sender.ExitsBehind (start sys) .close 1 s → s.vars.system ≠ sys ∧
      ∀ s', Reaches sender.step (start s.vars.system) s' →
        Program.RefusedAt (.initial s.vars.system) .openFile 1 s'.vars s'.control) ∧
    ∀ s, Sems.Startup.sender.ExitsBehind (Sems.Startup.start sys) .close 1 s →
      s.vars.system ≠ sys ∧
      ∀ s', Reaches Sems.Startup.sender.step (Sems.Startup.start s.vars.system) s' →
        Program.RefusedAt (.initial s.vars.system) .openFile 1 s'.vars s'.control := by
  constructor
  · intro s h
    obtain ⟨habsent, hleft⟩ := keyFile_of_exited h
    refine ⟨fun heq => ?_, fun s' hs' => refused hleft hs'⟩
    rw [heq, habsent] at hleft
    cases hleft
  · intro s h
    obtain ⟨habsent, hleft⟩ := Sems.Startup.keyFile_of_exited h
    refine ⟨fun heq => ?_, fun s' hs' => Sems.Startup.refused hleft hs'⟩
    rw [heq, habsent] at hleft
    cases hleft

/-- A system with a set that was left over. -/
def systemWithSet : System := ⟨false, .empty, ⟨[⟨3, 7, true⟩], by decide⟩⟩

/-- All calls are carried out, if they can be. -/
def carriedOut (n : Nat) : List (Signals.Action Answer) := List.replicate n (.run ⟨true, 4, 7⟩)

/-- The segment cannot be attached. -/
theorem exits_at_shmat : ∃ s, sender.ExitsBehind (start systemWithSet) .close 1 s ∧
    s.vars.system = ⟨true, ⟨[⟨4, 7, true⟩], by decide⟩, systemWithSet.sets⟩ := by
  exact ⟨_, Program.exitsBehind_of_steps (carriedOut 1)
    (carriedOut 4 ++ [.run ⟨false, 0, 0⟩] ++ carriedOut 2) rfl rfl rfl rfl, rfl⟩

/-- The key of the set is taken. -/
theorem exits_at_semget : ∃ s,
    Sems.Startup.sender.ExitsBehind (Sems.Startup.start systemWithSet) .close 1 s ∧
    s.vars.system = ⟨true, ⟨[⟨4, 7, true⟩], by decide⟩, systemWithSet.sets⟩ := by
  exact ⟨_, Program.exitsBehind_of_steps (carriedOut 1) (carriedOut 11) rfl rfl rfl rfl, rfl⟩

/-- Neither start is undone. -/
theorem failed_start_not_undone_set :
    (∃ s, sender.ExitsBehind (start systemWithSet) .close 1 s ∧ s.vars.system ≠ systemWithSet ∧
      ∀ s', Reaches sender.step (start s.vars.system) s' →
        Program.RefusedAt (.initial s.vars.system) .openFile 1 s'.vars s'.control) ∧
    ∃ s, Sems.Startup.sender.ExitsBehind (Sems.Startup.start systemWithSet) .close 1 s ∧
      s.vars.system ≠ systemWithSet ∧
      ∀ s', Reaches Sems.Startup.sender.step (Sems.Startup.start s.vars.system) s' →
        Program.RefusedAt (.initial s.vars.system) .openFile 1 s'.vars s'.control := by
  obtain ⟨s, hs, -⟩ := exits_at_shmat
  obtain ⟨s', hs', -⟩ := exits_at_semget
  obtain ⟨htime, hmessages⟩ := failed_start_not_undone systemWithSet
  exact ⟨⟨s, hs, htime s hs⟩, s', hs', hmessages s' hs'⟩

/-- Both senders leave the key file and a segment. -/
theorem failed_start_leaves_segment :
    (∃ s, sender.ExitsBehind (start systemWithSet) .close 1 s ∧ s.vars.system ≠ systemWithSet) ∧
    ∃ s, Sems.Startup.sender.ExitsBehind (Sems.Startup.start systemWithSet) .close 1 s ∧
      s.vars.system ≠ systemWithSet := by
  obtain ⟨s, hs, hsystem⟩ := exits_at_shmat
  obtain ⟨s', hs', hsystem'⟩ := exits_at_semget
  refine ⟨⟨s, hs, ?_⟩, s', hs', ?_⟩
  · rw [hsystem]
    decide
  · rw [hsystem']
    decide

end LabsOS.Shmem
