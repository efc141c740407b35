import LabsOS.Concurrency.Signals
import LabsOS.Kernel.SystemV

/-!
# The start of the sender

`main` and `cleanup_handler` of `lab9_sems/send.c`, one statement for each call, among the
segments and the semaphore sets of the system. The call that creates an object and the store of
its identifier are two statements, since a signal may come in between. The loop of the sender,
and its mapping of the segment, concern no object.

`handler_removes_only_own_iff` says in which systems the handler removes nothing but what the
sender has created.
-/

namespace LabsOS.Sems.Startup

open Signals SystemV

-- ---------------------------------------------------------------------------
-- The program
-- ---------------------------------------------------------------------------

/-- The global variables, the handlers installed, and the system. -/
structure Vars where
  system : System
  sharedMemoryId : Int
  semaphoreId : Int
  handled : Signal → Bool

/-- The next statement of `main`, with the key and with the result that is to be stored. -/
inductive MainPc where
  | openFile
  | close
  | signalInt
  | signalTerm
  | ftok
  | shmget (key : Nat)
  | storeSegment (key : Nat) (result : Int)
  | shmat (key : Nat)
  | semget (key : Nat)
  | storeSet (result : Int)
  | setval
  | loop
  | reportError
  deriving DecidableEq, Repr

/-- The next statement of `cleanup_handler`. -/
inductive HandlerPc where
  | detach
  | removeSegment
  | removeSet
  | removeFile
  deriving DecidableEq, Repr

namespace Vars

variable (x : Vars)

def install (sig : Signal) : Vars := { x with handled := Function.update x.handled sig true }

def setKeyFile (present : Bool) : Vars := { x with system := { x.system with keyFile := present } }

def setSegments (t : Table) : Vars := { x with system := { x.system with segments := t } }

def setSets (t : Table) : Vars := { x with system := { x.system with sets := t } }

end Vars

def mainNext (a : Answer) (x : Vars) : MainPc → Vars × Control MainPc HandlerPc
  | .openFile =>
    if a.ok ∧ x.system.keyFile = false then (x.setKeyFile true, .main .close)
    else (x, .exiting 1)
  | .close => (x, .main .signalInt)
  | .signalInt =>
    if a.ok then (x.install .int, .main .signalTerm) else (x, .main .reportError)
  | .signalTerm => if a.ok then (x.install .term, .main .ftok) else (x, .main .reportError)
  | .ftok =>
    (x, .main (if a.ok ∧ x.system.keyFile = true then .shmget a.key else .reportError))
  | .shmget key =>
    match a.create key x.system.segments with
    | some t => (x.setSegments t, .main (.storeSegment key a.id))
    | none => (x, .main (.storeSegment key (-1)))
  | .storeSegment key result =>
    ({ x with sharedMemoryId := result },
      .main (if result = -1 then .reportError else .shmat key))
  | .shmat key => (x, .main (if a.ok then .semget key else .reportError))
  | .semget key =>
    match a.create key x.system.sets with
    | some t => (x.setSets t, .main (.storeSet a.id))
    | none => (x, .main (.storeSet (-1)))
  | .storeSet result =>
    ({ x with semaphoreId := result }, .main (if result = -1 then .reportError else .setval))
  | .setval => (x, .main (if a.ok then .loop else .reportError))
  | .loop => (x, .main .loop)
  | .reportError => (x, .exiting 1)

def handlerNext (x : Vars) : HandlerPc → Vars × Control MainPc HandlerPc
  | .detach => (x, .handler .removeSegment)
  | .removeSegment =>
    (x.setSegments (x.system.segments.remove x.sharedMemoryId), .handler .removeSet)
  | .removeSet => (x.setSets (x.system.sets.remove x.semaphoreId), .handler .removeFile)
  | .removeFile => (x.setKeyFile false, .exiting 0)

def sender : Program Answer Vars MainPc HandlerPc where
  main := mainNext
  handler := fun _ => handlerNext
  entry := .detach
  installed := Vars.handled

/-- The variables at the start, in the system `sys`. -/
def Vars.initial (sys : System) : Vars := ⟨sys, 0, 0, fun _ => false⟩

def start (sys : System) : Signals.Process Vars MainPc HandlerPc :=
  Program.boot (.initial sys) .openFile

variable {sys : System} {x : Vars} {s : Signals.Process Vars MainPc HandlerPc}

-- ---------------------------------------------------------------------------
-- A sender that is refused
-- ---------------------------------------------------------------------------

theorem openFile_refused (hkey : sys.keyFile = true) (a : Answer) :
    mainNext a (.initial sys) .openFile = (.initial sys, .exiting 1) := by
  rw [mainNext, if_neg]
  rintro ⟨-, hnone⟩
  cases hkey.symm.trans hnone

theorem refused (hkey : sys.keyFile = true) (h : Reaches sender.step (start sys) s) :
    Program.RefusedAt (.initial sys) .openFile 1 s.vars s.control :=
  Program.refusedAt_of_reaches (openFile_refused hkey) (fun _ => rfl) h

-- ---------------------------------------------------------------------------
-- The key file
-- ---------------------------------------------------------------------------

/-- `main` never removes the key file. -/
theorem mainNext_keyFile (a : Answer) (x : Vars) (pc : MainPc) (h : x.system.keyFile = true) :
    (mainNext a x pc).1.system.keyFile = true := by
  cases pc with
  | openFile =>
    rw [mainNext]
    split
    · rfl
    · exact h
  | signalInt | signalTerm | shmget | semget =>
    rw [mainNext]
    split <;> exact h
  | _ => exact h

theorem handlerExits : sender.HandlerExits 0 := by
  intro a x pc
  cases pc with
  | removeFile => exact .inr rfl
  | _ => exact .inl ⟨_, rfl⟩

theorem close_behind : sender.Behind .openFile .close where
  ne := nofun
  first a x := by
    show (mainNext a x .openFile).2 ≠ _
    rw [mainNext]
    split <;> exact nofun
  rest a x pc hpc := by
    show (mainNext a x pc).2 ≠ _ ∧ (mainNext a x pc).2 ≠ _
    cases pc with
    | openFile => exact absurd rfl hpc
    | close | loop | reportError => exact ⟨nofun, nofun⟩
    | _ =>
      rw [mainNext]
      split <;> exact ⟨nofun, nofun⟩

theorem openFile_creates {a : Answer}
    (h : mainNext a (.initial sys) .openFile = (x, .main .close)) :
    sys.keyFile = false ∧ x.system.keyFile = true := by
  rw [mainNext] at h
  split at h
  · next hopen =>
    obtain ⟨rfl, -⟩ := Prod.mk.inj h
    exact ⟨hopen.2, rfl⟩
  · cases h

/-- A sender that gives up behind `open` leaves the key file. -/
theorem keyFile_of_exited (h : sender.ExitsBehind (start sys) .close 1 s) :
    sys.keyFile = false ∧ s.vars.system.keyFile = true :=
  h.of_first (P := fun x : Vars => sys.keyFile = false ∧ x.system.keyFile = true) close_behind
    handlerExits (by decide) (fun _ _ hfirst => openFile_creates hfirst)
    fun a x pc hx => ⟨hx.1, mainNext_keyFile a x pc hx.2⟩

-- ---------------------------------------------------------------------------
-- The objects of others
-- ---------------------------------------------------------------------------

/-- No object is missing, and the variables name none that the handler could remove. -/
structure Safe (sys : System) (x : Vars) : Prop where
  keeps : sys.Keeps x.system
  segment : sys.segments.Harmless x.sharedMemoryId
  set : sys.sets.Harmless x.semaphoreId

/-- The result that is to be stored is harmless too. -/
def Pending (sys : System) : Control MainPc HandlerPc → Prop
  | .main (.storeSegment _ result) => sys.segments.Harmless result
  | .main (.storeSet result) => sys.sets.Harmless result
  | _ => True

theorem safe_main (a : Answer) (x : Vars) (pc : MainPc)
    (h : Safe sys x ∧ Pending sys (.main pc)) :
    Safe sys (mainNext a x pc).1 ∧ Pending sys (mainNext a x pc).2 := by
  obtain ⟨hsafe, hpending⟩ := h
  obtain ⟨⟨hsegments, hsets⟩, hsegment, hset⟩ := hsafe
  have hsafe : Safe sys x := ⟨⟨hsegments, hsets⟩, hsegment, hset⟩
  cases pc with
  | openFile | signalInt | signalTerm =>
    rw [mainNext]
    split
    · exact ⟨⟨⟨hsegments, hsets⟩, hsegment, hset⟩, trivial⟩
    · exact ⟨hsafe, trivial⟩
  | ftok | shmat | setval =>
    refine ⟨hsafe, ?_⟩
    rw [mainNext]
    split <;> trivial
  | shmget key =>
    rw [mainNext]
    split
    · next t ht =>
      obtain ⟨hkept, hfresh⟩ := Table.create_keeps hsegments (Answer.create_eq_some ht)
      exact ⟨⟨⟨hkept, hsets⟩, hsegment, hset⟩, hfresh⟩
    · exact ⟨hsafe, Table.harmless_of_neg (by decide)⟩
  | semget key =>
    rw [mainNext]
    split
    · next t ht =>
      obtain ⟨hkept, hfresh⟩ := Table.create_keeps hsets (Answer.create_eq_some ht)
      exact ⟨⟨⟨hsegments, hkept⟩, hsegment, hset⟩, hfresh⟩
    · exact ⟨hsafe, Table.harmless_of_neg (by decide)⟩
  | storeSegment key result =>
    refine ⟨⟨⟨hsegments, hsets⟩, hpending, hset⟩, ?_⟩
    rw [mainNext]
    split <;> trivial
  | storeSet result =>
    refine ⟨⟨⟨hsegments, hsets⟩, hsegment, hpending⟩, ?_⟩
    rw [mainNext]
    split <;> trivial
  | close | loop | reportError => exact ⟨hsafe, trivial⟩

theorem safe_handler (x : Vars) (pc : HandlerPc) (h : Safe sys x) :
    Safe sys (handlerNext x pc).1 := by
  obtain ⟨⟨hsegments, hsets⟩, hsegment, hset⟩ := h
  cases pc with
  | detach => exact ⟨⟨hsegments, hsets⟩, hsegment, hset⟩
  | removeSegment => exact ⟨⟨hsegment.subset_remove hsegments, hsets⟩, hsegment, hset⟩
  | removeSet => exact ⟨⟨hsegments, hset.subset_remove hsets⟩, hsegment, hset⟩
  | removeFile => exact ⟨⟨hsegments, hsets⟩, hsegment, hset⟩

theorem safe_keeps : sender.Keeps fun x c => Safe sys x ∧ Pending sys c where
  main := safe_main
  handler _ x pc h := ⟨safe_handler x pc h.1, by cases pc <;> trivial⟩
  exit _ _ h := ⟨h.1, trivial⟩
  enter _ _ _ _ h := ⟨h.1, trivial⟩
  kill _ _ h := ⟨h.1, trivial⟩

/-- The handler is entered at once, and removes what has the identifier 0. -/
def interruptedEarly : List (Signals.Action Answer) :=
  List.replicate 4 (.run ⟨true, 0, 0⟩) ++ [.signal .int] ++ List.replicate 3 (.run ⟨true, 0, 0⟩)

theorem interrupted_early (hkey : sys.keyFile = false) : ∃ s, Reaches sender.step (start sys) s ∧
    s.vars.system = ⟨true, sys.segments.remove 0, sys.sets.remove 0⟩ := by
  obtain ⟨keyFile, segments, sets⟩ := sys
  obtain rfl : keyFile = false := hkey
  have hrun : steps sender.step interruptedEarly (start ⟨false, segments, sets⟩) = some _ := rfl
  exact ⟨_, Reaches.refl.steps hrun, rfl⟩

/-- **The handler removes only its own.** Wherever the signals come, no segment and no set that
the sender did not create is removed, if and only if the sender is refused, or may remove
neither a segment nor a set with the identifier 0. -/
theorem handler_removes_only_own_iff (sys : System) :
    (∀ s, Reaches sender.step (start sys) s → sys.Keeps s.vars.system) ↔
      sys.keyFile = true ∨ sys.segments.Harmless 0 ∧ sys.sets.Harmless 0 := by
  constructor
  · intro h
    cases hkey : sys.keyFile with
    | true => exact .inl rfl
    | false =>
      obtain ⟨s, hs, hsystem⟩ := interrupted_early hkey
      have hkeeps := h s hs
      rw [hsystem] at hkeeps
      refine .inr ⟨?_, ?_⟩
      · intro o ho
        exact (Table.mem_remove.mp (hkeeps.segments o ho)).2
      · intro o ho
        exact (Table.mem_remove.mp (hkeeps.sets o ho)).2
  · rintro (hkey | ⟨hsegments, hsets⟩) s hs
    · rw [(refused hkey hs).1]
      exact .refl sys
    · have hstart : Safe sys (start sys).vars := ⟨.refl sys, hsegments, hsets⟩
      exact (safe_keeps.asserts_of_reaches hs ⟨hstart, trivial⟩).1.keeps

/-- A system in which another program of the user has the segment 0. -/
def systemWithZero : System := ⟨false, ⟨[⟨0, 1, true⟩], by decide⟩, .empty⟩

/-- The handler removes it. -/
theorem handler_removes_other : ∃ s, Reaches sender.step (start systemWithZero) s ∧
    ⟨0, 1, true⟩ ∈ systemWithZero.segments ∧ ⟨0, 1, true⟩ ∉ s.vars.system.segments := by
  have hrun : (steps sender.step interruptedEarly (start systemWithZero)).map
      (fun s => decide (⟨0, 1, true⟩ ∈ s.vars.system.segments)) = some false := by
    decide +kernel
  obtain ⟨s, hs, hremoved⟩ := exists_reaches_of_map hrun
  exact ⟨s, hs, by decide, of_decide_eq_false hremoved⟩

end LabsOS.Sems.Startup
