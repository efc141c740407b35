import LabsOS.Concurrency.Signals
import LabsOS.Kernel.Text
import Mathlib.Data.List.Count

/-!
# A process and its child

The two processes of `lab3_fork/main.c`, one action for each call and each `fprintf`, with any
interleaving, any failing call, and signals at any point. A signal that comes between the output
of a handler and its `exit` enters the other handler; one whose handler would call `exit` while
`exit` is being carried out is left out, since that is undefined. Other signals kill.

`fprintf` prints a line at once if the output is a terminal, and otherwise when the process exits.
A child gets what its parent has not printed yet.
-/

namespace LabsOS.Fork

open Signals

-- ---------------------------------------------------------------------------
-- What is printed
-- ---------------------------------------------------------------------------

inductive Side where
  | parent
  | child
  deriving DecidableEq, Repr

/-- `SIGNAL_INTERRUPT` and `SIGNAL_TERMINATE`. -/
def number : Signal → Nat
  | .int => 2
  | .term => 15

/-- A signal that no handler is installed for, and that ends the process. -/
abbrev Fatal := { n : Nat // 1 ≤ n ∧ n ≤ 64 ∧ n ≠ 2 ∧ n ≠ 15 }

/-- How a process ends, with or without a core dump. -/
inductive Status where
  | exited (code : Nat)
  | signaled (n : Nat) (core : Bool)
  deriving DecidableEq, Repr

inductive Line where
  | initialized
  | created
  | active
  | childComplete
  | parentComplete
  | exitedWith (code : Nat)
  | killedBy (n : Nat)
  | stoppedBy (n : Nat)
  | undetermined
  | received (side : Side) (sig : Signal)
  | cleanup (side : Side)
  deriving DecidableEq, Repr

/-- The process ids of both processes, and what `getppid` returns to them. -/
structure Facts where
  pid : Side → Nat
  ppid : Side → Nat

def Line.text (f : Facts) : Line → Bytes
  | .initialized =>
    ascii "Main process initialized. PID: " ++ decimal (f.pid .parent) ++ ascii ", Parent PID: " ++
      decimal (f.ppid .parent) ++ ascii "\n"
  | .created =>
    ascii "Parent: Created child process with ID: " ++ decimal (f.pid .child) ++ ascii "\n"
  | .active =>
    ascii "Child process active. PID: " ++ decimal (f.pid .child) ++ ascii ", Parent PID: " ++
      decimal (f.ppid .child) ++ ascii "\n"
  | .childComplete => ascii "Child process execution complete\n"
  | .parentComplete => ascii "Parent process execution complete\n"
  | .exitedWith code =>
    ascii "Parent: Child process terminated normally with code: " ++ decimal code ++ ascii "\n"
  | .killedBy n => ascii "Parent: Child terminated by signal: " ++ decimal n ++ ascii "\n"
  | .stoppedBy n => ascii "Parent: Child process stopped by signal: " ++ decimal n ++ ascii "\n"
  | .undetermined => ascii "Parent: Child process status undetermined\n"
  | .received side .int =>
    ascii "Process " ++ decimal (f.pid side) ++ ascii ": Signal " ++ decimal (number .int) ++
      ascii " received. Initiating shutdown.\n"
  | .received side .term =>
    ascii "Process " ++ decimal (f.pid side) ++ ascii ": Termination signal " ++
      decimal (number .term) ++ ascii " received.\n"
  | .cleanup side =>
    ascii "Cleanup performed for process ID: " ++ decimal (f.pid side) ++ ascii "\n"

-- ---------------------------------------------------------------------------
-- The status of a child
-- ---------------------------------------------------------------------------

/-- What `wait` stores in `completion_status`. -/
def Status.encode : Status → Nat
  | .exited code => code % 256 * 256
  | .signaled n core => n + if core then 128 else 0

/-- `WIFEXITED`. -/
def ifExited (w : Nat) : Bool := w % 128 = 0

/-- `WEXITSTATUS`. -/
def exitStatus (w : Nat) : Nat := w / 256 % 256

/-- `WTERMSIG`. -/
def termSig (w : Nat) : Nat := w % 128

/-- `WIFSIGNALED`. -/
def ifSignaled (w : Nat) : Bool := 0 < w % 128 ∧ w % 128 < 127

/-- `WIFSTOPPED`. -/
def ifStopped (w : Nat) : Bool := w % 256 = 127

/-- What `monitor_child_process` says of a status. -/
def report (w : Nat) : Line :=
  if ifExited w then .exitedWith (exitStatus w)
  else if ifSignaled w then .killedBy (termSig w)
  else if ifStopped w then .stoppedBy (exitStatus w)
  else .undetermined

-- ---------------------------------------------------------------------------
-- State
-- ---------------------------------------------------------------------------

/-- The next statement of a process. `leaving` is in front of `exit`, `cleanup` and `flush` are
parts of it. -/
inductive Pc where
  | atexit
  | signalInt
  | sigaction
  | printInitialized
  | fork
  | printCreated
  | wait
  | report (how : Status)
  | printParentComplete
  | printActive
  | sleep
  | printChildComplete
  | handler (sig : Signal)
  | leaving (status : Nat)
  | cleanup (status : Nat)
  | flush (status : Nat)
  | ended (how : Status)
  deriving DecidableEq, Repr

/-- A process: the lines in its buffer, whether `cleanup_routine` is registered, the handlers, and
the signals that are blocked. `said` is history: all lines that the process has printed, or has
in its buffer, or had there. -/
structure Proc where
  pc : Pc
  buffer : List Line
  registered : Bool
  handled : Signal → Bool
  blocked : Signal → Bool
  said : List Line

/-- The processes, what was printed and by whom, and the errors. -/
structure State where
  procs : Side → Option Proc
  output : List (Side × Line)
  errors : List Bytes

namespace State

variable (s : State) (side : Side) (p : Proc)

def set : State := { s with procs := Function.update s.procs side (some p) }

def perror (text : Bytes) : State := { s with errors := s.errors ++ [text] }

def put (lines : List Line) : State := { s with output := s.output ++ lines.map (side, ·) }

/-- `fprintf(stdout, ..)`, and the process goes on at `pc`. -/
def print (tty : Bool) (line : Line) (pc : Pc) : State :=
  if tty then (s.put side [line]).set side { p with pc := pc, said := p.said ++ [line] }
  else
    s.set side { p with pc := pc, buffer := p.buffer ++ [line], said := p.said ++ [line] }

end State

def start : State where
  procs
    | .parent => some ⟨.atexit, [], false, fun _ => false, fun _ => false, []⟩
    | .child => none
  output := []
  errors := []

-- ---------------------------------------------------------------------------
-- Actions
-- ---------------------------------------------------------------------------

/-- How the child has ended. -/
def State.childEnd (s : State) : Option Status :=
  match s.procs .child with
  | some c =>
    match c.pc with
    | .ended how => some how
    | _ => none
  | none => none

/-- The child that `fork` creates from the parent `p`. What it has in its buffer it will print. -/
def Proc.forked (p : Proc) : Proc := { p with pc := .printActive, said := p.buffer }

/-- The next statement of the process `p`, whose call succeeds if `ok`. -/
def runProc (tty ok : Bool) (side : Side) (s : State) (p : Proc) : Option State :=
  match p.pc with
  | .atexit =>
    if ok then some (s.set side { p with registered := true, pc := .signalInt })
    else some ((s.perror (ascii "Cleanup registration error")).set side { p with pc := .leaving 1 })
  | .signalInt =>
    if ok then
      some (s.set side { p with handled := Function.update p.handled .int true, pc := .sigaction })
    else
      some ((s.perror (ascii "Interrupt signal handler registration failed")).set side
        { p with pc := .leaving 1 })
  | .sigaction =>
    if ok then
      some (s.set side
        { p with handled := Function.update p.handled .term true, pc := .printInitialized })
    else
      some ((s.perror (ascii "Termination signal handler setup failed")).set side
        { p with pc := .leaving 1 })
  | .printInitialized => some (s.print side p tty .initialized .fork)
  | .fork =>
    if ok then some ((s.set side { p with pc := .printCreated }).set .child p.forked)
    else some ((s.perror (ascii "Process creation failed")).set side { p with pc := .leaving 1 })
  | .printCreated => some (s.print side p tty .created .wait)
  | .wait =>
    if ok then s.childEnd.map fun how => s.set side { p with pc := .report how }
    else some ((s.perror (ascii "Process monitoring failed")).set side { p with pc := .leaving 1 })
  | .report how => some (s.print side p tty (report how.encode) .printParentComplete)
  | .printParentComplete => some (s.print side p tty .parentComplete (.leaving 0))
  | .printActive => some (s.print side p tty .active .sleep)
  | .sleep => some (s.set side { p with pc := .printChildComplete })
  | .printChildComplete => some (s.print side p tty .childComplete (.leaving 42))
  | .handler sig => some (s.print side p tty (.received side sig) (.leaving 0))
  | .leaving status => some (s.set side { p with pc := .cleanup status })
  | .cleanup status =>
    if p.registered then some (s.print side p tty (.cleanup side) (.flush status))
    else some (s.set side { p with pc := .flush status })
  | .flush status =>
    some ((s.put side p.buffer).set side { p with pc := .ended (.exited status), buffer := [] })
  | .ended _ => none

/-- What the delivery of a signal changes for the next one: the handler of SIGINT is installed
for one signal only, or the signal is blocked, as the system has it. -/
def Proc.enter (resets : Bool) (sig : Signal) (p : Proc) : Proc :=
  match sig with
  | .int =>
    if resets then { p with pc := .handler .int, handled := Function.update p.handled .int false }
    else { p with pc := .handler .int, blocked := Function.update p.blocked .int true }
  | .term => { p with pc := .handler .term, blocked := Function.update p.blocked .term true }

def Proc.die (n : Nat) (core : Bool) (p : Proc) : Proc :=
  { p with pc := .ended (.signaled n core), buffer := [] }

/-- SIGINT or SIGTERM is delivered to the process `p`. -/
def deliver (resets : Bool) (sig : Signal) (side : Side) (s : State) (p : Proc) : Option State :=
  match p.pc with
  | .ended _ => none
  | .cleanup _ | .flush _ =>
    if p.blocked sig ∨ p.handled sig then none else some (s.set side (p.die (number sig) false))
  | _ =>
    if p.blocked sig then none
    else if p.handled sig then some (s.set side (p.enter resets sig))
    else some (s.set side (p.die (number sig) false))

/-- Another signal kills the process `p`. -/
def kill (n : Fatal) (core : Bool) (side : Side) (s : State) (p : Proc) : Option State :=
  match p.pc with
  | .ended _ => none
  | _ => some (s.set side (p.die n core))

inductive Action where
  | run (side : Side) (ok : Bool)
  | signal (side : Side) (sig : Signal)
  | kill (side : Side) (n : Fatal) (core : Bool)
  deriving DecidableEq

/-- The process that the action is about. -/
def Action.side : Action → Side
  | .run side _ | .signal side _ | .kill side .. => side

/-- `tty` is whether the output is a terminal. -/
def act (tty resets : Bool) (a : Action) (s : State) (p : Proc) : Option State :=
  match a with
  | .run side ok => runProc tty ok side s p
  | .signal side sig => deliver resets sig side s p
  | .kill side n core => kill n core side s p

def step (tty resets : Bool) (a : Action) (s : State) : Option State :=
  (s.procs a.side).bind (act tty resets a s)

end LabsOS.Fork
