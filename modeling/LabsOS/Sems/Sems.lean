import LabsOS.Concurrency.Team
import LabsOS.Kernel.Text

/-!
# The sender and the receivers

The processes of `lab9_sems/send.c` and `lab9_sems/receive.c`, one action for each
system call and for each byte that `strncpy` copies, with one sender and any number
of receivers `ι`, none of which has started. The kernel holds the key file, the
shared memory segment and the semaphore; each of the calls that set them up may fail
(`Env.ok`), and then the process exits. `semop` waits on a value of zero.

A signal may be delivered to a receiver at any point. Its handler detaches the
segment and exits. The sender receives none.
-/

namespace LabsOS.Sems

-- ---------------------------------------------------------------------------
-- Messages
-- ---------------------------------------------------------------------------

/-- `BUFFER_SIZE`. -/
def bufferSize : Nat := 1024

/-- The size of `message_buffer` and of `received_message`. -/
def messageSize : Nat := 100

/-- The fields of a `struct tm` that are printed. -/
structure LocalTime where
  hour : Nat
  minute : Nat
  second : Nat
  hour_lt : hour < 24
  minute_lt : minute < 60
  second_le : second ≤ 60
  deriving DecidableEq, Repr

/-- What `getpid` returns. -/
abbrev Pid := { n : Nat // n < 2 ^ 31 }

structure Message where
  number : Nat
  time : LocalTime
  deriving DecidableEq, Repr

/-- `"[MESSAGE #%d] Time: %02d:%02d:%02d, PID: %d"`. -/
def Message.text (pid : Pid) (m : Message) : Bytes :=
  ascii "[MESSAGE #" ++ decimal m.number ++ ascii "] Time: " ++ twoDigits m.time.hour ++
    ascii ":" ++ twoDigits m.time.minute ++ ascii ":" ++ twoDigits m.time.second ++
    ascii ", PID: " ++ decimal pid

/-- What `snprintf` leaves in `message_buffer`. -/
def Message.buffer (pid : Pid) (m : Message) : Bytes := (m.text pid).take (messageSize - 1)

-- ---------------------------------------------------------------------------
-- State
-- ---------------------------------------------------------------------------

inductive Process (ι : Type) where
  | sender
  | receiver (i : ι)
  deriving DecidableEq, Repr

/-- A string that a receiver has copied, and how many messages had been sent then. -/
structure Received (ι : Type) where
  receiver : ι
  text : Bytes
  seen : Nat

/-- What the kernel holds, and the history: `holder` is the process that has taken
the semaphore and not given it back, `sent` the complete messages. No process reads
the history. -/
structure Shared (ι : Type) where
  keyFile : Bool
  segment : Option Bytes
  semaphore : Option Nat
  holder : Option (Process ι)
  sent : List Message
  received : List (Received ι)

/-- The next action of the sender, with `message_counter`. -/
inductive SenderPc where
  | openFile
  | ftok
  | shmget
  | shmat
  | semget
  | setval
  | lock (counter : Nat)
  | format (counter : Nat)
  | copy (m : Message) (i : Nat)
  | terminate (m : Message)
  | unlock (counter : Nat)
  | exited
  deriving DecidableEq, Repr

/-- The next action of a receiver. `handler` is `cleanup_handler`, entered inside
or outside the critical section. -/
inductive ReceiverPc where
  | ftok
  | shmget
  | shmat
  | semget
  | lock
  | copy (i : Nat) (message : Bytes)
  | print (message : Bytes)
  | unlock
  | handler (inside : Bool)
  | exited
  deriving DecidableEq, Repr

@[reducible] def Pc {ι : Type} : Process ι → Type
  | .sender => SenderPc
  | .receiver _ => ReceiverPc

abbrev State (ι : Type) := Team (T := Process ι) (Shared ι) Pc

variable {ι : Type}

-- ---------------------------------------------------------------------------
-- Actions
-- ---------------------------------------------------------------------------

/-- What the rest of the world decides about an action: whether a call succeeds, and
the time. -/
structure Env where
  ok : Bool
  time : LocalTime

/-- `semop` with `lock_operation`. A semaphore that is gone is an error, which the
programs do not look at. -/
def Shared.lock (p : Process ι) (x : Shared ι) : Option (Shared ι) :=
  match x.semaphore with
  | none => some x
  | some 0 => none
  | some (v + 1) => some { x with semaphore := some v, holder := some p }

/-- `semop` with `unlock_operation`. -/
def Shared.unlock (x : Shared ι) : Shared ι :=
  { x with semaphore := x.semaphore.map (· + 1), holder := none }

def Shared.setByte (i : Nat) (b : UInt8) (x : Shared ι) : Shared ι :=
  { x with segment := x.segment.map (·.set i b) }

/-- The next action of the sender. Its loop ends in the undefined behaviour of a
counter that overflows. -/
def senderNext (pid : Pid) (env : Env) (x : Shared ι) : SenderPc → Option (Shared ι × SenderPc)
  | .openFile =>
    if env.ok ∧ x.keyFile = false then some ({ x with keyFile := true }, .ftok)
    else some (x, .exited)
  | .ftok => some (x, if env.ok ∧ x.keyFile = true then .shmget else .exited)
  | .shmget =>
    if env.ok ∧ x.segment = none then
      some ({ x with segment := some (List.replicate bufferSize 0) }, .shmat)
    else some (x, .exited)
  | .shmat => some (x, if env.ok then .semget else .exited)
  | .semget =>
    if env.ok ∧ x.semaphore = none then some ({ x with semaphore := some 0 }, .setval)
    else some (x, .exited)
  | .setval =>
    if env.ok then some ({ x with semaphore := x.semaphore.map fun _ => 1 }, .lock 0)
    else some (x, .exited)
  | .lock counter => (x.lock .sender).map (·, .format counter)
  | .format counter =>
    if counter + 1 < 2 ^ 31 then some (x, .copy ⟨counter + 1, env.time⟩ 0) else none
  | .copy m i =>
    if i < bufferSize - 1 then some (x.setByte i ((m.buffer pid).getD i 0), .copy m (i + 1))
    else some (x, .terminate m)
  | .terminate m =>
    some ({ x.setByte (bufferSize - 1) 0 with sent := x.sent ++ [m] }, .unlock m.number)
  | .unlock counter => some (x.unlock, .lock counter)
  | .exited => none

/-- The next action of the receiver `i`. The NUL that ends the string ends the
copying too. -/
def receiverNext (env : Env) (i : ι) (x : Shared ι) : ReceiverPc → Option (Shared ι × ReceiverPc)
  | .ftok => some (x, if env.ok ∧ x.keyFile = true then .shmget else .exited)
  | .shmget => some (x, if env.ok ∧ x.segment.isSome then .shmat else .exited)
  | .shmat => some (x, if env.ok then .semget else .exited)
  | .semget => some (x, if env.ok ∧ x.semaphore.isSome then .lock else .exited)
  | .lock => (x.lock (.receiver i)).map (·, .copy 0 [])
  | .copy k message =>
    let b := (x.segment.getD []).getD k 0
    some (x, if k < messageSize - 1 ∧ b ≠ 0 then .copy (k + 1) (message ++ [b]) else .print message)
  | .print message => some ({ x with received := x.received ++ [⟨i, message, x.sent.length⟩] }, .unlock)
  | .unlock => some (x.unlock, .lock)
  | .handler _ => some (x, .exited)
  | .exited => none

/-- The receiver is between its `lock_operation` and its `unlock_operation`. -/
def ReceiverPc.inside : ReceiverPc → Bool
  | .copy .. | .print _ | .unlock | .handler true => true
  | _ => false

/-- A signal is delivered to the receiver. -/
def interrupt (x : Shared ι) : ReceiverPc → Option (Shared ι × ReceiverPc)
  | .handler _ | .exited => none
  | pc => some (x, .handler pc.inside)

inductive Action (ι : Type) where
  | run (p : Process ι) (env : Env)
  | signal (i : ι)

/-- The action is no signal. -/
def Action.IsRun : Action ι → Prop
  | .run .. => True
  | .signal _ => False

instance : (a : Action ι) → Decidable a.IsRun
  | .run .. => .isTrue trivial
  | .signal _ => .isFalse id

/-- The process that takes the action. -/
def Action.actor : Action ι → Process ι
  | .run p _ => p
  | .signal i => .receiver i

def next (pid : Pid) :
    (a : Action ι) → Shared ι → Pc a.actor → Option (Shared ι × Pc a.actor)
  | .run .sender env => senderNext pid env
  | .run (.receiver i) env => receiverNext env i
  | .signal _ => interrupt

def step [DecidableEq ι] (pid : Pid) : Action ι → State ι → Option (State ι) :=
  Team.step Action.actor (next pid)

/-- No process has started, and nothing is left over from an earlier run. -/
def start : State ι where
  shared := ⟨false, none, none, none, [], []⟩
  locals
    | .sender => .openFile
    | .receiver _ => .ftok

end LabsOS.Sems
