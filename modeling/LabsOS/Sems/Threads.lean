import LabsOS.Sems.Messages
import Mathlib.Data.Finset.Erase
import Mathlib.Data.Finset.Range
import Mathlib.Data.Fintype.Defs

/-!
# Two threads and a semaphore

The threads of `lab9_sems/thread_example.c` and its `main` behind `sem_init`. What the semaphore
protects is copied piece by piece: `localtime` stores the fields of its one `struct tm` in any
order, and its caller loads them; `snprintf` stores the bytes of the message in any order, and
`printf` reads them until it finds a NUL. `sleep` is no action, and `message_counter` does not go
on where it would overflow.

Each line is printed as a whole. When a thread cannot be created, `main` returns and with it the
process ends.
-/

namespace LabsOS.Sems.Threads

-- ---------------------------------------------------------------------------
-- What is printed
-- ---------------------------------------------------------------------------

inductive Thread where
  | main
  | writer
  | reader
  deriving DecidableEq, Repr

/-- The fields of a `struct tm` that are printed. -/
inductive Field where
  | hour
  | minute
  | second
  deriving DecidableEq, Repr

instance : Fintype Field := ⟨{.hour, .minute, .second}, fun f => by cases f <;> decide⟩

/-- What `localtime` makes of a time. -/
def tmOf (t : LocalTime) : Field → Nat
  | .hour => t.hour
  | .minute => t.minute
  | .second => t.second

/-- `"%02d:%02d:%02d"`, and `"%H:%M:%S"`. -/
def clock (tm : Field → Nat) : Bytes :=
  twoDigits (tm .hour) ++ ascii ":" ++ twoDigits (tm .minute) ++ ascii ":" ++
    twoDigits (tm .second)

/-- `"Message #%d at %02d:%02d:%02d"`. -/
def message (counter : Nat) (clock : Bytes) : Bytes :=
  ascii "Message #" ++ decimal counter ++ ascii " at " ++ clock

/-- The first line of a thread. -/
def startedLine (tid : Thread → Nat) : Thread → Bytes
  | .main => ascii "Main program started. Press Ctrl+C to exit.\n"
  | .writer => ascii "Writer thread started (TID: " ++ decimal (tid .writer) ++ ascii ")\n"
  | .reader => ascii "Reader thread started (TID: " ++ decimal (tid .reader) ++ ascii ")\n"

def wroteLine (tid : Thread → Nat) (content : Bytes) : Bytes :=
  ascii "Writer (TID: " ++ decimal (tid .writer) ++ ascii "): Wrote - " ++ content ++ ascii "\n"

def readLine (tid : Thread → Nat) (time content : Bytes) : Bytes :=
  ascii "Reader (TID: " ++ decimal (tid .reader) ++ ascii ") | Time: " ++ time ++
    ascii " | Buffer content: " ++ content ++ ascii "\n"

/-- What a line is about: a thread has started, has written its message, or has read it, at the
time it has got from `time`. -/
inductive Event where
  | started (t : Thread)
  | wrote (time : LocalTime)
  | read (time : LocalTime)
  deriving DecidableEq, Repr

-- ---------------------------------------------------------------------------
-- State
-- ---------------------------------------------------------------------------

/-- `BUFFER_SIZE`. -/
def bufferSize : Nat := 256

/-- `shared_buffer`, `message_counter`, and the `struct tm` of `localtime`. -/
structure Data where
  buffer : Nat → UInt8
  counter : Nat
  tm : Field → Nat

/-- A line as it was printed, and what it is about, which is history. -/
structure Line where
  event : Event
  text : Bytes

/-- `holder` is history: the thread that is between its `sem_wait` and its `sem_post`. -/
structure Shared where
  semaphore : Nat
  holder : Option Thread
  data : Data
  created : List Thread
  exited : Bool
  output : List Line

inductive MainPc where
  | createWriter
  | createReader
  | printStarted
  | join
  | returned
  deriving DecidableEq, Repr

/-- The next statement of `writer_thread_function` or `reader_thread_function`, with
`current_time`. `store` is inside `localtime`; `load` loads the arguments of `snprintf` or
`strftime`; `printf` has read the bytes `got` of `shared_buffer`. -/
inductive Pc where
  | printStarted
  | wait
  | count
  | time
  | store (current : LocalTime) (left : Finset Field)
  | load (current : LocalTime) (loaded : Field → Nat) (left : Finset Field)
  | snprintf (current : LocalTime) (text : Bytes) (left : Finset Nat)
  | printf (current : LocalTime) (timeString got : Bytes)
  | post

@[reducible] def Local : Thread → Type
  | .main => MainPc
  | .writer | .reader => Pc

abbrev State := Team Shared Local

/-- `strcpy(shared_buffer, "Initial empty buffer")`. -/
def initial : Bytes := ascii "Initial empty buffer"

/-- The state behind `sem_init`. -/
def start : State where
  shared := ⟨1, none, ⟨fun j => initial.getD j 0, 0, fun _ => 0⟩, [], false, []⟩
  locals
    | .main => .createWriter
    | .writer | .reader => .printStarted

-- ---------------------------------------------------------------------------
-- Actions
-- ---------------------------------------------------------------------------

/-- What the rest of the world decides about an action: whether a thread can be created, the time,
and the field or byte that comes next. -/
structure Env where
  ok : Bool
  time : LocalTime
  field : Field
  index : Nat

namespace Shared

variable (x : Shared)

def print (event : Event) (text : Bytes) : Shared :=
  { x with output := x.output ++ [⟨event, text⟩] }

def create (t : Thread) : Shared := { x with created := x.created ++ [t] }

/-- `return 1` of `main`. -/
def finish : Shared := { x with exited := true }

/-- `sem_wait`. -/
def wait (t : Thread) : Option Shared :=
  if 0 < x.semaphore then some { x with semaphore := x.semaphore - 1, holder := some t } else none

/-- `sem_post`. -/
def post : Shared := { x with semaphore := x.semaphore + 1, holder := none }

def setField (f : Field) (n : Nat) : Shared :=
  { x with data := { x.data with tm := Function.update x.data.tm f n } }

def setByte (j : Nat) (b : UInt8) : Shared :=
  { x with data := { x.data with buffer := Function.update x.data.buffer j b } }

end Shared

def mainNext (tid : Thread → Nat) (env : Env) (x : Shared) : MainPc → Option (Shared × MainPc)
  | .createWriter =>
    if env.ok then some (x.create .writer, .createReader) else some (x.finish, .returned)
  | .createReader =>
    if env.ok then some (x.create .reader, .printStarted) else some (x.finish, .returned)
  | .printStarted => some (x.print (.started .main) (startedLine tid .main), .join)
  | .join | .returned => none

/-- `localtime(&current_time)`, and the fields that its caller loads; what comes behind it. -/
def clockNext (env : Env) (x : Shared) (next : LocalTime → Bytes → Pc) : Pc → Option (Shared × Pc)
  | .time => some (x, .store env.time Finset.univ)
  | .store current left =>
    if left = ∅ then some (x, .load current (fun _ => 0) Finset.univ)
    else if env.field ∈ left then
      some (x.setField env.field (tmOf current env.field), .store current (left.erase env.field))
    else none
  | .load current loaded left =>
    if left = ∅ then some (x, next current (clock loaded))
    else if env.field ∈ left then
      some (x, .load current (Function.update loaded env.field (x.data.tm env.field))
        (left.erase env.field))
    else none
  | _ => none

/-- `printf` reads the next byte of `shared_buffer`, or prints its line. Without a NUL it would
leave the array. -/
def printfNext (x : Shared) (event : Event) (line : Bytes → Bytes) (current : LocalTime)
    (timeString got : Bytes) : Option (Shared × Pc) :=
  if got.length < bufferSize then
    if x.data.buffer got.length = 0 then some (x.print event (line got), .post)
    else some (x, .printf current timeString (got ++ [x.data.buffer got.length]))
  else none

/-- `snprintf` has the message, and stores it with a NUL. -/
def Shared.format (x : Shared) (current : LocalTime) (clock : Bytes) : Pc :=
  let text := (message x.data.counter clock).take (bufferSize - 1)
  .snprintf current text (Finset.range (text.length + 1))

/-- The next statement of `writer_thread_function`. -/
def writerNext (tid : Thread → Nat) (env : Env) (x : Shared) : Pc → Option (Shared × Pc)
  | .printStarted => some (x.print (.started .writer) (startedLine tid .writer), .wait)
  | .wait => (x.wait .writer).map (·, .count)
  | .count =>
    if x.data.counter + 1 < 2 ^ 31 then
      some ({ x with data := { x.data with counter := x.data.counter + 1 } }, .time)
    else none
  | .snprintf current text left =>
    if left = ∅ then some (x, .printf current [] [])
    else if env.index ∈ left then
      some (x.setByte env.index (text.getD env.index 0),
        .snprintf current text (left.erase env.index))
    else none
  | .printf current timeString got =>
    printfNext x (.wrote current) (wroteLine tid) current timeString got
  | .post => some (x.post, .wait)
  | pc => clockNext env x x.format pc

/-- The next statement of `reader_thread_function`. -/
def readerNext (tid : Thread → Nat) (env : Env) (x : Shared) : Pc → Option (Shared × Pc)
  | .printStarted => some (x.print (.started .reader) (startedLine tid .reader), .wait)
  | .wait => (x.wait .reader).map (·, .time)
  | .printf current timeString got =>
    printfNext x (.read current) (readLine tid timeString) current timeString got
  | .post => some (x.post, .wait)
  | .count | .snprintf .. => none
  | pc => clockNext env x (fun current clock => .printf current clock []) pc

structure Action where
  actor : Thread
  env : Env

def next (tid : Thread → Nat) :
    (a : Action) → Shared → Local a.actor → Option (Shared × Local a.actor)
  | ⟨.main, env⟩, x, pc => mainNext tid env x pc
  | ⟨.writer, env⟩, x, pc =>
    if .writer ∈ x.created ∧ x.exited = false then writerNext tid env x pc else none
  | ⟨.reader, env⟩, x, pc =>
    if .reader ∈ x.created ∧ x.exited = false then readerNext tid env x pc else none

def step (tid : Thread → Nat) : Action → State → Option State :=
  Team.step Action.actor (next tid)

-- ---------------------------------------------------------------------------
-- Turns
-- ---------------------------------------------------------------------------

/-- What the program is for: a message with a number, and a line for each turn of a thread. -/
structure Room where
  counter : Nat
  content : Bytes
  lines : List Bytes

/-- A thread takes its turn. -/
def Room.next (tid : Thread → Nat) (r : Room) : Event → Room
  | .started t => { r with lines := r.lines ++ [startedLine tid t] }
  | .wrote time =>
    let content := message (r.counter + 1) (clock (tmOf time))
    ⟨r.counter + 1, content, r.lines ++ [wroteLine tid content]⟩
  | .read time => { r with lines := r.lines ++ [readLine tid (clock (tmOf time)) r.content] }

def room (tid : Thread → Nat) (events : List Event) : Room :=
  events.foldl (Room.next tid) ⟨0, initial, []⟩

end LabsOS.Sems.Threads
