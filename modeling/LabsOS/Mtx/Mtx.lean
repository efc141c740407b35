import LabsOS.Concurrency.Team
import LabsOS.Condvar.Condvar
import LabsOS.Kernel.Text

/-!
# The buffer under a mutex

The threads of `lab8_mtx/main.c`, one action for each statement, with any number
of readers `ι` and any buffer size. `pthread_mutex_lock` is enabled while the mutex
is free; the writer tests its loop condition without it. Of the output only the
buffer lines of the readers are kept, in the order of the critical sections that
print them; `usleep` is no action.
-/

namespace LabsOS.Mtx

open Condvar (Thread)

-- ---------------------------------------------------------------------------
-- State
-- ---------------------------------------------------------------------------

/-- A buffer line: who printed it, `write_position` at that time, and its text
between the brackets. -/
structure Print (ι : Type) where
  reader : ι
  writePosition : Nat
  contents : Bytes

/-- The global variables, and what was printed. -/
structure Shared (ι : Type) where
  bufferLock : Option (Thread ι)
  sharedData : List Nat
  writePosition : Nat
  printed : List (Print ι)

/-- The next statement of `writer_routine`. -/
inductive WriterPc where
  | whileTest
  | lock
  | ifTest
  | store
  | count
  | unlock
  | finished
  deriving DecidableEq, Repr

/-- The next statement of `reader_routine`. In the loop that prints the buffer, `i`
and the text printed so far. -/
inductive ReaderPc where
  | lock
  | print (i : Nat) (contents : Bytes)
  | ifTest
  | unlock
  | unlockLast
  | finished
  deriving DecidableEq, Repr

@[reducible] def Pc {ι : Type} : Thread ι → Type
  | .writer => WriterPc
  | .reader _ => ReaderPc

abbrev State (ι : Type) := Team (T := Thread ι) (Shared ι) Pc

variable {ι : Type}

-- ---------------------------------------------------------------------------
-- Actions
-- ---------------------------------------------------------------------------

/-- `pthread_mutex_lock`. -/
def Shared.acquire (t : Thread ι) (x : Shared ι) : Option (Shared ι) :=
  if x.bufferLock = none then some { x with bufferLock := some t } else none

/-- `pthread_mutex_unlock`. -/
def Shared.release (x : Shared ι) : Shared ι := { x with bufferLock := none }

/-- The next statement of the writer. -/
def writerNext (bufferSize : Nat) (x : Shared ι) : WriterPc → Option (Shared ι × WriterPc)
  | .whileTest => some (x, if x.writePosition < bufferSize then .lock else .finished)
  | .lock => (x.acquire .writer).map (·, .ifTest)
  | .ifTest => some (x, if x.writePosition < bufferSize then .store else .unlock)
  | .store =>
    some ({ x with sharedData := x.sharedData.set x.writePosition (x.writePosition + 1) }, .count)
  | .count => some ({ x with writePosition := x.writePosition + 1 }, .unlock)
  | .unlock => some (x.release, .whileTest)
  | .finished => none

/-- What one round of the printing loop prints. -/
def cell (x : Shared ι) (i : Nat) : Bytes :=
  decimal (x.sharedData.getD i 0) ++ (if i + 1 < x.writePosition then ascii ", " else [])

/-- The next statement of the reader `i`. -/
def readerNext (bufferSize : Nat) (i : ι) (x : Shared ι) : ReaderPc → Option (Shared ι × ReaderPc)
  | .lock => (x.acquire (.reader i)).map (·, .print 0 [])
  | .print k contents =>
    if k < x.writePosition then some (x, .print (k + 1) (contents ++ cell x k))
    else some ({ x with printed := x.printed ++ [⟨i, x.writePosition, contents⟩] }, .ifTest)
  | .ifTest => some (x, if x.writePosition ≥ bufferSize then .unlockLast else .unlock)
  | .unlock => some (x.release, .lock)
  | .unlockLast => some (x.release, .finished)
  | .finished => none

def next (bufferSize : Nat) : (t : Thread ι) → Shared ι → Pc t → Option (Shared ι × Pc t)
  | .writer => writerNext bufferSize
  | .reader i => readerNext bufferSize i

/-- The action of a thread is its next statement. -/
def step [DecidableEq ι] (bufferSize : Nat) : Thread ι → State ι → Option (State ι) :=
  Team.step id (next bufferSize)

/-- `init_sync_resources` is done, all threads are created and none has started. -/
def start (bufferSize : Nat) : State ι where
  shared := ⟨none, List.replicate bufferSize 0, 0, []⟩
  locals
    | .writer => .whileTest
    | .reader _ => .lock

end LabsOS.Mtx
