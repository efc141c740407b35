import LabsOS.Concurrency.Monitor
import LabsOS.Concurrency.Steps
import LabsOS.Kernel.Bytes
import Mathlib.Data.Finset.Filter
import Mathlib.Data.Fintype.Option
import Mathlib.Logic.Function.Basic

/-!
# The writer and the readers

The threads of `lab11_condvar/condvar.c`, one action for each statement, with any
number of readers `ι` and any array size. `pthread_mutex_lock` is enabled while
the mutex is free; `pthread_cond_wait` gives the mutex back and falls asleep in
one action, and takes the mutex again after it was woken, by a signal, the
broadcast or spuriously. Of the output only the array lines are kept, in the
order of the critical sections that print them; `usleep` is no action.
-/

namespace LabsOS.Condvar

-- ---------------------------------------------------------------------------
-- State
-- ---------------------------------------------------------------------------

/-- `'A' + i`, as a `char`. -/
def letter (i : Nat) : UInt8 := UInt8.ofNat (65 + i)

def blank : UInt8 := 95

def space : UInt8 := 32

/-- An array line: who printed it, `write_counter` at that time, and its text
between the brackets. -/
structure Print (ι : Type) where
  reader : ι
  writeCounter : Nat
  line : Bytes

/-- The data that `mutex` protects, and what was printed. -/
structure Shared (ι : Type) where
  sharedArray : List UInt8
  writeCounter : Nat
  allWritten : Bool
  dataAvailable : Bool
  printed : List (Print ι)

/-- The next statement of `writer_thread`. -/
inductive WriterPc where
  | whileTest
  | lock
  | store
  | count
  | setDataAvailable
  | signal
  | unlock
  | lockLast
  | setAllWritten
  | setDataAvailableLast
  | broadcast
  | unlockLast
  | finished
  deriving DecidableEq, Repr

/-- The next statement of `reader_thread`. In the loop that prints the array,
`i` and the text printed so far. -/
inductive ReaderPc where
  | lock
  | whileTest
  | wait
  | asleep
  | woken
  | ifTest
  | print (i : Nat) (line : Bytes)
  | clearDataAvailable
  | unlock
  | unlockLast
  | finished
  deriving DecidableEq, Repr

inductive Thread (ι : Type) where
  | writer
  | reader (i : ι)
  deriving DecidableEq, Repr

instance {ι : Type} [Fintype ι] : Fintype (Thread ι) :=
  Fintype.ofEquiv (Option ι)
    { toFun := fun
        | none => .writer
        | some i => .reader i
      invFun := fun
        | .writer => none
        | .reader i => some i
      left_inv := fun i => by cases i <;> rfl
      right_inv := fun t => by cases t <;> rfl }

structure State (ι : Type) where
  shared : Shared ι
  mutex : Option (Thread ι)
  writer : WriterPc
  readers : ι → ReaderPc

variable {ι : Type} [DecidableEq ι]

namespace State

def acquire (t : Thread ι) (s : State ι) : Option (State ι) :=
  if s.mutex = none then some { s with mutex := some t } else none

def release (s : State ι) : State ι := { s with mutex := none }

def withShared (x : Shared ι) (s : State ι) : State ι := { s with shared := x }

def writerTo (pc : WriterPc) (s : State ι) : State ι := { s with writer := pc }

def readerTo (i : ι) (pc : ReaderPc) (s : State ι) : State ι :=
  { s with readers := Function.update s.readers i pc }

/-- The readers asleep in `pthread_cond_wait`. -/
def asleep [Fintype ι] (s : State ι) : Finset ι :=
  Finset.univ.filter fun i => s.readers i = .asleep

def wake (woken : Finset ι) (s : State ι) : State ι :=
  { s with readers := fun i => if i ∈ woken then .woken else s.readers i }

end State

-- ---------------------------------------------------------------------------
-- Actions
-- ---------------------------------------------------------------------------

/-- What one round of the printing loop prints. -/
def cell (arraySize : Nat) (x : Shared ι) (i : Nat) : Bytes :=
  (if i < x.writeCounter then x.sharedArray.getD i 0 else blank) ::
    (if i + 1 < arraySize then [space] else [])

variable [Fintype ι]

/-- The next statement of the writer. `woken` are the readers that a signal wakes. -/
def writerStep (arraySize : Nat) (woken : Finset ι) (s : State ι) : Option (State ι) :=
  match s.writer with
  | .whileTest =>
    some (s.writerTo (if s.shared.writeCounter < arraySize then .lock else .lockLast))
  | .lock => (s.acquire .writer).map (·.writerTo .store)
  | .store =>
    let array := s.shared.sharedArray.set s.shared.writeCounter (letter s.shared.writeCounter)
    some ((s.withShared { s.shared with sharedArray := array }).writerTo .count)
  | .count =>
    some ((s.withShared { s.shared with writeCounter := s.shared.writeCounter + 1 }).writerTo
      .setDataAvailable)
  | .setDataAvailable =>
    some ((s.withShared { s.shared with dataAvailable := true }).writerTo .signal)
  | .signal => if Signals s.asleep woken then some ((s.wake woken).writerTo .unlock) else none
  | .unlock => some (s.release.writerTo .whileTest)
  | .lockLast => (s.acquire .writer).map (·.writerTo .setAllWritten)
  | .setAllWritten =>
    some ((s.withShared { s.shared with allWritten := true }).writerTo .setDataAvailableLast)
  | .setDataAvailableLast =>
    some ((s.withShared { s.shared with dataAvailable := true }).writerTo .broadcast)
  | .broadcast => some ((s.wake s.asleep).writerTo .unlockLast)
  | .unlockLast => some (s.release.writerTo .finished)
  | .finished => none

/-- The next statement of the reader `i`. -/
def readerStep (arraySize : Nat) (i : ι) (s : State ι) : Option (State ι) :=
  match s.readers i with
  | .lock => (s.acquire (.reader i)).map (·.readerTo i .whileTest)
  | .whileTest =>
    some (s.readerTo i (if !s.shared.dataAvailable && !s.shared.allWritten then .wait else .ifTest))
  | .wait => some (s.release.readerTo i .asleep)
  | .asleep => none
  | .woken => (s.acquire (.reader i)).map (·.readerTo i .whileTest)
  | .ifTest =>
    some (s.readerTo i (if s.shared.allWritten ∧ s.shared.writeCounter = arraySize then .unlockLast
      else .print 0 []))
  | .print k line =>
    if k < arraySize then some (s.readerTo i (.print (k + 1) (line ++ cell arraySize s.shared k)))
    else
      let print : Print ι := ⟨i, s.shared.writeCounter, line⟩
      some ((s.withShared { s.shared with printed := s.shared.printed ++ [print] }).readerTo i
        .clearDataAvailable)
  | .clearDataAvailable =>
    some ((s.withShared { s.shared with dataAvailable := false }).readerTo i .unlock)
  | .unlock => some (s.release.readerTo i .lock)
  | .unlockLast => some (s.release.readerTo i .finished)
  | .finished => none

/-- A spurious wake-up. -/
def wakeUp (i : ι) (s : State ι) : Option (State ι) :=
  if s.readers i = .asleep then some (s.wake {i}) else none

inductive Action (ι : Type) where
  | writer (woken : Finset ι)
  | reader (i : ι)
  | wakeUp (i : ι)

def step (arraySize : Nat) : Action ι → State ι → Option (State ι)
  | .writer woken => writerStep arraySize woken
  | .reader i => readerStep arraySize i
  | .wakeUp i => wakeUp i

omit [DecidableEq ι] [Fintype ι] in
/-- All threads are created and none has started; the array holds blanks. -/
def start (arraySize : Nat) : State ι :=
  ⟨⟨List.replicate arraySize blank, 0, false, false, []⟩, none, .whileTest, fun _ => .lock⟩

end LabsOS.Condvar
