import LabsOS.Concurrency.Team
import LabsOS.Condvar.Condvar
import LabsOS.Kernel.Text
import Mathlib.Data.Finset.Insert

/-!
# The array under a reader/writer lock

The threads of `lab10_rwlock/rwlock.c`, one action for each statement, with any
number of readers `ι` and any array size. `pthread_rwlock_wrlock` is enabled while
nobody holds the lock, `pthread_rwlock_rdlock` while the writer does not. A reader
makes up its line in an array of `BUFFER_SIZE` bytes and prints it as a string. Of
the output only these lines are kept, in the order in which they are printed;
`usleep` is no action.
-/

namespace LabsOS.Rwlock

open Condvar (Thread letter blank space)

-- ---------------------------------------------------------------------------
-- State
-- ---------------------------------------------------------------------------

/-- `BUFFER_SIZE`. -/
def bufferSize : Nat := 256

/-- What the program is run with: `ARRAY_SIZE`, and of each reader the number it
was given and what `pthread_self` returns to it. -/
structure Config (ι : Type) where
  arraySize : Nat
  tid : ι → Nat
  self : ι → Nat

/-- A line: who printed it, in which read phase, `write_counter` at that time, and
its text. -/
structure Print (ι : Type) where
  reader : ι
  phase : Nat
  writeCounter : Nat
  line : Bytes

/-- The variables that `rwlock` protects. -/
structure Data where
  sharedArray : List UInt8
  writeCounter : Nat
  readFinished : Bool
  deriving DecidableEq, Repr

/-- The global variables, and what was printed. `phase` counts the read phases: one
begins when a reader takes the lock that nobody holds. -/
structure Shared (ι : Type) where
  data : Data
  wrlocked : Bool
  rdlocked : Finset ι
  phase : Nat
  printed : List (Print ι)

/-- The next statement of `writer_thread`. -/
inductive WriterPc where
  | whileTest
  | wrlock
  | ifTest
  | store
  | count
  | unlock
  | wrlockLast
  | setReadFinished
  | unlockLast
  | finished
  deriving DecidableEq, Repr

/-- The next statement of `reader_thread`, with the string in `buffer` and `pos`. -/
inductive ReaderPc where
  | rdlock
  | ifTest
  | heading
  | cells (i : Nat) (buffer : Bytes) (pos : Nat)
  | print (buffer : Bytes)
  | unlock
  | unlockLast
  | finished
  deriving DecidableEq, Repr

@[reducible] def Pc {ι : Type} : Thread ι → Type
  | .writer => WriterPc
  | .reader _ => ReaderPc

abbrev State (ι : Type) := Team (T := Thread ι) (Shared ι) Pc

variable {ι : Type}

-- ---------------------------------------------------------------------------
-- Actions
-- ---------------------------------------------------------------------------

namespace Shared

def withData (d : Data) (x : Shared ι) : Shared ι := { x with data := d }

def wrlock [DecidableEq ι] (x : Shared ι) : Option (Shared ι) :=
  if x.wrlocked = false ∧ x.rdlocked = ∅ then some { x with wrlocked := true } else none

def wrunlock (x : Shared ι) : Shared ι := { x with wrlocked := false }

def rdlock [DecidableEq ι] (i : ι) (x : Shared ι) : Option (Shared ι) :=
  if x.wrlocked = false then
    some { x with
      rdlocked := insert i x.rdlocked
      phase := if x.rdlocked = ∅ then x.phase + 1 else x.phase }
  else none

def rdunlock [DecidableEq ι] (i : ι) (x : Shared ι) : Shared ι :=
  { x with rdlocked := x.rdlocked.erase i }

end Shared

/-- `"Reader %d (TID: %lx): Array = ["`. -/
def heading (c : Config ι) (i : ι) : Bytes :=
  ascii "Reader " ++ decimal (c.tid i) ++ ascii " (TID: " ++ hexadecimal (c.self i) ++
    ascii "): Array = ["

/-- The element that is shown at `k`. -/
def shownElement (x : Shared ι) (k : Nat) : UInt8 :=
  if k < x.data.writeCounter then x.data.sharedArray.getD k 0 else blank

/-- The body of the loop that makes up the line. -/
def appendCell (c : Config ι) (x : Shared ι) (k : Nat) (buffer : Bytes) (pos : Nat) :
    Option (Bytes × Nat) := do
  let (buffer, pos) ← snprintf bufferSize buffer pos [shownElement x k]
  if k + 1 < c.arraySize then snprintf bufferSize buffer pos [space] else pure (buffer, pos)

variable [DecidableEq ι]

/-- The next statement of the writer. -/
def writerNext (c : Config ι) (x : Shared ι) : WriterPc → Option (Shared ι × WriterPc)
  | .whileTest => some (x, if x.data.writeCounter < c.arraySize then .wrlock else .wrlockLast)
  | .wrlock => x.wrlock.map (·, .ifTest)
  | .ifTest => some (x, if x.data.writeCounter < c.arraySize then .store else .unlock)
  | .store =>
    let array := x.data.sharedArray.set x.data.writeCounter (letter x.data.writeCounter)
    some (x.withData { x.data with sharedArray := array }, .count)
  | .count => some (x.withData { x.data with writeCounter := x.data.writeCounter + 1 }, .unlock)
  | .unlock => some (x.wrunlock, .whileTest)
  | .wrlockLast => x.wrlock.map (·, .setReadFinished)
  | .setReadFinished => some (x.withData { x.data with readFinished := true }, .unlockLast)
  | .unlockLast => some (x.wrunlock, .finished)
  | .finished => none

/-- The next statement of the reader `i`. -/
def readerNext (c : Config ι) (i : ι) (x : Shared ι) : ReaderPc → Option (Shared ι × ReaderPc)
  | .rdlock => (x.rdlock i).map (·, .ifTest)
  | .ifTest => some (x, if x.data.readFinished then .unlockLast else .heading)
  | .heading => do
    let (buffer, pos) ← snprintf bufferSize [] 0 (heading c i)
    some (x, .cells 0 buffer pos)
  | .cells k buffer pos =>
    if k < c.arraySize then do
      let (buffer, pos) ← appendCell c x k buffer pos
      some (x, .cells (k + 1) buffer pos)
    else do
      let (buffer, _) ← snprintf bufferSize buffer pos (ascii "]\n")
      some (x, .print buffer)
  | .print buffer =>
    let print : Print ι := ⟨i, x.phase, x.data.writeCounter, (CString.ofBytes buffer).bytes⟩
    some ({ x with printed := x.printed ++ [print] }, .unlock)
  | .unlock => some (x.rdunlock i, .rdlock)
  | .unlockLast => some (x.rdunlock i, .finished)
  | .finished => none

def next (c : Config ι) : (t : Thread ι) → Shared ι → Pc t → Option (Shared ι × Pc t)
  | .writer => writerNext c
  | .reader i => readerNext c i

/-- The action of a thread is its next statement. -/
def step (c : Config ι) : Thread ι → State ι → Option (State ι) :=
  Team.step id (next c)

omit [DecidableEq ι] in
/-- All threads are created and none has started; the array holds blanks. -/
def start (c : Config ι) : State ι where
  shared := ⟨⟨List.replicate c.arraySize blank, 0, false⟩, false, ∅, 0, []⟩
  locals
    | .writer => .whileTest
    | .reader _ => .rdlock

end LabsOS.Rwlock
