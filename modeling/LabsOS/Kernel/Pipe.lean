import LabsOS.Kernel.Bytes
import Mathlib.Data.Finset.Insert
import Mathlib.Data.Finset.Erase
import Mathlib.Data.Finset.Filter

/-!
# Pipes

A pipe between processes `P`: who holds its ends, what was written, and how many bytes of it
were read. A `read` waits while there is nothing to read and somebody may still write, and
reads the end of the file when nobody may; a `write` of few bytes is atomic, waits for room,
and breaks when nobody reads. Bytes are read in the order in which they were written
(`Pipe.read_eq_some`).

A `Fifo` is a pipe with a name. Whoever opens an end of it waits until the other end has been
opened.
-/

namespace LabsOS

structure Pipe (P : Type) where
  readers : Finset P
  writers : Finset P
  written : Bytes
  taken : Nat

variable {P : Type} [DecidableEq P] {p p' : Pipe P} {a b : P} {bytes : Bytes} {n : Nat}

namespace Pipe

-- ---------------------------------------------------------------------------
-- System calls
-- ---------------------------------------------------------------------------

/-- `pipe`. -/
def create (a : P) : Pipe P := ⟨{a}, {a}, [], 0⟩

/-- `fork`: the process `b` gets the ends that `a` holds. -/
def fork (a b : P) (p : Pipe P) : Pipe P :=
  { p with
    readers := if a ∈ p.readers then insert b p.readers else p.readers
    writers := if a ∈ p.writers then insert b p.writers else p.writers }

/-- `close` of the reading end. -/
def closeRead (a : P) (p : Pipe P) : Pipe P := { p with readers := p.readers.erase a }

/-- `close` of the writing end. -/
def closeWrite (a : P) (p : Pipe P) : Pipe P := { p with writers := p.writers.erase a }

/-- The end of a process closes all it holds. -/
def leave (a : P) (p : Pipe P) : Pipe P := (p.closeRead a).closeWrite a

omit [DecidableEq P] in
/-- What can be read. -/
def content (p : Pipe P) : Bytes := p.written.drop p.taken

/-- `write` of bytes that are not split, where somebody may read them. -/
def write (capacity : Nat) (bytes : Bytes) (p : Pipe P) : Option (Pipe P) :=
  if p.content.length + bytes.length ≤ capacity then some { p with written := p.written ++ bytes }
  else none

/-- `read` of at most `count` bytes; none are the end of the file. -/
def read (count : Nat) (p : Pipe P) : Option (Bytes × Pipe P) :=
  if p.content = [] then if p.writers = ∅ then some ([], p) else none
  else some (p.content.take count, { p with taken := p.taken + (p.content.take count).length })

-- ---------------------------------------------------------------------------
-- Who holds an end
-- ---------------------------------------------------------------------------

@[simp] theorem mem_readers_closeRead : b ∈ (p.closeRead a).readers ↔ b ≠ a ∧ b ∈ p.readers :=
  Finset.mem_erase

@[simp] theorem mem_writers_closeWrite : b ∈ (p.closeWrite a).writers ↔ b ≠ a ∧ b ∈ p.writers :=
  Finset.mem_erase

@[simp] theorem writers_closeRead : (p.closeRead a).writers = p.writers := rfl

@[simp] theorem readers_closeWrite : (p.closeWrite a).readers = p.readers := rfl

@[simp] theorem mem_readers_leave : b ∈ (p.leave a).readers ↔ b ≠ a ∧ b ∈ p.readers :=
  Finset.mem_erase

@[simp] theorem mem_writers_leave : b ∈ (p.leave a).writers ↔ b ≠ a ∧ b ∈ p.writers :=
  Finset.mem_erase

@[simp] theorem mem_readers_fork {c : P} :
    c ∈ (p.fork a b).readers ↔ c ∈ p.readers ∨ c = b ∧ a ∈ p.readers := by
  show c ∈ (if a ∈ p.readers then insert b p.readers else p.readers) ↔ _
  split
  · next ha => simp [ha, or_comm]
  · next ha => simp [ha]

@[simp] theorem mem_writers_fork {c : P} :
    c ∈ (p.fork a b).writers ↔ c ∈ p.writers ∨ c = b ∧ a ∈ p.writers := by
  show c ∈ (if a ∈ p.writers then insert b p.writers else p.writers) ↔ _
  split
  · next ha => simp [ha, or_comm]
  · next ha => simp [ha]

-- ---------------------------------------------------------------------------
-- What is read
-- ---------------------------------------------------------------------------

omit [DecidableEq P] in
theorem write_eq_some {capacity : Nat} (h : p.write capacity bytes = some p') :
    p' = { p with written := p.written ++ bytes } := by
  rw [write] at h
  split at h
  · exact (Option.some.inj h).symm
  · cases h

/-- **Bytes are read in order**: the next ones, at most `count`; and none only at the end. -/
theorem read_eq_some {count : Nat} (h : p.read count = some (bytes, p')) :
    p' = { p with taken := p.taken + bytes.length } ∧ bytes = p.content.take count ∧
      (p.content = [] → p.writers = ∅) := by
  rw [read] at h
  split at h
  · next hempty =>
    split at h
    · next hend =>
      obtain ⟨rfl, rfl⟩ := Prod.mk.inj (Option.some.inj h)
      exact ⟨rfl, by rw [hempty, List.take_nil], fun _ => hend⟩
    · cases h
  · next hsome =>
    obtain ⟨rfl, rfl⟩ := Prod.mk.inj (Option.some.inj h)
    exact ⟨rfl, rfl, fun hempty => absurd hempty hsome⟩

/-- Only a reader that somebody may still write to waits. -/
theorem read_eq_none {count : Nat} (h : p.read count = none) :
    p.content = [] ∧ p.writers ≠ ∅ := by
  rw [read] at h
  split at h
  · next hempty =>
    split at h
    · cases h
    · next hopen => exact ⟨hempty, hopen⟩
  · cases h

end Pipe

-- ---------------------------------------------------------------------------
-- Named pipes
-- ---------------------------------------------------------------------------

/-- A pipe with a name, and the processes that wait in `open` for the other end of it. -/
structure Fifo (P : Type) where
  pipe : Pipe P
  readersWaiting : Finset P
  writersWaiting : Finset P

namespace Fifo

variable {f : Fifo P}

/-- `mkfifo`. -/
def create : Fifo P := ⟨⟨∅, ∅, [], 0⟩, ∅, ∅⟩

/-- A process opens the end to read from, which lets the writers go on that wait for it, and
waits itself if there is no writer. -/
def arriveRead (a : P) (f : Fifo P) : Fifo P where
  pipe := { f.pipe with readers := insert a f.pipe.readers }
  readersWaiting := if f.pipe.writers = ∅ then insert a f.readersWaiting else f.readersWaiting
  writersWaiting := ∅

/-- A process opens the end to write to. -/
def arriveWrite (a : P) (f : Fifo P) : Fifo P where
  pipe := { f.pipe with writers := insert a f.pipe.writers }
  readersWaiting := ∅
  writersWaiting := if f.pipe.readers = ∅ then insert a f.writersWaiting else f.writersWaiting

/-- The end of a process, which may be waiting. -/
def leave (a : P) (f : Fifo P) : Fifo P :=
  ⟨f.pipe.leave a, f.readersWaiting.erase a, f.writersWaiting.erase a⟩

@[simp] theorem mem_readersWaiting_arriveRead {c : P} :
    c ∈ (f.arriveRead a).readersWaiting ↔
      c ∈ f.readersWaiting ∨ c = a ∧ f.pipe.writers = ∅ := by
  show c ∈ (if f.pipe.writers = ∅ then insert a f.readersWaiting else f.readersWaiting) ↔ _
  split
  · next h => simp [h, or_comm]
  · next h => simp [h]

@[simp] theorem mem_writersWaiting_arriveWrite {c : P} :
    c ∈ (f.arriveWrite a).writersWaiting ↔
      c ∈ f.writersWaiting ∨ c = a ∧ f.pipe.readers = ∅ := by
  show c ∈ (if f.pipe.readers = ∅ then insert a f.writersWaiting else f.writersWaiting) ↔ _
  split
  · next h => simp [h, or_comm]
  · next h => simp [h]

end Fifo

end LabsOS
