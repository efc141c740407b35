import LabsOS.Concurrency.Steps
import LabsOS.PipeFifo.Messages
import Mathlib.Tactic.Simps.Basic

/-!
# A message through a named pipe

The two processes of `lab6_pipefifo/fifo.c`, one action for each system call and each `printf`;
an `open` that waits is two. Any call may fail, and any process may be killed at any point. What
a process prints reaches the output when it exits; `sleep` is no action.

`Inv` is what holds in every run.
-/

namespace LabsOS.PipeFifo.FifoC

-- ---------------------------------------------------------------------------
-- State
-- ---------------------------------------------------------------------------

/-- What the name of the pipe may stand for. -/
inductive Node where
  | other
  | fifo
  deriving DecidableEq, Repr

/-- The next statement of the parent. `closeErr` and `unlinkErr` are those that follow a failed
call. -/
inductive ParentPc where
  | stat
  | mkfifo
  | fork
  | open
  | waitReader
  | write
  | close
  | wait
  | unlink
  | closeErr
  | unlinkErr
  | exiting (status : Nat)
  | ended (how : Status)
  deriving DecidableEq, Repr

/-- The next statement of the child, which does not exist before the `fork`. -/
inductive ChildPc where
  | unborn
  | open
  | waitWriter
  | printTime
  | read
  | received (bytes : Bytes)
  | close
  | closeErr
  | unlinkErr
  | exiting (status : Nat)
  | ended (how : Status)
  deriving DecidableEq, Repr

/-- What `fifo_name` stands for, the pipe, the processes, what the child has printed, what
reached the output of both, and what was printed as an error. -/
structure State where
  name : Option Node
  fifo : Fifo Side
  parent : ParentPc
  child : ChildPc
  printed : Bytes
  output : Bytes
  errors : List Bytes

namespace State

@[simps] def parentTo (pc : ParentPc) (s : State) : State := { s with parent := pc }

@[simps] def childTo (pc : ChildPc) (s : State) : State := { s with child := pc }

@[simps] def withName (name : Option Node) (s : State) : State := { s with name := name }

@[simps] def withFifo (f : Fifo Side) (s : State) : State := { s with fifo := f }

@[simps] def withPipe (p : Pipe Side) (s : State) : State :=
  { s with fifo := { s.fifo with pipe := p } }

@[simps] def print (text : Bytes) (s : State) : State := { s with printed := s.printed ++ text }

@[simps] def perror (text : Bytes) (s : State) : State := { s with errors := s.errors ++ [text] }

/-- What the child has printed reaches the output. -/
@[simps] def flush (s : State) : State := { s with output := s.output ++ s.printed }

end State

/-- The program is called with a name, which may stand for a file. -/
def start (name : Option Node) : State := ⟨name, .create, .stat, .unborn, [], [], []⟩

-- ---------------------------------------------------------------------------
-- Actions
-- ---------------------------------------------------------------------------

variable (f : Facts) (capacity : Nat) (fifoName : Bytes)

/-- The next statement of the parent, whose system call succeeds if `ok` and if it can. -/
def parentStep (ok : Bool) (s : State) : Option State :=
  match s.parent with
  | .stat =>
    if ok ∧ s.name ≠ none then
      some ((s.perror (ascii "File '" ++ fifoName ++ ascii "' already exists\n")).parentTo
        (.exiting 1))
    else some (s.parentTo .mkfifo)
  | .mkfifo =>
    if ok ∧ s.name = none then
      some (((s.withName (some .fifo)).withFifo .create).parentTo .fork)
    else some ((s.perror (ascii "mkfifo failed")).parentTo (.exiting 1))
  | .fork =>
    if ok then some ((s.parentTo .open).childTo .open)
    else some ((s.perror (ascii "fork failed")).parentTo .unlinkErr)
  | .open =>
    if ok ∧ s.name = some .fifo then
      some ((s.withFifo (s.fifo.arriveWrite .parent)).parentTo .waitReader)
    else some ((s.perror (ascii "open for writing failed")).parentTo .unlinkErr)
  | .waitReader =>
    if Side.parent ∈ s.fifo.writersWaiting then none else some (s.parentTo .write)
  | .write =>
    if s.fifo.pipe.readers = ∅ then
      some ((s.withFifo (s.fifo.leave .parent)).parentTo (.ended .killed))
    else if ok then
      (s.fifo.pipe.write capacity (message f)).map fun p => (s.withPipe p).parentTo .close
    else some ((s.perror (ascii "write to fifo failed")).parentTo .closeErr)
  | .close =>
    if ok then some ((s.withPipe (s.fifo.pipe.closeWrite .parent)).parentTo .wait)
    else
      some (((s.withPipe (s.fifo.pipe.closeWrite .parent)).perror (ascii "close failed")).parentTo
        .unlinkErr)
  | .wait =>
    match s.child with
    | .unborn | .ended _ => some (s.parentTo .unlink)
    | _ => none
  | .unlink =>
    if ok ∧ s.name ≠ none then some ((s.withName none).parentTo (.exiting 0))
    else some ((s.perror (ascii "unlink failed")).parentTo (.exiting 1))
  | .closeErr => some ((s.withPipe (s.fifo.pipe.closeWrite .parent)).parentTo .unlinkErr)
  | .unlinkErr => some ((s.withName (if ok then none else s.name)).parentTo (.exiting 1))
  | .exiting status =>
    some ((s.withFifo (s.fifo.leave .parent)).parentTo (.ended (.exited status)))
  | .ended _ => none

/-- The next statement of the child. -/
def childStep (ok : Bool) (s : State) : Option State :=
  match s.child with
  | .unborn => none
  | .open =>
    if ok ∧ s.name = some .fifo then
      some ((s.withFifo (s.fifo.arriveRead .child)).childTo .waitWriter)
    else some ((s.perror (ascii "open for reading failed")).childTo .unlinkErr)
  | .waitWriter =>
    if Side.child ∈ s.fifo.readersWaiting then none else some (s.childTo .printTime)
  | .printTime => some ((s.print (timeLine f)).childTo .read)
  | .read =>
    if ok then
      (s.fifo.pipe.read (bufferSize - 1)).map fun r =>
        (s.withPipe r.2).childTo (if r.1 = [] then .close else .received r.1)
    else some ((s.perror (ascii "read from fifo failed")).childTo .closeErr)
  | .received bytes => some ((s.print (receivedLine bytes)).childTo .close)
  | .close =>
    if ok then some ((s.withPipe (s.fifo.pipe.closeRead .child)).childTo (.exiting 0))
    else
      some (((s.withPipe (s.fifo.pipe.closeRead .child)).perror (ascii "close failed")).childTo
        .unlinkErr)
  | .closeErr => some ((s.withPipe (s.fifo.pipe.closeRead .child)).childTo .unlinkErr)
  | .unlinkErr => some ((s.withName (if ok then none else s.name)).childTo (.exiting 1))
  | .exiting status =>
    some ((s.flush.withFifo (s.fifo.leave .child)).childTo (.ended (.exited status)))
  | .ended _ => none

/-- The process is killed by a signal. -/
def kill (side : Side) (s : State) : Option State :=
  match side with
  | .parent =>
    match s.parent with
    | .ended _ => none
    | _ => some ((s.withFifo (s.fifo.leave .parent)).parentTo (.ended .killed))
  | .child =>
    match s.child with
    | .unborn | .ended _ => none
    | _ => some ((s.withFifo (s.fifo.leave .child)).childTo (.ended .killed))

inductive Action where
  | parent (ok : Bool)
  | child (ok : Bool)
  | kill (side : Side)
  deriving DecidableEq, Repr

def step : Action → State → Option State
  | .parent ok => parentStep f capacity fifoName ok
  | .child ok => childStep f ok
  | .kill side => kill side

-- ---------------------------------------------------------------------------
-- What holds in every run
-- ---------------------------------------------------------------------------

/-- The parent has not opened the pipe yet. -/
def ParentPc.BeforeOpen : ParentPc → Prop
  | .stat | .mkfifo | .fork | .open => True
  | _ => False

def ParentPc.HoldsWrite : ParentPc → Prop
  | .waitReader | .write | .close | .closeErr => True
  | _ => False

/-- The parent has written the message and has noticed no failure. -/
def ParentPc.Wrote : ParentPc → Prop
  | .close | .wait | .unlink => True
  | .exiting status => status = 0
  | .ended how => how = .exited 0
  | _ => False

/-- The parent has written nothing. -/
def ParentPc.BeforeWrite : ParentPc → Prop
  | .stat | .mkfifo | .fork | .open | .waitReader | .write => True
  | _ => False

/-- The parent may be without a child. -/
def ParentPc.Alone : ParentPc → Prop
  | .stat | .mkfifo | .fork | .unlinkErr | .exiting _ | .ended _ => True
  | _ => False

/-- The parent does not come to succeed any more, and has closed the pipe. -/
def ParentPc.Failed : ParentPc → Prop
  | .unlinkErr => True
  | .exiting status => status ≠ 0
  | .ended how => how ≠ .exited 0
  | _ => False

def ChildPc.HoldsRead : ChildPc → Prop
  | .waitWriter | .printTime | .read | .received _ | .close | .closeErr => True
  | _ => False

/-- The child has not come to its `read`. -/
def ChildPc.BeforeRead : ChildPc → Prop
  | .unborn | .open | .waitWriter | .printTime | .read => True
  | _ => False

/-- The child has opened the pipe, and some parent has. -/
def ChildPc.Met : ChildPc → Prop
  | .printTime | .read => True
  | _ => False

/-- All that the child prints. -/
def fullOutput : Bytes := timeLine f ++ receivedLine (message f)

/-- All or nothing of the message. -/
def Whole (text : Bytes) : Prop := text = [] ∨ text = timeLine f ∨ text = fullOutput f

/-- All of the message that was written, unless the parent has failed. -/
def Told (s : State) (text : Bytes) : Prop :=
  text = fullOutput f ∧ s.fifo.pipe.written = message f ∨ text = timeLine f ∧ s.parent.Failed

/-- What the child has printed at each statement, and what of it is in the output. -/
def ChildAt (s : State) : ChildPc → Prop
  | .unborn | .open | .waitWriter | .printTime => s.printed = [] ∧ s.output = []
  | .read => s.printed = timeLine f ∧ s.output = []
  | .received bytes => (bytes = message f ∧ s.fifo.pipe.written = message f) ∧
      s.printed = timeLine f ∧ s.output = []
  | .close => Told f s s.printed ∧ s.output = []
  | .closeErr | .unlinkErr => Whole f s.printed ∧ s.output = []
  | .exiting status =>
    (status = 0 → Told f s s.printed) ∧ Whole f s.printed ∧ s.output = []
  | .ended how => (how = .exited 0 → Told f s s.output) ∧ Whole f s.output

structure Inv (s : State) : Prop where
  parent_writes : Side.parent ∈ s.fifo.pipe.writers ↔ s.parent.HoldsWrite
  parent_reads : Side.parent ∉ s.fifo.pipe.readers
  child_reads : Side.child ∈ s.fifo.pipe.readers ↔ s.child.HoldsRead
  child_writes : Side.child ∉ s.fifo.pipe.writers
  parent_waiting : Side.parent ∈ s.fifo.writersWaiting → s.parent = .waitReader
  child_waiting : Side.child ∈ s.fifo.readersWaiting → s.child = .waitWriter
  parent_waits : s.parent = .waitReader → s.child = .open → Side.parent ∈ s.fifo.writersWaiting
  child_waits : s.child = .waitWriter → s.parent = .open → Side.child ∈ s.fifo.readersWaiting
  met : s.child.Met → ¬ s.parent.BeforeOpen
  unborn : s.parent = .stat ∨ s.parent = .mkfifo ∨ s.parent = .fork → s.child = .unborn
  alone : s.child = .unborn → s.parent.Alone
  written : s.fifo.pipe.written = [] ∨ s.fifo.pipe.written = message f
  unwritten : s.parent.BeforeWrite → s.fifo.pipe.written = []
  wrote : s.parent.Wrote → s.fifo.pipe.written = message f
  taken : s.child.BeforeRead → s.fifo.pipe.taken = 0
  child : ChildAt f s s.child
  unnamed : s.parent = .stat ∨ s.parent = .mkfifo ∨ s.parent = .exiting 0 ∨
    s.parent = .ended (.exited 0) → s.name = none
  named : s.parent = .fork → s.name = some .fifo

variable {f capacity fifoName} {s s' : State} {x : Fifo Side} {ok : Bool} {side : Side}

theorem inv_start : Inv f (start none) where
  parent_writes := iff_of_false (Finset.notMem_empty _) id
  parent_reads := Finset.notMem_empty _
  child_reads := iff_of_false (Finset.notMem_empty _) id
  child_writes := Finset.notMem_empty _
  parent_waiting h := absurd h (Finset.notMem_empty _)
  child_waiting h := absurd h (Finset.notMem_empty _)
  parent_waits := nofun
  child_waits := nofun
  met := False.elim
  unborn _ := rfl
  alone _ := trivial
  written := .inl rfl
  unwritten _ := rfl
  wrote := False.elim
  taken _ := rfl
  child := ⟨rfl, rfl⟩
  unnamed _ := rfl
  named := nofun

-- ---------------------------------------------------------------------------
-- Statements of the parent
-- ---------------------------------------------------------------------------

/-- What the parent may do without the child noticing it. -/
structure Goes (f : Facts) (s s' : State) : Prop where
  failed : s.parent.Failed → s'.parent.Failed
  written : s.fifo.pipe.written = message f → s'.fifo.pipe.written = message f

theorem Told.mono {text : Bytes} (h : Told f s text) (hgoes : Goes f s s') : Told f s' text :=
  h.imp (fun hfull => ⟨hfull.1, hgoes.written hfull.2⟩) fun htime =>
    ⟨htime.1, hgoes.failed htime.2⟩

theorem ChildAt.congr {pc : ChildPc} (h : ChildAt f s pc) (hprinted : s'.printed = s.printed)
    (houtput : s'.output = s.output) (hgoes : Goes f s s') : ChildAt f s' pc := by
  cases pc with
  | unborn | «open» | waitWriter | printTime | read | closeErr | unlinkErr =>
    simpa only [ChildAt, hprinted, houtput] using h
  | received bytes =>
    rw [ChildAt, hprinted, houtput]
    exact ⟨⟨h.1.1, hgoes.written h.1.2⟩, h.2⟩
  | close =>
    rw [ChildAt, hprinted, houtput]
    exact ⟨h.1.mono hgoes, h.2⟩
  | exiting status =>
    rw [ChildAt, hprinted, houtput]
    exact ⟨fun hstatus => (h.1 hstatus).mono hgoes, h.2⟩
  | ended how =>
    rw [ChildAt, houtput]
    exact ⟨fun hhow => (h.1 hhow).mono hgoes, h.2⟩

/-- What the parent may do to the pipe: the child keeps its ends, and may be let go on. -/
structure KeepsChild (x x' : Fifo Side) : Prop where
  reads : Side.child ∈ x'.pipe.readers ↔ Side.child ∈ x.pipe.readers
  writes : Side.child ∈ x'.pipe.writers ↔ Side.child ∈ x.pipe.writers
  parent_reads : Side.parent ∈ x'.pipe.readers → Side.parent ∈ x.pipe.readers
  waiting : Side.child ∈ x'.readersWaiting → Side.child ∈ x.readersWaiting
  taken : x'.pipe.taken = x.pipe.taken

theorem KeepsChild.refl : KeepsChild x x := ⟨Iff.rfl, Iff.rfl, id, id, rfl⟩

theorem KeepsChild.leave : KeepsChild x (x.leave .parent) :=
  ⟨by simp [Fifo.leave], by simp [Fifo.leave], by simp [Fifo.leave], by simp [Fifo.leave], rfl⟩

theorem KeepsChild.closeWrite : KeepsChild x { x with pipe := x.pipe.closeWrite .parent } :=
  ⟨Iff.rfl, by simp, id, id, rfl⟩

/-- The parent moves to a statement behind its `open`. -/
theorem Inv.parentMoves {name : Option Node} {pc : ParentPc} {errors : List Bytes} (h : Inv f s)
    (hopen : ¬ pc.BeforeOpen) (hkeeps : KeepsChild s.fifo x)
    (hwrites : Side.parent ∈ x.pipe.writers ↔ pc.HoldsWrite)
    (hwaiting : Side.parent ∈ x.writersWaiting → pc = .waitReader)
    (hwaits : pc = .waitReader → s.child = .open → Side.parent ∈ x.writersWaiting)
    (hwritten : x.pipe.written = [] ∨ x.pipe.written = message f)
    (hunwritten : pc.BeforeWrite → x.pipe.written = [])
    (hwrote : pc.Wrote → x.pipe.written = message f) (halone : s.parent.Alone → pc.Alone)
    (hgoes : Goes f s { s with name := name, fifo := x, parent := pc, errors := errors })
    (hname : pc = .exiting 0 ∨ pc = .ended (.exited 0) → name = none) :
    Inv f { s with name := name, fifo := x, parent := pc, errors := errors } := by
  have hne : ∀ pc', pc'.BeforeOpen → pc ≠ pc' := by
    rintro pc' hbefore rfl
    exact hopen hbefore
  exact
    { parent_writes := hwrites
      parent_reads := fun hin => h.parent_reads (hkeeps.parent_reads hin)
      child_reads := hkeeps.reads.trans h.child_reads
      child_writes := fun hin => h.child_writes (hkeeps.writes.mp hin)
      parent_waiting := hwaiting
      child_waiting := fun hin => h.child_waiting (hkeeps.waiting hin)
      parent_waits := hwaits
      child_waits := fun _ hpc => absurd hpc (hne _ trivial)
      met := fun _ => hopen
      unborn := by
        rintro (hpc | hpc | hpc)
        all_goals exact absurd hpc (hne _ trivial)
      alone := fun hunborn => halone (h.alone hunborn)
      written := hwritten
      unwritten := hunwritten
      wrote := hwrote
      taken := fun hbefore => hkeeps.taken.trans (h.taken hbefore)
      child := h.child.congr rfl rfl hgoes
      unnamed := by
        rintro (hpc | hpc | hpc)
        · exact absurd hpc (hne _ trivial)
        · exact absurd hpc (hne _ trivial)
        · exact hname hpc
      named := fun hpc => absurd hpc (hne _ trivial) }

/-- The parent fails without a hold of the pipe. -/
theorem Inv.parentFails {name : Option Node} {pc : ParentPc} {errors : List Bytes} (h : Inv f s)
    (hpc : pc = .unlinkErr ∨ pc = .exiting 1) (hkeeps : KeepsChild s.fifo x)
    (hwrites : Side.parent ∉ x.pipe.writers) (hwaiting : Side.parent ∉ x.writersWaiting)
    (hwritten : x.pipe.written = s.fifo.pipe.written) :
    Inv f { s with name := name, fifo := x, parent := pc, errors := errors } := by
  have hwritten' : x.pipe.written = [] ∨ x.pipe.written = message f := by
    rw [hwritten]
    exact h.written
  rcases hpc with rfl | rfl
  · exact h.parentMoves id hkeeps (iff_of_false hwrites id) (fun hin => absurd hin hwaiting) nofun
      hwritten' False.elim False.elim (fun _ => trivial) ⟨fun _ => trivial, hwritten.trans⟩ nofun
  · exact h.parentMoves id hkeeps (iff_of_false hwrites id) (fun hin => absurd hin hwaiting) nofun
      hwritten' False.elim nofun (fun _ => trivial) ⟨fun _ => nofun, hwritten.trans⟩ nofun

/-- The parent ends, or is killed. -/
theorem Inv.parentEnds {how : Status} (h : Inv f s)
    (hwrote : how = .exited 0 → s.fifo.pipe.written = message f ∧ s.name = none)
    (hfailed : s.parent.Failed → how ≠ .exited 0) :
    Inv f ((s.withFifo (s.fifo.leave .parent)).parentTo (.ended how)) := by
  apply h.parentMoves id KeepsChild.leave
  · simp [Fifo.leave, ParentPc.HoldsWrite]
  · simp [Fifo.leave]
  · nofun
  · exact h.written
  · exact False.elim
  · exact fun hhow => (hwrote hhow).1
  · exact fun _ => trivial
  · exact ⟨hfailed, id⟩
  · rintro (hpc | hpc)
    · cases hpc
    · exact (hwrote (ParentPc.ended.inj hpc)).2

theorem Inv.parent_not_waiting (h : Inv f s) (hpc : s.parent ≠ .waitReader) :
    Side.parent ∉ s.fifo.writersWaiting := fun hin => hpc (h.parent_waiting hin)

/-- The parent creates the child, and both go to open the pipe. -/
theorem Inv.fork (h : Inv f s) (hpc : s.parent = .fork) :
    Inv f ((s.parentTo .open).childTo .open) := by
  have hchild : s.child = .unborn := h.unborn (.inr (.inr hpc))
  have hat := h.child
  rw [hchild] at hat
  have hwrites := h.parent_writes
  rw [hpc] at hwrites
  have hreads := h.child_reads
  rw [hchild] at hreads
  exact
    { parent_writes := hwrites
      parent_reads := h.parent_reads
      child_reads := hreads
      child_writes := h.child_writes
      parent_waiting := fun hin => absurd hin (h.parent_not_waiting (by rw [hpc]; nofun))
      child_waiting := fun hin => by
        have hwaits := h.child_waiting hin
        rw [hchild] at hwaits
        cases hwaits
      parent_waits := nofun
      child_waits := nofun
      met := False.elim
      unborn := by rintro (h | h | h) <;> cases h
      alone := nofun
      written := h.written
      unwritten := fun _ => h.unwritten (hpc ▸ trivial)
      wrote := False.elim
      taken := fun _ => h.taken (hchild ▸ trivial)
      child := hat
      unnamed := by rintro (h | h | h | h) <;> cases h
      named := nofun }

/-- The pipe gets its name. -/
theorem Inv.mkfifo (h : Inv f s) (hpc : s.parent = .mkfifo) :
    Inv f (((s.withName (some .fifo)).withFifo .create).parentTo .fork) := by
  have hchild : s.child = .unborn := h.unborn (.inr (.inl hpc))
  exact
    { parent_writes := iff_of_false (Finset.notMem_empty _) id
      parent_reads := Finset.notMem_empty _
      child_reads := iff_of_false (Finset.notMem_empty _) (by simp [hchild, ChildPc.HoldsRead])
      child_writes := Finset.notMem_empty _
      parent_waiting := fun hin => absurd hin (Finset.notMem_empty _)
      child_waiting := fun hin => absurd hin (Finset.notMem_empty _)
      parent_waits := nofun
      child_waits := fun _ => nofun
      met := by simp [hchild, ChildPc.Met]
      unborn := fun _ => hchild
      alone := fun _ => trivial
      written := .inl rfl
      unwritten := fun _ => rfl
      wrote := False.elim
      taken := fun _ => rfl
      child := by
        have hat := h.child
        rw [hchild] at hat
        show ChildAt f _ s.child
        rw [hchild]
        exact hat
      unnamed := by rintro (h | h | h | h) <;> cases h
      named := fun _ => rfl }

/-- The parent looks for a file of that name, and finds none. -/
theorem Inv.stat (h : Inv f s) (hpc : s.parent = .stat) : Inv f (s.parentTo .mkfifo) where
  parent_writes := by
    have hwrites := h.parent_writes
    rw [hpc] at hwrites
    exact hwrites
  parent_reads := h.parent_reads
  child_reads := h.child_reads
  child_writes := h.child_writes
  parent_waiting hin := absurd hin (h.parent_not_waiting (by rw [hpc]; nofun))
  child_waiting := h.child_waiting
  parent_waits := nofun
  child_waits _ := nofun
  met hmet := by
    have hnot := h.met hmet
    rw [hpc] at hnot
    exact absurd trivial hnot
  unborn _ := h.unborn (.inl hpc)
  alone _ := trivial
  written := h.written
  unwritten _ := h.unwritten (hpc ▸ trivial)
  wrote := False.elim
  taken := h.taken
  child := h.child.congr rfl rfl ⟨by rw [hpc]; exact False.elim, id⟩
  unnamed _ := h.unnamed (.inl hpc)
  named := nofun

/-- The parent opens the pipe, which lets the child go on. -/
theorem Inv.parentOpen (h : Inv f s) (hpc : s.parent = .open) :
    Inv f ((s.withFifo (s.fifo.arriveWrite .parent)).parentTo .waitReader) := by
  apply h.parentMoves id
  · exact ⟨Iff.rfl, by simp [Fifo.arriveWrite], id, by simp [Fifo.arriveWrite], rfl⟩
  · exact iff_of_true (Finset.mem_insert_self ..) trivial
  · exact fun _ => rfl
  · intro _ hchild
    have hempty : s.fifo.pipe.readers = ∅ := by
      apply Finset.eq_empty_of_forall_notMem
      intro side hside
      cases side with
      | parent => exact h.parent_reads hside
      | child =>
        have hholds := h.child_reads.mp hside
        rw [hchild] at hholds
        exact hholds
    exact Fifo.mem_writersWaiting_arriveWrite.mpr (.inr ⟨rfl, hempty⟩)
  · exact h.written
  · exact fun _ => h.unwritten (hpc ▸ trivial)
  · exact False.elim
  · rw [hpc]
    exact False.elim
  · exact ⟨by rw [hpc]; exact False.elim, id⟩
  · nofun

theorem Inv.parentStep (h : Inv f s) (hs : parentStep f capacity fifoName ok s = some s') :
    Inv f s' := by
  have hwrites := h.parent_writes
  have hwaiting := h.parent_not_waiting
  unfold FifoC.parentStep at hs
  revert hs hwrites hwaiting
  cases hpc : s.parent with
  | stat =>
    intro hs hwrites hwaiting
    dsimp only at hs
    split at hs
    · obtain rfl := Option.some.inj hs
      exact h.parentFails (.inr rfl) .refl (by simpa [ParentPc.HoldsWrite] using hwrites)
        (hwaiting nofun) rfl
    · obtain rfl := Option.some.inj hs
      exact h.stat hpc
  | mkfifo =>
    intro hs hwrites hwaiting
    dsimp only at hs
    split at hs
    · obtain rfl := Option.some.inj hs
      exact h.mkfifo hpc
    · obtain rfl := Option.some.inj hs
      exact h.parentFails (.inr rfl) .refl (by simpa [ParentPc.HoldsWrite] using hwrites)
        (hwaiting nofun) rfl
  | fork =>
    intro hs hwrites hwaiting
    dsimp only at hs
    split at hs
    · obtain rfl := Option.some.inj hs
      exact h.fork hpc
    · obtain rfl := Option.some.inj hs
      exact h.parentFails (.inl rfl) .refl (by simpa [ParentPc.HoldsWrite] using hwrites)
        (hwaiting nofun) rfl
  | «open» =>
    intro hs hwrites hwaiting
    dsimp only at hs
    split at hs
    · obtain rfl := Option.some.inj hs
      exact h.parentOpen hpc
    · obtain rfl := Option.some.inj hs
      exact h.parentFails (.inl rfl) .refl (by simpa [ParentPc.HoldsWrite] using hwrites)
        (hwaiting nofun) rfl
  | waitReader =>
    rintro hs hwrites -
    dsimp only at hs
    split at hs
    · cases hs
    · next hmet =>
      obtain rfl := Option.some.inj hs
      exact h.parentMoves id .refl hwrites (fun hin => absurd hin hmet) nofun h.written
        (fun _ => h.unwritten (hpc ▸ trivial)) False.elim (by rw [hpc]; exact False.elim)
        ⟨by rw [hpc]; exact False.elim, id⟩ nofun
  | write =>
    have hnone : s.fifo.pipe.written = [] := h.unwritten (hpc ▸ trivial)
    intro hs hwrites hwaiting
    dsimp only at hs
    split at hs
    · obtain rfl := Option.some.inj hs
      exact h.parentEnds nofun fun _ => nofun
    · split at hs
      · obtain ⟨p, hp, rfl⟩ := Option.map_eq_some_iff.mp hs
        obtain rfl := Pipe.write_eq_some hp
        have hwritten : s.fifo.pipe.written ++ message f = message f := by
          rw [hnone, List.nil_append]
        exact h.parentMoves id ⟨Iff.rfl, Iff.rfl, id, id, rfl⟩ hwrites
          (fun hin => absurd hin (hwaiting nofun)) nofun (.inr hwritten) False.elim
          (fun _ => hwritten) (by rw [hpc]; exact False.elim)
          ⟨by rw [hpc]; exact False.elim, fun _ => hwritten⟩ nofun
      · obtain rfl := Option.some.inj hs
        exact h.parentMoves id .refl hwrites (fun hin => absurd hin (hwaiting nofun)) nofun
          h.written False.elim False.elim (by rw [hpc]; exact False.elim)
          ⟨by rw [hpc]; exact False.elim, id⟩ nofun
  | close =>
    intro hs hwrites hwaiting
    dsimp only at hs
    split at hs
    · obtain rfl := Option.some.inj hs
      exact h.parentMoves id .closeWrite (by simp [ParentPc.HoldsWrite])
        (fun hin => absurd hin (hwaiting nofun)) nofun h.written False.elim
        (fun _ => h.wrote (hpc ▸ trivial)) (by rw [hpc]; exact False.elim)
        ⟨by rw [hpc]; exact False.elim, id⟩ nofun
    · obtain rfl := Option.some.inj hs
      exact h.parentFails (.inl rfl) .closeWrite (by simp) (hwaiting nofun) rfl
  | wait =>
    intro hs hwrites hwaiting
    have hmoves : Inv f (s.parentTo .unlink) :=
      h.parentMoves id .refl hwrites (fun hin => absurd hin (hwaiting nofun)) nofun h.written
        False.elim (fun _ => h.wrote (hpc ▸ trivial)) (by rw [hpc]; exact False.elim)
        ⟨by rw [hpc]; exact False.elim, id⟩ nofun
    dsimp only at hs
    split at hs
    · obtain rfl := Option.some.inj hs
      exact hmoves
    · obtain rfl := Option.some.inj hs
      exact hmoves
    · cases hs
  | unlink =>
    intro hs hwrites hwaiting
    dsimp only at hs
    split at hs
    · obtain rfl := Option.some.inj hs
      exact h.parentMoves id .refl hwrites (fun hin => absurd hin (hwaiting nofun)) nofun h.written
        False.elim (fun _ => h.wrote (hpc ▸ trivial)) (by rw [hpc]; exact False.elim)
        ⟨by rw [hpc]; exact False.elim, id⟩ fun _ => rfl
    · obtain rfl := Option.some.inj hs
      exact h.parentFails (.inr rfl) .refl (by simpa [ParentPc.HoldsWrite] using hwrites)
        (hwaiting nofun) rfl
  | closeErr =>
    rintro ⟨⟩ hwrites hwaiting
    exact h.parentFails (.inl rfl) .closeWrite (by simp) (hwaiting nofun) rfl
  | unlinkErr =>
    rintro ⟨⟩ hwrites hwaiting
    exact h.parentFails (.inr rfl) .refl (by simpa [ParentPc.HoldsWrite] using hwrites)
      (hwaiting nofun) rfl
  | exiting status =>
    rintro ⟨⟩ - -
    apply h.parentEnds
    · intro hhow
      obtain rfl := Status.exited.inj hhow
      exact ⟨h.wrote (hpc ▸ rfl), h.unnamed (.inr (.inr (.inl hpc)))⟩
    · rw [hpc]
      intro hstatus hhow
      exact hstatus (Status.exited.inj hhow)
  | ended how => nofun

-- ---------------------------------------------------------------------------
-- Statements of the child
-- ---------------------------------------------------------------------------

/-- What the child may do to the pipe: the parent keeps its ends, and may be let go on. -/
structure KeepsParent (x x' : Fifo Side) : Prop where
  writes : Side.parent ∈ x'.pipe.writers ↔ Side.parent ∈ x.pipe.writers
  reads : Side.parent ∈ x'.pipe.readers → Side.parent ∈ x.pipe.readers
  child_writes : Side.child ∈ x'.pipe.writers → Side.child ∈ x.pipe.writers
  waiting : Side.parent ∈ x'.writersWaiting → Side.parent ∈ x.writersWaiting
  written : x'.pipe.written = x.pipe.written

theorem KeepsParent.refl : KeepsParent x x := ⟨Iff.rfl, id, id, id, rfl⟩

theorem KeepsParent.leave : KeepsParent x (x.leave .child) :=
  ⟨by simp [Fifo.leave], by simp [Fifo.leave], by simp [Fifo.leave], by simp [Fifo.leave], rfl⟩

theorem KeepsParent.closeRead : KeepsParent x { x with pipe := x.pipe.closeRead .child } :=
  ⟨Iff.rfl, by simp, id, id, rfl⟩

theorem KeepsParent.take (n : Nat) :
    KeepsParent x { x with pipe := { x.pipe with taken := x.pipe.taken + n } } :=
  ⟨Iff.rfl, id, id, id, rfl⟩

/-- The child moves to a statement behind its `open`. -/
theorem Inv.childMoves {name : Option Node} {printed output : Bytes}
    {errors : List Bytes} (h : Inv f s) (pc : ChildPc) (hborn : s.child ≠ .unborn)
    (hpc : pc ≠ .unborn ∧ pc ≠ .open) (hkeeps : KeepsParent s.fifo x)
    (hreads : Side.child ∈ x.pipe.readers ↔ pc.HoldsRead)
    (hwaiting : Side.child ∈ x.readersWaiting → pc = .waitWriter)
    (hwaits : pc = .waitWriter → s.parent = .open → Side.child ∈ x.readersWaiting)
    (hmet : pc.Met → ¬ s.parent.BeforeOpen) (htaken : pc.BeforeRead → x.pipe.taken = 0)
    (hat : ChildAt f ⟨name, x, s.parent, pc, printed, output, errors⟩ pc)
    (hname : s.name = none → name = none) :
    Inv f ⟨name, x, s.parent, pc, printed, output, errors⟩ where
  parent_writes := hkeeps.writes.trans h.parent_writes
  parent_reads hin := h.parent_reads (hkeeps.reads hin)
  child_reads := hreads
  child_writes hin := h.child_writes (hkeeps.child_writes hin)
  parent_waiting hin := h.parent_waiting (hkeeps.waiting hin)
  child_waiting := hwaiting
  parent_waits _ hopen := absurd hopen hpc.2
  child_waits := hwaits
  met := hmet
  unborn hstart := absurd (h.unborn hstart) hborn
  alone hunborn := absurd hunborn hpc.1
  written := by rw [hkeeps.written]; exact h.written
  unwritten hbefore := by rw [hkeeps.written]; exact h.unwritten hbefore
  wrote hwrote := by rw [hkeeps.written]; exact h.wrote hwrote
  taken := htaken
  child := hat
  unnamed hsome := hname (h.unnamed hsome)
  named hfork := absurd (h.unborn (.inr (.inr hfork))) hborn

/-- What is in the output of a child at any time. -/
theorem ChildAt.whole {pc : ChildPc} (h : ChildAt f s pc) : Whole f s.output := by
  cases pc with
  | unborn | «open» | waitWriter | printTime | read | close | closeErr | unlinkErr => exact .inl h.2
  | received => exact .inl h.2.2
  | exiting => exact .inl h.2.2
  | ended how => exact h.2

theorem Told.whole {text : Bytes} (h : Told f s text) : Whole f text :=
  h.elim (fun hfull => .inr (.inr hfull.1)) fun htime => .inr (.inl htime.1)

/-- The child reads the whole message at once. -/
theorem Inv.read_eq (h : Inv f s) (hpc : s.child = .read) {bytes : Bytes} {p : Pipe Side}
    (hread : s.fifo.pipe.read (bufferSize - 1) = some (bytes, p)) (hne : bytes ≠ []) :
    bytes = message f ∧ s.fifo.pipe.written = message f := by
  have htaken : s.fifo.pipe.taken = 0 := h.taken (hpc ▸ trivial)
  obtain ⟨-, hbytes, -⟩ := Pipe.read_eq_some hread
  rw [Pipe.content, htaken, List.drop_zero] at hbytes
  rcases h.written with hwritten | hwritten
  · rw [hwritten, List.take_nil] at hbytes
    exact absurd hbytes hne
  · rw [hwritten, List.take_of_length_le length_message_lt.le] at hbytes
    exact ⟨hbytes, hwritten⟩

/-- Only a parent that has failed leaves the child without a message. -/
theorem Inv.failed_of_eof (h : Inv f s) (hpc : s.child = .read) {p : Pipe Side}
    (hread : s.fifo.pipe.read (bufferSize - 1) = some ([], p)) : s.parent.Failed := by
  obtain ⟨-, hbytes, hend⟩ := Pipe.read_eq_some hread
  have hempty : s.fifo.pipe.content = [] := by
    rw [eq_comm, List.take_eq_nil_iff] at hbytes
    exact hbytes.resolve_left nofun
  have hnone : s.fifo.pipe.written ≠ message f := by
    rw [Pipe.content, h.taken (hpc ▸ trivial), List.drop_zero] at hempty
    rw [hempty]
    exact message_ne_nil.symm
  have hclosed : ¬ s.parent.HoldsWrite := by
    intro hholds
    have hin := h.parent_writes.mpr hholds
    rw [hend hempty] at hin
    exact Finset.notMem_empty _ hin
  have hopen : ¬ s.parent.BeforeOpen := h.met (hpc ▸ trivial)
  have hwrote : ¬ s.parent.Wrote := fun hwrote => hnone (h.wrote hwrote)
  revert hclosed hopen hwrote
  cases s.parent with
  | stat | mkfifo | fork | «open» => exact fun _ hopen _ => absurd trivial hopen
  | waitReader | write | close | closeErr => exact fun hclosed _ _ => absurd trivial hclosed
  | wait | unlink => exact fun _ _ hwrote => absurd trivial hwrote
  | unlinkErr => exact fun _ _ _ => trivial
  | exiting status | ended how => exact fun _ _ hwrote => hwrote

/-- The child opens the pipe, which lets the parent go on. -/
theorem Inv.childOpen (h : Inv f s) (hpc : s.child = .open) :
    Inv f ((s.withFifo (s.fifo.arriveRead .child)).childTo .waitWriter) := by
  have hat := h.child
  rw [hpc] at hat
  apply h.childMoves .waitWriter (by rw [hpc]; nofun) ⟨nofun, nofun⟩
  · exact ⟨Iff.rfl, by simp [Fifo.arriveRead], id, by simp [Fifo.arriveRead], rfl⟩
  · exact iff_of_true (Finset.mem_insert_self ..) trivial
  · exact fun _ => rfl
  · intro _ hparent
    have hempty : s.fifo.pipe.writers = ∅ := by
      apply Finset.eq_empty_of_forall_notMem
      intro side hside
      cases side with
      | parent =>
        have hholds := h.parent_writes.mp hside
        rw [hparent] at hholds
        exact hholds
      | child => exact h.child_writes hside
    exact Fifo.mem_readersWaiting_arriveRead.mpr (.inr ⟨rfl, hempty⟩)
  · exact False.elim
  · exact fun _ => h.taken (hpc ▸ trivial)
  · exact hat
  · exact id

theorem Inv.child_not_waiting (h : Inv f s) (hpc : s.child ≠ .waitWriter) :
    Side.child ∉ s.fifo.readersWaiting := fun hin => hpc (h.child_waiting hin)

/-- The child moves on behind its `read`. -/
theorem Inv.childBehind {name : Option Node} {printed output : Bytes} {errors : List Bytes}
    (h : Inv f s) (pc : ChildPc) (hborn : s.child ≠ .unborn) (hpc : ¬ pc.BeforeRead)
    (hkeeps : KeepsParent s.fifo x) (hreads : Side.child ∈ x.pipe.readers ↔ pc.HoldsRead)
    (hwaiting : Side.child ∉ x.readersWaiting)
    (hat : ChildAt f ⟨name, x, s.parent, pc, printed, output, errors⟩ pc)
    (hname : s.name = none → name = none) :
    Inv f ⟨name, x, s.parent, pc, printed, output, errors⟩ := by
  have hne : ∀ pc', pc'.BeforeRead → pc ≠ pc' := by
    rintro pc' hbefore rfl
    exact hpc hbefore
  have hmet : ¬ pc.Met := by
    cases pc with
    | printTime | read => exact absurd trivial hpc
    | _ => exact id
  exact h.childMoves pc hborn ⟨hne _ trivial, hne _ trivial⟩ hkeeps hreads
    (fun hin => absurd hin hwaiting) (fun hwaits => absurd hwaits (hne _ trivial))
    (fun hin => absurd hin hmet) (fun hin => absurd hin hpc) hat hname

theorem Inv.childStep (h : Inv f s) (hs : childStep f ok s = some s') : Inv f s' := by
  have hat := h.child
  have hreads := h.child_reads
  have hwaiting := h.child_not_waiting
  unfold FifoC.childStep at hs
  revert hs hat hreads hwaiting
  cases hpc : s.child with
  | unborn => nofun
  | «open» =>
    intro hs hat hreads hwaiting
    dsimp only at hs
    split at hs
    · obtain rfl := Option.some.inj hs
      exact h.childOpen hpc
    · obtain rfl := Option.some.inj hs
      exact h.childBehind _ (by rw [hpc]; nofun) id .refl hreads (hwaiting nofun)
        ⟨.inl hat.1, hat.2⟩ id
  | waitWriter =>
    rintro hs hat hreads -
    dsimp only at hs
    split at hs
    · cases hs
    · next hmet =>
      obtain rfl := Option.some.inj hs
      apply h.childMoves .printTime (by rw [hpc]; nofun) ⟨nofun, nofun⟩ .refl hreads
        (fun hin => absurd hin hmet) nofun ?_ (fun _ => h.taken (hpc ▸ trivial)) hat id
      -- the parent has opened the pipe, or the child would wait for it
      intro _ hbefore
      have hborn : s.child ≠ .unborn := by rw [hpc]; nofun
      revert hbefore
      cases hparent : s.parent with
      | stat => exact fun _ => hborn (h.unborn (.inl hparent))
      | mkfifo => exact fun _ => hborn (h.unborn (.inr (.inl hparent)))
      | fork => exact fun _ => hborn (h.unborn (.inr (.inr hparent)))
      | «open» => exact fun _ => hmet (h.child_waits hpc hparent)
      | _ => exact id
  | printTime =>
    rintro ⟨⟩ ⟨hprinted, houtput⟩ hreads hwaiting
    apply h.childMoves .read (by rw [hpc]; nofun) ⟨nofun, nofun⟩ .refl hreads
      (fun hin => absurd hin (hwaiting nofun)) nofun (fun _ => h.met (hpc ▸ trivial))
      (fun _ => h.taken (hpc ▸ trivial)) ⟨?_, houtput⟩ id
    show s.printed ++ timeLine f = timeLine f
    rw [hprinted, List.nil_append]
  | read =>
    rintro hs ⟨hprinted, houtput⟩ hreads hwaiting
    cases ok with
    | false =>
      obtain rfl := Option.some.inj hs
      exact h.childBehind _ (by rw [hpc]; nofun) id .refl hreads (hwaiting nofun)
        ⟨.inr (.inl hprinted), houtput⟩ id
    | true =>
      obtain ⟨⟨bytes, p⟩, hread, rfl⟩ := Option.map_eq_some_iff.mp hs
      have hmessage := h.read_eq hpc hread
      have heof : bytes = [] → s.parent.Failed := by
        rintro rfl
        exact h.failed_of_eof hpc hread
      obtain ⟨rfl, -, -⟩ := Pipe.read_eq_some hread
      dsimp only
      split
      · next hnil =>
        exact h.childBehind _ (by rw [hpc]; nofun) id (.take _) hreads (hwaiting nofun)
          ⟨.inr ⟨hprinted, heof hnil⟩, houtput⟩ id
      · next hne =>
        exact h.childBehind _ (by rw [hpc]; nofun) id (.take _) hreads (hwaiting nofun)
          ⟨hmessage hne, hprinted, houtput⟩ id
  | received bytes =>
    rintro ⟨⟩ ⟨hbytes, hprinted, houtput⟩ hreads hwaiting
    apply h.childBehind .close (by rw [hpc]; nofun) id .refl hreads (hwaiting nofun)
      ⟨.inl ⟨?_, hbytes.2⟩, houtput⟩ id
    show s.printed ++ receivedLine bytes = fullOutput f
    rw [hprinted, hbytes.1, fullOutput]
  | close =>
    rintro hs ⟨htold, houtput⟩ - hwaiting
    dsimp only at hs
    split at hs
    · obtain rfl := Option.some.inj hs
      exact h.childBehind _ (by rw [hpc]; nofun) id .closeRead (by simp [ChildPc.HoldsRead])
        (hwaiting nofun) ⟨fun _ => htold, htold.whole, houtput⟩ id
    · obtain rfl := Option.some.inj hs
      exact h.childBehind _ (by rw [hpc]; nofun) id .closeRead (by simp [ChildPc.HoldsRead])
        (hwaiting nofun) ⟨htold.whole, houtput⟩ id
  | closeErr =>
    rintro ⟨⟩ hat - hwaiting
    exact h.childBehind _ (by rw [hpc]; nofun) id .closeRead (by simp [ChildPc.HoldsRead])
      (hwaiting nofun) hat id
  | unlinkErr =>
    rintro ⟨⟩ hat hreads hwaiting
    apply h.childBehind (.exiting 1) (by rw [hpc]; nofun) id .refl hreads (hwaiting nofun)
      ⟨nofun, hat⟩
    intro hname
    show (if ok then none else s.name) = none
    rw [hname, ite_self]
  | exiting status =>
    rintro ⟨⟩ ⟨htold, hwhole, houtput⟩ - -
    have hflush : s.output ++ s.printed = s.printed := by rw [houtput, List.nil_append]
    have htold' : status = 0 → Told f s (s.output ++ s.printed) := by
      rw [hflush]
      exact htold
    have hwhole' : Whole f (s.output ++ s.printed) := by
      rw [hflush]
      exact hwhole
    exact h.childBehind (.ended (.exited status)) (by rw [hpc]; nofun) id .leave
      (by simp [Fifo.leave, ChildPc.HoldsRead]) (by simp [Fifo.leave])
      ⟨fun hhow => htold' (Status.exited.inj hhow), hwhole'⟩ id
  | ended how => nofun

theorem Inv.kill (h : Inv f s) (hs : kill side s = some s') : Inv f s' := by
  unfold FifoC.kill at hs
  cases side with
  | parent =>
    dsimp only at hs
    split at hs
    · cases hs
    · obtain rfl := Option.some.inj hs
      exact h.parentEnds nofun fun _ => nofun
  | child =>
    dsimp only at hs
    split at hs
    · cases hs
    · cases hs
    · next hborn _ =>
      obtain rfl := Option.some.inj hs
      exact h.childBehind _ hborn id .leave (by simp [Fifo.leave, ChildPc.HoldsRead])
        (by simp [Fifo.leave]) ⟨nofun, h.child.whole⟩ id

theorem Inv.step {a : Action} (h : Inv f s) (hs : step f capacity fifoName a s = some s') :
    Inv f s' := by
  cases a with
  | parent ok => exact h.parentStep hs
  | child ok => exact h.childStep hs
  | kill side => exact h.kill hs

theorem inv_of_reaches (h : Reaches (step f capacity fifoName) (start none) s) : Inv f s :=
  h.invariant inv_start fun _ _ _ hs ha => hs.step ha

end LabsOS.PipeFifo.FifoC
