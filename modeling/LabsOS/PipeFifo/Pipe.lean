import LabsOS.Concurrency.Fairness
import LabsOS.PipeFifo.Messages
import Mathlib.Tactic.Simps.Basic

/-!
# A message through a pipe

The two processes of `lab6_pipefifo/pipe.c`, one action for each system call and each `printf`.
Any call may fail, and any process may be killed at any point. What a process prints reaches the
output when it exits; `sleep` is no action.

`pipe_delivers`: every run ends, and it ends with both processes; the child has printed the whole
message of the parent or nothing of it, and all of it where nothing went wrong.
-/

namespace LabsOS.PipeFifo.PipeC

-- ---------------------------------------------------------------------------
-- State
-- ---------------------------------------------------------------------------

/-- The next statement of the parent. -/
inductive ParentPc where
  | pipe
  | fork
  | closeRead
  | write
  | closeWrite
  | wait
  | exiting (status : Nat)
  | ended (how : Status)
  deriving DecidableEq, Repr

/-- The next statement of the child, which does not exist before the `fork`. -/
inductive ChildPc where
  | unborn
  | closeWrite
  | printTime
  | read
  | received (bytes : Bytes)
  | closeRead
  | exiting
  | ended (how : Status)
  deriving DecidableEq, Repr

/-- The pipe, the processes, what the child has printed, what reached the output of both, and
what `perror` was called with. -/
structure State where
  pipe : Pipe Side
  parent : ParentPc
  child : ChildPc
  printed : Bytes
  output : Bytes
  errors : List Bytes

namespace State

@[simps] def parentTo (pc : ParentPc) (s : State) : State := { s with parent := pc }

@[simps] def childTo (pc : ChildPc) (s : State) : State := { s with child := pc }

@[simps] def withPipe (p : Pipe Side) (s : State) : State := { s with pipe := p }

@[simps] def print (text : Bytes) (s : State) : State := { s with printed := s.printed ++ text }

@[simps] def perror (text : Bytes) (s : State) : State := { s with errors := s.errors ++ [text] }

/-- What the child has printed reaches the output. -/
@[simps] def flush (s : State) : State := { s with output := s.output ++ s.printed }

end State

/-- The pipe of the state before `pipe()` is not used. -/
def start : State := ⟨⟨∅, ∅, [], 0⟩, .pipe, .unborn, [], [], []⟩

-- ---------------------------------------------------------------------------
-- Actions
-- ---------------------------------------------------------------------------

variable (f : Facts) (capacity : Nat)

/-- The next statement of the parent, whose system call succeeds if `ok`. A `write` that nobody
can read kills it. -/
def parentStep (ok : Bool) (s : State) : Option State :=
  match s.parent with
  | .pipe =>
    if ok then some ((s.withPipe (.create .parent)).parentTo .fork)
    else some ((s.perror (ascii "pipe creation failed")).parentTo (.exiting 1))
  | .fork =>
    if ok then
      some (((s.withPipe (s.pipe.fork .parent .child)).parentTo .closeRead).childTo .closeWrite)
    else some ((s.perror (ascii "fork failed")).parentTo (.exiting 1))
  | .closeRead => some ((s.withPipe (s.pipe.closeRead .parent)).parentTo .write)
  | .write =>
    if s.pipe.readers = ∅ then some ((s.withPipe (s.pipe.leave .parent)).parentTo (.ended .killed))
    else if ok then
      (s.pipe.write capacity (message f)).map fun p => (s.withPipe p).parentTo .closeWrite
    else some (s.parentTo .closeWrite)
  | .closeWrite => some ((s.withPipe (s.pipe.closeWrite .parent)).parentTo .wait)
  | .wait =>
    match s.child with
    | .unborn | .ended _ => some (s.parentTo (.exiting 0))
    | _ => none
  | .exiting status =>
    some ((s.withPipe (s.pipe.leave .parent)).parentTo (.ended (.exited status)))
  | .ended _ => none

/-- The next statement of the child. -/
def childStep (ok : Bool) (s : State) : Option State :=
  match s.child with
  | .unborn => none
  | .closeWrite => some ((s.withPipe (s.pipe.closeWrite .child)).childTo .printTime)
  | .printTime => some ((s.print (timeLine f)).childTo .read)
  | .read =>
    if ok then
      (s.pipe.read (bufferSize - 1)).map fun r =>
        (s.withPipe r.2).childTo (if r.1 = [] then .closeRead else .received r.1)
    else some ((s.perror (ascii "read failed")).childTo .closeRead)
  | .received bytes => some ((s.print (receivedLine bytes)).childTo .closeRead)
  | .closeRead => some ((s.withPipe (s.pipe.closeRead .child)).childTo .exiting)
  | .exiting =>
    some ((s.flush.withPipe (s.pipe.leave .child)).childTo (.ended (.exited 0)))
  | .ended _ => none

/-- The process is killed by a signal. -/
def kill (side : Side) (s : State) : Option State :=
  match side with
  | .parent =>
    match s.parent with
    | .ended _ => none
    | _ => some ((s.withPipe (s.pipe.leave .parent)).parentTo (.ended .killed))
  | .child =>
    match s.child with
    | .unborn | .ended _ => none
    | _ => some ((s.withPipe (s.pipe.leave .child)).childTo (.ended .killed))

inductive Action where
  | parent (ok : Bool)
  | child (ok : Bool)
  | kill (side : Side)
  deriving DecidableEq, Repr

def step : Action → State → Option State
  | .parent ok => parentStep f capacity ok
  | .child ok => childStep f ok
  | .kill side => kill side

-- ---------------------------------------------------------------------------
-- What holds in every run
-- ---------------------------------------------------------------------------

def ParentPc.HoldsWrite : ParentPc → Prop
  | .fork | .closeRead | .write | .closeWrite => True
  | _ => False

/-- The parent has closed its end, or has ended. -/
def ParentPc.Released : ParentPc → Prop
  | .wait | .ended _ => True
  | _ => False

/-- The parent has not come to its `write`. -/
def ParentPc.BeforeWrite : ParentPc → Prop
  | .pipe | .fork | .closeRead | .write => True
  | _ => False

def ChildPc.HoldsRead : ChildPc → Prop
  | .closeWrite | .printTime | .read | .received _ | .closeRead => True
  | _ => False

/-- The child has not come to its `read`. -/
def ChildPc.BeforeRead : ChildPc → Prop
  | .unborn | .closeWrite | .printTime | .read => True
  | _ => False

/-- All that the child prints. -/
def fullOutput : Bytes := timeLine f ++ receivedLine (message f)

/-- What the child has printed at each statement, and what of it is in the output. -/
def ChildAt (printed output : Bytes) : ChildPc → Prop
  | .unborn | .closeWrite | .printTime => printed = [] ∧ output = []
  | .read => printed = timeLine f ∧ output = []
  | .received bytes => bytes = message f ∧ printed = timeLine f ∧ output = []
  | .closeRead | .exiting => (printed = timeLine f ∨ printed = fullOutput f) ∧ output = []
  | .ended _ => output = [] ∨ output = timeLine f ∨ output = fullOutput f

structure Inv (s : State) : Prop where
  keeps : s.parent.HoldsWrite → Side.parent ∈ s.pipe.writers
  released : s.parent.Released → Side.parent ∉ s.pipe.writers
  shares : s.parent = .fork → Side.parent ∈ s.pipe.readers
  child_writes : Side.child ∈ s.pipe.writers ↔ s.child = .closeWrite
  child_reads : Side.child ∈ s.pipe.readers ↔ s.child.HoldsRead
  written : s.pipe.written = [] ∨ s.pipe.written = message f
  unwritten : s.parent.BeforeWrite → s.pipe.written = []
  taken : s.child.BeforeRead → s.pipe.taken = 0
  child : ChildAt f s.printed s.output s.child
  unborn : s.parent = .pipe ∨ s.parent = .fork → s.child = .unborn

variable {f capacity} {s s' : State} {p : Pipe Side} {ok : Bool} {side : Side}

theorem inv_start : Inv f start where
  keeps := False.elim
  released := False.elim
  shares := nofun
  child_writes := iff_of_false (Finset.notMem_empty _) nofun
  child_reads := iff_of_false (Finset.notMem_empty _) id
  written := .inl rfl
  unwritten _ := rfl
  taken _ := rfl
  child := ⟨rfl, rfl⟩
  unborn _ := rfl

-- ---------------------------------------------------------------------------
-- Statements of the parent
-- ---------------------------------------------------------------------------

/-- The parent moves on behind the `fork`, and does nothing to the ends of the child. -/
theorem Inv.parentTo {pc : ParentPc} (h : Inv f s) (hpc : pc ≠ .pipe ∧ pc ≠ .fork)
    (hkeeps : pc.HoldsWrite → Side.parent ∈ p.writers)
    (hreleased : pc.Released → Side.parent ∉ p.writers)
    (hwriters : Side.child ∈ p.writers ↔ Side.child ∈ s.pipe.writers)
    (hreaders : Side.child ∈ p.readers ↔ Side.child ∈ s.pipe.readers)
    (hwritten : p.written = [] ∨ p.written = message f)
    (hunwritten : pc.BeforeWrite → p.written = []) (htaken : p.taken = s.pipe.taken) :
    Inv f ((s.withPipe p).parentTo pc) where
  keeps := hkeeps
  released := hreleased
  shares hfork := absurd hfork hpc.2
  child_writes := hwriters.trans h.child_writes
  child_reads := hreaders.trans h.child_reads
  written := hwritten
  unwritten := hunwritten
  taken hbefore := htaken.trans (h.taken hbefore)
  child := h.child
  unborn hstart := (hstart.elim hpc.1 hpc.2).elim

/-- The parent ends. -/
theorem Inv.parentLeave (h : Inv f s) (how : Status) :
    Inv f ((s.withPipe (s.pipe.leave .parent)).parentTo (.ended how)) :=
  h.parentTo ⟨nofun, nofun⟩ False.elim (by simp) (by simp) (by simp) h.written False.elim rfl

/-- The parent goes to exit. -/
theorem Inv.parentExits (h : Inv f s) (status : Nat) : Inv f (s.parentTo (.exiting status)) :=
  h.parentTo ⟨nofun, nofun⟩ False.elim False.elim Iff.rfl Iff.rfl h.written False.elim rfl

theorem Inv.perror (h : Inv f s) (text : Bytes) : Inv f (s.perror text) :=
  ⟨h.keeps, h.released, h.shares, h.child_writes, h.child_reads, h.written, h.unwritten, h.taken,
    h.child, h.unborn⟩

/-- The pipe is created. -/
theorem Inv.create (h : Inv f s) (hpc : s.parent = .pipe) :
    Inv f ((s.withPipe (.create .parent)).parentTo .fork) := by
  have hchild : s.child = .unborn := h.unborn (.inl hpc)
  exact
    { keeps := fun _ => Finset.mem_singleton_self _
      released := False.elim
      shares := fun _ => Finset.mem_singleton_self _
      child_writes := by simp [Pipe.create, hchild]
      child_reads := by simp [Pipe.create, hchild, ChildPc.HoldsRead]
      written := .inl rfl
      unwritten := fun _ => rfl
      taken := fun _ => rfl
      child := h.child
      unborn := fun _ => hchild }

/-- The child is created, with the ends that the parent holds. -/
theorem Inv.fork (h : Inv f s) (hpc : s.parent = .fork) :
    Inv f (((s.withPipe (s.pipe.fork .parent .child)).parentTo .closeRead).childTo
      .closeWrite) := by
  have hchild : s.child = .unborn := h.unborn (.inr hpc)
  have hholds : Side.parent ∈ s.pipe.writers := h.keeps (hpc ▸ trivial)
  have hat := h.child
  rw [hchild] at hat
  exact
    { keeps := fun _ => by simp [hholds]
      released := False.elim
      shares := nofun
      child_writes := by simp [hholds]
      child_reads := by simp [h.shares hpc, ChildPc.HoldsRead]
      written := h.written
      unwritten := fun _ => h.unwritten (hpc ▸ trivial)
      taken := fun _ => h.taken (hchild ▸ trivial)
      child := hat
      unborn := nofun }

theorem Inv.parentStep (h : Inv f s) (hs : parentStep f capacity ok s = some s') : Inv f s' := by
  unfold PipeC.parentStep at hs
  revert hs
  cases hpc : s.parent with
  | pipe =>
    cases ok with
    | true =>
      rintro ⟨⟩
      exact h.create hpc
    | false =>
      rintro ⟨⟩
      exact (h.perror _).parentExits 1
  | fork =>
    cases ok with
    | true =>
      rintro ⟨⟩
      exact h.fork hpc
    | false =>
      rintro ⟨⟩
      exact (h.perror _).parentExits 1
  | closeRead =>
    rintro ⟨⟩
    have hkeeps : Side.parent ∈ s.pipe.writers := h.keeps (hpc ▸ trivial)
    exact h.parentTo ⟨nofun, nofun⟩ (fun _ => hkeeps) False.elim Iff.rfl (by simp) h.written
      (fun _ => h.unwritten (hpc ▸ trivial)) rfl
  | write =>
    have hkeeps : Side.parent ∈ s.pipe.writers := h.keeps (hpc ▸ trivial)
    have hnone : s.pipe.written = [] := h.unwritten (hpc ▸ trivial)
    intro hs
    dsimp only at hs
    split at hs
    · obtain rfl := Option.some.inj hs
      exact h.parentLeave _
    · split at hs
      · obtain ⟨p, hp, rfl⟩ := Option.map_eq_some_iff.mp hs
        obtain rfl := Pipe.write_eq_some hp
        refine h.parentTo ⟨nofun, nofun⟩ (fun _ => hkeeps) False.elim Iff.rfl Iff.rfl ?_ False.elim
          rfl
        exact .inr (by rw [hnone, List.nil_append])
      · obtain rfl := Option.some.inj hs
        exact h.parentTo ⟨nofun, nofun⟩ (fun _ => hkeeps) False.elim Iff.rfl Iff.rfl h.written
          False.elim rfl
  | closeWrite =>
    rintro ⟨⟩
    exact h.parentTo ⟨nofun, nofun⟩ False.elim (by simp) (by simp) Iff.rfl h.written False.elim rfl
  | wait =>
    intro hs
    dsimp only at hs
    split at hs
    · obtain rfl := Option.some.inj hs
      exact h.parentExits 0
    · obtain rfl := Option.some.inj hs
      exact h.parentExits 0
    · cases hs
  | exiting status =>
    rintro ⟨⟩
    exact h.parentLeave _
  | ended how => nofun

-- ---------------------------------------------------------------------------
-- Statements of the child
-- ---------------------------------------------------------------------------

/-- The child moves on, and does nothing to the ends of the parent. -/
theorem Inv.childTo {pc : ChildPc} {printed output : Bytes} (h : Inv f s)
    (hpc : s.child ≠ .unborn)
    (hparent : (Side.parent ∈ p.writers ↔ Side.parent ∈ s.pipe.writers) ∧
      (Side.parent ∈ p.readers ↔ Side.parent ∈ s.pipe.readers))
    (hwrites : Side.child ∈ p.writers ↔ pc = .closeWrite)
    (hreads : Side.child ∈ p.readers ↔ pc.HoldsRead) (hwritten : p.written = s.pipe.written)
    (htaken : pc.BeforeRead → p.taken = 0) (hat : ChildAt f printed output pc) :
    Inv f { s with pipe := p, child := pc, printed := printed, output := output } where
  keeps hholds := hparent.1.mpr (h.keeps hholds)
  released hreleased hin := h.released hreleased (hparent.1.mp hin)
  shares hfork := hparent.2.mpr (h.shares hfork)
  child_writes := hwrites
  child_reads := hreads
  written := by rw [hwritten]; exact h.written
  unwritten hbefore := by rw [hwritten]; exact h.unwritten hbefore
  taken := htaken
  child := hat
  unborn hstart := absurd (h.unborn hstart) hpc

/-- The child ends, and nothing but what is in the output is seen of it. -/
theorem Inv.childLeave {output : Bytes} (h : Inv f s) (hpc : s.child ≠ .unborn) (how : Status)
    (hat : output = [] ∨ output = timeLine f ∨ output = fullOutput f) :
    Inv f { s with pipe := s.pipe.leave .child, child := .ended how, output := output } :=
  h.childTo hpc (by simp) (by simp) (by simp [ChildPc.HoldsRead]) rfl False.elim hat

/-- What is in the output of a child that has not come to its end, or has. -/
theorem ChildAt.output_cases {printed output : Bytes} {pc : ChildPc}
    (h : ChildAt f printed output pc) :
    output = [] ∨ output = timeLine f ∨ output = fullOutput f := by
  cases pc with
  | unborn | closeWrite | printTime | read | closeRead | exiting => exact .inl h.2
  | received bytes => exact .inl h.2.2
  | ended how => exact h

/-- The child reads the whole message at once. -/
theorem Inv.read_eq (h : Inv f s) (hpc : s.child = .read) {bytes : Bytes}
    (hread : s.pipe.read (bufferSize - 1) = some (bytes, p)) (hne : bytes ≠ []) :
    bytes = message f ∧ s.pipe.written = message f := by
  have htaken : s.pipe.taken = 0 := h.taken (hpc ▸ trivial)
  obtain ⟨-, hbytes, -⟩ := Pipe.read_eq_some hread
  rw [Pipe.content, htaken, List.drop_zero] at hbytes
  rcases h.written with hwritten | hwritten
  · rw [hwritten, List.take_nil] at hbytes
    exact absurd hbytes hne
  · rw [hwritten, List.take_of_length_le length_message_lt.le] at hbytes
    exact ⟨hbytes, hwritten⟩

theorem Inv.childStep (h : Inv f s) (hs : childStep f ok s = some s') : Inv f s' := by
  have hat := h.child
  have hwrites := h.child_writes
  have hreads := h.child_reads
  unfold PipeC.childStep at hs
  revert hs hat hwrites hreads
  cases hpc : s.child with
  | unborn => nofun
  | closeWrite =>
    rintro ⟨⟩ hat - hreads
    exact h.childTo (by rw [hpc]; nofun) (by simp) (by simp)
      (by simpa [ChildPc.HoldsRead] using hreads) rfl (fun _ => h.taken (hpc ▸ trivial)) hat
  | printTime =>
    rintro ⟨⟩ ⟨hprinted, houtput⟩ hwrites hreads
    refine h.childTo (by rw [hpc]; nofun) ⟨Iff.rfl, Iff.rfl⟩ (by simpa using hwrites) hreads rfl
      (fun _ => h.taken (hpc ▸ trivial)) ⟨?_, houtput⟩
    show s.printed ++ timeLine f = timeLine f
    rw [hprinted, List.nil_append]
  | read =>
    rintro hs ⟨hprinted, houtput⟩ hwrites hreads
    cases ok with
    | false =>
      obtain rfl := Option.some.inj hs
      exact (h.perror _).childTo (by simp [hpc]) ⟨Iff.rfl, Iff.rfl⟩ (by simpa using hwrites) hreads
        rfl False.elim ⟨.inl hprinted, houtput⟩
    | true =>
      obtain ⟨⟨bytes, p⟩, hread, rfl⟩ := Option.map_eq_some_iff.mp hs
      have hmessage := h.read_eq hpc hread
      obtain ⟨rfl, -, -⟩ := Pipe.read_eq_some hread
      dsimp only
      split
      · exact h.childTo (by rw [hpc]; nofun) ⟨Iff.rfl, Iff.rfl⟩ (by simpa using hwrites) hreads rfl
          False.elim ⟨.inl hprinted, houtput⟩
      · next hne =>
        exact h.childTo (by rw [hpc]; nofun) ⟨Iff.rfl, Iff.rfl⟩ (by simpa using hwrites) hreads rfl
          False.elim ⟨(hmessage hne).1, hprinted, houtput⟩
  | received bytes =>
    rintro ⟨⟩ ⟨hbytes, hprinted, houtput⟩ hwrites hreads
    refine h.childTo (by rw [hpc]; nofun) ⟨Iff.rfl, Iff.rfl⟩ (by simpa using hwrites) hreads rfl
      False.elim ⟨.inr ?_, houtput⟩
    show s.printed ++ receivedLine bytes = fullOutput f
    rw [hprinted, hbytes, fullOutput]
  | closeRead =>
    rintro ⟨⟩ hat hwrites -
    exact h.childTo (by rw [hpc]; nofun) (by simp) (by simpa using hwrites)
      (by simp [ChildPc.HoldsRead]) rfl False.elim hat
  | exiting =>
    rintro ⟨⟩ ⟨hprinted, houtput⟩ - -
    refine h.childLeave (by rw [hpc]; nofun) _ ?_
    show s.output ++ s.printed = [] ∨ s.output ++ s.printed = timeLine f ∨
      s.output ++ s.printed = fullOutput f
    rw [houtput, List.nil_append]
    exact .inr hprinted
  | ended how => nofun

theorem Inv.kill (h : Inv f s) (hs : kill side s = some s') : Inv f s' := by
  unfold PipeC.kill at hs
  cases side with
  | parent =>
    dsimp only at hs
    split at hs
    · cases hs
    · obtain rfl := Option.some.inj hs
      exact h.parentLeave _
  | child =>
    dsimp only at hs
    split at hs
    · cases hs
    · cases hs
    · next hborn _ =>
      obtain rfl := Option.some.inj hs
      exact h.childLeave hborn _ h.child.output_cases

theorem Inv.step {a : Action} (h : Inv f s) (hs : step f capacity a s = some s') : Inv f s' := by
  cases a with
  | parent ok => exact h.parentStep hs
  | child ok => exact h.childStep hs
  | kill side => exact h.kill hs

theorem inv_of_reaches (h : Reaches (step f capacity) start s) : Inv f s :=
  h.invariant inv_start fun _ _ _ hs ha => hs.step ha

-- ---------------------------------------------------------------------------
-- How runs end
-- ---------------------------------------------------------------------------

/-- The statements that the parent has left, and those of the child it may create. -/
def ParentPc.left : ParentPc → Nat
  | .pipe => 16
  | .fork => 15
  | .closeRead => 6
  | .write => 5
  | .closeWrite => 4
  | .wait => 3
  | .exiting _ => 1
  | .ended _ => 0

def ChildPc.left : ChildPc → Nat
  | .unborn => 0
  | .closeWrite => 7
  | .printTime => 6
  | .read => 5
  | .received _ => 3
  | .closeRead => 2
  | .exiting => 1
  | .ended _ => 0

def State.left (s : State) : Nat := s.parent.left + s.child.left

theorem parentStep_left_lt (h : Inv f s) (hs : parentStep f capacity ok s = some s') :
    s'.left < s.left := by
  unfold parentStep at hs
  revert hs
  cases hpc : s.parent with
  | pipe =>
    cases ok with
    | true => rintro ⟨⟩; simp [State.left, ParentPc.left, hpc]
    | false => rintro ⟨⟩; simp [State.left, ParentPc.left, hpc]
  | fork =>
    have hchild : s.child = .unborn := h.unborn (.inr hpc)
    cases ok with
    | true => rintro ⟨⟩; simp [State.left, ParentPc.left, ChildPc.left, hpc, hchild]
    | false => rintro ⟨⟩; simp [State.left, ParentPc.left, hpc]
  | write =>
    intro hs
    dsimp only at hs
    split at hs
    · obtain rfl := Option.some.inj hs
      simp [State.left, ParentPc.left, hpc]
    · split at hs
      · obtain ⟨p, -, rfl⟩ := Option.map_eq_some_iff.mp hs
        simp [State.left, ParentPc.left, hpc]
      · obtain rfl := Option.some.inj hs
        simp [State.left, ParentPc.left, hpc]
  | wait =>
    intro hs
    dsimp only at hs
    split at hs
    · obtain rfl := Option.some.inj hs
      simp [State.left, ParentPc.left, hpc]
    · obtain rfl := Option.some.inj hs
      simp [State.left, ParentPc.left, hpc]
    · cases hs
  | closeRead | closeWrite | exiting =>
    rintro ⟨⟩
    simp [State.left, ParentPc.left, hpc]
  | ended how => nofun

theorem childStep_left_lt (hs : childStep f ok s = some s') : s'.left < s.left := by
  unfold childStep at hs
  revert hs
  cases hpc : s.child with
  | unborn => nofun
  | read =>
    intro hs
    cases ok with
    | true =>
      obtain ⟨⟨bytes, p⟩, -, rfl⟩ := Option.map_eq_some_iff.mp hs
      dsimp only
      split
      · simp [State.left, ChildPc.left, hpc]
      · simp [State.left, ChildPc.left, hpc]
    | false =>
      obtain rfl := Option.some.inj hs
      simp [State.left, ChildPc.left, hpc]
  | closeWrite | printTime | received | closeRead | exiting =>
    rintro ⟨⟩
    simp [State.left, ChildPc.left, hpc]
  | ended how => nofun

theorem kill_left_lt (hs : kill side s = some s') : s'.left < s.left := by
  unfold kill at hs
  cases side with
  | parent =>
    cases hpc : s.parent with
    | ended how =>
      rw [hpc] at hs
      cases hs
    | _ =>
      rw [hpc] at hs
      obtain rfl := Option.some.inj hs
      simp [State.left, ParentPc.left, hpc]
  | child =>
    cases hpc : s.child with
    | unborn | ended =>
      rw [hpc] at hs
      cases hs
    | _ =>
      rw [hpc] at hs
      obtain rfl := Option.some.inj hs
      simp [State.left, ChildPc.left, hpc]

/-- Every run ends. -/
theorem no_run (r : Run (step f capacity) start) : False := by
  apply r.false_of_forall_lt State.left (n := 0)
  intro m _
  have hstep := r.step_eq m
  cases hact : r.act m with
  | parent ok => exact parentStep_left_lt (inv_of_reaches (r.reaches m)) (hact ▸ hstep)
  | child ok => exact childStep_left_lt (f := f) (hact ▸ hstep)
  | kill side => exact kill_left_lt (hact ▸ hstep)

/-- Both processes have ended, as far as there are two. -/
structure Over (s : State) : Prop where
  parent : ∃ how, s.parent = .ended how
  child : s.child = .unborn ∨ ∃ how, s.child = .ended how

/-- No process can go on, not even if its next system call succeeds. -/
def Stuck (f : Facts) (capacity : Nat) (s : State) : Prop :=
  step f capacity (.parent true) s = none ∧ step f capacity (.child true) s = none

/-- A child that cannot go on waits for somebody to write. -/
theorem child_waits (hstuck : childStep f true s = none)
    (hpc : s.child ≠ .unborn ∧ ∀ how, s.child ≠ .ended how) :
    s.child = .read ∧ ∃ side, side ∈ s.pipe.writers := by
  unfold childStep at hstuck
  revert hstuck hpc
  cases hpc' : s.child with
  | unborn => exact fun _ hpc => absurd rfl hpc.1
  | read =>
    intro hstuck _
    obtain ⟨-, hopen⟩ := Pipe.read_eq_none (Option.map_eq_none_iff.mp hstuck)
    exact ⟨rfl, Finset.nonempty_iff_ne_empty.mpr hopen⟩
  | ended how => exact fun _ hpc => absurd rfl (hpc.2 how)
  | _ => nofun

/-- Nobody writes any more once the parent has closed its end or has ended. -/
theorem Inv.child_over (h : Inv f s) (hstuck : PipeC.childStep f true s = none)
    (hreleased : s.parent.Released) : s.child = .unborn ∨ ∃ how, s.child = .ended how := by
  by_contra hnot
  push Not at hnot
  obtain ⟨hread, side, hside⟩ := child_waits hstuck hnot
  cases side with
  | parent => exact h.released hreleased hside
  | child =>
    have hpc := h.child_writes.mp hside
    rw [hread] at hpc
    cases hpc

/-- **No deadlock.** -/
theorem Inv.over_of_stuck (hcapacity : bufferSize ≤ capacity) (h : Inv f s)
    (hstuck : Stuck f capacity s) : Over s := by
  obtain ⟨hparent, hchild⟩ := hstuck
  have hnone : PipeC.parentStep f capacity true s = none := hparent
  unfold PipeC.parentStep at hnone
  revert hnone
  cases hpc : s.parent with
  | write =>
    intro hnone
    dsimp only at hnone
    split at hnone
    · cases hnone
    · -- nothing is in the pipe yet, so that there is room
      have hroom : s.pipe.content.length + (message f).length ≤ capacity := by
        have hlength := length_message_lt (f := f)
        rw [Pipe.content, h.unwritten (hpc ▸ trivial), List.drop_nil, List.length_nil]
        unfold bufferSize at hlength hcapacity
        omega
      rw [if_pos rfl, Pipe.write, if_pos hroom] at hnone
      cases hnone
  | wait =>
    intro hnone
    rcases h.child_over hchild (hpc ▸ trivial) with hover | ⟨how, hover⟩
    · rw [hover] at hnone
      cases hnone
    · rw [hover] at hnone
      cases hnone
  | ended how => exact fun _ => ⟨⟨how, hpc⟩, h.child_over hchild (hpc ▸ trivial)⟩
  | _ => rintro ⟨⟩

-- ---------------------------------------------------------------------------
-- Runs in which nothing goes wrong
-- ---------------------------------------------------------------------------

/-- The system call succeeds, and nobody is killed. -/
def Action.Smooth : Action → Prop
  | .parent ok | .child ok => ok = true
  | .kill _ => False

instance : (a : Action) → Decidable a.Smooth
  | .parent _ | .child _ => inferInstanceAs (Decidable (_ = _))
  | .kill _ => .isFalse id

/-- Where the parent is, and what it has done, when nothing has gone wrong. -/
def ParentWell (f : Facts) (s : State) : ParentPc → Prop
  | .pipe | .fork => True
  | .closeRead | .write => s.child ≠ .unborn
  | .closeWrite | .wait => s.child ≠ .unborn ∧ s.pipe.written = message f
  | .exiting status => status = 0 ∧ (∃ how, s.child = .ended how) ∧ s.pipe.written = message f
  | .ended how => how = .exited 0 ∧ (∃ how, s.child = .ended how) ∧ s.pipe.written = message f

/-- The child has read the message, if it has come so far, and has printed it. -/
def ChildWell (f : Facts) (s : State) : ChildPc → Prop
  | .received _ => s.pipe.written = message f
  | .closeRead | .exiting => s.pipe.written = message f ∧ s.printed = fullOutput f
  | .ended how => s.pipe.written = message f ∧ how = .exited 0 ∧ s.output = fullOutput f
  | _ => True

structure Well (f : Facts) (s : State) : Prop where
  inv : Inv f s
  errors : s.errors = []
  parent : ParentWell f s s.parent
  child : ChildWell f s s.child

theorem well_start : Well f start := ⟨inv_start, rfl, trivial, trivial⟩

/-- A child that has not read yet can. -/
theorem Well.readers_ne (h : Well f s) (hborn : s.child ≠ .unborn)
    (hnone : s.pipe.written = []) : s.pipe.readers ≠ ∅ := by
  have hwell := h.child
  have hread : s.child.HoldsRead := by
    have hne : s.pipe.written ≠ message f := by
      rw [hnone]
      exact message_ne_nil.symm
    revert hwell
    cases hpc : s.child with
    | unborn => exact absurd hpc hborn
    | closeWrite | printTime | read | received | closeRead => exact fun _ => trivial
    | exiting | ended => exact fun hwell => absurd hwell.1 hne
  exact Finset.ne_empty_of_mem (h.inv.child_reads.mpr hread)

theorem Well.parentStep (h : Well f s) (hs : parentStep f capacity true s = some s') :
    Well f s' := by
  have hwell := h.parent
  have hchild := h.child
  suffices hrest : s'.errors = [] ∧ ParentWell f s' s'.parent ∧ ChildWell f s' s'.child from
    ⟨h.inv.parentStep hs, hrest.1, hrest.2.1, hrest.2.2⟩
  unfold PipeC.parentStep at hs
  revert hs hwell
  cases hpc : s.parent with
  | pipe =>
    have hunborn : s.child = .unborn := h.inv.unborn (.inl hpc)
    rintro ⟨⟩ -
    refine ⟨h.errors, trivial, ?_⟩
    show ChildWell f _ s.child
    rw [hunborn]
    trivial
  | fork =>
    rintro ⟨⟩ -
    exact ⟨h.errors, nofun, trivial⟩
  | closeRead =>
    rintro ⟨⟩ hborn
    exact ⟨h.errors, hborn, hchild⟩
  | write =>
    have hnone : s.pipe.written = [] := h.inv.unwritten (hpc ▸ trivial)
    intro hs hborn
    dsimp only at hs
    rw [if_neg (h.readers_ne hborn hnone), if_pos rfl] at hs
    obtain ⟨p, hp, rfl⟩ := Option.map_eq_some_iff.mp hs
    obtain rfl := Pipe.write_eq_some hp
    have hwritten : s.pipe.written ++ message f = message f := by rw [hnone, List.nil_append]
    refine ⟨h.errors, ⟨hborn, hwritten⟩, ?_⟩
    show ChildWell f _ s.child
    revert hchild
    cases s.child with
    | received => exact fun _ => hwritten
    | closeRead | exiting | ended => exact fun hchild => ⟨hwritten, hchild.2⟩
    | _ => exact id
  | closeWrite =>
    rintro ⟨⟩ hwell
    exact ⟨h.errors, hwell, hchild⟩
  | wait =>
    rintro hs ⟨hborn, hwritten⟩
    dsimp only at hs
    split at hs
    · next hunborn => exact absurd hunborn hborn
    · next how hended =>
      obtain rfl := Option.some.inj hs
      exact ⟨h.errors, ⟨rfl, ⟨how, hended⟩, hwritten⟩, hchild⟩
    · cases hs
  | exiting status =>
    rintro ⟨⟩ ⟨hstatus, hended, hwritten⟩
    exact ⟨h.errors, ⟨by rw [hstatus], hended, hwritten⟩, hchild⟩
  | ended how => nofun

/-- The parent does not notice what a child does that has not ended. -/
theorem ParentWell.congr {pc : ParentPc} (h : ParentWell f s pc)
    (hwritten : s'.pipe.written = s.pipe.written) (hborn : s'.child ≠ .unborn)
    (hended : ∀ how, s.child ≠ .ended how) : ParentWell f s' pc := by
  cases pc with
  | pipe | fork => trivial
  | closeRead | write => exact hborn
  | closeWrite | wait => exact ⟨hborn, hwritten.trans h.2⟩
  | exiting | ended =>
    obtain ⟨-, ⟨how, hhow⟩, -⟩ := h
    exact absurd hhow (hended how)

/-- Only a parent that has written closes the pipe. -/
theorem Well.written_of_closed (h : Well f s) (hborn : s.child ≠ .unborn)
    (hclosed : s.pipe.writers = ∅) : s.pipe.written = message f := by
  have hwell := h.parent
  have hnot : ¬ s.parent.HoldsWrite := by
    intro hholds
    have hmem := h.inv.keeps hholds
    rw [hclosed] at hmem
    exact Finset.notMem_empty _ hmem
  revert hwell hnot
  cases hpc : s.parent with
  | pipe => exact absurd (h.inv.unborn (.inl hpc)) hborn
  | fork | closeRead | write | closeWrite => exact fun _ hnot => absurd trivial hnot
  | wait => exact fun hwell _ => hwell.2
  | exiting | ended => exact fun hwell _ => hwell.2.2

theorem Well.childStep (h : Well f s) (hs : childStep f true s = some s') : Well f s' := by
  have hwell := h.child
  have hat := h.inv.child
  suffices hrest : s'.errors = [] ∧ ParentWell f s' s'.parent ∧ ChildWell f s' s'.child from
    ⟨h.inv.childStep hs, hrest.1, hrest.2.1, hrest.2.2⟩
  unfold PipeC.childStep at hs
  revert hs hwell hat
  cases hpc : s.child with
  | unborn => nofun
  | closeWrite | printTime =>
    rintro ⟨⟩ - -
    exact ⟨h.errors, h.parent.congr rfl nofun (by rw [hpc]; nofun), trivial⟩
  | read =>
    rintro hs - hat
    rw [if_pos rfl] at hs
    obtain ⟨⟨bytes, p⟩, hread, rfl⟩ := Option.map_eq_some_iff.mp hs
    have hmessage := h.inv.read_eq hpc hread
    obtain ⟨rfl, hbytes, hend⟩ := Pipe.read_eq_some hread
    have hborn : s.child ≠ .unborn := by
      rw [hpc]
      nofun
    dsimp only
    split
    · next hnil =>
      -- nothing to read, and nobody to write: the message is not lost
      have hempty : s.pipe.content = [] := by
        rw [hnil, eq_comm, List.take_eq_nil_iff] at hbytes
        exact hbytes.resolve_left nofun
      have hwritten := h.written_of_closed hborn (hend hempty)
      rw [Pipe.content, h.inv.taken (hpc ▸ trivial), List.drop_zero, hwritten] at hempty
      exact absurd hempty message_ne_nil
    · next hne =>
      exact ⟨h.errors, h.parent.congr rfl nofun (by rw [hpc]; nofun), (hmessage hne).2⟩
  | received bytes =>
    rintro ⟨⟩ hwritten ⟨hbytes, hprinted, -⟩
    refine ⟨h.errors, h.parent.congr rfl nofun (by rw [hpc]; nofun), hwritten, ?_⟩
    show s.printed ++ receivedLine bytes = fullOutput f
    rw [hprinted, hbytes, fullOutput]
  | closeRead =>
    rintro ⟨⟩ hwell -
    exact ⟨h.errors, h.parent.congr rfl nofun (by rw [hpc]; nofun), hwell⟩
  | exiting =>
    rintro ⟨⟩ ⟨hwritten, hprinted⟩ ⟨-, houtput⟩
    refine ⟨h.errors, h.parent.congr rfl nofun (by rw [hpc]; nofun), hwritten, rfl, ?_⟩
    show s.output ++ s.printed = fullOutput f
    rw [houtput, hprinted, List.nil_append]
  | ended how => nofun

theorem well_of_reachesWhen (h : ReachesWhen (fun a _ => a.Smooth) (step f capacity) start s) :
    Well f s := by
  apply h.invariant well_start
  intro a s s' hs hsmooth ha
  cases a with
  | parent ok =>
    obtain rfl : ok = true := hsmooth
    exact hs.parentStep ha
  | child ok =>
    obtain rfl : ok = true := hsmooth
    exact hs.childStep ha
  | kill side => exact hsmooth.elim

-- ---------------------------------------------------------------------------
-- The message
-- ---------------------------------------------------------------------------

/-- **The pipe delivers the message whole or not at all**, in any interleaving, whatever fails
and whoever is killed: every run ends, with both processes, and the child has printed all of the
message or nothing of it. Where nothing goes wrong both processes succeed and it is all of it. -/
theorem pipe_delivers (f : Facts) (capacity : Nat) (hcapacity : bufferSize ≤ capacity) :
    IsEmpty (Run (step f capacity) start) ∧
    (∀ s, Reaches (step f capacity) start s → (Stuck f capacity s → Over s) ∧
      (s.output = [] ∨ s.output = timeLine f ∨
        s.output = timeLine f ++ (ascii "Received from parent: " ++ text f))) ∧
    ∀ s, ReachesWhen (fun a _ => a.Smooth) (step f capacity) start s → Stuck f capacity s →
      s.parent = .ended (.exited 0) ∧ s.child = .ended (.exited 0) ∧ s.errors = [] ∧
      s.output = timeLine f ++ (ascii "Received from parent: " ++ text f) := by
  rw [← receivedLine_message]
  refine ⟨⟨no_run⟩, fun s hs => ⟨(inv_of_reaches hs).over_of_stuck hcapacity,
    (inv_of_reaches hs).child.output_cases⟩, fun s hs hstuck => ?_⟩
  have hwell := well_of_reachesWhen hs
  obtain ⟨⟨how, hparent⟩, hover⟩ := hwell.inv.over_of_stuck hcapacity hstuck
  have hparentWell := hwell.parent
  rw [hparent] at hparentWell
  obtain ⟨rfl, ⟨how', hchild⟩, -⟩ := hparentWell
  have hchildWell := hwell.child
  rw [hchild] at hchildWell
  obtain ⟨-, rfl, houtput⟩ := hchildWell
  exact ⟨hparent, hchild, hwell.errors, houtput⟩

/-- The child starts to read before the parent writes. -/
def oneExchange : List Action :=
  List.replicate 3 (.parent true) ++ List.replicate 2 (.child true) ++
    List.replicate 2 (.parent true) ++ List.replicate 4 (.child true) ++
    List.replicate 2 (.parent true)

theorem epoch_delivered : ∃ s, Reaches (step epoch 65536) start s ∧ Over s ∧
    s.output = timeLine epoch ++ (ascii "Received from parent: " ++ text epoch) := by
  have hrun : (steps (fun a s => if a.Smooth then step epoch 65536 a s else none) oneExchange
      start).map (fun s => (s.parent, s.child)) =
        some (.ended (.exited 0), .ended (.exited 0)) := by
    decide +kernel
  obtain ⟨s, hs, hobs⟩ := exists_reachesWhen_of_map hrun
  obtain ⟨hparent, hchild⟩ := Prod.mk.inj hobs
  have hstuck : Stuck epoch 65536 s := by
    constructor
    · show parentStep epoch 65536 true s = none
      rw [parentStep, hparent]
    · show childStep epoch true s = none
      rw [childStep, hchild]
  have hdelivers := pipe_delivers epoch 65536 (by decide)
  exact ⟨s, hs.reaches, (hdelivers.2.1 s hs.reaches).1 hstuck, (hdelivers.2.2 s hs hstuck).2.2.2⟩

end LabsOS.PipeFifo.PipeC
