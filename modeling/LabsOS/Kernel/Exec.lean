import LabsOS.Kernel.State
import LabsOS.Program.Logic

/-!
# System calls

`exec o s c` is the effect of the call `c` in state `s` and its response, where
`o : Outcome` is what the rest of the world decides: the call is carried out,
it fails, or a `read` or `write` transfers less than was asked for. A response
`none` or `false` is the C result -1 (or `NULL`). Calls that cannot succeed
in `s` fail whatever `o` is.

Three assumptions on a run are used throughout:

* `FullReads` — a `read` of a regular file returns all the bytes up to the
  requested count or the end of the file, unless it fails. Anything may fail
  and writes may be short.
* `Succeeds` — the call is carried out in full.
* no assumption at all, with short reads as well (a file that is truncated while
  it is read answers like a short read).
-/

namespace LabsOS

inductive Whence where
  | set
  | cur
  deriving DecidableEq, Repr

inductive Sys where
  | openFile (path : CString) (flags : OpenFlags) (mode : Nat)
  | close (fd : Fd)
  | read (fd : Fd) (count : Nat)
  | write (fd : Fd) (buf : Bytes)
  | lseek (fd : Fd) (offset : Int) (whence : Whence)
  | fstat (fd : Fd)
  | stat (path : CString)
  | fchmod (fd : Fd) (mode : Nat)
  | fsync (fd : Fd)
  | mkstemp (template : String)
  | rename (old new : CString)
  | unlink (path : CString)
  | chmod (path : CString) (mode : Nat)
  | chown (path : CString) (uid gid : Nat)
  | utime (path : CString) (atime mtime : Int)
  | strftimeLocal (time : Int)
  | printf (fmt : String) (args : List Arg)
  | fprintfErr (fmt : String) (args : List Arg)
  deriving DecidableEq, Repr

/-- The type of a call's result. -/
@[reducible] def Sys.Resp : Sys → Type
  | .openFile .. => Option Fd
  | .close _ => Bool
  | .read .. => Option Bytes
  | .write .. => Option Nat
  | .lseek .. => Option Nat
  | .fstat _ => Option Stat
  | .stat _ => Option Stat
  | .fchmod .. => Bool
  | .fsync _ => Bool
  | .mkstemp _ => Option (Fd × CString)
  | .rename .. => Bool
  | .unlink _ => Bool
  | .chmod .. => Bool
  | .chown .. => Bool
  | .utime .. => Bool
  | .strftimeLocal _ => Option Bytes
  | .printf .. => Unit
  | .fprintfErr .. => Unit

inductive Outcome where
  | ok
  | fail
  | shortRead (n : Nat)
  | shortWrite (n : Nat)
  deriving DecidableEq, Repr

namespace Outcome

/-- How many of `n` bytes a `read` may return. -/
def readCount (n : Nat) : Outcome → Option Nat
  | .fail => none
  | .shortRead m => some (min m n)
  | _ => some n

/-- How many of `n` bytes a `write` takes. -/
def writeCount (n : Nat) : Outcome → Option Nat
  | .fail => none
  | .shortWrite m => some (min m n)
  | _ => some n

end Outcome

/-- The offset an `lseek` asks for. -/
def OpenFile.seekTo (f : OpenFile) (offset : Int) : Whence → Int
  | .set => offset
  | .cur => f.pos + offset

/-- The bytes a full `read` of `count` returns. -/
def OpenFile.available (f : OpenFile) (d : Bytes) (count : Nat) : Bytes := (d.drop f.pos).take count

/-- Where a write goes in a file with content `d`. -/
def OpenFile.writePos (f : OpenFile) (d : Bytes) : Nat := if f.flags.append then d.length else f.pos

namespace State

/-- The state after `buf` was read from `fd`. -/
def afterRead (s : State) (fd : Fd) (f : OpenFile) (buf : Bytes) : State :=
  s.setFile fd (some { f with pos := f.pos + buf.length })

/-- The state after `buf` was written to `fd`. -/
def afterWrite (s : State) (fd : Fd) (f : OpenFile) (d buf : Bytes) : State :=
  ((s.withFs (s.fs.setData f.ino (splice d (f.writePos d) buf))).setFile fd
    (some { f with pos := f.writePos d + buf.length })).account buf.length

/-- `open` of a path that leads to an inode. -/
def openInode (s : State) (i : Ino) (flags : OpenFlags) : State × Option Fd :=
  match s.fs.inodes[i]? with
  | none => (s, none)
  | some nd =>
    if nd.isDir then
      if flags.write then (s, none) else (s.addFile ⟨i, 0, flags⟩, some s.proc.fds.length)
    else
      let fs := if flags.trunc then s.fs.setData i [] else s.fs
      ((s.withFs fs).addFile ⟨i, 0, flags⟩, some s.proc.fds.length)

/-- Create a regular file in the entry `slot` and open it. -/
def createAt (s : State) (slot : Slot) (flags : OpenFlags) (mode : Nat) : State × Fd :=
  let i := s.fs.inodes.length
  let fs := (s.fs.newInode ⟨false, [], Stat.created mode⟩).link slot (.inode i)
  ((s.withFs fs).addFile ⟨i, 0, flags⟩, s.proc.fds.length)

/-- `mode & ~umask`, without the file type. -/
def createMode (s : State) (mode : Nat) : Nat :=
  (mode % 0o10000) - ((mode % 0o10000) &&& s.proc.umask)

/-- `open` when nothing outside interferes. -/
def openPath (s : State) (path : CString) (flags : OpenFlags) (mode : Nat) :
    State × Option Fd :=
  match s.fs.target path with
  | none => (s, none)
  | some slot =>
    match s.fs.dir slot with
    | .inode i => s.openInode i flags
    | .symlink _ => (s, none)
    | .absent =>
      if flags.creat then
        let (s', fd) := s.createAt slot flags (s.createMode mode)
        (s', some fd)
      else (s, none)

def sysOpen (o : Outcome) (s : State) (path : CString) (flags : OpenFlags) (mode : Nat) :
    State × Option Fd :=
  if o = .fail then (s, none) else s.openPath path flags mode

def sysClose (o : Outcome) (s : State) (fd : Fd) : State × Bool :=
  (s.setFile fd none, decide (o ≠ .fail))

def sysRead (o : Outcome) (s : State) (fd : Fd) (count : Nat) : State × Option Bytes :=
  match s.file fd with
  | none => (s, none)
  | some f =>
    match s.fs.data f.ino, o.readCount count with
    | some d, some n =>
      if f.flags.read then (s.afterRead fd f (f.available d n), some (f.available d n))
      else (s, none)
    | _, _ => (s, none)

def sysWrite (o : Outcome) (s : State) (fd : Fd) (buf : Bytes) : State × Option Nat :=
  match s.file fd with
  | none => (s, none)
  | some f =>
    match s.fs.data f.ino, o.writeCount buf.length with
    | some d, some n =>
      if f.flags.write then (s.afterWrite fd f d (buf.take n), some n) else (s, none)
    | _, _ => (s, none)

def sysLseek (o : Outcome) (s : State) (fd : Fd) (offset : Int) (whence : Whence) :
    State × Option Nat :=
  match s.file fd with
  | none => (s, none)
  | some f =>
    if o = .fail then (s, none)
    else if 0 ≤ f.seekTo offset whence ∧ f.seekTo offset whence ≤ offMax then
      (s.setFile fd (some { f with pos := (f.seekTo offset whence).toNat }),
        some (f.seekTo offset whence).toNat)
    else (s, none)

/-- The inode behind an open descriptor. -/
def inodeAt (s : State) (fd : Fd) : Option Inode := (s.file fd).bind fun f => s.fs.inodes[f.ino]?

def sysFstat (o : Outcome) (s : State) (fd : Fd) : State × Option Stat :=
  (s, if o = .fail then none else (s.inodeAt fd).map Inode.fstat)

def sysStat (o : Outcome) (s : State) (path : CString) : State × Option Stat :=
  (s, if o = .fail then none else (s.fs.lookup path).map Inode.fstat)

/-- Change the metadata of an inode, if there is one. -/
def changeStat (o : Outcome) (s : State) (i : Option Ino) (f : Stat → Stat) : State × Bool :=
  if o = .fail then (s, false)
  else
    match i with
    | some i => (s.withFs (s.fs.setStat i f), true)
    | none => (s, false)

/-- `chmod` replaces the twelve mode bits. -/
def chmodStat (mode : Nat) (st : Stat) : Stat :=
  st.setMode (st.stMode / 0o10000 * 0o10000 + mode % 0o10000)

/-- `(uid_t) -1` and `(gid_t) -1`: nobody's, and for `chown` to leave the owner or the group. -/
def noId : Nat := 2 ^ 32 - 1

/-- `chown` clears set-user-ID, and set-group-ID where the group may execute. -/
def chownStat (uid gid : Nat) (st : Stat) : Stat :=
  let mode := if st.stMode.testBit 11 then st.stMode - 0o4000 else st.stMode
  let mode := if mode.testBit 10 && mode.testBit 3 then mode - 0o2000 else mode
  let st := st.setMode mode
  let st := if uid = noId then st else st.setUid uid
  if gid = noId then st else st.setGid gid

/-- `mkstemp` creates its file or fails; it never opens one that exists. -/
def sysMkstemp (o : Outcome) (s : State) (template : String) : State × Option (Fd × CString) :=
  let path := s.fs.tempPath template s.fs.temps
  if o ≠ .fail ∧ s.fs.dir (s.fs.slotOf path) = .absent then
    let (s', fd) := (s.withFs { s.fs with temps := s.fs.temps + 1 }).createAt
      (s.fs.slotOf path) { read := true, write := true } 0o600
    (s', some (fd, path))
  else (s, none)

/-- A directory is not replaced or removed by the name of a file. -/
def holdsDirectory (fs : Fs) (slot : Slot) : Bool :=
  match fs.dir slot with
  | .inode i => (fs.inodes[i]?.map Inode.isDir).getD false
  | _ => false

/-- Two entries are the same or hard links of one inode. -/
def sameEntry (fs : Fs) (a b : Slot) : Prop :=
  a = b ∨ (fs.dir a = fs.dir b ∧ ∃ i < fs.inodes.length, fs.dir a = .inode i)

instance (fs : Fs) (a b : Slot) : Decidable (sameEntry fs a b) :=
  inferInstanceAs (Decidable (_ ∨ (_ ∧ _)))

/-- `rename` of a file works on the two directory entries and follows no link. -/
def sysRename (o : Outcome) (s : State) (old new : CString) : State × Bool :=
  let src := s.fs.slotOf old
  let dst := s.fs.slotOf new
  if o = .fail then (s, false)
  else if s.fs.dir src = .absent ∨ holdsDirectory s.fs src ∨ holdsDirectory s.fs dst then (s, false)
  else if sameEntry s.fs src dst then (s, true)
  else (s.withFs ((s.fs.link dst (s.fs.dir src)).link src .absent), true)

def sysUnlink (o : Outcome) (s : State) (path : CString) : State × Bool :=
  let slot := s.fs.slotOf path
  if o = .fail ∨ s.fs.dir slot = .absent ∨ holdsDirectory s.fs slot then (s, false)
  else (s.withFs (s.fs.link slot .absent), true)

end State

/-- The effect and the response of a system call. -/
def exec (o : Outcome) (s : State) : (c : Sys) → State × c.Resp
  | .openFile path flags mode => s.sysOpen o path flags mode
  | .close fd => s.sysClose o fd
  | .read fd count => s.sysRead o fd count
  | .write fd buf => s.sysWrite o fd buf
  | .lseek fd offset whence => s.sysLseek o fd offset whence
  | .fstat fd => s.sysFstat o fd
  | .stat path => s.sysStat o path
  | .fchmod fd mode => s.changeStat o ((s.file fd).map OpenFile.ino) (State.chmodStat mode)
  | .fsync _ => (s, decide (o ≠ .fail))
  | .mkstemp template => s.sysMkstemp o template
  | .rename old new => s.sysRename o old new
  | .unlink path => s.sysUnlink o path
  | .chmod path mode => s.changeStat o (s.fs.inodeOf path) (State.chmodStat mode)
  | .chown path uid gid => s.changeStat o (s.fs.inodeOf path) (State.chownStat uid gid)
  | .utime path atime mtime => s.changeStat o (s.fs.inodeOf path) (Stat.setTimes · atime mtime)
  | .strftimeLocal time => (s, s.fs.strftimeLocal time)
  | .printf fmt args => (s.printed ⟨fmt, args⟩, ())
  | .fprintfErr fmt args => (s.warned ⟨fmt, args⟩, ())

-- ---------------------------------------------------------------------------
-- Programs that make system calls
-- ---------------------------------------------------------------------------

/-- A program that makes system calls. -/
abbrev Posix (α : Type) := Prog Sys Sys.Resp α

namespace Posix

def sys (c : Sys) : Posix c.Resp := Prog.issue c

def openFile (path : CString) (flags : OpenFlags) (mode : Nat) : Posix (Option Fd) :=
  sys (.openFile path flags mode)

def close (fd : Fd) : Posix Bool := sys (.close fd)

def read (fd : Fd) (count : Nat) : Posix (Option Bytes) := sys (.read fd count)

def write (fd : Fd) (buf : Bytes) : Posix (Option Nat) := sys (.write fd buf)

def lseek (fd : Fd) (offset : Int) (whence : Whence) : Posix (Option Nat) :=
  sys (.lseek fd offset whence)

def fstat (fd : Fd) : Posix (Option Stat) := sys (.fstat fd)

def stat (path : CString) : Posix (Option Stat) := sys (.stat path)

def fchmod (fd : Fd) (mode : Nat) : Posix Bool := sys (.fchmod fd mode)

def fsync (fd : Fd) : Posix Bool := sys (.fsync fd)

def mkstemp (template : String) : Posix (Option (Fd × CString)) := sys (.mkstemp template)

def rename (old new : CString) : Posix Bool := sys (.rename old new)

def unlink (path : CString) : Posix Bool := sys (.unlink path)

def chmod (path : CString) (mode : Nat) : Posix Bool := sys (.chmod path mode)

def chown (path : CString) (uid gid : Nat) : Posix Bool := sys (.chown path uid gid)

def utime (path : CString) (atime mtime : Int) : Posix Bool := sys (.utime path atime mtime)

def strftimeLocal (time : Int) : Posix (Option Bytes) := sys (.strftimeLocal time)

def printf (fmt : String) (args : List Arg) : Posix Unit := sys (.printf fmt args)

def fprintfErr (fmt : String) (args : List Arg) : Posix Unit := sys (.fprintfErr fmt args)

def perror (msg : String) : Posix Unit := fprintfErr msg []

end Posix

-- ---------------------------------------------------------------------------
-- Assumptions on the environment
-- ---------------------------------------------------------------------------

/-- A call of a run together with its outcome and its response. -/
abbrev SysEvent := Event Sys Sys.Resp Outcome

/-- The response is not the one that reports an error. -/
def Sys.Answered : (c : Sys) → c.Resp → Prop
  | .openFile .., r => r.isSome
  | .close _, r => r = true
  | .read .., r => r.isSome
  | .write .., r => r.isSome
  | .lseek .., r => r.isSome
  | .fstat _, r => r.isSome
  | .stat _, r => r.isSome
  | .fchmod .., r => r = true
  | .fsync _, r => r = true
  | .mkstemp _, r => r.isSome
  | .rename .., r => r = true
  | .unlink _, r => r = true
  | .chmod .., r => r = true
  | .chown .., r => r = true
  | .utime .., r => r = true
  | .strftimeLocal _, _ => True
  | .printf .., _ => True
  | .fprintfErr .., _ => True

instance : (c : Sys) → (r : c.Resp) → Decidable (c.Answered r)
  | .openFile .., r => inferInstanceAs (Decidable (r.isSome = true))
  | .close _, r => inferInstanceAs (Decidable (r = true))
  | .read .., r => inferInstanceAs (Decidable (r.isSome = true))
  | .write .., r => inferInstanceAs (Decidable (r.isSome = true))
  | .lseek .., r => inferInstanceAs (Decidable (r.isSome = true))
  | .fstat _, r => inferInstanceAs (Decidable (r.isSome = true))
  | .stat _, r => inferInstanceAs (Decidable (r.isSome = true))
  | .fchmod .., r => inferInstanceAs (Decidable (r = true))
  | .fsync _, r => inferInstanceAs (Decidable (r = true))
  | .mkstemp _, r => inferInstanceAs (Decidable (r.isSome = true))
  | .rename .., r => inferInstanceAs (Decidable (r = true))
  | .unlink _, r => inferInstanceAs (Decidable (r = true))
  | .chmod .., r => inferInstanceAs (Decidable (r = true))
  | .chown .., r => inferInstanceAs (Decidable (r = true))
  | .utime .., r => inferInstanceAs (Decidable (r = true))
  | .strftimeLocal _, _ => .isTrue trivial
  | .printf .., _ => .isTrue trivial
  | .fprintfErr .., _ => .isTrue trivial

/-- The call is carried out in full. -/
def Succeeds (ev : SysEvent) : Prop := ev.outcome = .ok ∧ ev.call.Answered ev.resp

instance : DecidablePred Succeeds := fun _ => inferInstanceAs (Decidable (_ ∧ _))

/-- The call is no short read. -/
def FullReads (ev : SysEvent) : Prop := ∀ n, ev.outcome ≠ .shortRead n

/-- If the call is an `fstat`, the size it reports is not negative. -/
def NonnegSize : SysEvent → Prop
  | ⟨.fstat _, _, some st⟩ => 0 ≤ st.stSize
  | _ => True

/-- No assumption on the call. -/
def AnyOutcome (_ : SysEvent) : Prop := True

instance : DecidablePred AnyOutcome := fun _ => .isTrue trivial

theorem FullReads.of_ok {c : Sys} {r : c.Resp} : FullReads ⟨c, .ok, r⟩ := nofun

theorem Succeeds.fullReads {ev : SysEvent} (h : Succeeds ev) : FullReads ev := by
  intro n hn
  rw [h.1] at hn
  cases hn

/-- The world does not interfere with the call. -/
def OutcomeOk (ev : SysEvent) : Prop := ev.outcome = .ok

instance : DecidablePred OutcomeOk := fun ev => inferInstanceAs (Decidable (ev.outcome = .ok))

theorem exists_outcomeOk (s : State) (c : Sys) : ∃ o, OutcomeOk ⟨c, o, (exec o s c).2⟩ := ⟨.ok, rfl⟩

/-- Under the assumption `E` no read is short. -/
def ReadsFully (E : SysEvent → Prop) : Prop := ∀ ev, E ev → FullReads ev

/-- Under the assumption `E` the world never interferes with a call. -/
def Faultless (E : SysEvent → Prop) : Prop := ∀ ev, E ev → ev.outcome = .ok

/-- Under the assumption `E` every call succeeds. -/
def AllSucceed (E : SysEvent → Prop) : Prop := ∀ ev, E ev → Succeeds ev

theorem AllSucceed.faultless {E : SysEvent → Prop} (h : AllSucceed E) : Faultless E :=
  fun ev hev => (h ev hev).1

theorem Faultless.readsFully {E : SysEvent → Prop} (h : Faultless E) : ReadsFully E := by
  intro ev hev n hn
  rw [h ev hev] at hn
  cases hn

end LabsOS
