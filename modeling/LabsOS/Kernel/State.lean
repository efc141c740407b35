import LabsOS.Kernel.Bytes
import Mathlib.Logic.Function.Basic

/-!
# The state behind the system calls

The part of a POSIX system the programs of this repository touch: inodes,
directory entries with hard and symbolic links, and the open files and the
output of a process.

* A path is looked up in three stages: `Fs.slotOf` names the directory entry a
  path spells (so `a` and `./a` are one entry), `Fs.walk` follows symbolic
  links with the kernel's bound on their number, and the entry reached holds an
  inode number or nothing.
* `struct stat` is the 144 bytes of the x86-64 Linux ABI, with the fields the
  programs read. Archive headers store it as it stands in memory.
* `Fs.tempPath` and `Fs.strftimeLocal` are what the C library is free to
  choose: the name `mkstemp` makes up and the local-time text of a timestamp.
-/

namespace LabsOS

-- ---------------------------------------------------------------------------
-- struct stat
-- ---------------------------------------------------------------------------

/-- `sizeof(struct stat)`. -/
def statSize : Nat := 144

/-- A `struct stat`, as it lies in memory. -/
structure Stat where
  bytes : Bytes
  size_eq : bytes.length = statSize
  deriving DecidableEq, Repr

namespace Stat

def stNlink (st : Stat) : Nat := leNat (slice 16 8 st.bytes)
def stMode (st : Stat) : Nat := leNat (slice 24 4 st.bytes)
def stUid (st : Stat) : Nat := leNat (slice 28 4 st.bytes)
def stGid (st : Stat) : Nat := leNat (slice 32 4 st.bytes)
def stSize (st : Stat) : Int := toInt64 (leNat (slice 48 8 st.bytes))
def stAtime (st : Stat) : Int := toInt64 (leNat (slice 72 8 st.bytes))
def stMtime (st : Stat) : Int := toInt64 (leNat (slice 88 8 st.bytes))

/-- Overwrite the `w`-byte field at offset `off`. -/
def setField (st : Stat) (off w v : Nat) (h : off + w ≤ statSize) : Stat where
  bytes := setSlice off (leBytes w v) st.bytes
  size_eq := by rw [length_setSlice (by simpa [st.size_eq] using h), st.size_eq]

theorem slice_setField (st : Stat) {off w : Nat} (v : Nat) (h : off + w ≤ statSize) :
    slice off w (st.setField off w v h).bytes = leBytes w v := by
  have hs : slice off (leBytes w v).length (setSlice off (leBytes w v) st.bytes) = leBytes w v :=
    slice_setSlice (by simpa [st.size_eq] using h)
  simpa [setField] using hs

def setMode (st : Stat) (mode : Nat) : Stat := st.setField 24 4 mode (by decide)
def setUid (st : Stat) (uid : Nat) : Stat := st.setField 28 4 uid (by decide)
def setGid (st : Stat) (gid : Nat) : Stat := st.setField 32 4 gid (by decide)
def setSize (st : Stat) (size : Nat) : Stat := st.setField 48 8 size (by decide)

/-- `utime` stores whole seconds: the nanoseconds that follow become zero. -/
def setTimes (st : Stat) (atime mtime : Int) : Stat :=
  (st.setField 72 16 (atime % 2 ^ 64).toNat (by decide)).setField 88 16
    (mtime % 2 ^ 64).toNat (by decide)

/-- A size that fits an `off_t` reads back. -/
theorem stSize_setSize (st : Stat) {n : Nat} (h : n < 2 ^ 63) : (st.setSize n).stSize = n := by
  have hmod : n % 256 ^ 8 = n := Nat.mod_eq_of_lt (by omega)
  rw [stSize, setSize, slice_setField, leNat_leBytes, hmod, toInt64_of_lt h]

theorem stMode_lt (st : Stat) : st.stMode < 2 ^ 32 := by
  have hlen : (slice 24 4 st.bytes).length = 4 := by
    rw [slice, List.length_take, List.length_drop, st.size_eq]
    rfl
  have hlt := leNat_lt (slice 24 4 st.bytes)
  rwa [hlen] at hlt

theorem stMode_setMode (st : Stat) {mode : Nat} (h : mode < 2 ^ 32) : (st.setMode mode).stMode = mode := by
  rw [stMode, setMode, slice_setField, leNat_leBytes]
  exact Nat.mod_eq_of_lt h

theorem stMode_setSize (st : Stat) (n : Nat) : (st.setSize n).stMode = st.stMode := by
  have hle : 48 ≤ st.bytes.length := by
    rw [st.size_eq]
    decide
  exact congrArg leNat (slice_setSlice_of_le (by decide) hle)

/-- The metadata of a file just created with these permission bits. -/
def created (mode : Nat) : Stat :=
  setMode ⟨List.replicate statSize 0, List.length_replicate⟩ (0o100000 ||| mode)

end Stat

-- ---------------------------------------------------------------------------
-- The file system
-- ---------------------------------------------------------------------------

abbrev Ino := Nat
abbrev Slot := Nat
abbrev Fd := Nat

structure Inode where
  isDir : Bool
  data  : Bytes
  stat  : Stat

/-- What `fstat` reports: the size of a regular file is the length of its content. -/
def Inode.fstat (nd : Inode) : Stat :=
  if nd.isDir then nd.stat else nd.stat.setSize nd.data.length

theorem Inode.stSize_fstat {nd : Inode} (hreg : nd.isDir = false) (hsize : nd.data.length < 2 ^ 63) :
    nd.fstat.stSize = nd.data.length := by
  rw [fstat, hreg, if_neg Bool.false_ne_true, Stat.stSize_setSize _ hsize]

inductive DirEntry where
  | absent
  | inode (i : Ino)
  | symlink (target : Slot)
  deriving DecidableEq, Repr

structure Fs where
  inodes : List Inode
  dir    : Slot → DirEntry
  slotOf : CString → Slot
  temps  : Nat
  tempPath : String → Nat → CString
  strftimeLocal : Int → Option Bytes

/-- The largest `off_t`. -/
def offMax : Int := 2 ^ 63 - 1

/-- Symbolic links followed in one lookup before `ELOOP`. -/
def maxSymlinks : Nat := 40

namespace Fs

/-- Follow symbolic links from a directory entry to one that is none. -/
def walk (fs : Fs) : Nat → Slot → Option Slot
  | 0, _ => none
  | n + 1, slot =>
    match fs.dir slot with
    | .symlink target => walk fs n target
    | _ => some slot

/-- The directory entry a path leads to, all links followed. -/
def target (fs : Fs) (path : CString) : Option Slot := fs.walk maxSymlinks (fs.slotOf path)

/-- The inode behind a path. -/
def inodeOf (fs : Fs) (path : CString) : Option Ino :=
  match (fs.target path).map fs.dir with
  | some (.inode i) => some i
  | _ => none

/-- The inode a path leads to, with its content and metadata. -/
def lookup (fs : Fs) (path : CString) : Option Inode :=
  (fs.inodeOf path).bind fun i => fs.inodes[i]?

/-- The content of a regular file. -/
def data (fs : Fs) (i : Ino) : Option Bytes :=
  match fs.inodes[i]? with
  | some nd => if nd.isDir then none else some nd.data
  | none => none

/-- The content of the regular file behind a path. -/
def content (fs : Fs) (path : CString) : Option Bytes := (fs.inodeOf path).bind fs.data

/-- Two paths lead to one directory entry or to two hard links of one inode. -/
def SameFile (fs : Fs) (p q : CString) : Prop :=
  (fs.target p = fs.target q ∧ (fs.target p).isSome) ∨
  (fs.inodeOf p = fs.inodeOf q ∧ (fs.inodeOf p).isSome)

instance (fs : Fs) (p q : CString) : Decidable (fs.SameFile p q) :=
  inferInstanceAs (Decidable (_ ∨ _))

/-- The name `mkstemp` would make up next is not taken. -/
def TempFree (fs : Fs) (template : String) : Prop :=
  fs.dir (fs.slotOf (fs.tempPath template fs.temps)) = .absent

def modifyInode (fs : Fs) (i : Ino) (f : Inode → Inode) : Fs :=
  { fs with inodes := fs.inodes.modify i f }

def setData (fs : Fs) (i : Ino) (d : Bytes) : Fs := fs.modifyInode i fun nd => { nd with data := d }

def setStat (fs : Fs) (i : Ino) (f : Stat → Stat) : Fs :=
  fs.modifyInode i fun nd => { nd with stat := f nd.stat }

/-- Create an inode. Its number is `fs.inodes.length`. -/
def newInode (fs : Fs) (nd : Inode) : Fs := { fs with inodes := fs.inodes ++ [nd] }

def link (fs : Fs) (slot : Slot) (e : DirEntry) : Fs :=
  { fs with dir := Function.update fs.dir slot e }

end Fs

-- ---------------------------------------------------------------------------
-- Processes
-- ---------------------------------------------------------------------------

structure OpenFlags where
  read   : Bool := false
  write  : Bool := false
  creat  : Bool := false
  trunc  : Bool := false
  append : Bool := false
  deriving DecidableEq, Repr

/-- An open file description: the inode, the file offset and how it was opened. -/
structure OpenFile where
  ino   : Ino
  pos   : Nat
  flags : OpenFlags
  deriving DecidableEq, Repr

/-- An argument of `printf`. -/
inductive Arg where
  | str (s : Bytes)
  | text (s : String)
  | int (n : Int)
  deriving DecidableEq, Repr

/-- One call of `printf`: its format and its arguments. -/
structure Line where
  fmt  : String
  args : List Arg
  deriving DecidableEq, Repr

/-- A process. `written` counts the bytes its writes have stored, as the kernel
accounts for them. -/
structure Proc where
  fds     : List (Option OpenFile)
  umask   : Nat
  written : Nat
  stdout  : List Line
  stderr  : List Line

structure State where
  fs   : Fs
  proc : Proc

namespace State

/-- The open file behind a descriptor. -/
def file (s : State) (fd : Fd) : Option OpenFile := s.proc.fds[fd]?.join

def setFile (s : State) (fd : Fd) (f : Option OpenFile) : State :=
  { s with proc := { s.proc with fds := s.proc.fds.set fd f } }

/-- Open a new descriptor. Its number is `s.proc.fds.length`. -/
def addFile (s : State) (f : OpenFile) : State :=
  { s with proc := { s.proc with fds := s.proc.fds ++ [some f] } }

def withFs (s : State) (fs : Fs) : State := { s with fs := fs }

def account (s : State) (n : Nat) : State :=
  { s with proc := { s.proc with written := s.proc.written + n } }

def printed (s : State) (l : Line) : State :=
  { s with proc := { s.proc with stdout := s.proc.stdout ++ [l] } }

def warned (s : State) (l : Line) : State :=
  { s with proc := { s.proc with stderr := s.proc.stderr ++ [l] } }

/-- A process that starts in the file system `fs`, its three standard streams open. -/
def boot (fs : Fs) (umask : Nat) : State := ⟨fs, ⟨List.replicate 3 none, umask, 0, [], []⟩⟩

end State

-- ---------------------------------------------------------------------------
-- A file system to try things on
-- ---------------------------------------------------------------------------

/-- A directory of files without links. Every other name has an entry of its own that
holds nothing. -/
def Fs.flat (files : List (CString × Inode)) : Fs where
  inodes := files.map Prod.snd
  dir slot := if slot < files.length then .inode slot else .absent
  slotOf path := (files.findIdx? (·.1 = path)).getD (files.length + leNat (path.bytes ++ [1]))
  temps := 0
  tempPath _ n := ⟨List.replicate (n + 1) 84, fun h => by simp [List.mem_replicate] at h⟩
  strftimeLocal _ := none

/-- A regular file with this content and otherwise empty metadata. -/
def Inode.file (data : Bytes) : Inode := ⟨false, data, Stat.created 0o644⟩

def nameA : CString := ⟨[97], by decide⟩
def nameB : CString := ⟨[98], by decide⟩

/-- Two files. -/
def Fs.pair (a b : Inode) : Fs := Fs.flat [(nameA, a), (nameB, b)]

theorem Fs.not_sameFile_pair (a b : Inode) : ¬ (Fs.pair a b).SameFile nameB nameA := by
  rintro (⟨h, -⟩ | ⟨h, -⟩)
  · exact absurd h (show some 1 ≠ some 0 by decide)
  · exact absurd h (show some 1 ≠ some 0 by decide)

end LabsOS
