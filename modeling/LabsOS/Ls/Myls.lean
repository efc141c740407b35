import LabsOS.Kernel.State
import LabsOS.Kernel.Text
import LabsOS.Program.Stateful

/-!
# myls

The functions of `lab2_ls/myls.c`, statement by statement, as programs over the calls they
make. The variables are the fields of `app`; `exit` ends a program early, and so does a step
whose behaviour C leaves undefined (a store behind the end of an array, a read of a cell that
was never written).

An entry that was allocated carries the identifier the allocation gave it; `app.list` is
an array of `capacity` cells, of which those that were never written hold nothing. The
entries are blocks of memory of their own, so a `size_t` that counts them does not overflow.
-/

namespace LabsOS.Ls

structure Dirent where
  dName : CString
  deriving DecidableEq, Repr

/-- An allocated copy of a `struct dirent`. -/
structure Entry where
  id : Nat
  dirent : Dirent
  deriving DecidableEq, Repr

/-- A block of memory the program frees. -/
inductive Block where
  | buffer
  | list
  | entry (id : Nat)
  deriving DecidableEq, Repr

-- ---------------------------------------------------------------------------
-- Calls
-- ---------------------------------------------------------------------------

inductive Call where
  | malloc (size : Nat)
  | realloc (size : Nat)
  | mallocEntry
  | free (b : Block)
  | opendir (path : CString)
  | closedir
  | readdir
  | lstat (path : Bytes)
  | readlink (path : Bytes)
  | getpwuid (uid : Nat)
  | getgrgid (gid : Nat)
  | strftimeLocal (time : Int)
  | printf (fmt : String) (args : List Arg)
  | fprintfErr (fmt : String) (args : List Arg)
  deriving DecidableEq, Repr

/-- The type of a call's result. `readdir` answers `none` when it sets `errno`, and
`some none` at the end of the directory. -/
@[reducible] def Call.Resp : Call → Type
  | .malloc _ => Bool
  | .realloc _ => Bool
  | .mallocEntry => Option Nat
  | .free _ => Unit
  | .opendir _ => Bool
  | .closedir => Unit
  | .readdir => Option (Option Dirent)
  | .lstat _ => Option Stat
  | .readlink _ => Option Bytes
  | .getpwuid _ => Option Bytes
  | .getgrgid _ => Option Bytes
  | .strftimeLocal _ => Option Bytes
  | .printf .. => Unit
  | .fprintfErr .. => Unit

/-- What the rest of the world decides about a call. -/
inductive Outcome where
  | ok
  | fail
  deriving DecidableEq, Repr

/-- What a call that is carried out finds: the files, the users, and the time zone. -/
structure View where
  opendir : CString → Bool
  lstat : Bytes → Option Stat
  readlink : Bytes → Option Bytes
  getpwuid : Nat → Option Bytes
  getgrgid : Nat → Option Bytes
  strftimeLocal : Int → Option Bytes

/-- The state around the program. The directory still has the `entries` to return; entries
are allocated under the identifiers 0, 1, 2, ..., and `released` are those freed so far. -/
structure State where
  view : View
  entries : List Dirent
  allocated : Nat
  released : List Nat
  stdout : List Line
  stderr : List Line

/-- Before anything is allocated. -/
def State.boot (view : View) (entries : List Dirent) : State where
  view := view
  entries := entries
  allocated := 0
  released := []
  stdout := []
  stderr := []

namespace Outcome

def isOk (o : Outcome) : Bool := o = .ok

/-- What is found, if the call is carried out. -/
def answer {α : Type} (o : Outcome) (found : Option α) : Option α := if o = .ok then found else none

end Outcome

/-- `readdir`. -/
def State.readdir (s : State) : Outcome → State × Option (Option Dirent)
  | .fail => (s, none)
  | .ok =>
    match s.entries with
    | [] => (s, some none)
    | d :: rest => ({ s with entries := rest }, some (some d))

def State.mallocEntry (s : State) : Outcome → State × Option Nat
  | .fail => (s, none)
  | .ok => ({ s with allocated := s.allocated + 1 }, some s.allocated)

/-- `free`. Only the entries are accounted for. -/
def State.free (s : State) : Block → State
  | .entry id => { s with released := s.released ++ [id] }
  | _ => s

def exec (o : Outcome) (s : State) : (c : Call) → State × c.Resp
  | .malloc _ => (s, o.isOk)
  | .realloc _ => (s, o.isOk)
  | .mallocEntry => s.mallocEntry o
  | .free b => (s.free b, ())
  | .opendir path => (s, o.isOk && s.view.opendir path)
  | .closedir => (s, ())
  | .readdir => s.readdir o
  | .lstat path => (s, o.answer (s.view.lstat path))
  | .readlink path => (s, o.answer (s.view.readlink path))
  | .getpwuid uid => (s, o.answer (s.view.getpwuid uid))
  | .getgrgid gid => (s, o.answer (s.view.getgrgid gid))
  | .strftimeLocal time => (s, o.answer (s.view.strftimeLocal time))
  | .printf fmt args => ({ s with stdout := s.stdout ++ [⟨fmt, args⟩] }, ())
  | .fprintfErr fmt args => ({ s with stderr := s.stderr ++ [⟨fmt, args⟩] }, ())

-- ---------------------------------------------------------------------------
-- Variables
-- ---------------------------------------------------------------------------

abbrev Flags := BitVec 8

def flagAll : Flags := 0x01
def flagLong : Flags := 0x02

def pathBufferSize : Nat := 4096

structure AppData where
  buffer : Option Bytes
  location : Option CString
  stream : Bool
  count : Nat
  list : Option (List (Option Entry))
  flags : Flags
  deriving DecidableEq, Repr

/-- `app.flags & FLAG` as a condition. -/
def AppData.hasFlag (app : AppData) (flag : Flags) : Bool := app.flags &&& flag != 0

/-- `app.list[i]`, if there is such a cell and it was written. -/
def AppData.entry (app : AppData) (i : Nat) : Option Entry := do
  let cells ← app.list
  (cells[i]?).join

/-- How a program ends early. -/
inductive Stop where
  | exit (status : Nat)
  | undefined
  deriving DecidableEq, Repr

abbrev Myls := Act Call Call.Resp AppData Stop

variable {α : Type}

abbrev issue (c : Call) : Myls c.Resp := Act.call c

abbrev malloc (size : Nat) : Myls Bool := issue (.malloc size)
abbrev realloc (size : Nat) : Myls Bool := issue (.realloc size)
abbrev mallocEntry : Myls (Option Nat) := issue .mallocEntry
abbrev free (b : Block) : Myls Unit := issue (.free b)
abbrev opendir (path : CString) : Myls Bool := issue (.opendir path)
abbrev closedir : Myls Unit := issue .closedir
abbrev readdir : Myls (Option (Option Dirent)) := issue .readdir
abbrev lstat (path : Bytes) : Myls (Option Stat) := issue (.lstat path)
abbrev readlink (path : Bytes) : Myls (Option Bytes) := issue (.readlink path)
abbrev getpwuid (uid : Nat) : Myls (Option Bytes) := issue (.getpwuid uid)
abbrev getgrgid (gid : Nat) : Myls (Option Bytes) := issue (.getgrgid gid)
abbrev strftimeLocal (time : Int) : Myls (Option Bytes) := issue (.strftimeLocal time)
abbrev printf (fmt : String) (args : List Arg) : Myls Unit := issue (.printf fmt args)
abbrev fprintfErr (fmt : String) (args : List Arg) : Myls Unit := issue (.fprintfErr fmt args)

def undefined : Myls α := Act.stop .undefined

-- ---------------------------------------------------------------------------
-- Cleaning up
-- ---------------------------------------------------------------------------

/-- `for (i = 0; i < app.count; i++) free(app.list[i]);` -/
def freeEntries : Myls Unit :=
  Act.while_ (fun i => do
    let app ← Act.get
    if i < app.count then
      match app.entry i with
      | none => undefined
      | some e => do
        free (.entry e.id)
        pure (.inl (i + 1))
    else pure (.inr ())) 0

/-- Free the entries and the array: `free(app.list); app.list = NULL;` -/
def freeList : Myls Unit := do
  freeEntries
  free .list
  Act.modify fun app => { app with list := none }

def cleanupBuffer : Myls Unit := do
  let app ← Act.get
  if app.buffer.isSome then do
    free .buffer
    Act.modify fun app => { app with buffer := none }
  else pure ()

def cleanupStream : Myls Unit := do
  let app ← Act.get
  if app.stream then do
    closedir
    Act.modify fun app => { app with stream := false }
  else pure ()

def cleanupList : Myls Unit := do
  let app ← Act.get
  if app.list.isSome then freeList else pure ()

def cleanupApp : Myls Unit := do
  cleanupBuffer
  cleanupStream
  cleanupList

/-- The text of the message; the codes from 2 on stand for `strerror(errno)`. -/
def errorText (code : Nat) : Arg :=
  if code = 1 then .text "Invalid option. Use -h for help" else .text "strerror(errno)"

/-- `cleanup_app(); exit(1);` -/
def quit : Myls α := do
  cleanupApp
  Act.stop (.exit 1)

def reportError (code : Nat) : Myls α := do
  fprintfErr "Operation failed: %s\n" [errorText code]
  quit

def initApp : Myls Unit := do
  match ← malloc pathBufferSize with
  | true => Act.modify fun app => { app with buffer := some [] }
  | false => do
    fprintfErr "Memory allocation failure\n" []
    Act.stop (.exit 1)

-- ---------------------------------------------------------------------------
-- Loading
-- ---------------------------------------------------------------------------

/-- `tolower` in the C locale. -/
def tolower (b : UInt8) : UInt8 := if 65 ≤ b && b ≤ 90 then b + 32 else b

/-- `strcasecmp` in the C locale: the first difference, the end of a string being a NUL. -/
def strcasecmp : Bytes → Bytes → Int
  | [], [] => 0
  | [], b :: _ => -(tolower b).toNat
  | a :: _, [] => (tolower a).toNat
  | a :: as, b :: bs =>
    if tolower a = tolower b then strcasecmp as bs else (tolower a).toNat - (tolower b).toNat

def startsWithDot (d : Dirent) : Bool := d.dName.bytes.head? = some 46

def entrySorter (first second : Dirent) : Int :=
  if startsWithDot first && !startsWithDot second then -1
  else if !startsWithDot first && startsWithDot second then 1
  else strcasecmp first.dName.bytes second.dName.bytes

/-- `entry_sorter` of two cells of the array, which it is given the addresses of. -/
def compareEntries (a b : Entry) : Int := entrySorter a.dirent b.dirent

/-- `app.list = realloc(app.list, capacity * sizeof(struct dirent *))`. -/
def resize (capacity : Nat) (cells : List (Option Entry)) : List (Option Entry) :=
  cells.take capacity ++ List.replicate (capacity - cells.length) none

/-- The array is doubled when it is full. -/
def growList (capacity : Nat) : Myls Nat := do
  let app ← Act.get
  if app.count ≥ capacity then do
    match ← realloc (capacity * 2 * 8) with
    | false => do
      freeList
      reportError 3
    | true => do
      Act.modify fun app => { app with list := app.list.map (resize (capacity * 2)) }
      pure (capacity * 2)
  else pure capacity

/-- `app.list[app.count++] = copy;` -/
def storeEntry (copy : Entry) : Myls Unit := do
  let app ← Act.get
  match app.list with
  | none => undefined
  | some cells =>
    if app.count < cells.length then
      Act.modify fun app =>
        { app with list := some (cells.set app.count (some copy)), count := app.count + 1 }
    else undefined

/-- The content of cells that were all written. -/
def allSome : List (Option Entry) → Option (List Entry)
  | [] => some []
  | none :: _ => none
  | some e :: cells => (allSome cells).map (e :: ·)

/-- `qsort(app.list, app.count, sizeof(struct dirent *), entry_sorter)`. -/
def sortList (qsort : (Entry → Entry → Int) → List Entry → List Entry) : Myls Unit := do
  let app ← Act.get
  match app.list with
  | none => undefined
  | some cells =>
    match allSome (cells.take app.count) with
    | none => undefined
    | some entries =>
      Act.modify fun app => { app with
        list := some ((qsort compareEntries entries).map some ++ cells.drop app.count) }

/-- One round of the loop over the directory. The value it leaves with is `errno != 0`. -/
def loadEntry (capacity : Nat) : Myls (Nat ⊕ Bool) := do
  match ← readdir with
  | none => pure (.inr true)
  | some none => pure (.inr false)
  | some (some current) => do
    let capacity ← growList capacity
    match ← mallocEntry with
    | none => do
      freeList
      reportError 3
    | some id => do
      storeEntry ⟨id, current⟩
      pure (.inl capacity)

def loadDirectoryEntries (qsort : (Entry → Entry → Int) → List Entry → List Entry) :
    Myls Unit := do
  match ← malloc (32 * 8) with
  | false => do
    Act.modify fun app => { app with list := none }
    reportError 3
  | true => do
    Act.modify fun app => { app with list := some (List.replicate 32 none) }
    Act.modify fun app => { app with count := 0 }
    match ← Act.while_ loadEntry 32 with
    | true => do
      freeList
      reportError 3
    | false => sortList qsort

-- ---------------------------------------------------------------------------
-- Displaying
-- ---------------------------------------------------------------------------

def colorNormal : Nat := 0
def colorFolder : Nat := 1
def colorExe : Nat := 2
def colorLink : Nat := 3

def colorCodes : List Nat := [39, 34, 32, 36]

def permChars : Bytes := ascii "rwx"
def colorSeq : Bytes := ascii "\x1b["
def resetSeq : Bytes := ascii "\x1b[0m"

def permFlags : List Nat := [0o400, 0o200, 0o100, 0o040, 0o020, 0o010, 0o004, 0o002, 0o001]

/-- The type in an `st_mode`: `S_ISREG` and its like compare it. -/
def fileType (mode : Nat) : Nat := mode &&& 0o170000

def sIfSock : Nat := 0o140000
def sIfLnk : Nat := 0o120000
def sIfReg : Nat := 0o100000
def sIfBlk : Nat := 0o060000
def sIfDir : Nat := 0o040000
def sIfChr : Nat := 0o020000
def sIfFifo : Nat := 0o010000

/-- `info.st_mode & (S_IXUSR | S_IXGRP | S_IXOTH)`. -/
def isExecutable (mode : Nat) : Bool := mode &&& 0o111 != 0

def putchar (c : UInt8) : Myls Unit := printf "%c" [.int c.toNat]

/-- `snprintf(app.buffer, PATH_BUFFER_SIZE, "%s/%s", app.location, name)`. -/
def buildFullPath (name : CString) : Myls Unit := do
  Act.modify fun app =>
    { app with location := some (app.location.getD ⟨ascii ".", by decide⟩) }
  let app ← Act.get
  match app.buffer, app.location with
  | some _, some location => do
    let text := location.bytes ++ ascii "/" ++ name.bytes
    Act.modify fun app => { app with buffer := some (text.take (pathBufferSize - 1)) }
    if text.length ≥ pathBufferSize then do
      fprintfErr "Path exceeds maximum length\n" []
      quit
    else pure ()
  | _, _ => undefined

/-- The first chain of tests: the letter of the type, and the colour. -/
def longType (mode : Nat) : UInt8 × Nat :=
  if fileType mode = sIfReg then (45, if isExecutable mode then colorExe else colorNormal)
  else if fileType mode = sIfDir then (100, colorFolder)
  else if fileType mode = sIfChr then (99, colorNormal)
  else if fileType mode = sIfBlk then (98, colorNormal)
  else if fileType mode = sIfFifo then (112, colorNormal)
  else if fileType mode = sIfLnk then (108, colorLink)
  else if fileType mode = sIfSock then (115, colorNormal)
  else (63, colorNormal)

/-- The second chain of tests. -/
def shortColor (mode : Nat) : Nat :=
  if fileType mode = sIfDir then colorFolder
  else if fileType mode = sIfLnk then colorLink
  else if isExecutable mode then colorExe
  else colorNormal

/-- `perms & perm_flags[i] ? perm_chars[i % 3] : '-'`. -/
def permChar (perms i : Nat) : UInt8 :=
  if perms &&& permFlags.getD i 0 ≠ 0 then permChars.getD (i % 3) 0 else 45

/-- The loop over the permissions, from `i` on. -/
def printPerms (perms : Nat) : List Nat → Myls Unit
  | [] => pure ()
  | i :: rest => do
    putchar (permChar perms i)
    printPerms perms rest

def printOwner (uid : Nat) : Myls Unit := do
  match ← getpwuid uid with
  | some name => printf "%-8s " [.str name]
  | none => printf "%-8u " [.int uid]

def printGroup (gid : Nat) : Myls Unit := do
  match ← getgrgid gid with
  | some name => printf "%-8s " [.str name]
  | none => printf "%-8u " [.int gid]

/-- `localtime`, whose result `strftime` is given unchecked, and `strftime`. -/
def printTime (time : Int) : Myls Unit := do
  match ← strftimeLocal time with
  | some text => printf "%s " [.str text]
  | none => undefined

def nameArgs (colorIdx : Nat) (name : CString) : List Arg :=
  [.str colorSeq, .int (colorCodes.getD colorIdx 0), .str name.bytes, .str resetSeq]

/-- The target of a symbolic link; `link_path` has `PATH_MAX` bytes. -/
def printTarget (path : Bytes) (mode : Nat) : Myls Unit :=
  if fileType mode = sIfLnk then do
    match ← readlink path with
    | some target => printf " -> %s" [.str (target.take 4095)]
    | none => pure ()
  else pure ()

def displayLong (name : CString) (path : Bytes) (info : Stat) : Myls Unit := do
  putchar (longType info.stMode).1
  printPerms info.stMode (List.range 9)
  putchar 32
  printf "%lu " [.int info.stNlink]
  printOwner info.stUid
  printGroup info.stGid
  -- the two branches of the source print the size alike
  printf "%8lld " [.int info.stSize]
  printTime info.stMtime
  printf "%s%dm%s%s" (nameArgs (longType info.stMode).2 name)
  printTarget path info.stMode
  printf "\n" []

def displayShort (name : CString) (info : Stat) : Myls Unit :=
  printf "%s%dm%-20s%s" (nameArgs (shortColor info.stMode) name)

/-- `lstat(app.buffer, &info)` and what is displayed of its result. -/
def displayInfo (entry : Entry) : Myls Unit := do
  let app ← Act.get
  match app.buffer with
  | none => undefined
  | some path => do
    match ← lstat path with
    | none => do
      free (.entry entry.id)
      reportError 4
    | some info =>
      if app.hasFlag flagLong then displayLong entry.dirent.dName path info
      else displayShort entry.dirent.dName info

def displayEntry (entry : Entry) : Myls Unit := do
  let app ← Act.get
  if startsWithDot entry.dirent && !app.hasFlag flagAll then free (.entry entry.id)
  else do
    buildFullPath entry.dirent.dName
    displayInfo entry
    free (.entry entry.id)

/-- `for (i = 0; i < app.count; i++) display_entry(app.list[i]);` -/
def displayEntries : Myls Unit :=
  Act.while_ (fun i => do
    let app ← Act.get
    if i < app.count then
      match app.entry i with
      | none => undefined
      | some e => do
        displayEntry e
        pure (.inl (i + 1))
    else pure (.inr ())) 0

def processDirectory (qsort : (Entry → Entry → Int) → List Entry → List Entry)
    (target : CString) : Myls Unit := do
  match ← opendir target with
  | false => reportError 2
  | true => do
    Act.modify fun app => { app with stream := true }
    Act.modify fun app => { app with location := some target }
    loadDirectoryEntries qsort
    displayEntries
    Act.modify fun app => { app with count := 0 }
    free .list
    Act.modify fun app => { app with list := none }
    let app ← Act.get
    if app.hasFlag flagLong then pure () else putchar 10

/-- The end of `main`, once the options are read: `return` ends the program too. -/
def listDirectory (qsort : (Entry → Entry → Int) → List Entry → List Entry)
    (target : CString) : Myls Unit := do
  processDirectory qsort target
  cleanupApp
  Act.stop (.exit 0)

end LabsOS.Ls
