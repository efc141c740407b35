import LabsOS.Ls.Loading

/-!
# What myls prints

The listing as a function of what is found: the lines printed for an entry, for the entries of
the array in order, and for a directory. `process_directory` prints it where every call is
carried out. Entries that are not shown print nothing, so the order of the entries matters
only among those shown, and `entry_sorter` decides that order unless two of their names differ
in the case of letters alone.
-/

namespace LabsOS.Ls

-- ---------------------------------------------------------------------------
-- Output
-- ---------------------------------------------------------------------------

/-- The lines a part of the program prints, and how the program ends if it ends there. -/
structure Output where
  lines : List Line
  stop : Option Stop
  deriving DecidableEq, Repr

namespace Output

/-- Nothing is printed. -/
def empty : Output := ⟨[], none⟩

def printed (lines : List Line) : Output := ⟨lines, none⟩

/-- The program ends. -/
def ended (x : Stop) : Output := ⟨[], some x⟩

/-- What follows is printed unless the program has ended. -/
def andThen (o o' : Output) : Output :=
  if o.stop.isSome then o else ⟨o.lines ++ o'.lines, o'.stop⟩

variable {o o' o'' : Output}

theorem andThen_of_stop (h : o.stop.isSome) : o.andThen o' = o := if_pos h

theorem andThen_of_none (h : o.stop = none) : o.andThen o' = ⟨o.lines ++ o'.lines, o'.stop⟩ := by
  unfold andThen
  rw [h]
  rfl

@[simp] theorem empty_andThen : empty.andThen o = o := rfl

@[simp] theorem andThen_empty : o.andThen empty = o := by
  cases hstop : o.stop with
  | some x => exact andThen_of_stop (by rw [hstop]; rfl)
  | none =>
    rw [andThen_of_none hstop]
    show (⟨o.lines ++ [], none⟩ : Output) = o
    rw [List.append_nil, ← hstop]

theorem andThen_assoc : (o.andThen o').andThen o'' = o.andThen (o'.andThen o'') := by
  cases hstop : o.stop with
  | some x =>
    have hsome : o.stop.isSome := by rw [hstop]; rfl
    rw [andThen_of_stop hsome, andThen_of_stop hsome, andThen_of_stop hsome]
  | none =>
    cases hstop' : o'.stop with
    | some x =>
      have hsome : o'.stop.isSome := by rw [hstop']; rfl
      rw [andThen_of_stop hsome, andThen_of_none hstop, andThen_of_stop (by rw [hstop']; rfl)]
    | none =>
      rw [andThen_of_none hstop, andThen_of_none hstop', andThen_of_none hstop,
        andThen_of_none (by exact hstop'), List.append_assoc]

end Output

-- ---------------------------------------------------------------------------
-- The listing
-- ---------------------------------------------------------------------------

def charLine (c : UInt8) : Line := ⟨"%c", [.int c.toNat]⟩

def permLines (perms : Nat) : List Line := (List.range 9).map fun i => charLine (permChar perms i)

/-- The name of an owner or a group, or its number. -/
def idLine (name : Option Bytes) (id : Nat) : Line :=
  match name with
  | some name => ⟨"%-8s ", [.str name]⟩
  | none => ⟨"%-8u ", [.int id]⟩

def timeOutput (text : Option Bytes) : Output :=
  match text with
  | some text => .printed [⟨"%s ", [.str text]⟩]
  | none => .ended .undefined

def targetLines (target : Option Bytes) (mode : Nat) : List Line :=
  if fileType mode = sIfLnk then
    match target with
    | some target => [⟨" -> %s", [.str (target.take 4095)]⟩]
    | none => []
  else []

def longOutput (view : View) (name : CString) (path : Bytes) (info : Stat) : Output :=
  (Output.printed ([charLine (longType info.stMode).1] ++ permLines info.stMode ++
    [charLine 32, ⟨"%lu ", [.int info.stNlink]⟩, idLine (view.getpwuid info.stUid) info.stUid,
      idLine (view.getgrgid info.stGid) info.stGid, ⟨"%8lld ", [.int info.stSize]⟩])).andThen <|
  (timeOutput (view.strftimeLocal info.stMtime)).andThen <|
  .printed ([⟨"%s%dm%s%s", nameArgs (longType info.stMode).2 name⟩] ++
    targetLines (view.readlink path) info.stMode ++ [⟨"\n", []⟩])

def shortOutput (name : CString) (info : Stat) : Output :=
  .printed [⟨"%s%dm%-20s%s", nameArgs (shortColor info.stMode) name⟩]

def fullPath (location name : CString) : Bytes := location.bytes ++ ascii "/" ++ name.bytes

/-- The entries `display_entry` shows. -/
def shown (flags : Flags) (d : Dirent) : Bool := !startsWithDot d || flags &&& flagAll != 0

def infoOutput (view : View) (flags : Flags) (name : CString) (path : Bytes) : Output :=
  match view.lstat path with
  | none => .ended (.exit 1)
  | some info =>
    if flags &&& flagLong != 0 then longOutput view name path info else shortOutput name info

def entryOutput (view : View) (flags : Flags) (location : CString) (d : Dirent) : Output :=
  if shown flags d then
    if (fullPath location d.dName).length < pathBufferSize then
      infoOutput view flags d.dName (fullPath location d.dName)
    else .ended (.exit 1)
  else .empty

/-- The entries in order. -/
def listing (view : View) (flags : Flags) (location : CString) : List Dirent → Output
  | [] => .empty
  | d :: ds => (entryOutput view flags location d).andThen (listing view flags location ds)

def directoryOutput (view : View) (flags : Flags) (target : CString) (ds : List Dirent) : Output :=
  if view.opendir target then
    (listing view flags target ds).andThen
      (if flags &&& flagLong != 0 then .empty else .printed [charLine 10])
  else .ended (.exit 1)

section

variable {view : View} {flags : Flags} {location : CString}

theorem listing_append (ds ds' : List Dirent) : listing view flags location (ds ++ ds') =
    (listing view flags location ds).andThen (listing view flags location ds') := by
  induction ds with
  | nil => rfl
  | cons d ds ih =>
    rw [List.cons_append, listing, listing, ih, Output.andThen_assoc]

/-- Entries that are not shown leave no trace in the listing. -/
theorem listing_filter (ds : List Dirent) :
    listing view flags location (ds.filter (shown flags)) = listing view flags location ds := by
  induction ds with
  | nil => rfl
  | cons d ds ih =>
    cases hshown : shown flags d with
    | true => rw [List.filter_cons_of_pos hshown, listing, listing, ih]
    | false =>
      rw [List.filter_cons_of_neg (by rw [hshown]; exact Bool.false_ne_true), ih, listing,
        entryOutput, hshown]
      rfl

end

-- ---------------------------------------------------------------------------
-- Printing
-- ---------------------------------------------------------------------------

/-- Every call is carried out. -/
def Undisturbed (ev : Event Call Call.Resp Outcome) : Prop := ev.outcome = .ok

/-- From any variables with `A`, where the files are as in `view`, the program prints `o`,
and leaves variables with `B` if it goes on. -/
def Prints (A B : AppData → Prop) (view : View) (p : Myls Unit) (o : Output) : Prop :=
  ∀ app s, A app → s.view = view → Act.Meets exec Undisturbed (fun _ => True) app s p
    (fun _ app' s' => B app' ∧ s'.view = view ∧ o.stop = none ∧
      s'.stdout = s.stdout ++ o.lines)
    (fun x s' => o.stop = some x ∧ s'.stdout = s.stdout ++ o.lines)

variable {A B C : AppData → Prop} {view : View} {p q : Myls Unit} {o o' : Output}

theorem Prints.pure : Prints A A view (Pure.pure ()) .empty := by
  intro app s hA hview
  exact Act.Meets.pure True.intro ⟨hA, hview, rfl, (List.append_nil _).symm⟩

theorem Prints.undefined : Prints A B view undefined (.ended .undefined) := by
  intro app s hA hview
  exact Act.Meets.stop True.intro ⟨rfl, (List.append_nil _).symm⟩

theorem Prints.printf (fmt : String) (args : List Arg) :
    Prints A A view (printf fmt args) (.printed [⟨fmt, args⟩]) := by
  intro app s hA hview
  exact Act.Meets.call True.intro fun o _ => ⟨True.intro, hA, hview, rfl, rfl⟩

theorem Prints.free (b : Block) : Prints A A view (free b) .empty := by
  intro app s hA hview
  refine Act.Meets.call True.intro fun o _ => ⟨True.intro, hA, ?_, rfl, ?_⟩
  · show (s.free b).view = view
    cases b <;> exact hview
  · show (s.free b).stdout = s.stdout ++ []
    rw [List.append_nil]
    cases b <;> rfl

theorem Prints.get {f : AppData → Myls Unit} (h : ∀ app, A app → Prints A B view (f app) o) :
    Prints A B view (Act.get >>= f) o := by
  intro app s hA hview
  exact Act.Meets.get_bind (h app hA app s hA hview)

/-- A call that only asks. -/
theorem Prints.ask {c : Call} {f : c.Resp → Myls Unit} {r : c.Resp}
    (hc : ∀ s : State, s.view = view → exec .ok s c = (s, r)) (hf : Prints A B view (f r) o) :
    Prints A B view (issue c >>= f) o := by
  intro app s hA hview
  apply Act.Meets.call_bind True.intro
  intro out hout
  obtain rfl : out = .ok := hout
  rw [hc s hview]
  exact hf app s hA hview

theorem Prints.seq (hp : Prints A B view p o) (hq : Prints B C view q o') :
    Prints A C view (do p; q) (o.andThen o') := by
  intro app s hA hview
  cases hstop : o.stop with
  | some x =>
    rw [Output.andThen_of_stop (by rw [hstop]; rfl)]
    apply Act.Meets.bind (hp app s hA hview)
    intro _ app' s' h
    rw [hstop] at h
    cases h.2.2.1
  | none =>
    rw [Output.andThen_of_none hstop]
    refine Act.Meets.bind ((hp app s hA hview).mono (fun _ _ _ h => h) fun x s' h => ?_)
      fun _ app' s' h => ?_
    · rw [hstop] at h
      cases h.1
    · obtain ⟨hB, hview', -, hout⟩ := h
      refine (hq app' s' hB hview').mono ?_ ?_
      · intro _ app'' s'' h
        exact ⟨h.1, h.2.1, h.2.2.1, by rw [h.2.2.2, hout, List.append_assoc]⟩
      · intro x s'' h
        exact ⟨h.1, by rw [h.2, hout, List.append_assoc]⟩

theorem Prints.modify_bind {g : AppData → AppData} {f : Unit → Myls Unit}
    (hg : ∀ app, A app → B (g app)) (hf : Prints B C view (f ()) o) :
    Prints A C view (Act.modify g >>= f) o := by
  intro app s hA hview
  exact Act.Meets.modify_bind (hf (g app) s (hg app hA) hview)

theorem Prints.post (h : Prints A B view p o) (hC : ∀ app, B app → C app) :
    Prints A C view p o := by
  intro app s hA hview
  exact (h app s hA hview).mono (fun _ app' s' h => ⟨hC app' h.1, h.2⟩) fun _ _ h => h

theorem putchar_prints (c : UInt8) : Prints A A view (putchar c) (.printed [charLine c]) :=
  Prints.printf _ _

theorem printPerms_prints (perms : Nat) (is : List Nat) : Prints A A view (printPerms perms is)
    (.printed (is.map fun i => charLine (permChar perms i))) := by
  induction is with
  | nil => exact Prints.pure
  | cons i is ih => exact (putchar_prints _).seq ih

theorem printOwner_prints (uid : Nat) :
    Prints A A view (printOwner uid) (.printed [idLine (view.getpwuid uid) uid]) := by
  refine Prints.ask (r := view.getpwuid uid) (fun s h => by rw [← h]; rfl) ?_
  cases view.getpwuid uid with
  | some name => exact Prints.printf _ _
  | none => exact Prints.printf _ _

theorem printGroup_prints (gid : Nat) :
    Prints A A view (printGroup gid) (.printed [idLine (view.getgrgid gid) gid]) := by
  refine Prints.ask (r := view.getgrgid gid) (fun s h => by rw [← h]; rfl) ?_
  cases view.getgrgid gid with
  | some name => exact Prints.printf _ _
  | none => exact Prints.printf _ _

theorem printTime_prints (time : Int) :
    Prints A A view (printTime time) (timeOutput (view.strftimeLocal time)) := by
  refine Prints.ask (r := view.strftimeLocal time) (fun s h => by rw [← h]; rfl) ?_
  cases view.strftimeLocal time with
  | some text => exact Prints.printf _ _
  | none => exact Prints.undefined

theorem printTarget_prints (path : Bytes) (mode : Nat) : Prints A A view (printTarget path mode)
    (.printed (targetLines (view.readlink path) mode)) := by
  unfold printTarget targetLines
  split
  · refine Prints.ask (r := view.readlink path) (fun s h => by rw [← h]; rfl) ?_
    cases view.readlink path with
    | some target => exact Prints.printf _ _
    | none => exact Prints.pure
  · exact Prints.pure

theorem displayLong_prints (name : CString) (path : Bytes) (info : Stat) :
    Prints A A view (displayLong name path info) (longOutput view name path info) := by
  have hname : Prints A A view (printf "%s%dm%s%s" (nameArgs (longType info.stMode).2 name))
      (.printed [⟨"%s%dm%s%s", nameArgs (longType info.stMode).2 name⟩]) := Prints.printf _ _
  have hlink := hname.seq ((printTarget_prints path info.stMode).seq (Prints.printf "\n" []))
  have htime := (printTime_prints info.stMtime).seq hlink
  have hsize := (printOwner_prints info.stUid).seq <| (printGroup_prints info.stGid).seq <|
    (Prints.printf "%8lld " [.int info.stSize]).seq htime
  have hperms := (putchar_prints (longType info.stMode).1).seq <|
    (printPerms_prints info.stMode (List.range 9)).seq <|
    (putchar_prints 32).seq <| (Prints.printf "%lu " [.int info.stNlink]).seq hsize
  exact hperms

-- ---------------------------------------------------------------------------
-- The entries
-- ---------------------------------------------------------------------------

/-- The variables while the entries `L` are displayed. -/
structure Showing (flags : Flags) (location : CString) (L : List Entry) (app : AppData) :
    Prop where
  lists : Lists app L
  location : app.location = some location
  flags : app.flags = flags
  buffer : app.buffer.isSome

/-- The path of an entry is in the buffer. -/
structure ShowingAt (flags : Flags) (location : CString) (L : List Entry) (path : Bytes)
    (app : AppData) : Prop extends Showing flags location L app where
  path_eq : app.buffer = some path

variable {flags : Flags} {location : CString} {L : List Entry} {path : Bytes}

theorem quit_prints (h : ∀ app, A app → Owns app L) :
    Prints A B view quit (.ended (.exit 1)) := by
  intro app s hA hview
  apply (quit_spec (h app hA)).mono (fun _ _ _ h => h)
  intro x s' hq
  exact ⟨by rw [hq.exit]; rfl, by rw [hq.stdout]; exact (List.append_nil _).symm⟩

theorem reportError_prints (h : ∀ app, A app → Owns app L) (code : Nat) :
    Prints A B view (reportError code) (.ended (.exit 1)) := by
  intro app s hA hview
  apply (reportError_spec (h app hA) code).mono (fun _ _ _ h => h)
  intro x s' hq
  exact ⟨by rw [hq.exit]; rfl, by rw [hq.stdout]; exact (List.append_nil _).symm⟩

theorem Showing.owns {app : AppData} (h : Showing flags location L app) : Owns app L := .inr h.lists

theorem buildFullPath_prints (name : CString) :
    Prints (Showing flags location L) (ShowingAt flags location L (fullPath location name)) view
      (buildFullPath name)
      (if (fullPath location name).length < pathBufferSize then .empty else .ended (.exit 1)) := by
  rintro ⟨buffer, loc, stream, count, list, fl⟩ s h hview
  obtain ⟨hlists, rfl, rfl, hbuffer⟩ := h
  obtain ⟨text, rfl⟩ := Option.isSome_iff_exists.mp hbuffer
  refine Act.Meets.modify_bind (Act.Meets.get_bind (Act.Meets.modify_bind ?_))
  show Act.Meets exec Undisturbed (fun _ => True)
    (AppData.mk (some ((fullPath location name).take (pathBufferSize - 1))) (some location) stream
      count list fl) s (if pathBufferSize ≤ (fullPath location name).length then _ else _) _ _
  by_cases hlt : (fullPath location name).length < pathBufferSize
  · rw [if_pos hlt, if_neg (Nat.not_le.mpr hlt)]
    have htake : (fullPath location name).take (pathBufferSize - 1) = fullPath location name :=
      List.take_of_length_le (Nat.le_sub_one_of_lt hlt)
    refine Act.Meets.pure True.intro ⟨⟨⟨hlists, rfl, rfl, rfl⟩, ?_⟩, hview, rfl, ?_⟩
    · exact congrArg some htake
    · exact (List.append_nil _).symm
  · rw [if_neg hlt, if_pos (Nat.not_lt.mp hlt)]
    apply Act.Meets.call_bind True.intro
    intro o _
    have hquit : Prints (fun app' => Lists app' L)
        (ShowingAt fl location L (fullPath location name)) view quit _ :=
      quit_prints fun _ h => .inr h
    exact hquit _ _ hlists hview

theorem displayInfo_prints (e : Entry) :
    Prints (ShowingAt flags location L path) (ShowingAt flags location L path) view
      (displayInfo e) (infoOutput view flags e.dirent.dName path) := by
  apply Prints.get
  intro app h
  have hlong : app.hasFlag flagLong = (flags &&& flagLong != 0) := by
    rw [← h.flags]
    rfl
  simp only [h.path_eq, hlong]
  refine Prints.ask (r := view.lstat path) (fun s h => by rw [← h]; rfl) ?_
  unfold infoOutput
  cases view.lstat path with
  | none =>
    exact (Prints.free (.entry e.id)).seq (reportError_prints (fun app h => h.owns) 4)
  | some info =>
    cases (flags &&& flagLong != 0) with
    | true => exact displayLong_prints _ _ _
    | false => exact Prints.printf _ _

theorem displayEntry_prints (e : Entry) :
    Prints (Showing flags location L) (Showing flags location L) view (displayEntry e)
      (entryOutput view flags location e.dirent) := by
  apply Prints.get
  intro app h
  have hshown : (startsWithDot e.dirent && !app.hasFlag flagAll) = !shown flags e.dirent := by
    unfold shown AppData.hasFlag
    rw [h.flags]
    cases startsWithDot e.dirent <;> rfl
  rw [hshown]
  unfold entryOutput
  cases shown flags e.dirent with
  | false => exact Prints.free _
  | true =>
    have hpath : Prints (Showing flags location L)
        (ShowingAt flags location L (fullPath location e.dirent.dName)) view
        (buildFullPath e.dirent.dName) _ := buildFullPath_prints _
    have hdisplay := hpath.seq ((displayInfo_prints e).seq (Prints.free (.entry e.id)))
    rw [Output.andThen_empty] at hdisplay
    by_cases hlt : (fullPath location e.dirent.dName).length < pathBufferSize
    · rw [if_pos hlt] at hdisplay
      rw [if_pos rfl, if_pos hlt]
      exact hdisplay.post fun app h => h.toShowing
    · rw [if_neg hlt] at hdisplay
      rw [if_pos rfl, if_neg hlt]
      exact hdisplay.post fun app h => h.toShowing

/-- The loop: entry by entry, what is printed so far is the listing of the entries so far. -/
theorem displayEntries_prints :
    Prints (Showing flags location L) (Showing flags location L) view displayEntries
      (listing view flags location (L.map Entry.dirent)) := by
  intro app s h hview
  have hsplit : ∀ i, listing view flags location (L.map Entry.dirent) =
      (listing view flags location ((L.take i).map Entry.dirent)).andThen
        (listing view flags location ((L.drop i).map Entry.dirent)) := fun i => by
    rw [← listing_append, ← List.map_append, List.take_append_drop]
  refine Act.Meets.loop (fun i app' s' => i ≤ L.length ∧ Showing flags location L app' ∧
      s'.view = view ∧
      (listing view flags location ((L.take i).map Entry.dirent)).stop = none ∧
      s'.stdout = s.stdout ++
        (listing view flags location ((L.take i).map Entry.dirent)).lines)
    (fun i _ _ => L.length - i) ?_ ⟨Nat.zero_le _, h, hview, rfl, (List.append_nil _).symm⟩
  rintro i app' s' ⟨hi, h', hview', hstop, hout⟩
  have hcount : app'.count = L.length := by
    obtain ⟨rest, -, hcount⟩ := h'.lists
    exact hcount
  refine Act.Meets.get_bind ?_
  by_cases hlt : i < L.length
  · have hentry : app'.entry i = some L[i] := by
      rw [h'.lists.entry hlt, List.getElem?_eq_getElem hlt]
    have htake : listing view flags location ((L.take (i + 1)).map Entry.dirent) =
        (listing view flags location ((L.take i).map Entry.dirent)).andThen
          (entryOutput view flags location L[i].dirent) := by
      rw [List.take_succ_eq_append_getElem hlt, List.map_append, listing_append]
      exact congrArg _ Output.andThen_empty
    rw [if_pos (hcount ▸ hlt)]
    simp only [hentry]
    refine Act.Meets.bind ((displayEntry_prints L[i] app' s' h' hview').mono
      (fun _ _ _ h => h) fun x s'' hx => ?_) fun _ app'' s'' h'' => ?_
    · -- the listing ends where the entry does
      have hended : (listing view flags location ((L.take (i + 1)).map Entry.dirent)).stop =
          some x := by
        rw [htake, Output.andThen_of_none hstop]
        exact hx.1
      rw [hsplit (i + 1), Output.andThen_of_stop (by rw [hended]; rfl)]
      refine ⟨hended, ?_⟩
      rw [htake, Output.andThen_of_none hstop, hx.2, hout, List.append_assoc]
    · obtain ⟨hshow, hview'', hnone, hout''⟩ := h''
      refine Act.Meets.pure True.intro ⟨⟨hlt, hshow, hview'', ?_, ?_⟩, by omega⟩
      · rw [htake, Output.andThen_of_none hstop]
        exact hnone
      · rw [htake, Output.andThen_of_none hstop, hout'', hout, List.append_assoc]
  · rw [if_neg (hcount ▸ hlt)]
    have hall : L.take i = L := List.take_of_length_le (Nat.le_of_not_lt hlt)
    rw [hall] at hstop hout
    exact Act.Meets.pure True.intro ⟨h', hview', hstop, hout⟩

-- ---------------------------------------------------------------------------
-- The directory
-- ---------------------------------------------------------------------------

/-- `app` when `main` calls `process_directory`: `init_app` has returned, and the options
have set the flags. -/
def AppData.ready (flags : Flags) : AppData := ⟨some [], none, false, 0, none, flags⟩

/-- What is asked of `qsort` here: its array again, in the order of `entry_sorter`. -/
def SortsEntries (qsort : (Entry → Entry → Int) → List Entry → List Entry) : Prop :=
  ∀ L, (qsort compareEntries L).Perm L ∧ SortedBy compareEntries (qsort compareEntries L)

/-- The entries `ds` in an order of `entry_sorter`. -/
structure InOrder (ds ds' : List Dirent) : Prop where
  perm : ds'.Perm ds
  sorted : SortedBy entrySorter ds'

variable {qsort : (Entry → Entry → Int) → List Entry → List Entry}

/-- What `process_directory` does once the entries are loaded. -/
theorem displayEntries_end_prints :
    Prints (Showing flags location L) (fun app => app.flags = flags) view
      (do
        displayEntries
        Act.modify fun app => { app with count := 0 }
        free .list
        Act.modify fun app => { app with list := none }
        let app ← Act.get
        if app.hasFlag flagLong then pure () else putchar 10)
      ((listing view flags location (L.map Entry.dirent)).andThen
        (if flags &&& flagLong != 0 then .empty else .printed [charLine 10])) := by
  refine displayEntries_prints.seq ?_
  refine Prints.modify_bind (B := fun app => app.flags = flags) (fun app h => h.flags) ?_
  refine (Prints.free (A := fun app => app.flags = flags) .list).seq ?_
  refine Prints.modify_bind (B := fun app => app.flags = flags) (fun app h => h) ?_
  apply Prints.get
  intro app h
  have hlong : app.hasFlag flagLong = (flags &&& flagLong != 0) := by
    rw [← h]
    rfl
  rw [hlong]
  cases (flags &&& flagLong != 0) with
  | true => exact Prints.pure
  | false => exact putchar_prints 10

/-- From `s` to `s'` the program prints `o`, and ends as `x` says. -/
structure Printed (o : Output) (x : Option Stop) (s s' : State) : Prop where
  stop : o.stop = x
  stdout : s'.stdout = s.stdout ++ o.lines

theorem InOrder.insertionSortBy (ds : List Dirent) :
    InOrder ds (insertionSortBy entrySorter ds) :=
  ⟨insertionSortBy_perm _ _, sortedBy_insertionSortBy totalPreorder_entrySorter _⟩

theorem InOrder.of_qsort (hqsort : SortsEntries qsort) {ds : List Dirent}
    (hread : L.map Entry.dirent = ds) :
    InOrder ds ((qsort compareEntries L).map Entry.dirent) := by
  obtain ⟨hperm, hsorted⟩ := hqsort L
  exact ⟨hread ▸ hperm.map _, List.pairwise_map.mpr hsorted⟩

/-- The entries as `load_directory_entries` stores them, before it sorts them. -/
def State.stored (s : State) : List Entry := s.entries.mapIdx fun i d => ⟨s.allocated + i, d⟩

/-- The names in the order in which they are displayed. -/
def sortedEntries (qsort : (Entry → Entry → Int) → List Entry → List Entry) (s : State) :
    List Dirent := (qsort compareEntries s.stored).map Entry.dirent

theorem eq_stored {s : State} (hread : L.map Entry.dirent = s.entries)
    (hids : L.map Entry.id = List.range' s.allocated L.length) : L = s.stored := by
  have hlen : L.length = s.entries.length := by rw [← hread, List.length_map]
  apply List.ext_getElem (by rw [State.stored, List.length_mapIdx, hlen])
  intro i hi _
  have hdirent : L[i].dirent = s.entries[i] := by
    rw [← List.getElem_map Entry.dirent (h := by rwa [List.length_map])]
    simp only [hread]
  have hid : L[i].id = s.allocated + i := by
    rw [← List.getElem_map Entry.id (h := by rwa [List.length_map])]
    simp only [hids, List.getElem_range', Nat.one_mul]
  simp only [State.stored, List.getElem_mapIdx, ← hdirent, ← hid]

theorem map_dirent_stored (s : State) : s.stored.map Entry.dirent = s.entries := by
  have hlen : (s.stored.map Entry.dirent).length = s.entries.length := by
    rw [State.stored, List.length_map, List.length_mapIdx]
  apply List.ext_getElem hlen
  intro i _ _
  simp only [State.stored, List.getElem_map, List.getElem_mapIdx]

/-- `process_directory` prints the listing of the entries as they were sorted. -/
theorem processDirectory_prints (hqsort : SortsEntries qsort) (flags : Flags) (target : CString)
    (s : State) :
    Act.Meets exec Undisturbed (fun _ => True) (.ready flags) s (processDirectory qsort target)
      (fun _ _ s' =>
        Printed (directoryOutput s.view flags target (sortedEntries qsort s)) none s s')
      (fun x s' =>
        Printed (directoryOutput s.view flags target (sortedEntries qsort s)) (some x) s s') := by
  apply Act.Meets.call_bind True.intro
  intro o ho
  obtain rfl : o = .ok := ho
  have hopen : exec .ok s (.opendir target) = (s, s.view.opendir target) := rfl
  rw [hopen]
  unfold directoryOutput
  cases s.view.opendir target with
  | false =>
    have herror : Prints (fun app => app = .ready flags) (fun _ => True) s.view (reportError 2) _ :=
      reportError_prints (L := []) (fun app h => .inl ⟨by rw [h]; rfl, rfl⟩) 2
    refine (herror _ s rfl rfl).mono ?_ ?_
    · intro _ _ _ h
      cases h.2.2.1
    · intro x s' h
      exact ⟨h.1, h.2⟩
  | true =>
    refine Act.Meets.modify_bind (Act.Meets.modify_bind ?_)
    refine Act.Meets.bind ((loadDirectoryEntries_spec Undisturbed _ s).mono (fun _ _ _ h => h)
      fun x s' h => ?_) fun _ app' s' h => ?_
    · obtain ⟨ev, hok, hfail⟩ := h.failed
      rw [show ev.outcome = .ok from hok] at hfail
      cases hfail
    · obtain ⟨L, rest, rfl, hread, hids, rfl⟩ := h
      obtain rfl := eq_stored hread hids
      have hlists : s.stored.length = (qsort compareEntries s.stored).length :=
        (hqsort s.stored).1.length_eq.symm
      have hend : Prints (Showing flags target (qsort compareEntries s.stored))
          (fun app => app.flags = flags) s.view _ _ := displayEntries_end_prints
      refine (hend _ { s with entries := [], allocated := s.allocated + s.stored.length }
        ⟨⟨rest, rfl, hlists⟩, rfl, rfl, ?_⟩ rfl).mono (fun _ app'' s'' h => ?_) fun x s'' h => ?_
      · rfl
      · exact ⟨h.2.2.1, h.2.2.2⟩
      · exact ⟨h.1, h.2⟩

/-- `process_directory` prints the listing of the entries in an order of `entry_sorter`. -/
theorem processDirectory_spec (hqsort : SortsEntries qsort) (flags : Flags) (target : CString)
    (s : State) :
    Act.Meets exec Undisturbed (fun _ => True) (.ready flags) s (processDirectory qsort target)
      (fun _ _ s' => ∃ ds, InOrder s.entries ds ∧
        Printed (directoryOutput s.view flags target ds) none s s')
      (fun x s' => ∃ ds, InOrder s.entries ds ∧
        Printed (directoryOutput s.view flags target ds) (some x) s s') := by
  have horder := InOrder.of_qsort hqsort (map_dirent_stored s)
  exact (processDirectory_prints hqsort flags target s).mono (fun _ _ _ h => ⟨_, horder, h⟩)
    fun _ _ h => ⟨_, horder, h⟩

-- ---------------------------------------------------------------------------
-- The order of the entries
-- ---------------------------------------------------------------------------

/-- The name without regard to case. -/
def foldedName (d : Dirent) : Bytes := d.dName.bytes.map tolower

variable {ds ds' ds₁ ds₂ : List Dirent}

/-- The entries shown stand in one order only, unless two of them have the same name
without regard to case. -/
theorem filter_shown_unique (hperm : ds.Perm ds')
    (hnames : ((ds.filter (shown flags)).map foldedName).Nodup) (h₁ : InOrder ds ds₁)
    (h₂ : InOrder ds' ds₂) : ds₁.filter (shown flags) = ds₂.filter (shown flags) := by
  have hmem : ∀ d, d ∈ ds₁.filter (shown flags) → d ∈ ds.filter (shown flags) := fun d hd =>
    (h₁.perm.filter _).mem_iff.mp hd
  refine sortedBy_unique totalPreorder_entrySorter ?_ (h₁.sorted.filter _) (h₂.sorted.filter _)
    fun d hd e he heq => ?_
  · exact (h₁.perm.trans (hperm.trans h₂.perm.symm)).filter _
  · exact List.inj_on_of_nodup_map hnames (hmem d hd) (hmem e he) (map_tolower_of_entrySorter heq)

theorem directoryOutput_unique {target : CString} (hperm : ds.Perm ds')
    (hnames : ((ds.filter (shown flags)).map foldedName).Nodup) (h₁ : InOrder ds ds₁)
    (h₂ : InOrder ds' ds₂) :
    directoryOutput view flags target ds₁ = directoryOutput view flags target ds₂ := by
  unfold directoryOutput
  rw [← listing_filter ds₁, ← listing_filter ds₂, filter_shown_unique hperm hnames h₁ h₂]

/-- **The order of the directory.** Where no two of the entries shown have the same name
without regard to case, `process_directory` prints the same lines, and ends the same way,
in whatever order `readdir` returns the entries and however `qsort` sorts. -/
theorem processDirectory_order {qsort₁ qsort₂ : (Entry → Entry → Int) → List Entry → List Entry}
    (h₁ : SortsEntries qsort₁) (h₂ : SortsEntries qsort₂) (flags : Flags) (target : CString)
    (s₁ s₂ : State) (hview : s₁.view = s₂.view) (hperm : s₁.entries.Perm s₂.entries)
    (hnames : ((s₁.entries.filter (shown flags)).map foldedName).Nodup) :
    ∃ o : Output,
      Act.Meets exec Undisturbed (fun _ => True) (.ready flags) s₁ (processDirectory qsort₁ target)
        (fun _ _ s' => Printed o none s₁ s') (fun x s' => Printed o (some x) s₁ s') ∧
      Act.Meets exec Undisturbed (fun _ => True) (.ready flags) s₂ (processDirectory qsort₂ target)
        (fun _ _ s' => Printed o none s₂ s') (fun x s' => Printed o (some x) s₂ s') := by
  have hfixed : ∀ {ds ds'}, s₁.entries.Perm ds → InOrder ds ds' →
      directoryOutput s₁.view flags target ds' =
        directoryOutput s₁.view flags target (insertionSortBy entrySorter s₁.entries) :=
    fun hds hds' => (directoryOutput_unique hds hnames (.insertionSortBy _) hds').symm
  refine ⟨directoryOutput s₁.view flags target (insertionSortBy entrySorter s₁.entries),
    (processDirectory_spec h₁ flags target s₁).mono (fun _ _ s' h => ?_) fun x s' h => ?_,
    (processDirectory_spec h₂ flags target s₂).mono (fun _ _ s' h => ?_) fun x s' h => ?_⟩
  · obtain ⟨ds, hds, hout⟩ := h
    exact hfixed (.refl _) hds ▸ hout
  · obtain ⟨ds, hds, hout⟩ := h
    exact hfixed (.refl _) hds ▸ hout
  · obtain ⟨ds, hds, hout⟩ := h
    rw [← hview] at hout
    exact hfixed hperm hds ▸ hout
  · obtain ⟨ds, hds, hout⟩ := h
    rw [← hview] at hout
    exact hfixed hperm hds ▸ hout

theorem sortsEntries_insertionSortBy : SortsEntries insertionSortBy :=
  sorts_insertionSortBy compareEntries totalPreorder_compareEntries

/-- A directory with the entries `ds`, all of them empty files. -/
def flatDirectory (ds : List Dirent) : State where
  view := ⟨fun _ => true, fun _ => some (Stat.created 0o644), fun _ => none,
    fun _ => none, fun _ => none, fun _ => none⟩
  entries := ds
  allocated := 0
  released := []
  stdout := []
  stderr := []

def upperA : Dirent := ⟨⟨[65], by decide⟩⟩
def lowerA : Dirent := ⟨nameA⟩
def lowerB : Dirent := ⟨nameB⟩

def here : CString := ⟨[46], by decide⟩

/-- Two names that differ in more than case. -/
theorem processDirectory_order_two : ∃ o : Output,
    Act.Meets exec Undisturbed (fun _ => True) (.ready 0) (flatDirectory [upperA, lowerB])
      (processDirectory insertionSortBy here)
      (fun _ _ s' => Printed o none (flatDirectory [upperA, lowerB]) s')
      (fun x s' => Printed o (some x) (flatDirectory [upperA, lowerB]) s') ∧
    Act.Meets exec Undisturbed (fun _ => True) (.ready 0) (flatDirectory [lowerB, upperA])
      (processDirectory insertionSortBy here)
      (fun _ _ s' => Printed o none (flatDirectory [lowerB, upperA]) s')
      (fun x s' => Printed o (some x) (flatDirectory [lowerB, upperA]) s') :=
  processDirectory_order sortsEntries_insertionSortBy sortsEntries_insertionSortBy 0 here
    (flatDirectory [upperA, lowerB]) (flatDirectory [lowerB, upperA]) rfl (.swap _ _ _) (by decide)

instance : DecidablePred Undisturbed := fun ev => inferInstanceAs (Decidable (ev.outcome = .ok))

theorem run_flatDirectory (d e : Dirent) (l : List Line)
    (h : ((processDirectory insertionSortBy here (.ready 0)).run exec Undisturbed (fun _ => .ok) 100
      (flatDirectory [d, e])).map (fun r => r.1.stdout) = some l) :
    ∃ tr s' r, Runs exec (flatDirectory [d, e]) (processDirectory insertionSortBy here (.ready 0))
      tr s' (.ret r) ∧ (∀ ev ∈ tr, Undisturbed ev) ∧ s'.stdout = l :=
  exists_run_of_map h

/-- `A` and `a` are listed in the order in which `readdir` returns them. -/
theorem processDirectory_order_case :
    SortsEntries insertionSortBy ∧
    (flatDirectory [upperA, lowerA]).entries.Perm (flatDirectory [lowerA, upperA]).entries ∧
    ((flatDirectory [upperA, lowerA]).entries.map Dirent.dName).Nodup ∧
    ∃ tr₁ s₁ r₁ tr₂ s₂ r₂,
      Runs exec (flatDirectory [upperA, lowerA]) (processDirectory insertionSortBy here (.ready 0))
        tr₁ s₁ (.ret r₁) ∧ (∀ ev ∈ tr₁, Undisturbed ev) ∧
      Runs exec (flatDirectory [lowerA, upperA]) (processDirectory insertionSortBy here (.ready 0))
        tr₂ s₂ (.ret r₂) ∧ (∀ ev ∈ tr₂, Undisturbed ev) ∧
      s₁.stdout ≠ s₂.stdout := by
  obtain ⟨tr₁, s₁, r₁, hrun₁, htr₁, hout₁⟩ := run_flatDirectory upperA lowerA
    [⟨"%s%dm%-20s%s", nameArgs colorNormal upperA.dName⟩,
      ⟨"%s%dm%-20s%s", nameArgs colorNormal lowerA.dName⟩, charLine 10] (by decide +kernel)
  obtain ⟨tr₂, s₂, r₂, hrun₂, htr₂, hout₂⟩ := run_flatDirectory lowerA upperA
    [⟨"%s%dm%-20s%s", nameArgs colorNormal lowerA.dName⟩,
      ⟨"%s%dm%-20s%s", nameArgs colorNormal upperA.dName⟩, charLine 10] (by decide +kernel)
  refine ⟨sortsEntries_insertionSortBy, .swap _ _ _, by decide, tr₁, s₁, r₁, tr₂, s₂, r₂, hrun₁,
    htr₁, hrun₂, htr₂, ?_⟩
  rw [hout₁, hout₂]
  decide

end LabsOS.Ls
