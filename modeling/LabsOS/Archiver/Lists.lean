import LabsOS.Archiver.Add
import LabsOS.Archiver.Calls
import LabsOS.Archiver.Halting
import LabsOS.Archiver.KillSafety

/-!
# The archive as a list of items

What an archive is for: a list of named items to which an addition appends and
from which an extraction removes the first item of a name (`Lists`).

* `Lists.add`, `Lists.extract`, `Lists.display` — the three commands on the list, when their
  system calls succeed; the compaction of an extraction may fail.
* `Lists.add_any`, `Lists.extract_any` — what they may come to when system calls fail.
-/

namespace LabsOS.Archiver

-- ---------------------------------------------------------------------------
-- The list
-- ---------------------------------------------------------------------------

/-- Taking out an item: the first of its name, unless it is larger than an
extraction allows. -/
def removeItem (its : List Item) (name : CString) : List Item :=
  match its.find? (Item.named name) with
  | some it => if (it.data.length : Int) ≤ maxAllowedSize then its.eraseP (Item.named name) else its
  | none => its

/-- A file as an item. -/
def fileItem (target : CString) (nd : Inode) : Item := ⟨target, nd.fstat, nd.data⟩

-- ---------------------------------------------------------------------------
-- Calls made before a compaction
-- ---------------------------------------------------------------------------

/-- The way a compaction opens the archive. -/
def compressOpen (arc : CString) : Sys := .openFile arc { read := true } 0

theorem ne_compressOpen {arc : CString} (c : Sys) (hc : c.Plain) : c ≠ compressOpen arc := by
  rintro rfl
  exact hc

-- ---------------------------------------------------------------------------
-- The archive and the list
-- ---------------------------------------------------------------------------

/-- Every system call of an extraction succeeds, up to the one with which the
compaction opens the archive; from there on any call may fail. -/
def CompressMayFail (arc : CString) (tr : List SysEvent) : Prop :=
  ∃ tr₁ tr₂, tr = tr₁ ++ tr₂ ∧ (∀ ev ∈ tr₁, Succeeds ev) ∧ (∀ ev ∈ tr₂, FullReads ev) ∧
    ∀ ev ∈ tr₂.head?, ev.call = compressOpen arc

/-- The file at `target` can be added: a regular file of a size an `off_t` holds,
with a name that fits, and not the archive. -/
structure Addable (fs : Fs) (arc target : CString) (nd : Inode) : Prop where
  inode    : ∃ i, fs.inodeOf target = some i ∧ fs.inodes[i]? = some nd
  regular  : nd.isDir = false
  size     : nd.data.length < 2 ^ 63
  short    : target.bytes.length < pathSize
  other    : ¬ fs.SameFile target arc

/-- The archive at `arc` lists these items. -/
def Lists (fs : Fs) (arc : CString) (its : List Item) : Prop :=
  ∃ b, archiveBytes fs arc = some b ∧ WellFormed b ∧ items b = its

variable {fs : Fs} {arc name target : CString} {its : List Item} {a : Ino} {umask : Nat}
variable {tr : List SysEvent} {s s' : State} {es : List Entry} {nd : Inode}

theorem Lists.of_encode (h : archiveBytes fs arc = some (encode es)) :
    Lists fs arc (liveItems es) :=
  ⟨_, h, wellFormed_encode es, items_encode es⟩

theorem Lists.exists_encode (h : Lists fs arc its) :
    ∃ es, archiveBytes fs arc = some (encode es) ∧ liveItems es = its := by
  obtain ⟨b, hb, hwf, hits⟩ := h
  obtain ⟨es, rfl⟩ := wellFormed_iff.mp hwf
  exact ⟨es, hb, by rw [← hits, items_encode]⟩

/-- The record of a file with this metadata and data. -/
def newEntry (target : CString) (stats : Stat) (d : Bytes) (h : stats.stSize = d.length) :
    Entry where
  header := ArchiveRecord.new target stats
  data := d
  framed := by rw [stSize_new, h]

theorem liveItems_newEntry {stats : Stat} {d : Bytes} (h : stats.stSize = d.length)
    (hlen : target.bytes.length < pathSize) :
    liveItems [newEntry target stats d h] = [⟨target, stats, d⟩] := by
  have hlive : (newEntry target stats d h).Live := ArchiveRecord.markedDeleted_new _
  rw [liveItems_cons_live hlive, liveItems_nil, Entry.item, newEntry,
    ArchiveRecord.path_new _ hlen, ArchiveRecord.fileStats_new]

/-- The record of a regular file. -/
def fileEntry (target : CString) (nd : Inode) (hreg : nd.isDir = false)
    (hsize : nd.data.length < 2 ^ 63) : Entry :=
  newEntry target nd.fstat nd.data (Inode.stSize_fstat hreg hsize)

/-- What an addition comes to in terms of lists, whatever fails: it appends the file
and reports it, or it leaves the beginning of a record and reports nothing. -/
theorem add_regular {E : SysEvent → Prop} (harc : archiveBytes s.fs arc = some (encode es))
    (h : Addable s.fs arc target nd) :
    Spec exec E (fun _ => True) s (addFileToArchive arc target) fun _ s' =>
      (s'.proc.stdout = s.proc.stdout ++ [addedLine target arc] ∧
        archiveBytes s'.fs arc =
          some (encode (es ++ [fileEntry target nd h.regular h.size]))) ∨
      (Unreported (addedLine target arc) s s' ∧ ¬ Faultless E ∧
        ∃ w, readEntry w = none ∧ archiveBytes s'.fs arc = some (encode es ++ w) ∧
          s'.proc.written = s.proc.written + w.length) := by
  obtain ⟨i, hi, hnd⟩ := h.inode
  have hne : s.fs.inodeOf arc ≠ some i := fun harc' =>
    h.other (.inr ⟨hi.trans harc'.symm, by rw [hi]; rfl⟩)
  apply (addFileToArchive_regular harc hi hnd h.regular h.size hne).mono
  intro _ s' hdone
  cases hdone with
  | added nd' d hP hlen hd ha hrep =>
    obtain ⟨rfl, rfl⟩ := hP
    refine .inl ⟨hrep, ha.archive.trans ?_⟩
    rw [encode_append, encode_cons, encode_nil, List.append_nil]
    rfl
  | failed w hw ha hun hC =>
    exact .inr ⟨hun, fun hE => hC hE h.short trivial, w, hw, ha.archive, ha.written⟩

theorem Lists.add (hits : Lists fs arc its) (h : Addable fs arc target nd)
    (hrun : Runs exec (State.boot fs umask) (addFileToArchive arc target) tr s' (.ret ()))
    (htr : ∀ ev ∈ tr, Succeeds ev) : Lists s'.fs arc (its ++ [fileItem target nd]) := by
  obtain ⟨es, hes, rfl⟩ := hits.exists_encode
  have hspec := add_regular (E := Succeeds) (s := State.boot fs umask) hes h
  rcases (hspec tr s' _ hrun htr).2 () rfl with ⟨-, harc⟩ | ⟨-, hfail, -⟩
  · have := Lists.of_encode harc
    rwa [liveItems_append, fileEntry, liveItems_newEntry _ h.short] at this
  · exact absurd (fun _ => And.left) hfail

/-- The part of a run before the call that opens the archive for a compaction. -/
theorem CompressMayFail.before (tr₁ : List SysEvent) {tr₂ : List SysEvent}
    (h : CompressMayFail arc (tr₁ ++ tr₂))
    (hcalls : ∀ ev ∈ tr₁, ev.call ≠ compressOpen arc) :
    (∀ ev ∈ tr₁, Succeeds ev) ∧ ∀ ev ∈ tr₂, FullReads ev := by
  obtain ⟨t₁, t₂, heq, hsucc, hfull, hhead⟩ := h
  rcases List.append_eq_append_iff.mp heq with ⟨l, rfl, rfl⟩ | ⟨l, rfl, rfl⟩
  · refine ⟨fun ev hev => hsucc ev (List.mem_append_left _ hev), fun ev hev => ?_⟩
    rcases List.mem_append.mp hev with hev | hev
    · exact (hsucc ev (List.mem_append_right _ hev)).fullReads
    · exact hfull ev hev
  · cases l with
    | nil => exact ⟨by simpa using hsucc, by simpa using hfull⟩
    | cons ev l => exact absurd (hhead ev rfl) (hcalls ev (by simp))

section Remove

variable {pre post : List Entry} {m : Entry} {it : Item}

theorem size_item (e : Entry) : (e.item.data.length : Int) = e.header.stSize := e.framed.symm

/-- The item that is found, is taken out. -/
theorem removeItem_of_first (h : FirstMatch name es pre m post)
    (hsize : m.header.stSize ≤ maxAllowedSize) :
    removeItem (liveItems es) name = (liveItems es).eraseP (Item.named name) := by
  rw [← size_item] at hsize
  simp only [removeItem, h.find?_liveItems, if_pos hsize]

/-- What a search that extracts nothing has found: nothing, or an item too large. -/
def NothingToExtract (name : CString) (es : List Entry) : Prop :=
  (∀ e ∈ es, ¬ e.Matches name) ∨
    ∃ pre m post, FirstMatch name es pre m post ∧ m.header.stSize > maxAllowedSize

theorem not_le_of_left (h : NothingToExtract name es)
    (hit : (liveItems es).find? (Item.named name) = some it) :
    ¬ (it.data.length : Int) ≤ maxAllowedSize := by
  rcases h with hnone | ⟨pre, m, post, hfm, hbig⟩
  · rw [find?_liveItems_none hnone] at hit
    cases hit
  · rw [hfm.find?_liveItems] at hit
    obtain rfl := Option.some.inj hit
    rw [size_item]
    exact Int.not_le.mpr hbig

theorem removeItem_of_left (h : NothingToExtract name es) :
    removeItem (liveItems es) name = liveItems es := by
  unfold removeItem
  split
  · next it hit => rw [if_neg (not_le_of_left h hit)]
  · rfl

end Remove

/-- The archive that an extraction opens is not the one of its compaction. -/
theorem CompressMayFail.opened {o : Outcome} {r : Option Fd}
    (h : CompressMayFail arc (⟨.openFile arc { read := true, write := true } 0, o, r⟩ :: tr)) :
    o ≠ .fail ∧ r.isSome := by
  have hcalls : ∀ ev ∈ [(⟨.openFile arc { read := true, write := true } 0, o, r⟩ : SysEvent)],
      ev.call ≠ compressOpen arc := by
    simp [compressOpen]
  obtain ⟨hok, hsome⟩ := (h.before _ hcalls).1 _ (List.mem_singleton_self _)
  refine ⟨?_, hsome⟩
  rintro rfl
  cases hok

/-- The run of an extraction from an archive: its loop, where every call succeeds, and what
follows. -/
theorem exists_loopLeft (ha : s.fs.inodeOf arc = some a) (hB : s.fs.data a = some (encode es))
    (hname : s.fs.inodeOf name ≠ some a)
    (hrun : Runs exec s (extractAndRemoveFile arc name) tr s' (.ret ()))
    (htr : CompressMayFail arc tr) :
    ∃ t s₁ exit, LoopLeft Succeeds s.proc.fds.length
        (s.addFile ⟨a, 0, { read := true, write := true }⟩) arc name a es exit s₁ ∧
      Runs exec s₁ (extractAfterLoop s.proc.fds.length arc name exit) t s' (.ret ()) ∧
      ∀ ev ∈ t, FullReads ev := by
  obtain ⟨o, tr', rfl, hrest⟩ := runs_call hrun
  have hsys : exec o s (.openFile arc { read := true, write := true } 0) =
      (s.addFile ⟨a, 0, { read := true, write := true }⟩, some s.proc.fds.length) :=
    State.sysOpen_regular htr.opened.1 ha hB
  rw [hsys] at hrest
  obtain ⟨t₁, t₂, s₁, exit, rfl, hloop, hend⟩ :=
    runs_bind_ret (p := Prog.while_ (extractRound s.proc.fds.length name) ()) hrest
  have hcalls := hloop.calls (P := (· ≠ compressOpen arc))
    ⟨fun st => extractRound_calls ne_compressOpen _ st (by simp [compressOpen]) nofun,
      fun _ => trivial⟩
  obtain ⟨hsucc, hfull⟩ := htr.before (_ :: t₁)
    (List.forall_mem_cons.mpr ⟨by simp [compressOpen], hcalls⟩)
  have harc : Holds (s.addFile ⟨a, 0, { read := true, write := true }⟩) arc a (encode es) := ⟨ha, hB⟩
  have hspec := extractLoop_spec (E := Succeeds) (I := fun _ => True) State.file_addFile_self harc
    hname (fun _ _ => trivial) fun _ _ _ _ _ _ _ _ => trivial
  exact ⟨t₂, s₁, exit, (hspec t₁ s₁ _ hloop (List.forall_mem_cons.mp hsucc).2).2 exit rfl, hend,
    hfull⟩

/-- Without an archive an extraction does nothing. -/
theorem extract_absent {E : SysEvent → Prop} {slot : Slot} (ht : s.fs.target arc = some slot)
    (hdir : s.fs.dir slot = .absent) :
    Spec exec E (fun _ => True) s (extractAndRemoveFile arc name) fun _ s' =>
      s'.fs = s.fs := by
  refine Spec.open_none trivial ?_ fun o _ => Spec.fprintfErr trivial (Spec.ret trivial rfl)
  simp [State.openPath, ht, hdir]

theorem Settled.lists {d : Bytes} (h : Settled s arc name es d) :
    Lists s.fs arc (liveItems es) := by
  rcases h.archive with h | h
  · exact .of_encode (archiveBytes_of_content h)
  · have := Lists.of_encode (archiveBytes_of_content h)
    rwa [liveItems_filter] at this

/-- An extraction whose compaction may fail takes the item out of the list, and
writes its data to its path. -/
theorem Lists.extract (hits : Lists fs arc its) (hname : ¬ fs.SameFile name arc)
    (hrun : Runs exec (State.boot fs umask) (extractAndRemoveFile arc name) tr s' (.ret ()))
    (htr : CompressMayFail arc tr) :
    Lists s'.fs arc (removeItem its name) ∧
      ∀ it, its.find? (Item.named name) = some it → (it.data.length : Int) ≤ maxAllowedSize →
        s'.fs.content name = some it.data := by
  obtain ⟨es, hes, rfl⟩ := hits.exists_encode
  rcases archiveBytes_eq_some hes with ⟨a, ha, hB⟩ | ⟨-, slot, ht, hdir⟩
  · -- the archive is there: the loop and what follows it
    obtain ⟨t, s₁, exit, hleft, hend, hfull⟩ :=
      exists_loopLeft ha hB (inodeOf_ne_of_not_sameFile hname ha) hrun htr
    cases exit with
    | broke fileFound =>
      obtain ⟨harc, -, hall⟩ := hleft
      have hafter : Spec exec FullReads (fun _ => True) s₁
          (extractAfterLoop (State.boot fs umask).proc.fds.length arc name (.broke fileFound)) _ :=
        extractAfterLoop_broke_spec trivial fun _ _ => trivial
      obtain ⟨hfs, -⟩ := (hafter t s' _ hend hfull).2 () rfl
      refine ⟨?_, ?_⟩
      · rw [removeItem_of_left (hall fun _ => id)]
        exact .of_encode (archiveBytes_of_content (harc.congr hfs).content)
      · intro it hit hsize
        exact absurd hsize (not_le_of_left (hall fun _ => id) hit)
    | extracted =>
      obtain ⟨pre, m, post, es', hfm, hsize, hdone, ⟨harc, ⟨j, hj, hout⟩, -⟩⟩ := hleft
      obtain rfl := hdone.whole fun _ => id
      have hfinish : Spec exec FullReads (fun _ => True) s₁
          (extractFinish (State.boot fs umask).proc.fds.length arc name) _ :=
        extractFinish_spec harc hj hout (fun _ => id) fun _ _ => trivial
      obtain ⟨hset, -⟩ := (hfinish t s' _ hend hfull).2 () rfl
      refine ⟨?_, ?_⟩
      · rw [removeItem_of_first hfm hsize, ← hfm.liveItems_erase, ← liveItems_marked]
        exact hset.lists
      · intro it hit _
        rw [hfm.find?_liveItems] at hit
        rw [hset.output, ← Option.some.inj hit]
        rfl
  · -- without an archive the first call fails
    obtain ⟨o, tr', rfl, -⟩ := runs_call hrun
    have hnone : ((State.boot fs umask).sysOpen o arc { read := true, write := true } 0).2 =
        none := by
      have ht' : (State.boot fs umask).fs.target arc = some slot := ht
      have hdir' : (State.boot fs umask).fs.dir slot = .absent := hdir
      simp only [State.sysOpen, State.openPath, ht', hdir']
      split <;> rfl
    have hsome : ((State.boot fs umask).sysOpen o arc { read := true, write := true } 0).2.isSome :=
      htr.opened.2
    rw [hnone] at hsome
    cases hsome

/-- A listing whose system calls succeed prints the list. -/
theorem Lists.display (hits : Lists fs arc its)
    (hrun : Runs exec (State.boot fs umask) (displayArchiveContents arc) tr s' (.ret ()))
    (htr : ∀ ev ∈ tr, Succeeds ev) : s'.proc.stdout = listing fs arc its := by
  obtain ⟨es, hes, rfl⟩ := hits.exists_encode
  rcases archiveBytes_eq_some hes with ⟨a, ha, hB⟩ | ⟨-, slot, ht, hdir⟩
  · have hspec := displayArchiveContents_spec (E := Succeeds) (s := State.boot fs umask)
      (fun _ => id) ha hB
    exact (hspec tr s' _ hrun htr).2 () rfl
  · -- without an archive the first call fails
    have hspec : Spec exec Succeeds (fun _ => True) (State.boot fs umask)
        (displayArchiveContents arc) fun _ s' => s'.proc.stdout = listing fs arc (liveItems es) := by
      refine Spec.open_none trivial ?_ fun o hev => nomatch hev.2
      have ht' : (State.boot fs umask).fs.target arc = some slot := ht
      have hdir' : (State.boot fs umask).fs.dir slot = .absent := hdir
      simp [State.openPath, ht', hdir']
    exact (hspec tr s' _ hrun htr).2 () rfl

-- ---------------------------------------------------------------------------
-- When system calls fail
-- ---------------------------------------------------------------------------

/-- An addition that reports success has appended an item of that name; one that
stored nothing has changed nothing. -/
theorem Lists.add_any (hits : Lists fs arc its)
    (hrun : Runs exec (State.boot fs umask) (addFileToArchive arc target) tr s' (.ret ()))
    (hsize : ∀ ev ∈ tr, NonnegSize ev) :
    (addedLine target arc ∈ s'.proc.stdout ∧
      ∃ stats d, Lists s'.fs arc (its ++ [⟨target, stats, d⟩])) ∨
    (addedLine target arc ∉ s'.proc.stdout ∧ (StoresNothing tr → Lists s'.fs arc its)) := by
  obtain ⟨es, hes, rfl⟩ := hits.exists_encode
  have hspec := addFileToArchive_spec (E := NonnegSize) (s := State.boot fs umask) target hes
  have hdone := (hspec tr s' _ hrun hsize).2 () rfl
  cases hdone with
  | added nd d hnonneg hlen hd ha hrep =>
    obtain ⟨fd, o, hnonneg⟩ := hnonneg
    have hst : nd.fstat.stSize = d.length := by
      have : 0 ≤ nd.fstat.stSize := hnonneg
      omega
    refine .inl ⟨by rw [hrep]; simp, nd.fstat, d, ?_⟩
    have hlists : Lists s'.fs arc (liveItems (es ++ [newEntry target nd.fstat d hst])) := by
      refine .of_encode (ha.archive.trans ?_)
      rw [encode_append, encode_cons, encode_nil, List.append_nil]
      rfl
    rwa [liveItems_append, liveItems_newEntry hst hlen] at hlists
  | failed w hw ha hun hC =>
    obtain ⟨ls, hls, hnot⟩ := hun
    have hunrep : addedLine target arc ∉ s'.proc.stdout := by
      rw [hls]
      exact hnot
    refine .inr ⟨hunrep, fun hnothing => ?_⟩
    have hwritten := (storesNothing_iff hrun).mp hnothing
    have hnil : w = [] := by
      have hlen := ha.written
      rw [hwritten, Nat.left_eq_add] at hlen
      exact List.eq_nil_iff_length_eq_zero.mpr hlen
    refine .of_encode ?_
    rw [ha.archive, hnil, List.append_nil]

/-- An extraction whose calls may fail leaves the list as it is or without the item. -/
theorem Lists.extract_any (hits : Lists fs arc its) (hname : ¬ fs.SameFile name arc)
    (hrun : Runs exec (State.boot fs umask) (extractAndRemoveFile arc name) tr s' (.ret ()))
    (htr : ∀ ev ∈ tr, FullReads ev) :
    Lists s'.fs arc its ∨ Lists s'.fs arc (its.eraseP (Item.named name)) := by
  obtain ⟨es, hes, rfl⟩ := hits.exists_encode
  rcases archiveBytes_eq_some hes with ⟨a, ha, hB⟩ | ⟨-, slot, ht, hdir⟩
  · have hspec := extract_killSafe_spec (s := State.boot fs umask) ⟨ha, hB⟩ hname
    obtain ⟨b, hb, hwf, hlist⟩ := (hspec tr s' _ hrun htr).1
    refine hlist.imp (fun h => ⟨b, archiveBytes_of_content hb, hwf, h⟩) ?_
    rintro ⟨it, -, h, -⟩
    exact ⟨b, archiveBytes_of_content hb, hwf, h⟩
  · have hfs := ((extract_absent (E := FullReads) (s := State.boot fs umask) ht hdir)
      tr s' _ hrun htr).2 () rfl
    exact .inl (.of_encode (by rw [hfs]; exact hes))

-- ---------------------------------------------------------------------------
-- What a search finds
-- ---------------------------------------------------------------------------

theorem extractRecord_ne_broke {E : SysEvent → Prop} (fd : Fd) (recordStart : Nat)
    (record : ArchiveRecord) :
    Spec exec E (fun _ => True) s (extractRecord fd name recordStart record)
      fun exit _ => exit ≠ .broke false := by
  rw [extractRecord]
  split
  · exact Spec.call trivial fun _ _ => Spec.ret_bind (Spec.bind Spec.trivial fun _ _ _ =>
      Spec.ret trivial (by rintro ⟨⟩))
  · apply Spec.call trivial
    intro o _
    simp only [Prog.ret_bind]
    split
    · exact Spec.call trivial fun _ _ => Spec.ret_bind (Spec.bind Spec.trivial fun _ _ _ =>
        Spec.ret trivial (by rintro ⟨⟩))
    · apply Spec.bind Spec.trivial
      intro ok s₁ _
      cases ok
      · exact Spec.call trivial fun _ _ => Spec.call trivial fun _ _ =>
          Spec.ret trivial (by rintro ⟨⟩)
      · exact Spec.call trivial fun _ _ => Spec.ret_bind (Spec.bind Spec.trivial fun _ _ _ =>
          Spec.bind Spec.trivial fun _ _ _ => Spec.ret trivial (by rintro ⟨⟩))

theorem ne_notFoundPrint (c : Sys) (hc : c.Plain) :
    c ≠ .printf (notFoundLine name).fmt (notFoundLine name).args := by
  rintro rfl
  exact hc

/-- A record that is found is not reported as missing: not while it is extracted, -/
theorem extractRecord_found_spec {E : SysEvent → Prop} (fd : Fd) (recordStart : Nat)
    (record : ArchiveRecord) :
    Spec exec E (fun _ => True) s (extractRecord fd name recordStart record)
      fun exit s' => exit ≠ .broke false ∧ Unreported (notFoundLine name) s s' :=
  (Spec.and (extractRecord_ne_broke _ _ _) (Spec.unreported (extractRecord_calls ne_notFoundPrint
    _ _ _ (by rintro _ _ ⟨⟩) (by simp [notFoundLine])))).weaken (fun _ => id) fun _ _ => trivial

/-- and not afterwards. -/
theorem extractAfterLoop_found_spec {E : SysEvent → Prop} {exit : ExtractExit} (fd : Fd)
    (arc : CString) (hne : exit ≠ .broke false) :
    Spec exec E (fun _ => True) s (extractAfterLoop fd arc name exit)
      fun _ s' => Unreported (notFoundLine name) s s' := by
  rcases exit with (_ | _) | _
  · exact absurd rfl hne
  · exact Spec.close trivial fun _ => Spec.ret trivial (.of_eq rfl)
  · exact Spec.unreported (extractFinish_calls ne_notFoundPrint _ arc (by rintro ⟨⟩)
      (by simp [notFoundLine, extractedLine]))

/-- A search that is not hindered finds a name the archive has. -/
theorem extract_found {E : SysEvent → Prop} (hE : AllSucceed E) (harc : Holds s arc a (encode es))
    (hm : ∃ e ∈ es, e.Matches name) :
    Spec exec E (fun _ => True) s (extractAndRemoveFile arc name) fun _ s' =>
      Unreported (notFoundLine name) s s' := by
  obtain ⟨e, he, hmatch⟩ := hm
  refine Spec.open_regular trivial harc.inodeOf harc.data (fun hev => nomatch (hE _ hev).2) ?_
  change Spec exec E _ (s.addFile ⟨a, 0, { read := true, write := true }⟩) _ _
  refine Spec.ret_bind (Spec.bind (extractScan_spec
    (Q := fun exit s' => exit ≠ .broke false ∧ Unreported (notFoundLine name) s s')
    State.file_addFile_self rfl rfl harc.data (fun _ _ _ => trivial)
    (fun _ _ _ hnone => absurd hmatch (hnone hE e he)) fun pre m post _ =>
      extractRecord_found_spec _ _ _) ?_)
  rintro exit s₁ ⟨hne, hun⟩
  exact (extractAfterLoop_found_spec _ arc hne).mono fun _ s₂ h => hun.trans h

theorem Lists.exists_matches (hits : Lists fs arc its) {it : Item} (hit : it ∈ its)
    (hname : it.path = name) :
    ∃ a es, fs.inodeOf arc = some a ∧ fs.data a = some (encode es) ∧ ∃ e ∈ es, e.Matches name := by
  obtain ⟨es, hes, rfl⟩ := hits.exists_encode
  obtain ⟨e, he, rfl⟩ := List.mem_map.mp hit
  obtain ⟨hmem, hlive⟩ := List.mem_filter.mp he
  have hm : ∃ e ∈ es, e.Matches name := ⟨e, hmem, hname, by simpa using hlive⟩
  rcases archiveBytes_eq_some hes with ⟨a, ha, hB⟩ | ⟨hnil, -⟩
  · exact ⟨a, es, ha, hB, hm⟩
  · have hes' : es = [] := encode_injective hnil
    rw [hes'] at hmem
    cases hmem

/-- An item of the list is found under its name. -/
theorem Lists.found (hits : Lists fs arc its) {it : Item} (hit : it ∈ its) (hname : it.path = name)
    (hrun : Runs exec (State.boot fs umask) (extractAndRemoveFile arc name) tr s' (.ret ()))
    (htr : ∀ ev ∈ tr, Succeeds ev) : notFoundLine name ∉ s'.proc.stdout := by
  obtain ⟨a, es, ha, hB, hm⟩ := hits.exists_matches hit hname
  obtain ⟨ls, hls, hnot⟩ := ((extract_found (E := Succeeds) (s := State.boot fs umask)
    (fun _ => id) ⟨ha, hB⟩ hm) tr s' _ hrun htr).2 () rfl
  rw [hls]
  exact hnot

-- ---------------------------------------------------------------------------
-- Scans of a well-formed archive end
-- ---------------------------------------------------------------------------

theorem Lists.display_halts (hits : Lists fs arc its) :
    Halts exec AnyOutcome (State.boot fs umask) (displayArchiveContents arc) := by
  obtain ⟨es, hes, rfl⟩ := hits.exists_encode
  rcases archiveBytes_eq_some hes with ⟨a, ha, hB⟩ | ⟨-, slot, ht, hdir⟩
  · exact (display_halts_iff (s := State.boot fs umask) ha hB).mpr (ends_encode [] es).not_returns
  · refine .of_issue (Spec.open_none trivial ?_ fun _ _ =>
      Spec.ret trivial (Total.call (fun _ => .ret _) _))
    have ht' : (State.boot fs umask).fs.target arc = some slot := ht
    have hdir' : (State.boot fs umask).fs.dir slot = .absent := hdir
    simp [State.openPath, ht', hdir']

theorem Lists.extract_halts (hits : Lists fs arc its) (name : CString) :
    Halts exec AnyOutcome (State.boot fs umask) (extractAndRemoveFile arc name) := by
  obtain ⟨es, hes, rfl⟩ := hits.exists_encode
  rcases archiveBytes_eq_some hes with ⟨a, ha, hB⟩ | ⟨-, slot, ht, hdir⟩
  · have hends : Walk.Ends (nextSearched (encode es) name) 0 :=
      (ends_encode [] es).restrict nextHeader_of_nextSearched
    exact (extract_halts_iff (s := State.boot fs umask) ha hB).mpr hends.not_returns
  · refine .of_issue (Spec.open_none trivial ?_ fun _ _ =>
      Spec.ret trivial (Total.call (fun _ => .ret _) _))
    have ht' : (State.boot fs umask).fs.target arc = some slot := ht
    have hdir' : (State.boot fs umask).fs.dir slot = .absent := hdir
    simp [State.openPath, ht', hdir']

-- ---------------------------------------------------------------------------
-- An archive and a file to try things on
-- ---------------------------------------------------------------------------

/-- An empty archive and a file of one byte. -/
def archiveAndFile : Fs := Fs.pair (Inode.file []) (Inode.file [1])

theorem addable_file : Addable archiveAndFile nameA nameB (Inode.file [1]) where
  inode := ⟨1, rfl, rfl⟩
  regular := rfl
  size := by decide
  short := by decide
  other := Fs.not_sameFile_pair _ _

/-- The file is added and can be extracted. -/
theorem exists_file_add : ∃ tr s',
    Runs exec (State.boot archiveAndFile 0o22) (addFileToArchive nameA nameB) tr s' (.ret ()) ∧
      (∀ ev ∈ tr, Succeeds ev) ∧ s'.proc.stdout = [addedLine nameB nameA] ∧
      ¬ s'.fs.SameFile nameB nameA := by
  have hrun : ((addFileToArchive nameA nameB).run exec Succeeds (fun _ => .ok) 40
      (State.boot archiveAndFile 0o22)).map (fun p =>
        (p.1.proc.stdout, decide (p.1.fs.SameFile nameB nameA))) =
      some ([addedLine nameB nameA], false) := by decide +kernel
  obtain ⟨tr, s', _, hruns, htr, hx⟩ := exists_run_of_map hrun
  obtain ⟨hout, hsame⟩ := Prod.mk.inj hx
  exact ⟨tr, s', hruns, htr, hout, of_decide_eq_false hsame⟩

theorem lists_archiveAndFile : Lists archiveAndFile nameA [] :=
  ⟨[], rfl, wellFormed_encode [], items_encode []⟩

end LabsOS.Archiver
