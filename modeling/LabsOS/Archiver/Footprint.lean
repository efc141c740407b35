import LabsOS.Archiver.Calls
import LabsOS.Archiver.Main
import LabsOS.Archiver.Reported
import LabsOS.Kernel.Footprint

/-!
# What the archiver leaves alone

Whatever calls fail, no file but the archive and the one that is extracted changes at any point of
a run, and, where no `unlink` fails, a run that returns has left no name behind but theirs
(`main_confined`).
-/

namespace LabsOS

/-- If the call is an `unlink`, the world does not make it fail. -/
def Removes (ev : SysEvent) : Prop := ∀ path, ev.call = .unlink path → ev.outcome ≠ .fail

/-- Under the assumption `E` no `unlink` fails. -/
def RemovesAll (E : SysEvent → Prop) : Prop := ∀ ev, E ev → Removes ev

theorem Sys.Transfer.through {c : Sys} (h : c.Transfer) : c.Through := by
  cases c <;> trivial

namespace Archiver

open Posix

/-- The entries `d'` are `d`, or the name of the archive is that of a new file. -/
def Replaced (fs : Fs) (arc : CString) (d d' : Slot → DirEntry) : Prop :=
  d' = d ∨ ∃ t, d' = Function.update d (fs.slotOf arc) (.inode t)

/-- The same while the new file has a name of its own. -/
def Replacing (fs : Fs) (arc : CString) (d d' : Slot → DirEntry) : Prop :=
  Replaced fs arc d d' ∨ ∃ slot t, d slot = .absent ∧ d' = Function.update d slot (.inode t)

variable {E : SysEvent → Prop} {I : State → Prop} {fs : Fs} {A : Set Ino}
variable {d : Slot → DirEntry} {s : State} {arc : CString} {input temp : Fd} {t : Ino}

/-- Calls on open files keep what is confined. -/
theorem spec_through {α : Type} {p : Posix α} (h : Confined fs A d s) (hp : p.Calls Sys.Through) :
    Spec exec E (Confined fs A d) s p fun _ => Confined fs A d :=
  Spec.of_calls (fun _ _ _ hc hs => hs.exec_through hc) hp h

-- ---------------------------------------------------------------------------
-- compress_archive_file
-- ---------------------------------------------------------------------------

/-- What is true when `compress_archive_file` returns. -/
def CompressEnds (E : SysEvent → Prop) (fs : Fs) (A : Set Ino) (arc : CString)
    (d : Slot → DirEntry) (s : State) : Prop :=
  ∃ d', Confined fs A d' s ∧ Replacing fs arc d d' ∧ (RemovesAll E → Replaced fs arc d d')

theorem replacing_temp (arc : CString) {tmp : CString} (habsent : d (fs.slotOf tmp) = .absent)
    (t : Ino) :
    Replacing fs arc d (Function.update d (fs.slotOf tmp) (.inode t)) := .inr ⟨_, t, habsent, rfl⟩

section Compress

variable (hI : ∀ d' s', Confined fs A d' s' → Replacing fs arc d d' → I s')
include hI

theorem compressEnds_ret {d' : Slot → DirEntry} {ok : Bool} (h : Confined fs A d' s)
    (hd : Replaced fs arc d d') :
    Spec exec E I s (.ret ok) fun _ => CompressEnds E fs A arc d :=
  Spec.ret (hI _ _ h (.inl hd)) ⟨d', h, .inl hd, fun _ => hd⟩

section Temp

variable {tmp : CString} (habsent : d (fs.slotOf tmp) = .absent) (ht : fs.inodes.length ≤ t)
include habsent ht

theorem unlinkTemp_confined (h : Confined fs A (Function.update d (fs.slotOf tmp) (.inode t)) s) :
    Spec exec E I s (do let _ ← unlink tmp; pure false : Posix Bool)
      fun _ => CompressEnds E fs A arc d := by
  have hkeep := replacing_temp arc habsent t
  apply Spec.call (hI _ _ h hkeep)
  intro o ho
  obtain ⟨rfl, hs⟩ | hgone := h.exec_unlink (o := o) (Function.update_self ..) ht
  · rw [hs]
    exact Spec.ret (hI _ _ h hkeep) ⟨_, h, hkeep, fun hE => absurd rfl (hE _ ho _ rfl)⟩
  · rw [Function.update_idem, ← habsent, Function.update_eq_self] at hgone
    exact compressEnds_ret hI hgone (.inl rfl)

theorem compressCleanup_confined
    (h : Confined fs A (Function.update d (fs.slotOf tmp) (.inode t)) s) :
    Spec exec E I s (compressCleanup input temp tmp) fun _ => CompressEnds E fs A arc d := by
  have hkeep := replacing_temp arc habsent t
  refine Spec.close (hI _ _ h hkeep) fun _ => ?_
  have h₁ : Confined fs A _ (s.setFile input none) := h.setFile nofun
  refine Spec.close (hI _ _ h₁ hkeep) fun _ => ?_
  exact unlinkTemp_confined hI habsent ht (h₁.setFile nofun)

/-- The end of `compress_archive_file`, on every path of which the temporary file is renamed or
removed. -/
theorem compressFinish_confined (harc : d (fs.slotOf arc) ≠ .absent)
    (hother : d (fs.slotOf arc) ≠ .inode t) (exit : CompressExit)
    (h : Confined fs A (Function.update d (fs.slotOf tmp) (.inode t)) s) :
    Spec exec E I s (compressFinish arc input temp tmp exit)
      fun _ => CompressEnds E fs A arc d := by
  have hkeep := replacing_temp arc habsent t
  have hne : fs.slotOf tmp ≠ fs.slotOf arc := by
    intro heq
    rw [heq] at habsent
    exact harc habsent
  rcases exit with _ | failed
  · exact compressCleanup_confined hI habsent ht h
  · cases failed with
    | true =>
      exact Spec.fprintfErr (hI _ _ h hkeep)
        (compressCleanup_confined hI habsent ht (h.warned _))
    | false =>
      refine Spec.fsync (hI _ _ h hkeep) fun _ => Spec.close (hI _ _ h hkeep) fun _ => ?_
      have h₁ : Confined fs A _ (s.setFile temp none) := h.setFile nofun
      refine Spec.close (hI _ _ h₁ hkeep) fun _ => ?_
      have h₂ : Confined fs A _ ((s.setFile temp none).setFile input none) := h₁.setFile nofun
      apply Spec.call (hI _ _ h₂ hkeep)
      intro o _
      have hnew : Function.update d (fs.slotOf tmp) (.inode t) (fs.slotOf arc) ≠ .inode t := by
        rwa [Function.update_of_ne hne.symm]
      obtain hfail | ⟨hok, hdone⟩ := h₂.exec_rename (o := o) (Function.update_self ..) hne hnew
      · rw [hfail]
        refine Spec.fprintfErr (hI _ _ h₂ hkeep) ?_
        exact unlinkTemp_confined hI habsent ht (h₂.warned _)
      · rw [hok]
        have hdir : Function.update (Function.update (Function.update d (fs.slotOf tmp) (.inode t))
            (fs.slotOf arc) (.inode t)) (fs.slotOf tmp) .absent =
            Function.update d (fs.slotOf arc) (.inode t) := by
          rw [Function.update_comm hne, Function.update_idem, ← habsent]
          exact Function.update_eq_iff.mpr ⟨(Function.update_of_ne hne _ _).symm, fun _ _ => rfl⟩
        rw [hdir] at hdone
        exact compressEnds_ret hI hdone (.inr ⟨t, rfl⟩)

/-- The loop and what follows it. -/
theorem compressReplace_confined (harc : d (fs.slotOf arc) ≠ .absent)
    (hother : d (fs.slotOf arc) ≠ .inode t)
    (h : Confined fs A (Function.update d (fs.slotOf tmp) (.inode t)) s) :
    Spec exec E I s ((Prog.while_ (compressRound input temp) ()).bind
      (compressFinish arc input temp tmp)) fun _ => CompressEnds E fs A arc d := by
  have hkeep := replacing_temp arc habsent t
  have hcalls : (Prog.while_ (compressRound input temp) ()).Calls Sys.Through :=
    ⟨fun st => compressRound_calls (fun _ hc => hc.through) input temp st, fun _ => trivial⟩
  refine ((spec_through h hcalls).weaken (fun _ => id) fun s' hs' => hI _ s' hs' hkeep).bind ?_
  exact fun exit s' hs' => compressFinish_confined hI habsent ht harc hother exit hs'

end Temp

theorem compressArchiveFile_confined (hA : ∀ i, fs.inodes.length ≤ i → i ∈ A)
    (h : Confined fs A d s) :
    Spec exec E I s (compressArchiveFile arc) fun _ => CompressEnds E fs A arc d := by
  have hsame : Replacing fs arc d d := .inl (.inl rfl)
  refine Spec.open_read (hI _ _ h hsame) (fun _ _ _ => ?_) fun i nd hi hnd => ?_
  · exact Spec.fprintfErr (hI _ _ h hsame)
      (compressEnds_ret hI (h.warned _) (.inl rfl))
  have h₁ : Confined fs A d (s.addFile ⟨i, 0, { read := true }⟩) := h.addFile nofun
  set s₁ := s.addFile ⟨i, 0, { read := true }⟩
  -- the archive was opened, so its name is not that of the file to come
  have harc : d (fs.slotOf arc) ≠ .absent ∧ d (fs.slotOf arc) ≠ .inode s.fs.inodes.length := by
    rw [← h.dir, ← h.slotOf]
    obtain hdir | ⟨u, hdir⟩ := Fs.dir_slotOf hi
    · rw [hdir]
      refine ⟨nofun, fun heq => ?_⟩
      obtain rfl := DirEntry.inode.inj heq
      rw [List.getElem?_eq_none le_rfl] at hnd
      cases hnd
    · rw [hdir]
      exact ⟨nofun, nofun⟩
  apply Spec.call (hI _ _ h₁ hsame)
  intro o _
  obtain hfail | ⟨tmp, habsent, hresp, htemp, h₂⟩ :=
    h₁.exec_mkstemp (o := o) hA "archiver_temp_XXXXXX"
  · rw [hfail]
    refine Spec.fprintfErr (hI _ _ h₁ hsame) ?_
    refine Spec.close (hI _ _ (h₁.warned _) hsame) fun _ => ?_
    exact compressEnds_ret hI ((h₁.warned _).setFile nofun) (.inl rfl)
  · rw [hresp]
    have hkeep := replacing_temp arc habsent s.fs.inodes.length
    refine Spec.fstat (hI _ _ h₂ hkeep) ?_ ?_
    · intro _ _ _
      exact compressReplace_confined hI habsent h.length_le harc.1 harc.2 h₂
    · intro _ nd _ _
      apply Spec.call (hI _ _ h₂ hkeep)
      intro o _
      exact compressReplace_confined hI habsent h.length_le harc.1 harc.2
        (h₂.exec_fchmod htemp rfl)

end Compress

-- ---------------------------------------------------------------------------
-- Calls on one path
-- ---------------------------------------------------------------------------

/-- Since the file system was `fs`, what is confined has at most created a file at `path`. -/
def Creating (fs : Fs) (A : Set Ino) (path : CString) (s : State) : Prop :=
  ∃ d, fs.MayCreate path d ∧ Confined fs A d s

/-- A call on open files or on the file at `path`, or one that opens a file for reading. -/
def CallsOn (path : CString) : Sys → Prop
  | .openFile p flags _ => p = path ∨ flags = { read := true }
  | .chmod p _ | .chown p _ _ | .utime p _ _ => p = path
  | .mkstemp _ | .rename .. | .unlink _ | .fchmod .. => False
  | _ => True

theorem CallsOn.of_transfer {path : CString} {c : Sys} (h : c.Transfer) : CallsOn path c := by
  cases c <;> first | exact h.elim | trivial

section Creating

variable {path : CString} (hA : ∀ i, fs.inodes.length ≤ i → i ∈ A)
variable (hpath : ∀ i, fs.inodeOf path = some i → i ∈ A)
include hA hpath

theorem Creating.exec {c : Sys} (o : Outcome) (h : Creating fs A path s) (hc : CallsOn path c) :
    Creating fs A path (exec o s c).1 := by
  obtain ⟨d, hd, hs⟩ := h
  have hmem := hs.inodeOf_mem hd hA hpath
  cases c with
  | openFile p flags mode =>
    obtain rfl | rfl := hc
    · obtain ⟨d', hd', -, hs'⟩ := hs.exec_openOutput (o := o) hd hA hpath flags mode
      exact ⟨d', hd', hs'⟩
    · exact ⟨d, hd, hs.exec_openRead p mode⟩
  | chmod p mode =>
    obtain rfl : p = path := hc
    exact ⟨d, hd, hs.changeStat hmem _⟩
  | chown p uid gid =>
    obtain rfl : p = path := hc
    exact ⟨d, hd, hs.changeStat hmem _⟩
  | utime p atime mtime =>
    obtain rfl : p = path := hc
    exact ⟨d, hd, hs.changeStat hmem _⟩
  | mkstemp | rename | unlink | fchmod => exact hc.elim
  | _ => exact ⟨d, hd, hs.exec_through trivial⟩

theorem spec_creating {α : Type} {p : Posix α} (h : Creating fs A path s)
    (hp : p.Calls (CallsOn path)) :
    Spec exec E (Creating fs A path) s p fun _ => Creating fs A path :=
  Spec.of_calls (fun o _ _ hc hs => hs.exec hA hpath o hc) hp h

end Creating

-- ---------------------------------------------------------------------------
-- The calls of the parts
-- ---------------------------------------------------------------------------

section Parts

variable (path : CString)

theorem restoreTimes_callsOn (stats : Stat) : (do
    let _ ← chown path stats.stUid stats.stGid
    match ← utime path stats.stAtime stats.stMtime with
    | false => perror "Внимание: не удалось восстановить временные метки"
    | true => pure () : Posix Unit).Calls (CallsOn path) := by
  refine ⟨rfl, fun _ => ⟨rfl, fun r => ?_⟩⟩
  cases r with
  | false => exact ⟨trivial, fun _ => trivial⟩
  | true => trivial

theorem applyOriginalAttributes_callsOn (stats : Stat) :
    (applyOriginalAttributes path stats).Calls (CallsOn path) := by
  have htimes := restoreTimes_callsOn path stats
  refine ⟨rfl, fun r => ?_⟩
  cases r with
  | false => exact ⟨trivial, fun _ => htimes⟩
  | true => exact htimes

theorem extractRecord_callsOn (fd : Fd) (recordStart : Nat) {record : ArchiveRecord}
    (hname : record.path = path) :
    (extractRecord fd path recordStart record).Calls (CallsOn path) := by
  have htransfer : ∀ c : Sys, c.Transfer → CallsOn path c := fun _ hc => .of_transfer hc
  have hskip : ∀ msg, ((skipOrReport fd record.stSize msg).bind fun _ =>
      .ret (ExtractExit.broke true)).Calls (CallsOn path) :=
    fun msg => (skipOrReport_calls htransfer fd record.stSize msg).bind fun _ => trivial
  rw [extractRecord]
  split
  · exact ⟨trivial, fun _ => hskip _⟩
  · refine ⟨.inl hname, fun r => ?_⟩
    cases r with
    | none => exact ⟨trivial, fun _ => hskip _⟩
    | some out =>
      apply (duplicateContent_calls htransfer ..).bind
      intro ok
      cases ok with
      | false => exact ⟨trivial, fun _ => ⟨trivial, fun _ => trivial⟩⟩
      | true =>
        refine ⟨trivial, fun _ => ?_⟩
        have hattributes := applyOriginalAttributes_callsOn path record.fileStats
        rw [← hname] at hattributes htransfer ⊢
        exact hattributes.bind fun _ => (writeMark_calls htransfer ..).bind fun _ => trivial

theorem extractOrSkip_callsOn (fd : Fd) (recordStart : Nat) (record : ArchiveRecord) :
    (extractOrSkip fd path recordStart record).Calls (CallsOn path) := by
  rw [extractOrSkip]
  split
  · next hmatch =>
    exact (extractRecord_callsOn path fd recordStart hmatch.1).bind fun _ => trivial
  · refine ⟨trivial, fun r => ?_⟩
    cases r with
    | none => exact ⟨trivial, fun _ => trivial⟩
    | some _ => trivial

theorem extractRound_callsOn (fd : Fd) (st : Unit) :
    (extractRound fd path st).Calls (CallsOn path) := by
  refine ⟨trivial, fun r => ?_⟩
  cases r with
  | none => exact ⟨trivial, fun _ => trivial⟩
  | some recordStart =>
    refine ⟨trivial, fun r => ?_⟩
    simp only [Prog.ret_bind]
    split
    · trivial
    · split
      · exact ⟨trivial, fun _ => trivial⟩
      · exact extractOrSkip_callsOn path ..

end Parts

-- ---------------------------------------------------------------------------
-- The commands
-- ---------------------------------------------------------------------------

theorem Replaced.dir_eq {d' : Slot → DirEntry} {slot : Slot} (h : Replaced fs arc d d')
    (hne : slot ≠ fs.slotOf arc) : d' slot = d slot := by
  obtain rfl | ⟨t, rfl⟩ := h
  · rfl
  · exact Function.update_of_ne hne _ _

theorem Replacing.dir_eq {d' : Slot → DirEntry} {slot : Slot} (h : Replacing fs arc d d')
    (hne : slot ≠ fs.slotOf arc) (hheld : d slot ≠ .absent) : d' slot = d slot := by
  obtain h | ⟨slot', t, habsent, rfl⟩ := h
  · exact h.dir_eq hne
  · have hother : slot ≠ slot' := by
      rintro rfl
      exact hheld habsent
    exact Function.update_of_ne hother _ _

/-- The entries that held something and are not in `D` are as they were. -/
def Spares (fs : Fs) (A : Set Ino) (D : Set Slot) (s : State) : Prop :=
  ∃ d, Confined fs A d s ∧ ∀ slot ∉ D, fs.dir slot ≠ .absent → d slot = fs.dir slot

/-- All entries that are not in `D` are as they were, if no `unlink` fails. -/
def Restores (E : SysEvent → Prop) (fs : Fs) (A : Set Ino) (D : Set Slot) (s : State) : Prop :=
  ∃ d, Confined fs A d s ∧ (RemovesAll E → ∀ slot ∉ D, d slot = fs.dir slot)

section Commands

variable {D : Set Slot} {path name : CString} (hA : ∀ i, fs.inodes.length ≤ i → i ∈ A)

theorem Creating.spares (h : Creating fs A path s)
    (hD : ∀ slot, fs.target path = some slot → slot ∈ D) : Spares fs A D s := by
  obtain ⟨d, hd, hs⟩ := h
  exact ⟨d, hs, fun slot hslot _ => hd.dir_eq_of_notMem hD hslot⟩

theorem Creating.restores (h : Creating fs A path s)
    (hD : ∀ slot, fs.target path = some slot → slot ∈ D) : Restores E fs A D s := by
  obtain ⟨d, hd, hs⟩ := h
  exact ⟨d, hs, fun _ slot hslot => hd.dir_eq_of_notMem hD hslot⟩

theorem spares_ret {α : Type} {a : α} (h : Confined fs A d s)
    (hd : ∀ slot ∉ D, d slot = fs.dir slot) :
    Spec exec E (Spares fs A D) s (.ret a : Posix α) fun _ => Restores E fs A D :=
  Spec.ret ⟨d, h, fun slot hslot _ => hd slot hslot⟩ ⟨d, h, fun _ => hd⟩

include hA in
/-- A command that works on open files and on the file at `path`. -/
theorem callsOn_spares {α : Type} {p : Posix α} (hpath : ∀ i, fs.inodeOf path = some i → i ∈ A)
    (hD : ∀ slot, fs.target path = some slot → slot ∈ D) (h : Confined fs A fs.dir s)
    (hp : p.Calls (CallsOn path)) :
    Spec exec E (Spares fs A D) s p fun _ => Restores E fs A D := by
  refine ((spec_creating hA hpath ⟨_, .same, h⟩ hp).weaken (fun _ => id) ?_).mono ?_
  · exact fun s' hs' => hs'.spares hD
  · exact fun _ s' hs' => hs'.restores hD

theorem addFileToArchive_callsOn (arc target : CString) :
    (addFileToArchive arc target).Calls (CallsOn arc) := by
  have htransfer : ∀ c : Sys, c.Transfer → CallsOn arc c := fun _ hc => .of_transfer hc
  refine ⟨.inl rfl, fun r => ?_⟩
  cases r with
  | none => exact ⟨trivial, fun _ => trivial⟩
  | some archiveFd =>
    refine ⟨.inr rfl, fun r => ?_⟩
    cases r with
    | none => exact ⟨trivial, fun _ => ⟨trivial, fun _ => trivial⟩⟩
    | some sourceFd =>
      have hclose : (closeBoth sourceFd archiveFd).Calls (CallsOn arc) :=
        ⟨trivial, fun _ => ⟨trivial, fun _ => trivial⟩⟩
      simp only [Prog.ret_bind]
      rw [appendFile]
      split
      · exact ⟨trivial, fun _ => hclose⟩
      · refine ⟨trivial, fun r => ?_⟩
        cases r with
        | none => exact ⟨trivial, fun _ => hclose⟩
        | some stats =>
          apply (completeWrite_calls htransfer ..).bind
          intro ok
          cases ok with
          | false => exact ⟨trivial, fun _ => hclose⟩
          | true =>
            apply (duplicateContent_calls htransfer ..).bind
            intro ok
            cases ok <;> exact ⟨trivial, fun _ => hclose⟩

section Extract

variable (harc : fs.slotOf arc ∈ D) (hname : ∀ slot, fs.target name = some slot → slot ∈ D)
include hA harc hname

theorem extractFinish_spares (hd : fs.MayCreate name d) (h : Confined fs A d s) (fd : Fd) :
    Spec exec E (Spares fs A D) s (extractFinish fd arc name) fun _ => Restores E fs A D := by
  have hdir : ∀ slot ∉ D, d slot = fs.dir slot :=
    fun slot hslot => hd.dir_eq_of_notMem hname hslot
  have hother : ∀ slot ∉ D, slot ≠ fs.slotOf arc := by
    rintro slot hslot rfl
    exact hslot harc
  have hI : ∀ d' s', Confined fs A d' s' → Replacing fs arc d d' → Spares fs A D s' := by
    refine fun d' s' hs' hd' => ⟨d', hs', fun slot hslot hheld => ?_⟩
    rw [← hdir slot hslot] at hheld ⊢
    exact hd'.dir_eq (hother slot hslot) hheld
  have hclosed : Confined fs A d (s.setFile fd none) := h.setFile nofun
  refine Spec.close (hI _ _ h (.inl (.inl rfl))) fun _ => ?_
  refine (compressArchiveFile_confined hI hA hclosed).bind ?_
  rintro ok s' ⟨d', hs', hreplacing, hreplaced⟩
  have hend : ∀ s', Confined fs A d' s' → Restores E fs A D s' :=
    fun s' hs' => ⟨d', hs', fun hE slot hslot =>
      ((hreplaced hE).dir_eq (hother slot hslot)).trans (hdir slot hslot)⟩
  have hprint : ∀ s', Confined fs A d' s' → Spec exec E (Spares fs A D) s'
      (printf (extractedLine name).fmt (extractedLine name).args)
      fun _ => Restores E fs A D := fun s' hs' =>
    Spec.printf (hI _ _ hs' hreplacing)
      (Spec.ret (hI _ _ (hs'.printed _) hreplacing) (hend _ (hs'.printed _)))
  cases ok with
  | false => exact Spec.fprintfErr (hI _ _ hs' hreplacing) (hprint _ (hs'.warned _))
  | true => exact hprint _ hs'

theorem extractAfterLoop_spares (hd : fs.MayCreate name d) (h : Confined fs A d s) (fd : Fd)
    (exit : ExtractExit) :
    Spec exec E (Spares fs A D) s (extractAfterLoop fd arc name exit)
      fun _ => Restores E fs A D := by
  have hdir : ∀ slot ∉ D, d slot = fs.dir slot :=
    fun slot hslot => hd.dir_eq_of_notMem hname hslot
  have hI : ∀ s', Confined fs A d s' → Spares fs A D s' :=
    fun s' hs' => Creating.spares ⟨d, hd, hs'⟩ hname
  cases exit with
  | extracted => exact extractFinish_spares hA harc hname hd h fd
  | broke found =>
    cases found with
    | true => exact Spec.close (hI _ h) fun _ => spares_ret (h.setFile nofun) hdir
    | false =>
      refine Spec.printf (hI _ h) (Spec.close (hI _ (h.printed _)) fun _ => ?_)
      exact spares_ret ((h.printed _).setFile nofun) hdir

theorem extractAndRemoveFile_spares (harcA : ∀ i, fs.inodeOf arc = some i → i ∈ A)
    (hnameA : ∀ i, fs.inodeOf name = some i → i ∈ A) (h : Confined fs A fs.dir s) :
    Spec exec E (Spares fs A D) s (extractAndRemoveFile arc name)
      fun _ => Restores E fs A D := by
  have hI : ∀ s', Creating fs A name s' → Spares fs A D s' := fun s' hs' => hs'.spares hname
  apply Spec.call (hI _ ⟨_, .same, h⟩)
  intro o _
  obtain ⟨d, -, hsame, hs⟩ :=
    h.exec_openOutput (o := o) .same hA harcA { read := true, write := true } 0
  obtain rfl := hsame rfl
  cases (exec o s (.openFile arc { read := true, write := true } 0)).2 with
  | none =>
    exact Spec.fprintfErr (hI _ ⟨_, .same, hs⟩) (spares_ret (hs.warned _) fun _ _ => rfl)
  | some fd =>
    have hcalls : (Prog.while_ (extractRound fd name) ()).Calls (CallsOn name) :=
      ⟨fun st => extractRound_callsOn name fd st, fun _ => trivial⟩
    refine ((spec_creating hA hnameA ⟨_, .same, hs⟩ hcalls).weaken (fun _ => id) hI).bind ?_
    rintro exit s' ⟨d, hd, hs'⟩
    exact extractAfterLoop_spares hA harc hname hd hs' fd exit

end Extract

end Commands

-- ---------------------------------------------------------------------------
-- main
-- ---------------------------------------------------------------------------

/-- The files whose content or metadata an option may change. -/
def changedInodes (fs : Fs) (arc : CString) : Option Choice → Set Ino
  | some (.input _) => {i | fs.inodeOf arc = some i}
  | some (.extract file) => {i | fs.inodeOf arc = some i ∨ fs.inodeOf file = some i}
  | _ => ∅

/-- The entries that an option may change. -/
def changedEntries (fs : Fs) (arc : CString) : Option Choice → Set Slot
  | some (.input _) => {slot | fs.target arc = some slot}
  | some (.extract file) => {slot | slot = fs.slotOf arc ∨ fs.target file = some slot}
  | _ => ∅

/-- A call that opens nothing but for reading, and changes no entry and no metadata. -/
def ReadsOnly : Sys → Prop
  | .openFile _ flags _ => flags = { read := true }
  | .mkstemp _ | .rename .. | .unlink _ | .fchmod .. | .chmod .. | .chown .. | .utime .. => False
  | _ => True

theorem readsOnly_spares {α : Type} {D : Set Slot} {p : Posix α} (h : Confined fs A fs.dir s)
    (hp : p.Calls ReadsOnly) :
    Spec exec E (Spares fs A D) s p fun _ => Restores E fs A D := by
  have hkeep : ∀ o s c, ReadsOnly c → Confined fs A fs.dir s →
      Confined fs A fs.dir (exec o s c).1 := by
    intro o s c hc hs
    cases c with
    | openFile path flags mode =>
      obtain rfl : flags = { read := true } := hc
      exact hs.exec_openRead path mode
    | mkstemp | rename | unlink | fchmod | chmod | chown | utime => exact hc.elim
    | _ => exact hs.exec_through trivial
  refine ((Spec.of_calls hkeep hp h).weaken (fun _ => id) ?_).mono ?_
  · exact fun s' hs' => ⟨_, hs', fun _ _ _ => rfl⟩
  · exact fun _ s' hs' => ⟨_, hs', fun _ _ _ => rfl⟩

theorem skipRecord_readsOnly (fd : Fd) (size : Int) : (do
    match ← lseek fd size .cur with
    | none =>
      perror "Ошибка: позиционирование в архиве при просмотре не удалось"
      pure (.inr ())
    | some _ => pure (.inl ()) : Posix (Unit ⊕ Unit)).Calls ReadsOnly := by
  refine ⟨trivial, fun r => ?_⟩
  cases r with
  | none => exact ⟨trivial, fun _ => trivial⟩
  | some _ => trivial

theorem displayArchiveContents_readsOnly (arc : CString) :
    (displayArchiveContents arc).Calls ReadsOnly := by
  have hlines : ∀ ls, (printLines ls).Calls ReadsOnly := by
    intro ls
    induction ls with
    | nil => trivial
    | cons l ls ih => exact ⟨trivial, fun _ => ih⟩
  refine ⟨rfl, fun r => ?_⟩
  cases r with
  | none => exact ⟨trivial, fun _ => trivial⟩
  | some fd =>
    apply (hlines _).bind
    intro _
    refine ⟨fun st => ⟨trivial, fun r => ?_⟩, fun _ => ⟨trivial, fun _ => trivial⟩⟩
    rcases r with _ | _ | ⟨x, xs⟩
    · trivial
    · trivial
    · simp only [Prog.ret_bind]
      split
      · exact ⟨trivial, fun _ => trivial⟩
      · next record _ =>
        have hskip := skipRecord_readsOnly fd record.stSize
        split
        · exact ⟨trivial, fun _ => ⟨trivial, fun _ => hskip⟩⟩
        · exact hskip

theorem help_readsOnly (status : Nat) : (help status).Calls ReadsOnly :=
  ⟨trivial, fun _ => ⟨trivial, fun _ => ⟨trivial, fun _ => ⟨trivial, fun _ =>
    ⟨trivial, fun _ => ⟨trivial, fun _ => trivial⟩⟩⟩⟩⟩⟩

/-- The files that a command may change, or that are new. -/
def mayChange (fs : Fs) (arc : CString) (args : List CString) : Set Ino :=
  {i | i ∈ changedInodes fs arc (getoptFirst args) ∨ fs.inodes.length ≤ i}

theorem main_spares {argv0 : CString} {args : List CString} (hs : ∀ fd, s.file fd = none) :
    Spec exec E (Spares s.fs (mayChange s.fs arc args) (changedEntries s.fs arc (getoptFirst args)))
      s (main (argv0 :: arc :: args)) fun _ =>
        Restores E s.fs (mayChange s.fs arc args) (changedEntries s.fs arc (getoptFirst args)) := by
  have h : Confined s.fs (mayChange s.fs arc args) s.fs.dir s := .refl hs _
  have hnew : ∀ i, s.fs.inodes.length ≤ i → i ∈ mayChange s.fs arc args := fun i => .inr
  rw [main]
  split
  · exact readsOnly_spares h (help_readsOnly 0)
  · split
    · exact readsOnly_spares h (help_readsOnly 1)
    · cases hchoice : getoptFirst args with
      | none => exact readsOnly_spares h (help_readsOnly 1)
      | some choice =>
        have hold : ∀ i, i ∈ changedInodes s.fs arc (some choice) →
            i ∈ mayChange s.fs arc args := by
          rw [← hchoice]
          exact fun i => .inl
        cases choice with
        | input file =>
          exact callsOn_spares hnew (fun i hi => hold i hi) (fun _ => id) h
            ((addFileToArchive_callsOn arc file).bind fun _ => trivial)
        | extract file =>
          refine (extractAndRemoveFile_spares hnew (.inl rfl) (fun _ => .inr)
            (fun i hi => hold i (.inl hi)) (fun i hi => hold i (.inr hi)) h).withInv.bind ?_
          exact fun _ s' hs' => Spec.ret hs'.1 hs'.2
        | stat =>
          exact readsOnly_spares h
            ((displayArchiveContents_readsOnly arc).bind fun _ => trivial)
        | help => exact readsOnly_spares h (help_readsOnly 0)

theorem file_boot (fs : Fs) (umask : Nat) (fd : Fd) : (State.boot fs umask).file fd = none := by
  rcases fd with _ | _ | _ | fd <;> rfl

end Archiver

end LabsOS
