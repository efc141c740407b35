import LabsOS.Archiver.Main
import LabsOS.Kernel.Descriptors

/-!
# The descriptors of the archiver

Whatever calls fail, and whatever the archive holds, the archiver uses a descriptor only between
the call that has opened it and the one that closes it, and has closed all of them when it returns
(`main_closes_all`).
-/

namespace LabsOS.Archiver

open Prog.Owned

variable {F : Finset Fd} {fd fd' : Fd}

theorem given_one (hfd : fd ∈ F) : ∀ x ∈ [fd], x ∈ F := List.forall_mem_singleton.mpr hfd

-- ---------------------------------------------------------------------------
-- Copying and skipping
-- ---------------------------------------------------------------------------

theorem completeWrite_balanced (hfd : fd ∈ F) (buf : Bytes) :
    (completeWrite fd buf).Balanced descriptors F := by
  refine while_ fun left => ?_
  split
  · rfl
  · refine steady trivial (given_one hfd) fun r => ?_
    rcases r with _ | _ | written <;> rfl

theorem duplicateContent_balanced (hfd : fd ∈ F) (hfd' : fd' ∈ F) (total : Int) :
    (duplicateContent fd fd' total).Balanced descriptors F := by
  refine while_ fun left => ?_
  split
  · rfl
  · refine steady trivial (given_one hfd) fun r => ?_
    rcases r with _ | _ | ⟨x, xs⟩
    · rfl
    · rfl
    · apply of_balanced (completeWrite_balanced hfd' (x :: xs))
      intro ok
      cases ok <;> rfl

theorem skipBytes_balanced (hfd : fd ∈ F) (length : Int) :
    (skipBytes fd length).Balanced descriptors F := by
  rw [skipBytes]
  split
  · rfl
  · refine steady trivial (given_one hfd) fun r => ?_
    cases r with
    | some _ => rfl
    | none =>
      refine while_ fun left => ?_
      split
      · rfl
      · refine steady trivial (given_one hfd) fun r => ?_
        rcases r with _ | _ | ⟨x, xs⟩ <;> rfl

theorem perror_balanced (msg : String) : (Posix.perror msg).Balanced descriptors F :=
  free trivial rfl fun _ => rfl

theorem printLines_balanced (ls : List Line) : (printLines ls).Balanced descriptors F := by
  induction ls with
  | nil => rfl
  | cons l ls ih => exact free trivial rfl fun _ => ih

-- ---------------------------------------------------------------------------
-- compress_archive_file
-- ---------------------------------------------------------------------------

theorem compressRecord_balanced (hfd : fd ∈ F) (hfd' : fd' ∈ F) (record : ArchiveRecord) :
    (compressRecord fd fd' record).Balanced descriptors F := by
  rw [compressRecord]
  split
  · refine of_balanced (completeWrite_balanced hfd' _) fun ok => ?_
    cases ok with
    | false => exact free trivial rfl fun _ => rfl
    | true =>
      refine of_balanced (duplicateContent_balanced hfd hfd' _) fun ok => ?_
      cases ok with
      | false => exact free trivial rfl fun _ => rfl
      | true => rfl
  · refine of_balanced (skipBytes_balanced hfd _) fun ok => ?_
    cases ok with
    | false => exact free trivial rfl fun _ => rfl
    | true => rfl

theorem compressRound_balanced (hfd : fd ∈ F) (hfd' : fd' ∈ F) :
    (compressRound fd fd' ()).Balanced descriptors F := by
  refine steady trivial (given_one hfd) fun r => ?_
  cases r with
  | none => rfl
  | some buf =>
    simp only [Prog.ret_bind]
    split
    · rfl
    · exact compressRecord_balanced hfd hfd' _

/-- What is left when the two descriptors are closed that have been opened last. -/
theorem erase_both (hfd : fd ∉ F) (hfd' : fd' ∉ insert fd F) :
    ((insert fd' (insert fd F)).erase fd).erase fd' = F := by
  rw [Finset.erase_right_comm, Finset.erase_insert hfd', Finset.erase_insert hfd]

section Pair

variable (hfd : fd ∉ F) (hfd' : fd' ∉ insert fd F)
include hfd hfd'

theorem compressCleanup_owned (path : CString) :
    (compressCleanup fd fd' path).Owned descriptors (insert fd' (insert fd F))
      fun _ F' => F' = F := by
  have hne : fd' ≠ fd := by
    rintro rfl
    exact hfd' (Finset.mem_insert_self ..)
  refine close (Finset.mem_insert_of_mem (Finset.mem_insert_self ..)) fun _ => ?_
  refine close (Finset.mem_erase.mpr ⟨hne, Finset.mem_insert_self ..⟩) fun _ => ?_
  exact free trivial rfl fun _ => erase_both hfd hfd'

theorem compressFinish_owned (arc path : CString) (exit : CompressExit) :
    (compressFinish arc fd fd' path exit).Owned descriptors (insert fd' (insert fd F))
      fun _ F' => F' = F := by
  have hcleanup := compressCleanup_owned hfd hfd' path
  rcases exit with _ | failed
  · exact hcleanup
  · cases failed with
    | true => exact free trivial rfl fun _ => hcleanup
    | false =>
      refine steady trivial (given_one (Finset.mem_insert_self ..)) fun _ => ?_
      refine close (Finset.mem_insert_self ..) fun _ => ?_
      rw [Finset.erase_insert hfd']
      refine close (Finset.mem_insert_self ..) fun _ => ?_
      rw [Finset.erase_insert hfd]
      refine free trivial rfl fun renamed => ?_
      cases renamed with
      | false => exact free trivial rfl fun _ => free trivial rfl fun _ => rfl
      | true => rfl

theorem compressReplace_owned (arc path : CString) :
    ((Prog.while_ (compressRound fd fd') ()).bind (compressFinish arc fd fd' path)).Owned
      descriptors (insert fd' (insert fd F)) fun _ F' => F' = F := by
  have hround : (compressRound fd fd' ()).Balanced descriptors (insert fd' (insert fd F)) :=
    compressRound_balanced (Finset.mem_insert_of_mem (Finset.mem_insert_self ..))
      (Finset.mem_insert_self ..)
  exact of_balanced (while_balanced fun _ => hround) (compressFinish_owned hfd hfd' arc path)

end Pair

theorem compressArchiveFile_balanced (arc : CString) :
    (compressArchiveFile arc).Balanced descriptors F := by
  refine openFile ?_ fun input hinput => ?_
  · exact free trivial rfl fun _ => rfl
  · refine mkstemp ?_ fun temp htemp path => ?_
    · refine free trivial rfl fun _ => close (Finset.mem_insert_self ..) fun _ => ?_
      exact Finset.erase_insert hinput
    · have hrest := compressReplace_owned hinput htemp arc path
      refine steady trivial (given_one (Finset.mem_insert_of_mem (Finset.mem_insert_self ..)))
        fun r => ?_
      cases r with
      | none => exact hrest
      | some stats => exact steady trivial (given_one (Finset.mem_insert_self ..)) fun _ => hrest

-- ---------------------------------------------------------------------------
-- add_file_to_archive
-- ---------------------------------------------------------------------------

theorem closeBoth_owned (hfd : fd ∉ F) (hfd' : fd' ∉ insert fd F) :
    (closeBoth fd' fd).Owned descriptors (insert fd' (insert fd F)) fun _ F' => F' = F := by
  refine close (Finset.mem_insert_self ..) fun _ => ?_
  rw [Finset.erase_insert hfd']
  exact close (Finset.mem_insert_self ..) fun _ => Finset.erase_insert hfd

theorem appendFile_owned (hfd : fd ∉ F) (hfd' : fd' ∉ insert fd F) (arc target : CString) :
    (appendFile arc target fd fd').Owned descriptors (insert fd' (insert fd F))
      fun _ F' => F' = F := by
  have hclose := closeBoth_owned hfd hfd'
  have hsource : fd' ∈ insert fd' (insert fd F) := Finset.mem_insert_self ..
  have harchive : fd ∈ insert fd' (insert fd F) :=
    Finset.mem_insert_of_mem (Finset.mem_insert_self ..)
  rw [appendFile]
  split
  · exact free trivial rfl fun _ => hclose
  · refine steady trivial (given_one hsource) fun r => ?_
    cases r with
    | none => exact free trivial rfl fun _ => hclose
    | some stats =>
      apply of_balanced (completeWrite_balanced harchive _)
      intro ok
      cases ok with
      | false => exact free trivial rfl fun _ => hclose
      | true =>
        refine of_balanced (duplicateContent_balanced hsource harchive _) fun ok => ?_
        cases ok <;> exact free trivial rfl fun _ => hclose

theorem addFileToArchive_balanced (arc target : CString) :
    (addFileToArchive arc target).Balanced descriptors F := by
  refine openFile (perror_balanced _) fun archiveFd harchive => ?_
  refine openFile ?_ fun sourceFd hsource => appendFile_owned harchive hsource arc target
  refine free trivial rfl fun _ => close (Finset.mem_insert_self ..) fun _ => ?_
  exact Finset.erase_insert harchive

-- ---------------------------------------------------------------------------
-- extract_and_remove_file
-- ---------------------------------------------------------------------------

theorem skipOrReport_balanced (hfd : fd ∈ F) (size : Int) (msg : String) :
    (skipOrReport fd size msg).Balanced descriptors F := by
  refine steady trivial (given_one hfd) fun r => ?_
  cases r with
  | none => exact perror_balanced msg
  | some _ => rfl

theorem writeMark_balanced (hfd : fd ∈ F) (recordStart : Nat) (record : ArchiveRecord) :
    (writeMark fd recordStart record).Balanced descriptors F := by
  refine steady trivial (given_one hfd) fun r => ?_
  cases r with
  | none => exact perror_balanced _
  | some _ =>
    refine steady trivial (given_one hfd) fun r => ?_
    cases r with
    | none => exact perror_balanced _
    | some n =>
      simp only [Prog.ret_bind]
      split
      · rfl
      · exact perror_balanced _

theorem restoreTimes_balanced (path : CString) (stats : Stat) : (do
    let _ ← Posix.chown path stats.stUid stats.stGid
    match ← Posix.utime path stats.stAtime stats.stMtime with
    | false => Posix.perror "Внимание: не удалось восстановить временные метки"
    | true => pure () : Posix Unit).Balanced descriptors F := by
  refine free trivial rfl fun _ => free trivial rfl fun r => ?_
  cases r with
  | false => exact perror_balanced _
  | true => rfl

theorem applyOriginalAttributes_balanced (path : CString) (stats : Stat) :
    (applyOriginalAttributes path stats).Balanced descriptors F := by
  have htimes := restoreTimes_balanced (F := F) path stats
  refine free trivial rfl fun r => ?_
  cases r with
  | false => exact free trivial rfl fun _ => htimes
  | true => exact htimes

/-- The record that was asked for: the archive stays open, and its output file is closed. -/
theorem extractRecord_balanced (hfd : fd ∈ F) (name : CString) (recordStart : Nat)
    (record : ArchiveRecord) :
    (extractRecord fd name recordStart record).Balanced descriptors F := by
  have hskip : ∀ msg, ((skipOrReport fd record.stSize msg).bind fun _ =>
      .ret (ExtractExit.broke true)).Balanced descriptors F :=
    fun msg => of_balanced (skipOrReport_balanced hfd _ msg) fun _ => rfl
  rw [extractRecord]
  split
  · exact free trivial rfl fun _ => hskip _
  · refine openFile ?_ fun out hout => ?_
    · exact free trivial rfl fun _ => hskip _
    · apply of_balanced (duplicateContent_balanced (Finset.mem_insert_of_mem hfd)
        (Finset.mem_insert_self ..) _)
      intro ok
      cases ok with
      | false =>
        refine free trivial rfl fun _ => close (Finset.mem_insert_self ..) fun _ => ?_
        exact Finset.erase_insert hout
      | true =>
        refine close (Finset.mem_insert_self ..) fun _ => ?_
        rw [Finset.erase_insert hout]
        apply of_balanced (applyOriginalAttributes_balanced _ _)
        intro _
        exact of_balanced (writeMark_balanced hfd _ _) fun _ => rfl

theorem extractOrSkip_balanced (hfd : fd ∈ F) (name : CString) (recordStart : Nat)
    (record : ArchiveRecord) :
    (extractOrSkip fd name recordStart record).Balanced descriptors F := by
  rw [extractOrSkip]
  split
  · exact of_balanced (extractRecord_balanced hfd _ _ _) fun _ => rfl
  · refine steady trivial (given_one hfd) fun r => ?_
    cases r with
    | none => exact free trivial rfl fun _ => rfl
    | some _ => rfl

theorem extractRound_balanced (hfd : fd ∈ F) (name : CString) :
    (extractRound fd name ()).Balanced descriptors F := by
  refine steady trivial (given_one hfd) fun r => ?_
  cases r with
  | none => exact free trivial rfl fun _ => rfl
  | some recordStart =>
    refine steady trivial (given_one hfd) fun r => ?_
    simp only [Prog.ret_bind]
    split
    · rfl
    · split
      · exact free trivial rfl fun _ => rfl
      · exact extractOrSkip_balanced hfd _ _ _

theorem extractAfterLoop_owned (hfd : fd ∉ F) (arc name : CString) (exit : ExtractExit) :
    (extractAfterLoop fd arc name exit).Owned descriptors (insert fd F) fun _ F' => F' = F := by
  have hclose : Prog.Owned descriptors (insert fd F) (discard (Posix.close fd))
      fun _ F' => F' = F :=
    close (Finset.mem_insert_self ..) fun _ => Finset.erase_insert hfd
  cases exit with
  | extracted =>
    refine close (Finset.mem_insert_self ..) fun _ => ?_
    rw [Finset.erase_insert hfd]
    apply of_balanced (compressArchiveFile_balanced arc)
    intro ok
    cases ok with
    | false => exact free trivial rfl fun _ => free trivial rfl fun _ => rfl
    | true => exact free trivial rfl fun _ => rfl
  | broke found =>
    cases found with
    | false => exact free trivial rfl fun _ => hclose
    | true => exact hclose

theorem extractAndRemoveFile_balanced (arc name : CString) :
    (extractAndRemoveFile arc name).Balanced descriptors F := by
  refine openFile (perror_balanced _) fun archiveFd harchive => ?_
  have hround := extractRound_balanced (Finset.mem_insert_self archiveFd F) name
  apply of_balanced (while_balanced fun _ => hround)
  exact extractAfterLoop_owned harchive arc name

-- ---------------------------------------------------------------------------
-- display_archive_contents
-- ---------------------------------------------------------------------------

theorem skipRecord_balanced (hfd : fd ∈ F) (size : Int) : (do
    match ← Posix.lseek fd size .cur with
    | none =>
      Posix.perror "Ошибка: позиционирование в архиве при просмотре не удалось"
      pure (.inr ())
    | some _ => pure (.inl ()) : Posix (Unit ⊕ Unit)).Balanced descriptors F := by
  refine steady trivial (given_one hfd) fun r => ?_
  cases r with
  | none => exact free trivial rfl fun _ => rfl
  | some _ => rfl

theorem displayRound_balanced (hfd : fd ∈ F) : (displayRound fd ()).Balanced descriptors F := by
  refine steady trivial (given_one hfd) fun r => ?_
  rcases r with _ | _ | ⟨x, xs⟩
  · rfl
  · rfl
  · simp only [Prog.ret_bind]
    split
    · exact free trivial rfl fun _ => rfl
    · next record _ =>
      have hskip := skipRecord_balanced hfd record.stSize
      split
      · exact free trivial rfl fun _ => free trivial rfl fun _ => hskip
      · exact hskip

theorem displayArchiveContents_balanced (arc : CString) :
    (displayArchiveContents arc).Balanced descriptors F := by
  refine openFile (perror_balanced _) fun archiveFd harchive => ?_
  apply of_balanced (printLines_balanced _)
  intro _
  have hround := displayRound_balanced (Finset.mem_insert_self archiveFd F)
  apply of_balanced (while_balanced fun _ => hround)
  intro _
  exact close (Finset.mem_insert_self ..) fun _ => Finset.erase_insert harchive

-- ---------------------------------------------------------------------------
-- main
-- ---------------------------------------------------------------------------

theorem help_balanced (status : Nat) : (help status).Balanced descriptors F :=
  free trivial rfl fun _ => free trivial rfl fun _ => free trivial rfl fun _ =>
    free trivial rfl fun _ => free trivial rfl fun _ => free trivial rfl fun _ => rfl

theorem main_balanced (args : List CString) : (main args).Balanced descriptors F := by
  rcases args with _ | ⟨_, _ | ⟨arc, args⟩⟩
  · exact help_balanced 1
  · exact help_balanced 1
  · rw [main]
    split
    · exact help_balanced 0
    · split
      · exact help_balanced 1
      · split
        · exact of_balanced (addFileToArchive_balanced _ _) fun _ => rfl
        · exact of_balanced (extractAndRemoveFile_balanced _ _) fun _ => rfl
        · exact of_balanced (displayArchiveContents_balanced _) fun _ => rfl
        · exact help_balanced 0
        · exact help_balanced 1

/-- **No descriptor is used that is not open, and none is left open.** -/
theorem main_closes_all {s s' : State} {args : List CString} {tr : List SysEvent} {p : Posix Nat}
    (hrun : Runs exec s (main args) tr s' p) :
    (∀ c k, p = .call c k → ∀ fd ∈ c.given, (s'.file fd).isSome ∧ s.file fd = none) ∧
    ∀ status, p = .ret status → ∀ fd, s'.file fd = s.file fd := by
  obtain ⟨F, hbeside, hp⟩ := preserved (OpenBeside.tracks s) (main_balanced args)
    (OpenBeside.refl s) hrun fun _ _ => trivial
  refine ⟨?_, ?_⟩
  · rintro c k rfl fd hfd
    have howned := hbeside.owned fd (hp.1 fd hfd)
    exact ⟨howned.2, by rw [State.file, List.getElem?_eq_none howned.1, Option.join_none]⟩
  · rintro status rfl fd
    exact hbeside.others fd (hp ▸ Finset.notMem_empty fd)

/-- A file system call by call: no metadata can be had. -/
def fstatFails : Sys → Outcome
  | .fstat _ => .fail
  | _ => .ok

/-- An addition that fails at the metadata of its file. -/
theorem failed_add_closes_all : ∃ tr s',
    Runs exec (State.boot (Fs.pair (.file []) (.file [1])) 0)
      (main [nameA, nameA, .ofBytes (ascii "-i"), nameB]) tr s' (.ret 0) ∧
    ∀ fd, s'.file fd = (State.boot (Fs.pair (.file []) (.file [1])) 0).file fd := by
  have hrun : ((main [nameA, nameA, .ofBytes (ascii "-i"), nameB]).run exec AnyOutcome
      fstatFails 20 (State.boot (Fs.pair (.file []) (.file [1])) 0)).map Prod.snd = some 0 := by
    decide +kernel
  obtain ⟨tr, s', status, hrun, -, rfl⟩ := exists_run_of_map hrun
  exact ⟨tr, s', hrun, (main_closes_all hrun).2 _ rfl⟩

end LabsOS.Archiver
