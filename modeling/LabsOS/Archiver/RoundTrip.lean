import LabsOS.Archiver.Later

/-!
# What was added comes out again

`added_comes_out`: a file that was added is extracted unchanged after any
further commands that do not ask for it, if it is not larger than an extraction
allows; a larger one can be added but never be extracted.
-/

namespace LabsOS.Archiver

variable {fs fs' : Fs} {arc target name : CString} {its : List Item} {it : Item} {nd : Inode}
variable {umask : Nat} {tr : List SysEvent} {s s' : State}

/-- An extraction whose system calls succeed takes out the item that is found, or
reports nothing and leaves the list where the item is too large. -/
theorem Lists.extract_first (hits : Lists fs arc its) (hname : ¬ fs.SameFile name arc)
    (hfind : its.find? (Item.named name) = some it)
    (hrun : Runs exec (State.boot fs umask) (extractAndRemoveFile arc name) tr s' (.ret ()))
    (htr : ∀ ev ∈ tr, Succeeds ev) :
    ((it.data.length : Int) ≤ maxAllowedSize ∧ extractedLine name ∈ s'.proc.stdout ∧
      s'.fs.content name = some it.data) ∨
    (maxAllowedSize < it.data.length ∧ extractedLine name ∉ s'.proc.stdout ∧
      Lists s'.fs arc its) := by
  have hpath : it.path = name := by
    have := List.find?_some hfind
    simpa [Item.named] using this
  obtain ⟨a, es', ha, hB, -⟩ := hits.exists_matches (List.mem_of_find?_eq_some hfind) hpath
  obtain ⟨es, hes, rfl⟩ := hits.exists_encode
  have hes' := archiveBytes_of_content ((content_of_inodeOf ha).trans hB)
  obtain rfl := encode_injective (Option.some.inj (hes.symm.trans hes'))
  have hspec := extractAndRemoveFile_spec (E := Succeeds) (I := fun _ => True)
    (s := State.boot fs umask) ⟨ha, hB⟩ (inodeOf_ne_of_not_sameFile hname ha)
    (fun _ => Succeeds.fullReads) (fun _ _ => trivial) (fun _ _ _ _ _ _ _ _ => trivial)
  rcases (hspec tr s' _ hrun htr).2 () rfl with ⟨harc, ⟨ls, hls, hnot⟩, hnothing⟩ |
    ⟨pre, m, post, hfm, hsize, ⟨es', -, hset, -⟩, hrep⟩
  · have hbig := not_le_of_left (hnothing fun _ => id) hfind
    refine .inr ⟨Int.not_le.mp hbig, ?_, .of_encode (archiveBytes_of_content harc.content)⟩
    rw [hls]
    exact hnot
  · obtain rfl := Option.some.inj (hfm.find?_liveItems.symm.trans hfind)
    refine .inl ⟨by rwa [size_item], ?_, hset.output⟩
    rw [hrep]
    simp

/-- **What was added comes out again.** -/
theorem added_comes_out (hits : Lists fs arc its) (hadd : Addable fs arc target nd)
    (hrun : Runs exec (State.boot fs umask) (addFileToArchive arc target) tr s' (.ret ()))
    (hrep : addedLine target arc ∈ s'.proc.stdout)
    (hfirst : its.find? (Item.named target) = none)
    (hlater : Later arc (· ≠ target) s'.fs fs') (hname : ¬ fs'.SameFile target arc) (umask' : Nat) :
    Halts exec AnyOutcome (State.boot fs' umask') (extractAndRemoveFile arc target) ∧
    ∀ tr' s'', Runs exec (State.boot fs' umask') (extractAndRemoveFile arc target) tr' s'' (.ret ()) →
      (∀ ev ∈ tr', Succeeds ev) →
      ((nd.data.length : Int) ≤ maxAllowedSize → extractedLine target ∈ s''.proc.stdout ∧
        s''.fs.content target = some nd.data) ∧
      (maxAllowedSize < nd.data.length → extractedLine target ∉ s''.proc.stdout) := by
  obtain ⟨es, hes, rfl⟩ := hits.exists_encode
  have hspec := add_regular (E := AnyOutcome) (s := State.boot fs umask) hes hadd
  rcases (hspec tr s' _ hrun fun _ _ => trivial).2 () rfl with ⟨-, harc⟩ | ⟨⟨ls, hls, hnot⟩, -⟩
  · have hits₁ := Lists.of_encode harc
    rw [liveItems_append, fileEntry, liveItems_newEntry _ hadd.short] at hits₁
    have hnamed : (fileItem target nd).named target = true := decide_eq_true rfl
    have hfind₁ : (liveItems es ++ [fileItem target nd]).find? (Item.named target) =
        some (fileItem target nd) := by
      rw [List.find?_append, hfirst, Option.none_or, List.find?_cons_of_pos hnamed]
    obtain ⟨its', hits', hfind'⟩ := hlater.find? hits₁ hfind₁
    refine ⟨hits'.extract_halts target, fun tr' s'' hrun' htr' => ?_⟩
    rcases hits'.extract_first hname hfind' hrun' htr' with ⟨hsize, h⟩ | ⟨hbig, h, -⟩
    · exact ⟨fun _ => h, fun hbig => absurd hsize (Int.not_le.mpr hbig)⟩
    · exact ⟨fun hsize => absurd hsize (Int.not_le.mpr hbig), fun _ => h⟩
  · rw [hls] at hrep
    exact absurd hrep hnot

theorem file_comes_out : ∃ s' : State,
    ∀ tr' s'', Runs exec (State.boot s'.fs 0o22) (extractAndRemoveFile nameA nameB) tr' s'' (.ret ()) →
      (∀ ev ∈ tr', Succeeds ev) → extractedLine nameB ∈ s''.proc.stdout ∧
        s''.fs.content nameB = some [1] := by
  obtain ⟨tr, s', hrun, -, hout, hsame⟩ := exists_file_add
  obtain ⟨-, h⟩ := added_comes_out lists_archiveAndFile addable_file hrun (by rw [hout]; simp) rfl
    .refl hsame 0o22
  exact ⟨s', fun tr' s'' hrun' htr' => (h tr' s'' hrun' htr').1 (by decide)⟩

-- ---------------------------------------------------------------------------
-- A file too large
-- ---------------------------------------------------------------------------

/-- A record that is asked for may be too large though every system call succeeds. -/
theorem may_extract_tooLarge {a : Ino} {es pre post : List Entry} {m : Entry}
    (harc : Holds s arc a (encode es)) (hfm : FirstMatch name es pre m post)
    (hbig : m.header.stSize > maxAllowedSize) (hfit : ((encode es).length : Int) ≤ offMax) :
    May exec Succeeds s (extractAndRemoveFile arc name) fun _ s' =>
      Unreported (extractedLine name) s s' := by
  refine May.call .ok (State.sysOpen_regular (by decide) harc.inodeOf harc.data) ⟨rfl, rfl⟩ ?_
  set f : OpenFile := ⟨a, 0, { read := true, write := true }⟩
  change May exec Succeeds (s.addFile f) _ _
  have hf : (s.addFile f).file s.proc.fds.length = some f := State.file_addFile_self
  refine may_scan hf rfl rfl (fun _ => id) hfm harc.data hfit ?_
  rw [extractRecord, if_pos hbig]
  refine May.call Outcome.ok rfl ⟨rfl, trivial⟩ ?_
  refine May.call Outcome.ok (State.sysLseek_inRange (seekState_file hf _) (by decide) ?_)
    ⟨rfl, rfl⟩ ?_
  · have hmax : (0 : Int) < maxAllowedSize := by decide
    rw [hfm.split, List.append_cons, encode_append, List.length_append] at hfit
    rw [seekTo_next]
    omega
  · refine May.call Outcome.ok rfl ⟨rfl, rfl⟩ (May.ret ?_)
    have hquiet : Unreported (extractedLine name) s s := .of_eq rfl
    exact hquiet.printed ⟨"Предупреждение: файл '%s' слишком большой (размер: %lld байт)\n",
      [.str name.bytes, .int m.header.stSize]⟩ (by simp [extractedLine])

/-- A file of one byte more than an extraction allows, and an empty archive. -/
def largeFile : Inode := Inode.file (List.replicate (2 ^ 30 + 1) 0)

theorem length_largeFile : largeFile.data.length = 2 ^ 30 + 1 := List.length_replicate

theorem addable_largeFile : Addable (Fs.pair (Inode.file []) largeFile) nameA nameB largeFile where
  inode := ⟨1, rfl, rfl⟩
  regular := rfl
  size := by
    rw [length_largeFile]
    decide
  short := by decide
  other := Fs.not_sameFile_pair _ _

/-- Its record in an archive of its own. -/
def largeEntry : Entry :=
  fileEntry nameB largeFile addable_largeFile.regular addable_largeFile.size

theorem stSize_largeEntry : largeEntry.header.stSize = 2 ^ 30 + 1 := by
  rw [largeEntry.framed]
  show ((largeFile.data.length : Nat) : Int) = _
  rw [length_largeFile]
  rfl

theorem length_largeEntry : ((encode [largeEntry]).length : Int) ≤ offMax := by
  have hframed := largeEntry.framed
  rw [stSize_largeEntry] at hframed
  rw [encode_cons, encode_nil, List.append_nil, largeEntry.length_bytes, Int.natCast_add, ← hframed]
  decide

theorem matches_largeEntry : largeEntry.Matches nameB :=
  ⟨ArchiveRecord.path_new _ addable_largeFile.short, ArchiveRecord.markedDeleted_new _⟩

/-- It is added, and not extracted though every system call succeeds. -/
theorem large_file_stays :
    Addable (Fs.pair (Inode.file []) largeFile) nameA nameB largeFile ∧ ∃ tr s',
      Runs exec (State.boot (Fs.pair (Inode.file []) largeFile) 0o22) (addFileToArchive nameA nameB)
        tr s' (.ret ()) ∧ addedLine nameB nameA ∈ s'.proc.stdout ∧ ∃ tr' s'',
      Runs exec (State.boot s'.fs 0o22) (extractAndRemoveFile nameA nameB) tr' s'' (.ret ()) ∧
        (∀ ev ∈ tr', Succeeds ev) ∧ extractedLine nameB ∉ s''.proc.stdout := by
  refine ⟨addable_largeFile, ?_⟩
  have hempty : archiveBytes (Fs.pair (Inode.file []) largeFile) nameA = some (encode []) := rfl
  have hadd := add_regular (E := OutcomeOk) (s := State.boot _ 0o22) hempty addable_largeFile
  obtain ⟨tr, s', _, hrun, htr, hdone⟩ := hadd.may (addFileToArchive_total _ _ _) exists_outcomeOk
  rcases hdone with ⟨hrep, harc⟩ | ⟨-, hfault, -⟩
  · refine ⟨tr, s', hrun, by rw [hrep]; simp, ?_⟩
    have harc' : archiveBytes s'.fs nameA = some (encode [largeEntry]) := harc
    rcases archiveBytes_eq_some harc' with ⟨a, ha, hdata⟩ | ⟨hnil, -⟩
    · have hsize := stSize_largeEntry
      have hfm : FirstMatch nameB [largeEntry] [] largeEntry [] :=
        ⟨rfl, by simp, matches_largeEntry⟩
      obtain ⟨tr', s'', _, hrun', htr', ls, hls, hnot⟩ := may_extract_tooLarge
        (s := State.boot s'.fs 0o22) ⟨ha, hdata⟩ hfm (by rw [hsize]; decide) length_largeEntry
      refine ⟨tr', s'', hrun', htr', ?_⟩
      rw [hls]
      exact hnot
    · have hnil' : encode [largeEntry] = encode [] := hnil
      cases encode_injective hnil'
  · exact absurd (fun _ => id) hfault

end LabsOS.Archiver
