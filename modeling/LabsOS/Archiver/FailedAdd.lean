import LabsOS.Archiver.Later

/-!
# Failed additions

The header of a record goes to the archive before the data of the file is read.
An addition that fails after that leaves the beginning of a record behind:
`failed_add_harmless_iff` says that a failed addition does no harm exactly when
it stored nothing.
-/

namespace LabsOS.Archiver

/-- The item just added is listed, and found by an extraction of its name. -/
structure ListedAndFound (fs : Fs) (arc target : CString) : Prop where
  display_halts : ∀ umask, Halts exec AnyOutcome (State.boot fs umask) (displayArchiveContents arc)
  listed : ∀ umask tr s',
    Runs exec (State.boot fs umask) (displayArchiveContents arc) tr s' (.ret ()) →
    (∀ ev ∈ tr, Succeeds ev) → ∃ stats d, itemLine fs ⟨target, stats, d⟩ ∈ s'.proc.stdout
  extract_halts : ∀ umask,
    Halts exec AnyOutcome (State.boot fs umask) (extractAndRemoveFile arc target)
  found : ∀ umask tr s',
    Runs exec (State.boot fs umask) (extractAndRemoveFile arc target) tr s' (.ret ()) →
    (∀ ev ∈ tr, Succeeds ev) → notFoundLine target ∉ s'.proc.stdout

/-- What a failed addition to an archive with content `B` should leave: the same
records, nothing but records, and an archive that later additions can rely on. -/
structure Harmless (fs : Fs) (arc : CString) (B : Bytes) : Prop where
  archive : ∃ b, archiveBytes fs arc = some b ∧ WellFormed b ∧ records b = records B
  later : ∀ fs₁ target umask tr s', Later arc (fun _ => True) fs fs₁ →
    Runs exec (State.boot fs₁ umask) (addFileToArchive arc target) tr s' (.ret ()) →
    (∀ ev ∈ tr, NonnegSize ev) → addedLine target arc ∈ s'.proc.stdout →
    ListedAndFound s'.fs arc target

variable {fs : Fs} {arc target : CString} {its : List Item} {it : Item} {B w : Bytes} {umask : Nat}
variable {tr : List SysEvent} {s' : State}

theorem Lists.listedAndFound (hits : Lists fs arc its) (hit : it ∈ its) :
    ListedAndFound fs arc it.path where
  display_halts _ := hits.display_halts
  listed umask tr s' hrun htr := by
    refine ⟨it.stat, it.data, ?_⟩
    rw [hits.display hrun htr, listing]
    exact List.mem_append_right _ (List.mem_map_of_mem hit)
  extract_halts _ := hits.extract_halts _
  found umask tr s' hrun htr := hits.found hit rfl hrun htr

/-- An archive that was not changed serves later additions. -/
theorem harmless_of_unchanged (h : archiveBytes fs arc = some B) (hwf : WellFormed B) :
    Harmless fs arc B := by
  refine ⟨⟨B, h, hwf, rfl⟩, fun fs₁ target umask tr s' hlater hrun hsize hrep => ?_⟩
  obtain ⟨its, hits⟩ := hlater.lists ⟨B, h, hwf, rfl⟩
  rcases hits.add_any hrun hsize with ⟨-, stats, d, hits'⟩ | ⟨hunrep, -⟩
  · exact hits'.listedAndFound (List.mem_append_right _ (List.mem_singleton_self _))
  · exact absurd hrep hunrep

/-- What stands behind the records of an archive makes it another one. -/
theorem eq_nil_of_harmless (h : Harmless fs arc B) (hwf : WellFormed B)
    (hw : archiveBytes fs arc = some (B ++ w)) : w = [] := by
  obtain ⟨b, hb, hwf', hrecords⟩ := h.archive
  obtain rfl := Option.some.inj (hb.symm.trans hw)
  obtain ⟨es, rfl⟩ := wellFormed_iff.mp hwf
  obtain ⟨es', hes'⟩ := wellFormed_iff.mp hwf'
  rw [hes', records_encode, records_encode] at hrecords
  rw [hrecords] at hes'
  simpa using hes'

/-- **A failed addition** to a well-formed archive, whatever its target and wherever it
fails, is harmless exactly when none of its writes has stored a byte. -/
theorem failed_add_harmless_iff (hB : archiveBytes fs arc = some B) (hwf : WellFormed B)
    (hrun : Runs exec (State.boot fs umask) (addFileToArchive arc target) tr s' (.ret ()))
    (hfailed : addedLine target arc ∉ s'.proc.stdout) :
    Harmless s'.fs arc B ↔ StoresNothing tr := by
  have hspec := addFileToArchive_spec (E := AnyOutcome) (s := State.boot fs umask) target hB
  have hdone := (hspec tr s' _ hrun fun _ _ => trivial).2 () rfl
  cases hdone with
  | added nd d _ _ _ _ hrep => exact absurd (by rw [hrep]; simp) hfailed
  | failed w hw ha _ _ =>
    have hwritten : StoresNothing tr ↔ w = [] := by
      rw [storesNothing_iff hrun, ha.written, Nat.add_eq_left, List.length_eq_zero_iff]
    rw [hwritten]
    constructor
    · exact fun h => eq_nil_of_harmless h hwf ha.archive
    · rintro rfl
      exact harmless_of_unchanged (by rw [ha.archive, List.append_nil]) hwf

/-- An empty archive and a directory. -/
def archiveAndDirectory : Fs :=
  Fs.pair (Inode.file []) ⟨true, [], (Stat.created 0o755).setSize 4096⟩

/-- Adding a directory stores its header and then fails to read it. -/
theorem exists_directory_add : ∃ tr s',
    Runs exec (State.boot archiveAndDirectory 0o22) (addFileToArchive nameA nameB) tr s' (.ret ()) ∧
      addedLine nameB nameA ∉ s'.proc.stdout ∧
      ∃ w, archiveBytes s'.fs nameA = some w ∧ w.length = recordSize := by
  have hrun : ((addFileToArchive nameA nameB).run exec AnyOutcome (fun _ => .ok) 40
      (State.boot archiveAndDirectory 0o22)).map (fun p =>
        (p.1.proc.stdout, (archiveBytes p.1.fs nameA).map List.length)) =
      some ([], some recordSize) := by decide +kernel
  obtain ⟨tr, s', _, hruns, -, hx⟩ := exists_run_of_map hrun
  obtain ⟨hout, hlen⟩ := Prod.mk.inj hx
  obtain ⟨w, hw, hlen⟩ := Option.map_eq_some_iff.mp hlen
  exact ⟨tr, s', hruns, by rw [hout]; simp, w, hw, hlen⟩

theorem wellFormed_nil : WellFormed [] := wellFormed_encode []

theorem directory_add_harmless_iff : ∃ tr s',
    Runs exec (State.boot archiveAndDirectory 0o22) (addFileToArchive nameA nameB) tr s' (.ret ()) ∧
      (Harmless s'.fs nameA [] ↔ StoresNothing tr) := by
  obtain ⟨tr, s', hrun, hfailed, -⟩ := exists_directory_add
  exact ⟨tr, s', hrun, failed_add_harmless_iff rfl wellFormed_nil hrun hfailed⟩

/-- Adding a directory to an empty archive fails and harms it. -/
theorem directory_add_harms : archiveBytes archiveAndDirectory nameA = some [] ∧ WellFormed [] ∧
    ∃ tr s', Runs exec (State.boot archiveAndDirectory 0o22) (addFileToArchive nameA nameB) tr s'
        (.ret ()) ∧ addedLine nameB nameA ∉ s'.proc.stdout ∧ ¬ Harmless s'.fs nameA [] := by
  obtain ⟨tr, s', hrun, hfailed, w, hw, hlen⟩ := exists_directory_add
  refine ⟨rfl, wellFormed_nil, tr, s', hrun, hfailed, fun h => ?_⟩
  rw [eq_nil_of_harmless (B := []) h wellFormed_nil hw] at hlen
  exact absurd hlen (by decide)

end LabsOS.Archiver
