import LabsOS.Archiver.SelfExtract
import LabsOS.Archiver.WellFormed

/-!
# The report of an extraction

An extraction that reports success has copied the data out. That it removed the record
is not certain: a failed seek back to the record, or a failed write of its mark of
deletion, is only warned about, and the compaction that follows keeps the record.
`reported_extraction_truthful` says that nothing else makes the report of a record with
data untrue, whichever other system calls fail.
-/

namespace LabsOS.Archiver

variable {E : SysEvent → Prop} {fs : Fs} {arc name : CString} {a : Ino} {umask : Nat} {B : Bytes}
variable {s s' : State} {tr : List SysEvent} {fd : Fd} {es pre post : List Entry} {m : Entry}

/-- What the report of an extraction of `name` says of an archive that had the content `B`. -/
structure Truthful (fs' : Fs) (arc name : CString) (B : Bytes) : Prop where
  /-- The data of the first live record of the name is in the file at its path. -/
  extracted : ∃ it, (items B).find? (Item.named name) = some it ∧ fs'.content name = some it.data
  /-- The live records that are left are among the others. -/
  removed : ∃ B', fs'.content arc = some B' ∧ WellFormed B' ∧
    (items B').Sublist ((items B).eraseP (Item.named name))

-- ---------------------------------------------------------------------------
-- Runs that report success
-- ---------------------------------------------------------------------------

/-- What the end of an extraction leaves of an archive with the records `es`, with the file
at `name` holding `d`. -/
structure Finished (E : SysEvent → Prop) (fs : Fs) (arc name : CString) (es : List Entry)
    (d : Bytes) : Prop where
  archive : ∃ es', fs.content arc = some (encode es') ∧ (liveItems es').Sublist (liveItems es) ∧
    (ReadsFully E → liveItems es' = liveItems es)
  output  : fs.content name = some d

theorem Keeps.finished {j : Ino} {d : Bytes} {es' : List Entry} (h : Keeps s s' arc (encode es'))
    (hlive : (liveItems es').Sublist (liveItems es))
    (hfull : ReadsFully E → liveItems es' = liveItems es) (ha : s.fs.inodeOf arc = some a)
    (hj : j ≠ a) (hout : Holds s name j d) : Finished E s'.fs arc name es d := by
  obtain ⟨hino, hdata⟩ := h.files name j d hout.inodeOf (by rw [ha]; simpa using hj.symm) hout.data
  exact ⟨⟨es', h.content, hlive, hfull⟩, by rw [content_of_inodeOf hino, hdata]⟩

theorem sublist_of_prefix (h : pre <+: es) : (liveItems pre).Sublist (liveItems es) :=
  (h.sublist.filter _).map _

theorem extractFinish_finished {j : Ino} {d : Bytes} (harc : Holds s arc a (encode es))
    (hj : j ≠ a) (hout : Holds s name j d) :
    Spec exec E (fun _ => True) s (extractFinish fd arc name) fun _ s' =>
      Finished E s'.fs arc name es d := by
  refine (extractFinish_of_compress (P := fun fs => Finished E fs arc name es d)
    ((compressArchiveFile_encode_spec (s := s.setFile fd none) harc.inodeOf
      harc.data).mono ?_)).mono fun _ _ h => h.1
  rintro ok s₁ hkept
  have hout' : Holds (s.setFile fd none) name j d := ⟨hout.inodeOf, hout.data⟩
  cases ok with
  | false => exact (hkept.failed rfl).finished (.refl _) (fun _ => rfl) harc.inodeOf hj hout'
  | true =>
    obtain ⟨pre, hpre, hall, hkeeps⟩ := hkept.replaced rfl
    refine hkeeps.finished ?_ ?_ harc.inodeOf hj hout'
    · rw [liveItems_filter]
      exact sublist_of_prefix hpre
    · intro hE
      rw [liveItems_filter, hall hE]

/-- An extraction of a name that does not lead to the archive reports success only after
the data was copied out and the mark of deletion was tried. -/
theorem extract_reported_spec (harc : Holds s arc a (encode es))
    (hname : s.fs.inodeOf name ≠ some a) :
    Spec exec E (fun _ => True) s (extractAndRemoveFile arc name) fun _ s' =>
      Unreported (extractedLine name) s s' ∨
      ∃ pre m post es', FirstMatch name es pre m post ∧
        MarkDone E s.proc.fds.length pre m post es' ∧ Finished E s'.fs arc name es' m.data := by
  refine extractAndRemoveFile_of_loop harc (fun _ _ => trivial) (fun _ _ hunrep _ => .inl hunrep)
    (extractLoop_spec State.file_addFile_self (harc.congr rfl) hname (fun _ _ => trivial)
      fun _ _ _ _ _ _ _ _ => trivial) (fun _ _ _ _ _ => trivial) ?_ ?_
  · rintro _ s₁ s' ⟨-, hunrep, -⟩ - hunrep'
    exact .inl (hunrep.trans hunrep')
  · rintro s₁ ⟨pre, m, post, es', hfm, -, hmark, ⟨harc₁, ⟨j, hj, hout⟩, -⟩⟩
    exact (extractFinish_finished harc₁ hj hout).mono fun _ s₂ hfin =>
      .inr ⟨pre, m, post, es', hfm, hmark, hfin⟩

/-- An extraction of data to the archive itself never reports success. -/
theorem extract_self_spec (harc : Holds s arc a (encode es)) (hname : s.fs.inodeOf name = some a)
    (hdata : ∀ pre m post, FirstMatch name es pre m post → m.data ≠ []) :
    Spec exec E (fun _ => True) s (extractAndRemoveFile arc name) fun _ s' =>
      Unreported (extractedLine name) s s' := by
  refine extractAndRemoveFile_of_loop (L := fun exit s' => exit ≠ .extracted ∧
      Unreported (extractedLine name) s s') harc (fun _ _ => trivial) (fun _ _ hunrep _ => hunrep) ?_
    (fun _ _ _ _ _ => trivial) (fun _ s₁ s' hleft _ hunrep => hleft.2.trans hunrep)
    fun s₁ hleft => absurd rfl hleft.1
  set f : OpenFile := ⟨a, 0, { read := true, write := true }⟩
  have hf : (s.addFile f).file s.proc.fds.length = some f := State.file_addFile_self
  refine extractScan_spec hf rfl rfl harc.data (fun _ _ _ => trivial)
    (fun s' _ hout _ => ⟨nofun, .of_eq hout⟩) fun pre m post hfm => ?_
  set s₁ := seekState (s.addFile f) s.proc.fds.length f ((encode pre).length + recordSize)
  have hf₁ : s₁.file s.proc.fds.length = _ := seekState_file hf _
  refine extractRecord_of_opened hfm.found.1 hf₁ (fun _ _ => trivial)
    (fun s' _ hunrep _ => ⟨nofun, hunrep⟩) fun fs' j _ hopen => ?_
  -- the archive is empty now
  obtain rfl : a = j := Option.some.inj ((hopen.inodeOf name a hname).symm.trans
    hopen.inodeOf_self)
  refine Spec.bind (duplicateContent_empty (State.file_addFile (s := s₁.withFs fs') hf₁) rfl
    hopen.data_self (stSize_pos_of_data (hdata pre m post hfm))) ?_
  rintro _ s₂ ⟨rfl, -, hout⟩
  exact Spec.fprintfErr trivial (Spec.close trivial fun _ =>
    Spec.ret trivial ⟨nofun, .of_eq hout⟩)

-- ---------------------------------------------------------------------------
-- When the report is true
-- ---------------------------------------------------------------------------

/-- The descriptor of the archive: the first that is opened, after the standard streams. -/
def archiveFd : Fd := 3

theorem truthful_of_marked (hfm : FirstMatch name es pre m post)
    (hfin : Finished E fs arc name (pre ++ m.marked :: post) m.data) :
    Truthful fs arc name (encode es) := by
  obtain ⟨es', hcontent, hsub, -⟩ := hfin.archive
  refine ⟨⟨m.item, ?_, hfin.output⟩, ⟨encode es', hcontent, wellFormed_encode _, ?_⟩⟩
  · rw [items_encode]
    exact hfm.find?_liveItems
  · rwa [items_encode, items_encode, ← hfm.liveItems_erase, ← liveItems_marked]

/-- An archive that lists what it did lists the record still. -/
theorem not_truthful_of_items {B' : Bytes} (hB' : fs.content arc = some B')
    (hitems : items B' = items B) : ¬ Truthful fs arc name B := by
  rintro ⟨⟨it, hit, -⟩, B'', hB'', -, hsub⟩
  obtain rfl : B' = B'' := Option.some.inj (hB'.symm.trans hB'')
  have hmem := List.mem_of_find?_eq_some hit
  have hlen := hsub.length_le
  rw [hitems, List.length_eraseP_of_mem hmem (List.find?_some hit)] at hlen
  have hpos := List.length_pos_of_mem hmem
  omega

theorem not_truthful_of_unmarked (hE : ReadsFully E) (hfin : Finished E fs arc name es m.data) :
    ¬ Truthful fs arc name (encode es) := by
  obtain ⟨es', hcontent, -, hall⟩ := hfin.archive
  refine not_truthful_of_items hcontent ?_
  rw [items_encode, items_encode, hall hE]

/-- **The report of an extraction** is true of every run, whichever calls fail and whichever
transfers are short, in which the mark of deletion is stored; a run in which no read is
short and that loses the mark makes it untrue. The path of the record may lead to the
archive itself if it has data: that is never reported. -/
theorem reported_extraction_truthful (hB : fs.content arc = some B) (hwf : WellFormed B)
    (hname : fs.SameFile name arc →
      ∀ it, (items B).find? (Item.named name) = some it → it.data ≠ [])
    (hrun : Runs exec (.boot fs umask) (extractAndRemoveFile arc name) tr s' (.ret ()))
    (hrep : extractedLine name ∈ s'.proc.stdout) :
    ((∀ ev ∈ tr, storesMark archiveFd ev) → Truthful s'.fs arc name B) ∧
    ((∀ ev ∈ tr, FullReads ev ∧ losesMark archiveFd ev) → ¬ Truthful s'.fs arc name B) := by
  obtain ⟨es, rfl⟩ := wellFormed_iff.mp hwf
  obtain ⟨a, harc⟩ := exists_holds (s := State.boot fs umask) hB
  by_cases hsame : fs.SameFile name arc
  · -- nothing is reported of an extraction to the archive itself
    have hspec := extract_self_spec (E := AnyOutcome) harc (inodeOf_of_sameFile hsame harc.inodeOf)
      fun pre m post hfm => hname hsame m.item (by rw [items_encode]; exact hfm.find?_liveItems)
    exact absurd hrep ((hspec tr s' _ hrun fun _ _ => trivial).2 () rfl).not_mem
  have hspec := extract_reported_spec (E := fun ev => ev ∈ tr) harc
    (inodeOf_ne_of_not_sameFile hsame harc.inodeOf)
  rcases (hspec tr s' _ hrun fun _ => id).2 () rfl with
    hunrep | ⟨pre, m, post, es', hfm, hmark, hfin⟩
  · exact absurd hrep hunrep.not_mem
  refine ⟨?_, ?_⟩
  · intro hstored
    obtain rfl := hmark.stored hstored
    exact truthful_of_marked hfm hfin
  · intro hlost
    obtain rfl := hmark.lost fun ev hev => (hlost ev hev).2
    obtain rfl := hfm.split
    exact not_truthful_of_unmarked (fun ev hev => (hlost ev hev).1) hfin

/-- An archive with one live record, of one byte. -/
def oneRecord : Bytes := encode [newEntry nameB oneByteStat [1] stSize_oneByteStat]

def oneRecordArchive : Fs := .flat [(nameA, .file oneRecord)]

/-- A file system call by call: the seek back to a record fails. -/
def seekBackFails : Sys → Outcome
  | .lseek _ _ .set => .fail
  | _ => .ok

theorem extraction_reported : ∃ tr s',
    Runs exec (.boot oneRecordArchive 0o22) (extractAndRemoveFile nameA nameB) tr s' (.ret ()) ∧
      extractedLine nameB ∈ s'.proc.stdout ∧ Truthful s'.fs nameA nameB oneRecord := by
  have hrun : ((extractAndRemoveFile nameA nameB).run exec (fun ev => storesMark archiveFd ev)
      (fun _ => .ok) 60 (.boot oneRecordArchive 0o22)).map
        (fun p => decide (extractedLine nameB ∈ p.1.proc.stdout)) = some true := by decide +kernel
  obtain ⟨tr, s', _, hruns, htr, hrep⟩ := exists_run_of_map hrun
  have hrep := of_decide_eq_true hrep
  exact ⟨tr, s', hruns, hrep, (reported_extraction_truthful rfl (wellFormed_encode _)
    (fun h => absurd h (by decide)) hruns hrep).1 htr⟩

/-- Where the seek back to the record fails, success is reported of a record that stays. -/
theorem unmarked_record_reported : oneRecordArchive.content nameA = some oneRecord ∧
    WellFormed oneRecord ∧ ∃ tr s',
      Runs exec (.boot oneRecordArchive 0o22) (extractAndRemoveFile nameA nameB) tr s' (.ret ()) ∧
        extractedLine nameB ∈ s'.proc.stdout ∧ ¬ Truthful s'.fs nameA nameB oneRecord := by
  have hrun : ((extractAndRemoveFile nameA nameB).run exec AnyOutcome seekBackFails 60
      (.boot oneRecordArchive 0o22)).map (fun p =>
        (decide (extractedLine nameB ∈ p.1.proc.stdout), p.1.fs.content nameA)) =
      some (true, some oneRecord) := by decide +kernel
  obtain ⟨tr, s', _, hruns, -, hx⟩ := exists_run_of_map hrun
  obtain ⟨hrep, hcontent⟩ := Prod.mk.inj hx
  exact ⟨rfl, wellFormed_encode _, tr, s', hruns, of_decide_eq_true hrep,
    not_truthful_of_items hcontent rfl⟩

end LabsOS.Archiver
