import LabsOS.Archiver.Reported
import LabsOS.Archiver.Calls
import LabsOS.Kernel.Metadata

/-!
# The attributes of an extracted file

`apply_original_attributes` sets the mode before the owner, and a change of owner clears
set-user-ID, and set-group-ID where the group may execute. Everything else that the header
records is restored, and nothing that follows in an extraction touches the file again:
`extracted_attributes_iff`.
-/

namespace LabsOS.Archiver

variable {E : SysEvent → Prop} {s s' : State} {fs : Fs} {arc name : CString} {a j : Ino}
variable {fd out : Fd} {st recorded : Stat} {es : List Entry} {c : Sys}

/-- The path leads to the inode `j`, whose metadata is `st`. -/
structure Describes (fs : Fs) (path : CString) (j : Ino) (st : Stat) : Prop where
  inodeOf : fs.inodeOf path = some j
  statAt  : fs.statAt j = some st

theorem Describes.attributes (h : Describes fs name j st) :
    fs.attributes name = some st.attributes := Fs.attributes_eq h.inodeOf h.statAt

-- ---------------------------------------------------------------------------
-- Calls that keep the metadata
-- ---------------------------------------------------------------------------

/-- Moving data changes the content of one file at most. -/
theorem fs_transfer (o : Outcome) (hc : c.Transfer) :
    (exec o s c).1.fs = s.fs ∨ ∃ i d, (exec o s c).1.fs = s.fs.setData i d := by
  cases c with
  | read fd count =>
    refine .inl ?_
    show (s.sysRead o fd count).1.fs = s.fs
    unfold State.sysRead
    repeat' split
    all_goals rfl
  | write fd buf =>
    show (s.sysWrite o fd buf).1.fs = s.fs ∨ ∃ i d, (s.sysWrite o fd buf).1.fs = s.fs.setData i d
    unfold State.sysWrite
    repeat' split
    all_goals try exact .inl rfl
    exact .inr ⟨_, _, rfl⟩
  | lseek fd offset whence =>
    refine .inl ?_
    show (s.sysLseek o fd offset whence).1.fs = s.fs
    unfold State.sysLseek
    repeat' split
    all_goals rfl
  | close _ | fsync _ | fprintfErr _ _ => exact .inl rfl
  | _ => exact hc.elim

theorem describes_transfer (o : Outcome) (s : State) (c : Sys) (hc : c.Transfer)
    (h : Describes s.fs name j st) : Describes (exec o s c).1.fs name j st := by
  rcases fs_transfer (s := s) o hc with hfs | ⟨i, d, hfs⟩
  · rw [hfs]
    exact h
  · rw [hfs]
    exact ⟨(Fs.inodeOf_setData _ _).trans h.inodeOf, (Fs.statAt_setData d).trans h.statAt⟩

/-- A program that only moves data keeps the metadata of the files. -/
theorem describes_of_transfer {α : Type} {p : Posix α} (hp : p.Calls Sys.Transfer)
    (h : Describes s.fs name j st) :
    Spec exec E (fun _ => True) s p fun _ s' => Describes s'.fs name j st :=
  (Spec.of_calls (I := fun s : State => Describes s.fs name j st) describes_transfer hp h).weaken
    (fun _ => id) fun _ _ => trivial

/-- A program without calls that change metadata keeps it. -/
theorem statAt_of_calls {α : Type} {p : Posix α} (hp : p.Calls fun c => ¬ c.Metadata)
    (hst : s.fs.statAt j = some st) :
    Spec exec E (fun _ => True) s p fun _ s' => s'.fs.statAt j = some st := by
  have hkeep : ∀ (o : Outcome) (s : State) (c : Sys), ¬ c.Metadata → s.fs.statAt j = some st →
      (exec o s c).1.fs.statAt j = some st := fun o s c hc h => statAt_exec o hc h
  exact (Spec.of_calls (I := fun s : State => s.fs.statAt j = some st) hkeep hp hst).weaken
    (fun _ => id) fun _ _ => trivial

theorem mkstemp_file {o : Outcome} {template : String} {path : CString}
    (h : (s.sysMkstemp o template).2 = some (fd, path)) :
    ∃ f, (s.sysMkstemp o template).1.file fd = some f ∧ f.ino = s.fs.inodes.length := by
  unfold State.sysMkstemp at h ⊢
  dsimp only at h ⊢
  split
  · next hfree =>
    rw [if_pos hfree] at h
    obtain ⟨rfl, -⟩ := Prod.mk.inj (Option.some.inj h)
    exact ⟨_, State.file_addFile_self, rfl⟩
  · next hfree =>
    rw [if_neg hfree] at h
    cases h

/-- The temporary file is no file there was. -/
theorem mkstemp_ne {o : Outcome} {template : String} {path : CString}
    (hst : s.fs.statAt j = some st) (h : (s.sysMkstemp o template).2 = some (fd, path)) :
    ∃ f, (s.sysMkstemp o template).1.file fd = some f ∧ f.ino ≠ j := by
  obtain ⟨f, hf, hino⟩ := mkstemp_file h
  obtain ⟨nd, hnd, -⟩ := Option.map_eq_some_iff.mp hst
  have hlt : j < s.fs.inodes.length := (List.getElem?_eq_some_iff.mp hnd).1
  exact ⟨f, hf, hino.trans_ne hlt.ne'⟩

/-- The mode of another file is set. -/
theorem fchmod_statAt {f : OpenFile} (o : Outcome) (mode : Nat) (hf : s.file fd = some f)
    (hino : f.ino ≠ j) (hst : s.fs.statAt j = some st) :
    (exec o s (.fchmod fd mode)).1.fs.statAt j = some st := by
  show (s.changeStat o ((s.file fd).map OpenFile.ino) _).1.fs.statAt j = some st
  rw [hf, Option.map_some]
  rcases s.changeStat_cases o (some f.ino) (State.chmodStat mode) with ⟨i, hi, h⟩ | h
  · rw [h]
    cases hi
    exact (Fs.statAt_setStat_ne hino _).trans hst
  · rw [h]
    exact hst

/-- The compaction sets the mode of its temporary file, and of no file there was. -/
theorem compressArchiveFile_statAt (hst : s.fs.statAt j = some st) :
    Spec exec E (fun _ => True) s (compressArchiveFile arc) fun _ s' =>
      s'.fs.statAt j = some st := by
  apply Spec.call trivial
  intro o _
  have hst₁ := statAt_exec (c := .openFile arc { read := true } 0) o id hst
  generalize exec o s (.openFile arc { read := true } 0) = opened at hst₁ ⊢
  obtain ⟨s₁, r⟩ := opened
  cases r with
  | none => exact statAt_of_calls ⟨id, fun _ => trivial⟩ hst₁
  | some input =>
    apply Spec.call trivial
    intro o _
    have hst₂ := statAt_exec (c := .mkstemp "archiver_temp_XXXXXX") o id hst₁
    have hfile : ∀ fd path, (exec o s₁ (.mkstemp "archiver_temp_XXXXXX")).2 = some (fd, path) →
        ∃ f, (exec o s₁ (.mkstemp "archiver_temp_XXXXXX")).1.file fd = some f ∧ f.ino ≠ j :=
      fun fd path hfd => mkstemp_ne hst₁ hfd
    generalize exec o s₁ (.mkstemp "archiver_temp_XXXXXX") = made at hst₂ hfile ⊢
    obtain ⟨s₂, r⟩ := made
    rcases r with _ | ⟨temp, path⟩
    · exact statAt_of_calls ⟨id, fun _ => ⟨id, fun _ => trivial⟩⟩ hst₂
    · obtain ⟨f, hf, hino⟩ := hfile temp path rfl
      have hrest : ((Prog.while_ (compressRound input temp) ()).bind
          (compressFinish arc input temp path)).Calls fun c => ¬ c.Metadata :=
        compressReplace_calls (fun c hc hmeta => by cases c <;> trivial) arc input temp path
          (fun _ => id) fun _ _ => id
      apply Spec.call trivial
      intro o _
      generalize hstat : (exec o s₂ (.fstat input)).2 = r
      show Spec _ _ _ s₂ _ _
      cases r with
      | none => exact statAt_of_calls hrest hst₂
      | some attributes =>
        exact Spec.call trivial fun o _ =>
          statAt_of_calls hrest (fchmod_statAt o attributes.stMode hf hino hst₂)

-- ---------------------------------------------------------------------------
-- Restoring
-- ---------------------------------------------------------------------------

/-- The process is allowed to change the metadata of a file. -/
def AllowsMetadata : SysEvent → Prop
  | ⟨.chmod .., _, r⟩ => r = true
  | ⟨.chown .., _, r⟩ => r = true
  | ⟨.utime .., _, r⟩ => r = true
  | _ => True

instance : DecidablePred AllowsMetadata
  | ⟨.chmod .., _, r⟩ => inferInstanceAs (Decidable (r = true))
  | ⟨.chown .., _, r⟩ => inferInstanceAs (Decidable (r = true))
  | ⟨.utime .., _, r⟩ => inferInstanceAs (Decidable (r = true))
  | ⟨.openFile .., _, _⟩ | ⟨.close _, _, _⟩ | ⟨.read .., _, _⟩ | ⟨.write .., _, _⟩
  | ⟨.lseek .., _, _⟩ | ⟨.fstat _, _, _⟩ | ⟨.stat _, _, _⟩ | ⟨.fchmod .., _, _⟩
  | ⟨.fsync _, _, _⟩ | ⟨.mkstemp _, _, _⟩ | ⟨.rename .., _, _⟩ | ⟨.unlink _, _, _⟩
  | ⟨.strftimeLocal _, _, _⟩ | ⟨.printf .., _, _⟩ | ⟨.fprintfErr .., _, _⟩ => .isTrue trivial

/-- A change of metadata that is allowed is made. -/
theorem changeStat_allowed {o : Outcome} {f : Stat → Stat} (h : Describes s.fs name j st)
    (hr : (s.changeStat o (s.fs.inodeOf name) f).2 = true) :
    s.changeStat o (s.fs.inodeOf name) f = (s.withFs (s.fs.setStat j f), true) := by
  rw [h.inodeOf] at hr ⊢
  rcases s.changeStat_cases o (some j) f with ⟨i, hi, hchange⟩ | hchange
  · cases hi
    exact hchange
  · rw [hchange] at hr
    cases hr

theorem Describes.setStat (h : Describes fs name j st) (f : Stat → Stat) :
    Describes (fs.setStat j f) name j (f st) :=
  ⟨(Fs.inodeOf_setStat _ _ _).trans h.inodeOf, Fs.statAt_setStat_self h.statAt f⟩

/-- A call that changes the metadata of `j` as `f` does. -/
theorem spec_setStat {α : Type} {k : c.Resp → Posix α} {f : Stat → Stat} {r : c.Resp}
    {Q : α → State → Prop}
    (hc : ∀ o, E ⟨c, o, (exec o s c).2⟩ → exec o s c = (s.withFs (s.fs.setStat j f), r))
    (hk : Spec exec E (fun _ => True) (s.withFs (s.fs.setStat j f)) (k r) Q) :
    Spec exec E (fun _ => True) s (.call c k) Q := by
  apply Spec.call trivial
  intro o ho
  rw [hc o ho]
  exact hk

theorem applyOriginalAttributes_restores (hE : ∀ ev, E ev → AllowsMetadata ev)
    (h : Describes s.fs name j st) :
    Spec exec E (fun _ => True) s (applyOriginalAttributes name recorded) fun _ s' =>
      Describes s'.fs name j (restoredStat recorded st) := by
  have h₁ := h.setStat (State.chmodStat recorded.stMode)
  have h₂ := h₁.setStat (State.chownStat recorded.stUid recorded.stGid)
  have h₃ := h₂.setStat (Stat.setTimes · recorded.stAtime recorded.stMtime)
  refine spec_setStat (c := .chmod name recorded.stMode) (r := true)
    (fun o ho => changeStat_allowed h (hE _ ho)) ?_
  refine spec_setStat (c := .chown name recorded.stUid recorded.stGid) (r := true)
    (fun o ho => changeStat_allowed (s := s.withFs _) h₁ (hE _ ho)) ?_
  refine spec_setStat (c := .utime name recorded.stAtime recorded.stMtime) (r := true)
    (fun o ho => changeStat_allowed (s := (s.withFs _).withFs _) h₂ (hE _ ho)) ?_
  exact Spec.ret trivial h₃

/-- The record that was asked for, once its output file is open: its attributes are restored
before the mark of deletion is written. -/
theorem extractTo_restores {recordStart : Nat} {record : ArchiveRecord}
    (hE : ∀ ev, E ev → AllowsMetadata ev) (h : Describes s.fs record.path j st) :
    Spec exec E (fun _ => True) s (extractTo fd out recordStart record) fun exit s' =>
      exit = .extracted → Describes s'.fs record.path j (restoredStat record.fileStats st) := by
  refine Spec.bind (describes_of_transfer (duplicateContent_calls (fun _ => id) ..) h)
    fun ok s₁ h₁ => ?_
  cases ok with
  | false => exact Spec.fprintfErr trivial (Spec.close trivial fun _ => Spec.ret trivial nofun)
  | true =>
    refine Spec.close trivial fun _ => Spec.ret_bind ?_
    refine Spec.bind (applyOriginalAttributes_restores (s := s₁.setFile out none) hE h₁)
      fun _ s₂ h₂ => ?_
    refine Spec.bind (describes_of_transfer (writeMark_calls (fun _ => id) ..) h₂)
      fun _ s₃ h₃ => Spec.ret trivial fun _ => h₃

-- ---------------------------------------------------------------------------
-- The whole function
-- ---------------------------------------------------------------------------

/-- When the loop is left with the record copied out, its attributes are restored. -/
def AttributesLeft (name : CString) (es : List Entry) : ExtractExit → State → Prop
  | .broke _, _ => True
  | .extracted, s' => ∃ pre m post j st, FirstMatch name es pre m post ∧
      Describes s'.fs name j (restoredStat m.header.fileStats st)

theorem extractLoop_restores (hf : s.file fd = some ⟨a, 0, { read := true, write := true }⟩)
    (harc : Holds s arc a (encode es)) (hE : ∀ ev, E ev → AllowsMetadata ev) :
    Spec exec E (fun _ => True) s (Prog.while_ (extractRound fd name) ())
      (AttributesLeft name es) := by
  refine extractScan_spec hf rfl rfl harc.data (fun _ _ _ => trivial) (fun _ _ _ _ => trivial) ?_
  intro pre m post hfm
  have hpath : m.header.path = name := hfm.found.1
  refine extractRecord_of_opened hpath (seekState_file hf _) (fun _ _ => trivial)
    (fun _ _ _ _ => trivial) fun fs' j _ hopen => ?_
  have hst : ∃ st, fs'.statAt j = some st := by
    obtain ⟨nd, hnd, -⟩ := Fs.data_eq_some.mp hopen.data_self
    exact ⟨nd.stat, congrArg (Option.map Inode.stat) hnd⟩
  obtain ⟨st, hst⟩ := hst
  refine (extractTo_restores hE ⟨?_, hst⟩).mono ?_
  · rw [hpath]
    exact hopen.inodeOf_self
  · intro exit s' h
    cases exit with
    | broke _ => trivial
    | extracted => exact ⟨pre, m, post, j, st, hfm, hpath ▸ h rfl⟩

/-- The end of an extraction keeps the metadata of another file than the archive. -/
theorem extractFinish_describes {d : Bytes} (harc : Holds s arc a (encode es)) (hj : j ≠ a)
    (hout : Holds s name j d) (h : Describes s.fs name j st) :
    Spec exec E (fun _ => True) s (extractFinish fd arc name) fun _ s' =>
      Describes s'.fs name j st := by
  have hboth := ((compressArchiveFile_encode_spec (E := E) (s := s.setFile fd none) harc.inodeOf
    harc.data).and (compressArchiveFile_statAt (s := s.setFile fd none) h.statAt)).weaken
      (fun _ => id) fun _ _ => trivial
  refine (extractFinish_of_compress (P := fun fs => Describes fs name j st)
    (hboth.mono fun ok s₁ h₁ => ?_)).mono fun _ _ h => h.1
  obtain ⟨hkept, hst⟩ := h₁
  have hne : (s.setFile fd none).fs.inodeOf arc ≠ some j := by
    rw [State.fs_setFile, harc.inodeOf]
    exact fun h => hj (Option.some.inj h).symm
  cases ok with
  | false => exact ⟨((hkept.failed rfl).files name j d hout.inodeOf hne hout.data).1, hst⟩
  | true =>
    obtain ⟨pre, -, -, hkeeps⟩ := hkept.replaced rfl
    exact ⟨(hkeeps.files name j d hout.inodeOf hne hout.data).1, hst⟩

/-- An extraction of a name that does not lead to the archive reports success only after the
attributes of the record were restored. -/
theorem extract_restores_spec (harc : Holds s arc a (encode es))
    (hname : s.fs.inodeOf name ≠ some a) (hE : ∀ ev, E ev → AllowsMetadata ev) :
    Spec exec E (fun _ => True) s (extractAndRemoveFile arc name) fun _ s' =>
      Unreported (extractedLine name) s s' ∨ ∃ pre m post j st, FirstMatch name es pre m post ∧
        Describes s'.fs name j (restoredStat m.header.fileStats st) := by
  have hloop := ((extractLoop_spec (E := E) (I := fun _ => True) (s := s.addFile _)
    State.file_addFile_self (harc.congr rfl) hname (fun _ _ => trivial)
      fun _ _ _ _ _ _ _ _ => trivial).and
    (extractLoop_restores State.file_addFile_self (harc.congr rfl) hE)).weaken
      (fun _ => id) fun _ _ => trivial
  refine extractAndRemoveFile_of_loop harc (fun _ _ => trivial) (fun _ _ hunrep _ => .inl hunrep)
    hloop (fun _ _ _ _ _ => trivial) ?_ ?_
  · rintro _ s₁ s' ⟨⟨-, hunrep, -⟩, -⟩ - hunrep'
    exact .inl (hunrep.trans hunrep')
  · rintro s₁ ⟨⟨_, _, _, es', -, -, -, hcopied⟩, pre, m, post, j, st, hfm, h⟩
    obtain ⟨harc₁, ⟨i, hi, hout⟩, -⟩ := hcopied
    obtain rfl : i = j := Option.some.inj (hout.inodeOf.symm.trans h.inodeOf)
    exact (extractFinish_describes harc₁ hi hout h).mono fun _ s₂ h₂ =>
      .inr ⟨pre, m, post, i, st, hfm, h₂⟩

/-- **The attributes of an extracted file.** After an extraction that reports success, by a
process that may change them, the file at the path of the record has the attributes of the
record, whose owner is one a file can have, if and only if the change of the owner leaves its
mode. A record with data is never extracted to the archive itself; a record without data
that leads there leaves no file of its own. -/
theorem extracted_attributes_iff {B : Bytes} {umask : Nat} {tr : List SysEvent} {it : Item}
    (hB : fs.content arc = some B) (hwf : WellFormed B)
    (hit : (items B).find? (Item.named name) = some it) (howned : it.stat.Owned)
    (hself : fs.SameFile name arc → it.data ≠ [])
    (hrun : Runs exec (.boot fs umask) (extractAndRemoveFile arc name) tr s' (.ret ()))
    (hallowed : ∀ ev ∈ tr, AllowsMetadata ev) (hrep : extractedLine name ∈ s'.proc.stdout) :
    s'.fs.attributes name = some it.stat.attributes ↔ SurvivesChown it.stat.stMode := by
  obtain ⟨es, rfl⟩ := wellFormed_iff.mp hwf
  obtain ⟨a, harc⟩ := exists_holds (s := State.boot fs umask) hB
  rw [items_encode] at hit
  have hitem : ∀ {pre m post}, FirstMatch name es pre m post → m.item = it := fun hfm =>
    Option.some.inj (hfm.find?_liveItems.symm.trans hit)
  by_cases hsame : fs.SameFile name arc
  · have hspec := extract_self_spec (E := AnyOutcome) harc (inodeOf_of_sameFile hsame harc.inodeOf)
      fun pre m post hfm hnil => hself hsame (by rw [← hitem hfm]; exact hnil)
    exact absurd hrep ((hspec tr s' _ hrun fun _ _ => trivial).2 () rfl).not_mem
  · have hspec := extract_restores_spec (E := (· ∈ tr)) harc
      (inodeOf_ne_of_not_sameFile hsame harc.inodeOf) hallowed
    rcases (hspec tr s' _ hrun fun _ => id).2 () rfl with
      hunrep | ⟨pre, m, post, j, st, hfm, h⟩
    · exact absurd hrep hunrep.not_mem
    · have hstat : m.header.fileStats = it.stat := congrArg Item.stat (hitem hfm)
      rw [h.attributes, Option.some.injEq, hstat]
      exact attributes_restoredStat howned st

/-- The metadata of a file of one byte with the mode `mode`. -/
def modeStat (mode : Nat) : Stat := (Stat.created mode).setSize 1

theorem stSize_modeStat (mode : Nat) : (modeStat mode).stSize = 1 :=
  Stat.stSize_setSize _ (by decide)

/-- An archive with one record, of a file of one byte. -/
def modeArchive (mode : Nat) : Bytes :=
  encode [newEntry nameB (modeStat mode) [1] (stSize_modeStat mode)]

theorem find?_modeArchive (mode : Nat) :
    (items (modeArchive mode)).find? (Item.named nameB) = some ⟨nameB, modeStat mode, [1]⟩ := by
  rw [modeArchive, items_encode, liveItems_newEntry (stSize_modeStat mode) (by decide)]
  exact List.find?_cons_of_pos (decide_eq_true rfl)

/-- What is left of an extraction in which every call is carried out. -/
theorem run_modeArchive (mode : Nat) (restored : Bool)
    (h : ((extractAndRemoveFile nameA nameB).run exec AllowsMetadata (fun _ => .ok) 60
      (.boot (.flat [(nameA, .file (modeArchive mode))]) 0o22)).map (fun p =>
        (decide (extractedLine nameB ∈ p.1.proc.stdout),
          decide (p.1.fs.attributes nameB = some (modeStat mode).attributes))) =
      some (true, restored)) :
    ∃ tr s', Runs exec (.boot (.flat [(nameA, .file (modeArchive mode))]) 0o22)
        (extractAndRemoveFile nameA nameB) tr s' (.ret ()) ∧
      (∀ ev ∈ tr, AllowsMetadata ev) ∧ extractedLine nameB ∈ s'.proc.stdout ∧
      decide (s'.fs.attributes nameB = some (modeStat mode).attributes) = restored := by
  obtain ⟨tr, s', _, hruns, htr, hx⟩ := exists_run_of_map h
  obtain ⟨hrep, hrestored⟩ := Prod.mk.inj hx
  exact ⟨tr, s', hruns, htr, of_decide_eq_true hrep, hrestored⟩

/-- A file of mode 0644. -/
theorem extracted_attributes_plain : ∃ tr s',
    Runs exec (.boot (.flat [(nameA, .file (modeArchive 0o644))]) 0o22)
      (extractAndRemoveFile nameA nameB) tr s' (.ret ()) ∧
    (s'.fs.attributes nameB = some (modeStat 0o644).attributes ↔
      SurvivesChown (modeStat 0o644).stMode) := by
  obtain ⟨tr, s', hruns, htr, hrep, -⟩ :=
    run_modeArchive 0o644 true (by decide +kernel)
  exact ⟨tr, s', hruns, extracted_attributes_iff rfl (wellFormed_encode _)
    (find?_modeArchive 0o644) (by decide) (fun _ => List.cons_ne_nil _ _) hruns htr hrep⟩

/-- A file of mode 04755 comes back without set-user-ID. -/
theorem extracted_setuid_lost :
    WellFormed (modeArchive 0o4755) ∧
    (items (modeArchive 0o4755)).find? (Item.named nameB) = some ⟨nameB, modeStat 0o4755, [1]⟩ ∧
    ∃ tr s', Runs exec (.boot (.flat [(nameA, .file (modeArchive 0o4755))]) 0o22)
        (extractAndRemoveFile nameA nameB) tr s' (.ret ()) ∧
      (∀ ev ∈ tr, AllowsMetadata ev) ∧ extractedLine nameB ∈ s'.proc.stdout ∧
      s'.fs.attributes nameB ≠ some (modeStat 0o4755).attributes := by
  obtain ⟨tr, s', hruns, htr, hrep, hlost⟩ :=
    run_modeArchive 0o4755 false (by decide +kernel)
  exact ⟨wellFormed_encode _, find?_modeArchive _, tr, s', hruns, htr, hrep,
    of_decide_eq_false hlost⟩

end LabsOS.Archiver
