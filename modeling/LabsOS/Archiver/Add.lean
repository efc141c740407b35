import LabsOS.Archiver.Archive
import LabsOS.Archiver.Copy
import LabsOS.Archiver.Format

/-!
# Addition

`add_file_to_archive` only appends, whatever its system calls do: the archive
grows by a complete record exactly when success is reported, and otherwise by
nothing or by the beginning of a record (`addFileToArchive_spec`). Of a regular
file that is not the archive, the record is the file (`addFileToArchive_regular`).
-/

namespace LabsOS.Archiver

section Add

variable {E : SysEvent → Prop}
variable {s s' s'' : State} {src dst : Fd} {fi : OpenFile} {arc target : CString} {a i : Ino}
variable {B O D d w v : Bytes}

-- ---------------------------------------------------------------------------
-- Appending
-- ---------------------------------------------------------------------------

/-- `s'` is `s` after `w` was appended to the file `i` with content `d`; `dst` still
writes at its end. -/
structure Grown (s s' : State) (dst : Fd) (i : Ino) (d w : Bytes) : Prop where
  fs      : s'.fs = s.fs.setData i (d ++ w)
  atEnd   : WritesAtEnd s' dst i (d ++ w)
  stdout  : s'.proc.stdout = s.proc.stdout
  written : s'.proc.written = s.proc.written + w.length

theorem Appended.grown (h : Appended s s' dst i d w) : Grown s s' dst i d w :=
  ⟨h.fs, h.atEnd, h.stdout, h.written⟩

theorem Copied.grown {r n : Nat} (h : Copied s s' src dst fi D i O r n) (hr : n ≤ r)
    (hD : r ≤ (D.drop fi.pos).length) :
    Grown s s' dst i O ((D.drop fi.pos).take n) :=
  ⟨h.fs, h.atEnd, h.stdout, by rw [h.written, List.length_take, min_eq_left (hr.trans hD)]⟩

theorem Grown.trans (h : Grown s s' dst i d w) (h' : Grown s' s'' dst i (d ++ w) v) :
    Grown s s'' dst i d (w ++ v) := by
  refine ⟨?_, ?_, h'.stdout.trans h.stdout, ?_⟩
  · rw [h'.fs, h.fs, Fs.setData_setData, List.append_assoc]
  · rw [← List.append_assoc]
    exact h'.atEnd
  · rw [h'.written, h.written, List.length_append, Nat.add_assoc]

/-- `duplicateContent` from any source appends as many bytes as it was asked for,
or fewer and fails. -/
theorem duplicateContent_any {total : Int} (hdst : WritesAtEnd s dst i O) (hfd : src ≠ dst) :
    Spec exec E (fun _ => True) s (duplicateContent src dst total) fun ok s' =>
      ∃ d, Grown s s' dst i O d ∧ (ok = true → d.length = total.toNat) ∧
        (ok = false → d.length < total.toNat) := by
  have hzero : Grown s s dst i O [] := (Appended.refl hdst).grown
  refine Spec.loop (fun rem s' => ∃ d, rem = total - d.length ∧ d.length ≤ total.toNat ∧
    Grown s s' dst i O d) ?_ ⟨[], by simp, Nat.zero_le _, hzero⟩
  rintro rem s' ⟨d, rfl, hle, hg⟩
  split
  · exact Spec.ret trivial (Spec.ret trivial ⟨d, hg, fun _ => by omega, nofun⟩)
  next hmore =>
  have hlt : d.length < total.toNat := by omega
  have hchunk := chunkSize_le (total - d.length)
  refine Spec.read_any trivial (Spec.ret trivial (Spec.ret trivial ⟨d, hg, nofun, fun _ => hlt⟩))
    fun f buf hf hbuf => ?_
  have hread : Grown s (s'.afterRead src f buf) dst i O d := by
    obtain ⟨hd, g, hg', hrest⟩ := hg.atEnd
    exact ⟨hg.fs, ⟨hd, g, (State.file_setFile_ne hfd.symm _).trans hg', hrest⟩, hg.stdout, hg.written⟩
  cases buf with
  | nil => exact Spec.ret trivial (Spec.ret trivial ⟨d, hread, nofun, fun _ => hlt⟩)
  | cons x xs =>
    refine Spec.ret_bind (Spec.bind (completeWrite_spec hread.atEnd fun _ _ _ _ => trivial) ?_)
    rintro ok s₁ ⟨n, hn, ha, hok, hbad⟩
    have hg₁ := hread.trans ha.grown
    have hlen : ((x :: xs).take n).length = n := by rw [List.length_take, min_eq_left hn]
    cases ok with
    | false =>
      have hshort := (hbad rfl).1
      exact Spec.ret trivial (Spec.ret trivial ⟨_, hg₁, nofun, fun _ => by
        rw [List.length_append, hlen]; omega⟩)
    | true =>
      have hall := hok rfl
      refine Spec.ret trivial ⟨_, ?_, ?_, hg₁⟩
      · rw [List.length_append, hlen, hall]
        push_cast
        omega
      · rw [List.length_append, hlen, hall]
        omega

-- ---------------------------------------------------------------------------
-- The record of a file
-- ---------------------------------------------------------------------------

/-- From `s` to `s'`, `w` was appended to the archive at `arc` with content `B`, and
no other byte was stored. -/
structure Added (s s' : State) (arc : CString) (B w : Bytes) : Prop where
  archive : archiveBytes s'.fs arc = some (B ++ w)
  written : s'.proc.written = s.proc.written + w.length

theorem Grown.added (h : Grown s s' dst a B w) (harc : s.fs.inodeOf arc = some a) :
    Added s s' arc B w := by
  refine ⟨archiveBytes_of_content ?_, h.written⟩
  rw [content_of_inodeOf (i := a) (by rw [h.fs, Fs.inodeOf_setData, harc]), h.atEnd.data]

theorem Added.congr (h : Added s s' arc B w) (hfs : s''.fs = s'.fs)
    (hw : s''.proc.written = s'.proc.written) : Added s s'' arc B w :=
  ⟨by rw [hfs, h.archive], hw.trans h.written⟩

theorem Added.nil (hB : archiveBytes s'.fs arc = some B)
    (hw : s'.proc.written = s.proc.written) : Added s s' arc B [] :=
  ⟨by rw [hB, List.append_nil], by simp [hw]⟩

/-- What an addition to an archive with content `B` may come to: a complete record
of `target`, whose data satisfies `P`, and a report of success, or the beginning
of a record and none. `C` says that the source is there and can be copied whole. -/
inductive AddDone (E : SysEvent → Prop) (P : Inode → Bytes → Prop) (C : Prop) (s : State)
    (arc target : CString) (B : Bytes) (s' : State) : Prop where
  | added (nd : Inode) (d : Bytes) : P nd d → target.bytes.length < pathSize →
      d.length = nd.fstat.stSize.toNat →
      Added s s' arc B ((ArchiveRecord.new target nd.fstat).bytes ++ d) →
      s'.proc.stdout = s.proc.stdout ++ [addedLine target arc] → AddDone E P C s arc target B s'
  | failed (w : Bytes) : readEntry w = none → Added s s' arc B w →
      Unreported (addedLine target arc) s s' →
      (Faultless E → target.bytes.length < pathSize → ¬ C) → AddDone E P C s arc target B s'

variable {P : Inode → Bytes → Prop} {C : Prop}

/-- A failure before anything is written. -/
theorem AddDone.unchanged (hB : archiveBytes s'.fs arc = some B)
    (hw : s'.proc.written = s.proc.written) (hun : Unreported (addedLine target arc) s s')
    (hC : Faultless E → target.bytes.length < pathSize → ¬ C) :
    AddDone E P C s arc target B s' :=
  .failed [] (readEntry_short (by decide)) (.nil hB hw) hun hC

theorem stSize_new (target : CString) (stats : Stat) :
    (ArchiveRecord.new target stats).stSize = stats.stSize := by
  rw [ArchiveRecord.stSize, ArchiveRecord.fileStats_new]

theorem closeBoth_spec {fd₁ fd₂ : Fd} {Q : State → Prop}
    (h : ∀ s', s'.fs = s.fs → s'.proc.stdout = s.proc.stdout →
      s'.proc.written = s.proc.written → Q s') :
    Spec exec E (fun _ => True) s (closeBoth fd₁ fd₂) fun _ s' => Q s' :=
  Spec.close trivial fun _ => Spec.close trivial fun _ => Spec.ret trivial (h _ rfl rfl rfl)

/-- Appending a file whose copying is understood. -/
theorem appendFile_spec {nd : Inode} (hdst : WritesAtEnd s dst a B)
    (harc : s.fs.inodeOf arc = some a) (hsrc : s.inodeAt src = some nd)
    (hcopy : ∀ s₁, (∃ o, E ⟨.fstat src, o, some nd.fstat⟩) →
      Appended s s₁ dst a B (ArchiveRecord.new target nd.fstat).bytes →
      Spec exec E (fun _ => True) s₁
        (duplicateContent src dst (ArchiveRecord.new target nd.fstat).stSize) fun ok s₂ =>
        ∃ d, Grown s₁ s₂ dst a (B ++ (ArchiveRecord.new target nd.fstat).bytes) d ∧
          (ok = true → d.length = nd.fstat.stSize.toNat ∧ P nd d) ∧
          (ok = false → d.length < nd.fstat.stSize.toNat ∧ (Faultless E → ¬ C))) :
    Spec exec E (fun _ => True) s (appendFile arc target dst src) fun _ s' =>
      AddDone E P C s arc target B s' := by
  have hB : ∀ s' : State, s'.fs = s.fs → archiveBytes s'.fs arc = some B := fun s' hfs =>
    archiveBytes_of_content (by rw [hfs, content_of_inodeOf harc, hdst.data])
  rw [appendFile]
  split
  · next hlong =>
    refine Spec.printf trivial (Spec.ret_bind (closeBoth_spec fun s' hfs hout hw => ?_))
    refine .unchanged (hB s' hfs) hw
      (((Unreported.of_eq rfl).printed _ (by simp [addedLine])).congr hout) ?_
    exact fun _ hlen => absurd hlong (Nat.not_le.mpr hlen)
  next hshort =>
  refine Spec.fstat trivial (fun o hev ho => ?_) fun o nd' hnd hev => ?_
  · refine Spec.fprintfErr trivial (Spec.ret_bind (closeBoth_spec fun s' hfs hout hw => ?_))
    refine .unchanged (hB s' hfs) hw (.of_eq hout) ?_
    intro hE
    rcases ho with rfl | hnone
    · cases hE _ hev
    · rw [hsrc] at hnone
      cases hnone
  obtain rfl := Option.some.inj (hsrc.symm.trans hnd)
  refine Spec.ret_bind (Spec.bind (completeWrite_spec hdst fun _ _ _ _ => trivial) ?_)
  rintro ok s₁ ⟨n, hn, ha, hok, hbad⟩
  have hsize := (ArchiveRecord.new target nd.fstat).size_eq
  cases ok with
  | false =>
    -- the header was not written in full
    obtain ⟨hlt, hfault⟩ := hbad rfl
    have htorn : readEntry ((ArchiveRecord.new target nd.fstat).bytes.take n) = none :=
      readEntry_short (by rw [List.length_take]; omega)
    refine Spec.fprintfErr trivial (Spec.ret_bind (closeBoth_spec fun s' hfs hout hw => ?_))
    exact .failed _ htorn ((ha.grown.added harc).congr hfs hw) (.of_eq (hout.trans ha.stdout))
      fun hE => absurd hE hfault
  | true =>
    rw [hok rfl, List.take_length] at ha
    have hstSize := stSize_new target nd.fstat
    refine Spec.bind (hcopy s₁ ⟨o, hev⟩ ha) ?_
    rintro ok s₂ ⟨d, hg, hok, hbad⟩
    have hall := ha.grown.trans hg
    cases ok with
    | false =>
      -- the data was not written in full
      obtain ⟨hlt, hC⟩ := hbad rfl
      have htorn : readEntry ((ArchiveRecord.new target nd.fstat).bytes ++ d) = none :=
        readEntry_cut (by rw [hstSize]; omega)
      refine Spec.fprintfErr trivial (Spec.ret_bind (closeBoth_spec fun s' hfs hout hw => ?_))
      exact .failed _ htorn ((hall.added harc).congr hfs hw) (.of_eq (hout.trans hall.stdout))
        fun hE _ => hC hE
    | true =>
      obtain ⟨hd, hP⟩ := hok rfl
      refine Spec.printf trivial (Spec.ret_bind (closeBoth_spec fun s' hfs hout hw => ?_))
      refine .added nd d hP (Nat.not_le.mp hshort) hd ((hall.added harc).congr hfs hw) ?_
      rw [hout, State.stdout_printed, hall.stdout]

-- ---------------------------------------------------------------------------
-- The whole function
-- ---------------------------------------------------------------------------

/-- `s'` is `s` with the archive open for appending as `dst` and the file at
`target` open for reading as `src`. -/
structure Opened (s s' : State) (arc target : CString) (a i : Ino) (nd : Inode) (B : Bytes)
    (dst src : Fd) : Prop where
  atEnd   : WritesAtEnd s' dst a B
  archive : s'.fs.inodeOf arc = some a
  source  : s'.file src = some ⟨i, 0, { read := true }⟩
  fds     : src ≠ dst
  target  : s'.fs.inodeOf target = some i
  inode   : s'.fs.inodes[i]? = some nd
  files   : ∀ p (j : Nat) nd, s.fs.inodeOf p = some j → s.fs.inodes[j]? = some nd →
    s'.fs.inodeOf p = some j ∧ s'.fs.inodes[j]? = some nd
  origin  : s.fs.inodeOf arc = some a ∨ a = s.fs.inodes.length

/-- Opening a source whose copying is understood, once the archive is open. Between `s` and
`s₁` at most the archive was created. -/
theorem openSource_spec {s₁ : State} (ha : s₁.fs.inodeOf arc = some a)
    (hatEnd : WritesAtEnd s₁ dst a B)
    (hout : s₁.proc.stdout = s.proc.stdout) (hwritten : s₁.proc.written = s.proc.written)
    (hfiles : ∀ p (j : Nat) nd, s.fs.inodeOf p = some j → s.fs.inodes[j]? = some nd →
      s₁.fs.inodeOf p = some j ∧ s₁.fs.inodes[j]? = some nd)
    (horigin : s.fs.inodeOf arc = some a ∨ a = s.fs.inodes.length)
    (hthere : C → ∃ i, ∃ nd : Inode, s.fs.inodeOf target = some i ∧ s.fs.inodes[i]? = some nd)
    (hcopy : ∀ s₁ s₂ a i nd dst src, Opened s s₁ arc target a i nd B dst src →
      (∃ o, E ⟨.fstat src, o, some nd.fstat⟩) →
      Appended s₁ s₂ dst a B (ArchiveRecord.new target nd.fstat).bytes →
      Spec exec E (fun _ => True) s₂
        (duplicateContent src dst (ArchiveRecord.new target nd.fstat).stSize) fun ok s₃ =>
        ∃ d, Grown s₂ s₃ dst a (B ++ (ArchiveRecord.new target nd.fstat).bytes) d ∧
          (ok = true → d.length = nd.fstat.stSize.toNat ∧ P nd d) ∧
          (ok = false → d.length < nd.fstat.stSize.toNat ∧ (Faultless E → ¬ C))) :
    Spec exec E (fun _ => True) s₁
      (do match ← Posix.openFile target { read := true } 0 with
          | none =>
            Posix.perror "Ошибка: не удалось открыть исходный файл"
            discard (Posix.close dst)
          | some sourceFd => appendFile arc target dst sourceFd)
      fun _ s' => AddDone E P C s arc target B s' := by
  obtain ⟨hB, f, hdst, hrest⟩ := hatEnd
  have hB' : archiveBytes s₁.fs arc = some B :=
    archiveBytes_of_content (by rw [content_of_inodeOf ha, hB])
  refine Spec.open_read trivial ?_ ?_
  · intro o hev ho
    refine Spec.fprintfErr trivial (Spec.close trivial fun _ => Spec.ret trivial
      (.unchanged hB' hwritten (.of_eq hout) fun hE _ hC => ?_))
    obtain ⟨i, nd, hi, hnd⟩ := hthere hC
    obtain ⟨hi₁, hnd₁⟩ := hfiles target i nd hi hnd
    rcases ho with rfl | hnone
    · cases hE _ hev
    · rw [Fs.lookup, hi₁, Option.bind_some, hnd₁] at hnone
      cases hnone
  · intro i nd hi hnd
    have hop : Opened s (s₁.addFile ⟨i, 0, { read := true }⟩) arc target a i nd B
        dst s₁.proc.fds.length :=
      ⟨⟨hB, f, State.file_addFile hdst, hrest⟩, ha, State.file_addFile_self,
        (State.fd_ne_new hdst).symm, hi, hnd, hfiles, horigin⟩
    have hsrc : (s₁.addFile ⟨i, 0, { read := true }⟩).inodeAt s₁.proc.fds.length = some nd := by
      rw [State.inodeAt, hop.source, Option.bind_some, hop.inode]
    refine (appendFile_spec (P := P) (C := C) hop.atEnd ha hsrc fun s₂ hev happ =>
      hcopy _ s₂ a i nd _ _ hop hev happ).mono fun _ s' h => ?_
    cases h with
    | added nd d hP hlen hd ha' hrep =>
      exact .added nd d hP hlen hd ⟨ha'.1, ha'.2.trans (by rw [State.written_addFile, hwritten])⟩
        (hrep.trans (by rw [State.stdout_addFile, hout]))
    | failed w hw ha' hun hC =>
      exact .failed w hw ⟨ha'.1, ha'.2.trans (by rw [State.written_addFile, hwritten])⟩
        (.trans (.of_eq (hout : (s₁.addFile _).proc.stdout = s.proc.stdout)) hun) hC

/-- Opening the archive and a source whose copying is understood. -/
theorem addFileToArchive_of_copy (harc : archiveBytes s.fs arc = some B)
    (hthere : C → ∃ i, ∃ nd : Inode, s.fs.inodeOf target = some i ∧ s.fs.inodes[i]? = some nd)
    (hcopy : ∀ s₁ s₂ a i nd dst src, Opened s s₁ arc target a i nd B dst src →
      (∃ o, E ⟨.fstat src, o, some nd.fstat⟩) →
      Appended s₁ s₂ dst a B (ArchiveRecord.new target nd.fstat).bytes →
      Spec exec E (fun _ => True) s₂
        (duplicateContent src dst (ArchiveRecord.new target nd.fstat).stSize) fun ok s₃ =>
        ∃ d, Grown s₂ s₃ dst a (B ++ (ArchiveRecord.new target nd.fstat).bytes) d ∧
          (ok = true → d.length = nd.fstat.stSize.toNat ∧ P nd d) ∧
          (ok = false → d.length < nd.fstat.stSize.toNat ∧ (Faultless E → ¬ C))) :
    Spec exec E (fun _ => True) s (addFileToArchive arc target) fun _ s' =>
      AddDone E P C s arc target B s' := by
  have hfail : E ⟨.openFile arc { write := true, creat := true, append := true } 0o666, .fail,
      none⟩ → Spec exec E (fun _ => True) s (Posix.perror "Ошибка: не удалось открыть архив")
        fun _ s' => AddDone E P C s arc target B s' := fun hev =>
    Spec.fprintfErr trivial (Spec.ret trivial
      (.unchanged harc rfl (.of_eq rfl) fun hE => by cases hE _ hev))
  -- both ways to open the archive end in a state like this
  have hatEnd : ∀ (fs₁ : Fs) a, fs₁.data a = some B → WritesAtEnd
      ((s.withFs fs₁).addFile ⟨a, 0, { write := true, creat := true, append := true }⟩)
      s.proc.fds.length a B := fun fs₁ a hB =>
    ⟨hB, _, State.file_addFile_self (s := s.withFs fs₁), rfl, rfl, rfl⟩
  rcases archiveBytes_eq_some harc with ⟨a, ha, hB⟩ | ⟨rfl, slot, ht, hdir⟩
  · exact Spec.open_regular trivial ha hB hfail (openSource_spec ha (hatEnd s.fs a hB) rfl rfl
      (fun p j nd hp hnd => ⟨hp, hnd⟩) (.inl ha) hthere hcopy)
  · apply Spec.open_creat trivial ht hdir rfl hfail
    intro fs' j h hinodes
    exact openSource_spec (h.inodeOf_target ht) (hatEnd fs' j h.data_self) rfl rfl
      (fun p i nd hp hnd => ⟨h.inodeOf hp, hinodes i nd hnd⟩) (.inr h.fresh) hthere hcopy

/-- **Addition** of anything that can be opened: the archive only grows, by a
record with the metadata `fstat` answered exactly when success is reported and
otherwise by the beginning of one. -/
theorem addFileToArchive_spec (target : CString) (harc : archiveBytes s.fs arc = some B) :
    Spec exec E (fun _ => True) s (addFileToArchive arc target) fun _ s' =>
      AddDone E (fun nd _ => ∃ fd o, E ⟨.fstat fd, o, some nd.fstat⟩) False s arc target B s' := by
  apply addFileToArchive_of_copy harc nofun
  intro s₁ s₂ a i nd dst src hop hev happ
  refine (duplicateContent_any happ.atEnd hop.fds).mono ?_
  rintro ok s₃ ⟨d, hg, hok, hbad⟩
  rw [stSize_new] at hok hbad
  exact ⟨d, hg, fun h => ⟨hok h, src, hev⟩, fun h => ⟨hbad h, fun _ => id⟩⟩

/-- **Addition** of a regular file that is not the archive: the record is the file. -/
theorem addFileToArchive_regular {nd : Inode} (harc : archiveBytes s.fs arc = some B)
    (hi : s.fs.inodeOf target = some i) (hnd : s.fs.inodes[i]? = some nd) (hreg : nd.isDir = false)
    (hsize : nd.data.length < 2 ^ 63) (hne : s.fs.inodeOf arc ≠ some i) :
    Spec exec E (fun _ => True) s (addFileToArchive arc target) fun _ s' =>
      AddDone E (fun nd' d => nd' = nd ∧ d = nd.data) True s arc target B s' := by
  refine addFileToArchive_of_copy harc (fun _ => ⟨i, nd, hi, hnd⟩)
    fun s₁ s₂ a i' nd' dst src hop _ happ => ?_
  obtain ⟨hi₁, hnd₁⟩ := hop.files target i nd hi hnd
  obtain rfl : i = i' := Option.some.inj (hi₁.symm.trans hop.target)
  obtain rfl : nd = nd' := Option.some.inj (hnd₁.symm.trans hop.inode)
  have hia : i ≠ a := by
    rintro rfl
    rcases hop.origin with harc' | hnew
    · exact hne harc'
    · obtain ⟨hlt, -⟩ := List.getElem?_eq_some_iff.mp hnd
      exact hlt.ne hnew
  have hdata : s₁.fs.data i = some nd.data := Fs.data_eq_some.mpr ⟨nd, hop.inode, hreg, rfl⟩
  have hdata₂ : s₂.fs.data i = some nd.data := by
    rw [happ.fs, Fs.data_setData_ne hia, hdata]
  have hst := Inode.stSize_fstat hreg hsize
  have hsource : s₂.file src = some ⟨i, 0, { read := true }⟩ :=
    (happ.others src hop.fds).trans hop.source
  refine (duplicateContent_spec hsource rfl hdata₂ happ.atEnd hop.fds hia
    fun _ _ _ _ _ _ _ => trivial).mono ?_
  rintro ok s₃ ⟨r, w, hwr, hrt, hrl, hc, hok, hbad⟩
  rw [stSize_new, hst] at hok hbad
  have hlen : ((nd.data.drop 0).take w).length = min w nd.data.length := by
    rw [List.length_take, List.drop_zero]
  refine ⟨_, hc.grown hwr hrl, ?_, ?_⟩
  · intro h
    have hw := hok h
    refine ⟨by rw [hlen, hst]; omega, rfl, ?_⟩
    rw [List.drop_zero, hw, Int.toNat_natCast, List.take_length]
  · intro h
    obtain ⟨hlt, hcut⟩ := hbad h
    refine ⟨by rw [hlen, hst]; omega, fun hE _ => ?_⟩
    have := hcut hE
    simp only [List.drop_zero] at this
    omega

end Add

end LabsOS.Archiver
