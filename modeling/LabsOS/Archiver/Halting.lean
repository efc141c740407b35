import LabsOS.Archiver.Display
import LabsOS.Archiver.Extract
import LabsOS.Program.Walk

/-!
# Which scans end

The loops of `display_archive_contents` and `extract_and_remove_file` go from a
header to the place its signed size leads to, also backwards. They end unless
this walk returns to a header it has left; `compress_archive_file` only moves
forwards and always ends.

* `compressArchiveFile_total` — a compaction halts on every archive.
* `display_halts_iff`         — a listing halts exactly when the walk does not return.
* `scans_end_iff`             — so do the three loops together.
-/

namespace LabsOS.Archiver

section Halting

variable {E : SysEvent → Prop}

-- ---------------------------------------------------------------------------
-- Copying and skipping
-- ---------------------------------------------------------------------------

theorem completeWrite_total (fd : Fd) (buf : Bytes) : Total exec E (completeWrite fd buf) := by
  refine Total.loop List.length ?_ ?_ fun _ => .ret _
  · intro left
    split
    · exact .ret _
    · refine .call ?_
      intro r
      rcases r with _ | _ | n <;> exact .ret _
  · intro left s
    split
    · exact Spec.ret trivial trivial
    · next hne =>
      apply Spec.call trivial
      intro o _
      rcases (exec o s (.write fd left)).2 with _ | _ | n
      · exact Spec.ret trivial trivial
      · exact Spec.ret trivial trivial
      · have hpos := List.length_pos_iff.mpr hne
        refine Spec.ret trivial ?_
        simp only [Sum.elim_inl, List.length_drop]
        omega

theorem duplicateContent_total (src dst : Fd) (total : Int) :
    Total exec E (duplicateContent src dst total) := by
  refine Total.loop Int.toNat ?_ ?_ fun _ => .ret _
  · intro rem
    split
    · exact .ret _
    · refine .call ?_
      intro r
      rcases r with _ | _ | ⟨x, xs⟩
      · exact .ret _
      · exact .ret _
      · apply (completeWrite_total dst (x :: xs)).bind
        intro ok
        cases ok <;> exact .ret _
  · intro rem s
    split
    · exact Spec.ret trivial trivial
    · next hmore =>
      apply Spec.call trivial
      intro o _
      rcases (exec o s (.read src (chunkSize rem))).2 with _ | _ | ⟨x, xs⟩
      · exact Spec.ret trivial trivial
      · exact Spec.ret trivial trivial
      · refine Spec.ret_bind (Spec.bind Spec.trivial fun ok s' _ => ?_)
        cases ok
        · exact Spec.ret trivial trivial
        · refine Spec.ret trivial ?_
          simp only [Sum.elim_inl, List.length_cons]
          omega

theorem skipBytes_total (fd : Fd) (length : Int) : Total exec E (skipBytes fd length) := by
  rw [skipBytes]
  split
  · exact .ret _
  refine .call ?_
  intro r
  cases r with
  | some _ => exact .ret _
  | none =>
    refine Total.loop Int.toNat ?_ ?_ fun _ => .ret _
    · intro rem
      split
      · exact .ret _
      · refine .call ?_
        intro r
        rcases r with _ | _ | ⟨x, xs⟩ <;> exact .ret _
    · intro rem s
      split
      · exact Spec.ret trivial trivial
      · next hmore =>
        apply Spec.call trivial
        intro o _
        rcases (exec o s (.read fd (chunkSize rem))).2 with _ | _ | ⟨x, xs⟩
        · exact Spec.ret trivial trivial
        · exact Spec.ret trivial trivial
        · refine Spec.ret trivial ?_
          simp only [Sum.elim_inl, List.length_cons]
          omega

theorem restoreTimes_total (p : CString) (stats : Stat) : Total exec E (do
    let _ ← Posix.chown p stats.stUid stats.stGid
    match ← Posix.utime p stats.stAtime stats.stMtime with
    | false => Posix.perror "Внимание: не удалось восстановить временные метки"
    | true => pure ()) := by
  refine .call fun _ => .call ?_
  intro r
  cases r
  · exact .call fun _ => .ret _
  · exact .ret _

theorem applyOriginalAttributes_total (p : CString) (stats : Stat) :
    Total exec E (applyOriginalAttributes p stats) := by
  refine .call ?_
  intro r
  cases r
  · exact .call fun _ => restoreTimes_total p stats
  · exact restoreTimes_total p stats

theorem skipOrReport_total (fd : Fd) (size : Int) (msg : String) :
    Total exec E (skipOrReport fd size msg) := by
  refine .call ?_
  intro r
  cases r
  · exact .call fun _ => .ret _
  · exact .ret _

theorem writeMark_total (fd : Fd) (recordStart : Nat) (record : ArchiveRecord) :
    Total exec E (writeMark fd recordStart record) := by
  refine .call ?_
  intro r
  cases r with
  | none => exact .call fun _ => .ret _
  | some pos =>
    refine .call ?_
    intro r
    cases r with
    | none => exact .call fun _ => .ret _
    | some n =>
      simp only [Prog.ret_bind]
      split
      · exact .ret _
      · exact .call fun _ => .ret _

/-- The record that was asked for ends the search, whatever is done with it. -/
theorem extractRecord_total (fd : Fd) (name : CString) (recordStart : Nat)
    (record : ArchiveRecord) : Total exec E (extractRecord fd name recordStart record) := by
  rw [extractRecord]
  split
  · exact .call fun _ => .ret_bind (.bind (skipOrReport_total _ _ _) fun _ => .ret _)
  · refine .call ?_
    intro r
    cases r with
    | none => exact .call fun _ => .ret_bind (.bind (skipOrReport_total _ _ _) fun _ => .ret _)
    | some out =>
      refine .ret_bind (.bind (duplicateContent_total _ _ _) fun ok => ?_)
      cases ok
      · exact .call fun _ => .call fun _ => .ret _
      · exact .call fun _ => .ret_bind (.bind (applyOriginalAttributes_total _ _) fun _ =>
          .bind (writeMark_total _ _ _) fun _ => .ret _)

/-- **An addition halts** from every state. -/
theorem addFileToArchive_total (arc target : CString) :
    Total exec E (addFileToArchive arc target) := by
  have hclose : ∀ fd₁ fd₂, Total exec E (closeBoth fd₁ fd₂) := fun _ _ =>
    .call fun _ => .call fun _ => .ret _
  refine .call ?_
  intro r
  cases r with
  | none => exact .call fun _ => .ret _
  | some dst =>
    refine .call ?_
    intro r
    cases r with
    | none => exact .call fun _ => .call fun _ => .ret _
    | some src =>
      simp only [Prog.ret_bind, appendFile]
      split
      · exact .call fun _ => hclose _ _
      · refine .call ?_
        intro r
        cases r with
        | none => exact .call fun _ => hclose _ _
        | some stats =>
          refine .ret_bind (.bind (completeWrite_total _ _) fun ok => ?_)
          cases ok
          · exact .call fun _ => hclose _ _
          · refine .bind (duplicateContent_total _ _ _) ?_
            intro ok
            cases ok
            · exact .call fun _ => hclose _ _
            · exact .call fun _ => hclose _ _

-- ---------------------------------------------------------------------------
-- Compaction
-- ---------------------------------------------------------------------------

variable {s s' : State} {fd input temp : Fd} {fi : OpenFile} {t a : Ino} {b B : Bytes}
variable {arc name : CString}

theorem compressRecord_total (input temp : Fd) (record : ArchiveRecord) :
    Total exec E (compressRecord input temp record) := by
  rw [compressRecord]
  split
  · apply Total.bind (completeWrite_total _ _)
    intro ok
    cases ok
    · exact .call fun _ => .ret _
    · apply Total.bind (duplicateContent_total _ _ _)
      intro ok
      cases ok
      · exact .call fun _ => .ret _
      · exact .ret _
  · apply Total.bind (skipBytes_total _ _)
    intro ok
    cases ok
    · exact .call fun _ => .ret _
    · exact .ret _

theorem compressRound_total (input temp : Fd) (st : Unit) :
    Total exec E (compressRound input temp st) := by
  refine .call ?_
  intro r
  cases r with
  | none => exact .ret _
  | some buf =>
    simp only [Prog.ret_bind]
    split
    · exact .ret _
    · exact compressRecord_total _ _ _

theorem compressCleanup_total (input temp : Fd) (path : CString) :
    Total exec E (compressCleanup input temp path) :=
  .call fun _ => .call fun _ => .call fun _ => .ret _

theorem compressFinish_total (arc : CString) (input temp : Fd) (path : CString)
    (exit : CompressExit) : Total exec E (compressFinish arc input temp path exit) := by
  rcases exit with _ | _ | _
  · exact compressCleanup_total _ _ _
  · refine .call fun _ => .call fun _ => .call fun _ => .call ?_
    intro r
    cases r
    · exact .call fun _ => .call fun _ => .ret _
    · exact .ret _
  · exact .call fun _ => compressCleanup_total _ _ _

/-- The loop over an archive that is a file: every round moves over a header. -/
theorem compressLoop_halts {k : CompressExit → Posix Bool} (hin : s.file input = some fi)
    (hread : fi.flags.read = true) (hpos : fi.pos = 0) (hB : s.fs.data fi.ino = some B)
    (htemp : WritesAtEnd s temp t []) (hfd : input ≠ temp) (hino : fi.ino ≠ t)
    (hk : ∀ exit, Total exec E (k exit)) :
    Halts exec E s (.loop (compressRound input temp) () k) := by
  refine Halts.loop_acc (r := (· < ·))
    (fun n _ s' => ∃ pos kept, n = B.length - pos ∧ Compacting s s' input temp fi t pos kept ∧
      compaction B = keepBefore kept (compaction (B.drop pos))) ?_
    (Nat.lt_wfRel.wf.apply B.length) ?_
  · rintro _ _ s' ⟨pos, kept, rfl, hc, heq⟩
    refine ⟨compressRound_total _ _ _ _, (compressRound_spec hc heq hread hB hfd hino
      fun _ _ _ _ => trivial).mono ?_⟩
    rintro (_ | exit) s'' hr
    · obtain ⟨hlen, pos', kept', hle, hc', heq'⟩ := hr
      have hsize : 0 < recordSize := by decide
      exact ⟨_, by omega, pos', kept', rfl, hc', heq'⟩
    · exact hk exit s''
  · obtain ⟨pos, kept, -, hc, heq⟩ := betweenRounds_start (B := B) hin hpos htemp
    exact ⟨0, [], rfl, ⟨by rw [Fs.setData_same htemp.data], by rw [hin, ← hpos], htemp, rfl⟩, by simp⟩

/-- A directory cannot be read: the loop is left at once. -/
theorem compressLoop_halts_dir {k : CompressExit → Posix Bool} (hin : s.file input = some fi)
    (hB : s.fs.data fi.ino = none) (hk : ∀ exit, Total exec E (k exit)) :
    Halts exec E s (.loop (compressRound input temp) () k) := by
  refine .loop ((compressRound_total input temp () s).bind
    (I := fun _ => True) (Q := fun r _ => ∃ exit, r = .inr exit) ?_ ?_)
  · exact Spec.read_none trivial hin hB (Spec.ret trivial ⟨_, rfl⟩)
  · rintro _ s' ⟨exit, rfl⟩
    exact hk exit s'

/-- **A compaction halts** on every archive, whatever its system calls do. -/
theorem compressArchiveFile_total (arc : CString) : Total exec E (compressArchiveFile arc) := by
  intro s
  refine .of_issue (Spec.open_read trivial (fun _ _ _ => Spec.ret trivial ?_) fun a nd ha hnd =>
    Spec.ret trivial ?_)
  · exact Total.call (fun _ => .ret _) s
  set s₁ := s.addFile ⟨a, 0, { read := true }⟩
  have hin₁ : s₁.file s.proc.fds.length = some ⟨a, 0, { read := true }⟩ := State.file_addFile_self
  refine .of_issue (Spec.mkstemp trivial (fun _ _ _ => Spec.ret trivial ?_) fun fs' tmp t hnew =>
    Spec.ret trivial ?_)
  · exact Total.call (fun _ => .call fun _ => .ret _) s₁
  set s₂ := (s₁.withFs fs').addFile ⟨t, 0, { read := true, write := true }⟩
  have hin₂ : s₂.file s.proc.fds.length = some ⟨a, 0, { read := true }⟩ :=
    State.file_addFile (s := s₁.withFs fs') hin₁
  have htemp₂ : WritesAtEnd s₂ s₁.proc.fds.length t [] :=
    ⟨hnew.data_self, _, State.file_addFile_self (s := s₁.withFs fs'), rfl, rfl, rfl⟩
  have hfd := State.fd_ne_new hin₁
  have hat : a ≠ t := by
    obtain ⟨hlt, -⟩ := List.getElem?_eq_some_iff.mp hnd
    rw [hnew.fresh]
    exact hlt.ne
  -- the loop starts in a state that differs in metadata only
  have hloop : ∀ fs'', fs'.SameFiles fs'' → Halts exec E (s₂.withFs fs'')
      (.loop (compressRound s.proc.fds.length s₁.proc.fds.length) ()
        (compressFinish arc s.proc.fds.length s₁.proc.fds.length tmp)) := by
    intro fs'' hsame
    cases hB : (s₂.withFs fs'').fs.data a with
    | none => exact compressLoop_halts_dir (s := s₂.withFs fs'') hin₂ hB fun exit =>
        compressFinish_total _ _ _ _ exit
    | some B =>
      exact compressLoop_halts (s := s₂.withFs fs'') hin₂ rfl rfl hB
        ⟨(hsame.data t).trans htemp₂.data, htemp₂.file⟩ hfd hat fun exit =>
          compressFinish_total _ _ _ _ exit
  refine .of_issue (Spec.fstat trivial (fun _ _ _ => Spec.ret trivial ?_) fun _ nd _ _ =>
    Spec.ret trivial ?_)
  · exact hloop fs' (.refl fs')
  · exact .of_issue (Spec.fchmod trivial fun fs'' _ hsame => Spec.ret trivial (hloop fs'' hsame))

/-- What follows the search of an extraction, halts. -/
theorem extractAfterLoop_total (fd : Fd) (arc name : CString) (exit : ExtractExit) :
    Total exec E (extractAfterLoop fd arc name exit) := by
  rcases exit with (_ | _) | _
  · exact .call fun _ => .call fun _ => .ret _
  · exact .call fun _ => .ret _
  · refine .call fun _ => .ret_bind (.bind (compressArchiveFile_total arc) fun ok => ?_)
    cases ok
    · exact .call fun _ => .call fun _ => .ret _
    · exact .call fun _ => .ret _

-- ---------------------------------------------------------------------------
-- The walk over the headers
-- ---------------------------------------------------------------------------

/-- The header at an offset. -/
def headerAt (b : Bytes) (pos : Nat) : Option ArchiveRecord :=
  ArchiveRecord.ofBytes? ((b.drop pos).take recordSize)

/-- The offset that the size in a header leads to, if an `lseek` can go there. -/
def nextOffset (pos : Nat) (record : ArchiveRecord) : Option Nat :=
  let next : Int := (pos + recordSize : Nat) + record.stSize
  if 0 ≤ next ∧ next ≤ offMax then some next.toNat else none

/-- The walk of a listing: from a header to the next. -/
def nextHeader (b : Bytes) (pos : Nat) : Option Nat :=
  (headerAt b pos).bind (nextOffset pos)

/-- The walk of a search for `name`, which ends at the first live record of it. -/
def nextSearched (b : Bytes) (name : CString) (pos : Nat) : Option Nat :=
  (headerAt b pos).bind fun record =>
    if record.path = name ∧ record.markedDeleted = 0 then none else nextOffset pos record

variable {pos next : Nat} {record : ArchiveRecord}

theorem length_of_headerAt (h : headerAt b pos = some record) : pos + recordSize ≤ b.length := by
  have hlen := congrArg List.length (ArchiveRecord.ofBytes?_eq_some.mp h)
  rw [List.length_take, List.length_drop, record.size_eq] at hlen
  have hsize : 0 < recordSize := by decide
  omega

theorem nextHeader_mem (x y : Nat) (h : Walk.Next (nextHeader b) x y) :
    x ∈ Finset.range b.length := by
  obtain ⟨record, hr, -⟩ := Option.bind_eq_some_iff.mp h
  have hlen := length_of_headerAt hr
  have hsize : 0 < recordSize := by decide
  exact Finset.mem_range.mpr (by omega)

theorem nextHeader_of_nextSearched (x y : Nat) (h : Walk.Next (nextSearched b name) x y) :
    Walk.Next (nextHeader b) x y := by
  obtain ⟨record, hr, hnext⟩ := Option.bind_eq_some_iff.mp h
  split at hnext
  · cases hnext
  · exact Option.bind_eq_some_iff.mpr ⟨record, hr, hnext⟩

theorem nextOffset_le (h : nextOffset pos record = some next) : (next : Int) ≤ offMax := by
  unfold nextOffset at h
  dsimp only at h
  split at h
  · obtain rfl := Option.some.inj h
    omega
  · cases h

/-- Headers without negative sizes lead forwards only. -/
theorem ends_of_sizes_nonneg (h : ∀ pos record, headerAt b pos = some record → 0 ≤ record.stSize) :
    Walk.Ends (nextHeader b) 0 := by
  apply Walk.ends_of_lt (Finset.range b.length) nextHeader_mem
  intro x y hxy
  obtain ⟨record, hr, hnext⟩ := Option.bind_eq_some_iff.mp hxy
  have hsize := h x record hr
  unfold nextOffset at hnext
  dsimp only at hnext
  split at hnext
  · obtain rfl := Option.some.inj hnext
    have hpos : 0 < recordSize := by decide
    omega
  · cases hnext

/-- The walk over a well-formed archive goes from record to record and ends. -/
theorem ends_encode (pre post : List Entry) :
    Walk.Ends (nextHeader (encode (pre ++ post))) (encode pre).length := by
  induction post generalizing pre with
  | nil =>
    apply Acc.intro _
    intro y hy
    obtain ⟨record, hr, -⟩ := Option.bind_eq_some_iff.mp hy
    have hlen := length_of_headerAt hr
    have hsize : 0 < recordSize := by decide
    rw [List.append_nil] at hlen
    omega
  | cons e post ih =>
    apply Acc.intro _
    intro y hy
    obtain ⟨record, hr, hnext⟩ := Option.bind_eq_some_iff.mp hy
    have hhead : headerAt (encode (pre ++ e :: post)) (encode pre).length = some e.header := by
      rw [headerAt, ← OpenFile.available.eq_def
        { ino := 0, pos := (encode pre).length, flags := {} } (encode (pre ++ e :: post)),
        available_header ⟨0, 0, {}⟩, ArchiveRecord.ofBytes?_bytes]
    obtain rfl := Option.some.inj (hhead.symm.trans hr)
    have hy' : y = (encode (pre ++ [e])).length := by
      unfold nextOffset at hnext
      dsimp only at hnext
      split at hnext
      · rw [← Option.some.inj hnext, ← Int.toNat_natCast (encode (pre ++ [e])).length,
          ← seekTo_next ⟨0, 0, {}⟩]
        rfl
      · cases hnext
    have hends := ih (pre ++ [e])
    rw [List.append_assoc] at hends
    rw [hy']
    exact hends

-- ---------------------------------------------------------------------------
-- The loops walk over the headers
-- ---------------------------------------------------------------------------

/-- `fd` is open for reading at the offset `pos` of a file with content `b`. -/
def ReadsAt (s : State) (fd : Fd) (b : Bytes) (pos : Nat) : Prop :=
  ∃ f, s.file fd = some f ∧ f.pos = pos ∧ f.flags.read = true ∧ s.fs.data f.ino = some b

variable {α : Type} {Q : α → State → Prop}

/-- Reading a header. -/
theorem Spec.read_header {k : Option Bytes → Posix α} (h : ReadsAt s fd b pos)
    (hnone : ∀ s' r, r.bind ArchiveRecord.ofBytes? = none → (Faultless E → headerAt b pos = none) →
      Spec exec E (fun _ => True) s' (k r) Q)
    (hsome : ∀ s' record, headerAt b pos = some record → ReadsAt s' fd b (pos + recordSize) →
      Spec exec E (fun _ => True) s' (k (some record.bytes)) Q) :
    Spec exec E (fun _ => True) s (.call (.read fd recordSize) k) Q := by
  obtain ⟨f, hf, rfl, hread, hb⟩ := h
  refine Spec.read trivial hf hread hb (fun hev => ?_) fun n hn hfull => ?_
  · exact hnone _ _ rfl fun hE => by cases hE _ hev
  have hbuf : f.available b n = (b.drop f.pos).take n := rfl
  cases hr : ArchiveRecord.ofBytes? (f.available b n) with
  | none =>
    refine hnone _ _ hr ?_
    intro hE
    rw [headerAt, ← hfull hE.readsFully, ← hbuf, hr]
  | some record =>
    have hbytes := ArchiveRecord.ofBytes?_eq_some.mp hr
    have hlen := congrArg List.length hbytes
    rw [hbuf, List.length_take, record.size_eq] at hlen
    obtain rfl : n = recordSize := by omega
    rw [hbytes]
    refine hsome _ record hr ⟨_, State.file_setFile_self hf _, ?_, hread, hb⟩
    show f.pos + record.bytes.length = _
    rw [record.size_eq]

/-- Seeking behind a header to where its size leads. -/
theorem Spec.lseek_header {k : Option Nat → Posix α} (h : ReadsAt s fd b (pos + recordSize))
    (hnone : (Faultless E → nextOffset pos record = none) →
      Spec exec E (fun _ => True) s (k none) Q)
    (hsome : ∀ s' next, nextOffset pos record = some next → ReadsAt s' fd b next →
      Spec exec E (fun _ => True) s' (k (some next)) Q) :
    Spec exec E (fun _ => True) s (.call (.lseek fd record.stSize .cur) k) Q := by
  obtain ⟨f, hf, hpos, hread, hb⟩ := h
  have hseek : f.seekTo record.stSize .cur = (pos + recordSize : Nat) + record.stSize := by
    rw [OpenFile.seekTo, hpos]
  refine Spec.lseek trivial hf ?_ ?_
  · intro o hev ho
    apply hnone
    intro hE
    rcases ho with rfl | hrange
    · cases hE _ hev
    · rw [hseek] at hrange
      simp only [nextOffset, if_neg hrange]
  · intro hlo hhi
    rw [hseek] at hlo hhi ⊢
    refine hsome _ _ ?_ ⟨_, State.file_setFile_self hf _, rfl, hread, hb⟩
    simp only [nextOffset, if_pos (And.intro hlo hhi)]

theorem displaySeek_total (fd : Fd) (record : ArchiveRecord) : Total exec E (do
    match ← Posix.lseek fd record.stSize .cur with
    | none =>
      Posix.perror "Ошибка: позиционирование в архиве при просмотре не удалось"
      pure (.inr ())
    | some _ => pure (.inl ()) : Posix (Unit ⊕ Unit)) := by
  refine .call ?_
  intro r
  cases r
  · exact .call fun _ => .ret _
  · exact .ret _

theorem displayRound_total (fd : Fd) (st : Unit) : Total exec E (displayRound fd st) := by
  refine .call ?_
  intro r
  rcases r with _ | _ | ⟨x, xs⟩
  · exact .ret _
  · exact .ret _
  · simp only [Prog.ret_bind]
    split
    · exact .call fun _ => .ret _
    · next record _ =>
      split
      · exact .call fun _ => .call fun _ => displaySeek_total fd record
      · exact displaySeek_total fd record

theorem displaySeek_walk {record : ArchiveRecord} (h : ReadsAt s fd b (pos + recordSize))
    (hrecord : headerAt b pos = some record) : Spec exec E (fun _ => True) s
      (do match ← Posix.lseek fd record.stSize .cur with
          | none =>
            Posix.perror "Ошибка: позиционирование в архиве при просмотре не удалось"
            pure (Sum.inr ())
          | some _ => pure (Sum.inl ()))
      (Sum.elim (fun _ s' => ∃ next, Walk.Next (nextHeader b) pos next ∧ ReadsAt s' fd b next)
        fun _ _ => Faultless E → nextHeader b pos = none) := by
  refine Spec.lseek_header h ?_ ?_
  · intro hnone
    refine Spec.fprintfErr trivial (Spec.ret trivial fun hE => ?_)
    rw [nextHeader, hrecord, Option.bind_some, hnone hE]
  · intro s₃ next hnext hs₃
    refine Spec.ret trivial ⟨next, ?_, hs₃⟩
    exact Option.bind_eq_some_iff.mpr ⟨record, hrecord, hnext⟩

/-- A round of a listing goes one step of its walk, or the walk ends there. -/
theorem displayRound_walk (h : ReadsAt s fd b pos) :
    Spec exec E (fun _ => True) s (displayRound fd ()) (Sum.elim
      (fun _ s' => ∃ next, Walk.Next (nextHeader b) pos next ∧ ReadsAt s' fd b next)
      fun _ _ => Faultless E → nextHeader b pos = none) := by
  refine Spec.read_header h ?_ ?_
  · intro s' r hr hnone
    have hend : Faultless E → nextHeader b pos = none := fun hE => by
      rw [nextHeader, hnone hE, Option.bind_none]
    rcases r with _ | _ | ⟨x, xs⟩
    · exact Spec.ret trivial hend
    · exact Spec.ret trivial hend
    · have hr' : ArchiveRecord.ofBytes? (x :: xs) = none := hr
      simp only [Prog.ret_bind, hr']
      exact Spec.fprintfErr trivial (Spec.ret trivial hend)
  · intro s' record hrecord hs'
    have hofBytes := record.ofBytes?_bytes
    obtain ⟨x, xs, hx⟩ := List.exists_cons_of_ne_nil record.bytes_ne_nil
    rw [hx] at hofBytes ⊢
    simp only [Prog.ret_bind, hofBytes]
    split
    · exact Spec.strftimeLocal trivial (Spec.printf trivial (displaySeek_walk hs' hrecord))
    · exact displaySeek_walk hs' hrecord

theorem extractOrSkip_total (fd : Fd) (name : CString) (recordStart : Nat)
    (record : ArchiveRecord) : Total exec E (extractOrSkip fd name recordStart record) := by
  rw [extractOrSkip]
  split
  · exact .bind (extractRecord_total _ _ _ _) fun _ => .ret _
  · refine .call ?_
    intro r
    cases r
    · exact .call fun _ => .ret _
    · exact .ret _

theorem extractRound_total (fd : Fd) (name : CString) (st : Unit) :
    Total exec E (extractRound fd name st) := by
  refine .call ?_
  intro r
  cases r with
  | none => exact .call fun _ => .ret _
  | some recordStart =>
    refine .call ?_
    intro r
    simp only [Prog.ret_bind]
    split
    · exact .ret _
    · split
      · exact .call fun _ => .ret _
      · exact extractOrSkip_total _ _ _ _

/-- The same for a round of a search, which asks for its offset first. -/
theorem extractRound_walk (h : ReadsAt s fd b pos) (hpos : (pos : Int) ≤ offMax) :
    Spec exec E (fun _ => True) s (extractRound fd name ()) (Sum.elim
      (fun _ s' => ∃ next, Walk.Next (nextSearched b name) pos next ∧ ReadsAt s' fd b next ∧
        (next : Int) ≤ offMax)
      fun _ _ => Faultless E → nextSearched b name pos = none) := by
  obtain ⟨f, hf, rfl, hread, hb⟩ := h
  have hcur : f.seekTo 0 .cur = f.pos := Int.add_zero _
  refine Spec.lseek trivial hf (fun o hev ho => ?_) fun _ _ => ?_
  · refine Spec.fprintfErr trivial (Spec.ret trivial fun hE => ?_)
    rcases ho with rfl | hrange
    · cases hE _ hev
    · rw [hcur] at hrange
      omega
  have hs₁ : ReadsAt (s.setFile fd (some { f with pos := (f.seekTo 0 .cur).toNat })) fd b f.pos :=
    ⟨_, State.file_setFile_self hf _, by rw [hcur, Int.toNat_natCast], hread, hb⟩
  refine Spec.read_header hs₁ ?_ ?_
  · intro s' r hr hnone
    have hend : Faultless E → nextSearched b name f.pos = none := fun hE => by
      rw [nextSearched, hnone hE, Option.bind_none]
    rcases r with _ | _ | ⟨x, xs⟩
    · exact Spec.fprintfErr trivial (Spec.ret trivial hend)
    · exact Spec.ret trivial hend
    · have hr' : ArchiveRecord.ofBytes? (x :: xs) = none := hr
      simp only [Prog.ret_bind, Option.bind_some, hr']
      exact Spec.fprintfErr trivial (Spec.ret trivial hend)
  · intro s' record hrecord hs'
    have hofBytes := record.ofBytes?_bytes
    obtain ⟨x, xs, hx⟩ := List.exists_cons_of_ne_nil record.bytes_ne_nil
    rw [hx] at hofBytes ⊢
    simp only [Prog.ret_bind, Option.bind_some, hofBytes, extractOrSkip]
    split
    · next hm =>
      refine Spec.bind Spec.trivial fun _ _ _ => Spec.ret trivial ?_
      intro _
      rw [nextSearched, hrecord, Option.bind_some, if_pos hm]
    · next hm =>
      refine Spec.lseek_header hs' ?_ ?_
      · intro hnone
        refine Spec.fprintfErr trivial (Spec.ret trivial fun hE => ?_)
        rw [nextSearched, hrecord, Option.bind_some, if_neg hm, hnone hE]
      · intro s₃ next hnext hs₃
        refine Spec.ret trivial ⟨next, ?_, hs₃, nextOffset_le hnext⟩
        exact Option.bind_eq_some_iff.mpr ⟨record, hrecord, by rw [if_neg hm, hnext]⟩

/-- **A loop that walks** halts exactly when its walk does not return. -/
theorem loop_halts_iff {β : Type} {body : Unit → Posix (Unit ⊕ β)} {k : β → Posix α}
    {f : Nat → Option Nat} {A : State → Nat → Prop} {S : Finset Nat}
    (hS : ∀ x y, Walk.Next f x y → x ∈ S)
    (hround : ∀ (E : SysEvent → Prop) s pos, A s pos →
      Spec exec E (fun _ => True) s (body ()) (Sum.elim
        (fun _ s' => ∃ next, Walk.Next f pos next ∧ A s' next)
        fun _ _ => Faultless E → f pos = none))
    (hbody : ∀ E : SysEvent → Prop, Total exec E (body ())) (hk : ∀ r, Total exec AnyOutcome (k r))
    (h : A s pos) : Halts exec AnyOutcome s (.loop body () k) ↔ ¬ Walk.Returns f pos := by
  constructor
  · intro hh hret
    refine not_halts_loop (fun _ s => ∃ pos, A s pos ∧ Walk.Returns f pos) ?_ ⟨pos, h, hret⟩ hh
    rintro _ s ⟨pos, h, hret⟩
    obtain ⟨next, hnext, hret'⟩ := hret.next
    obtain ⟨tr, s', r, hrun, -, hr⟩ := (hround OutcomeOk s pos h).may
      (hbody OutcomeOk s) exists_outcomeOk
    cases r with
    | inl _ =>
      obtain ⟨next', hnext', hs'⟩ := hr
      obtain rfl := Option.some.inj (hnext.symm.trans hnext')
      exact ⟨tr, s', (), hrun, fun _ _ => trivial, next, hs', hret'⟩
    | inr _ => cases hnext.symm.trans (hr fun _ => id)
  · intro hret
    refine Halts.loop_acc (fun pos _ s => A s pos) ?_ (Walk.ends_of_not_returns S hS hret) h
    rintro pos _ s h
    refine ⟨hbody _ s, (hround AnyOutcome s pos h).mono ?_⟩
    rintro (_ | r) s' hr
    · exact hr
    · exact hk r s'

-- ---------------------------------------------------------------------------
-- The whole functions
-- ---------------------------------------------------------------------------

theorem printLines_total (ls : List Line) : Total exec E (printLines ls) := by
  induction ls with
  | nil => exact .ret _
  | cons l ls ih => exact .call fun _ => ih

/-- **A listing** halts exactly when the walk over the headers does not return. -/
theorem display_halts_iff (ha : s.fs.inodeOf arc = some a) (hb : s.fs.data a = some b) :
    Halts exec AnyOutcome s (displayArchiveContents arc) ↔ ¬ Walk.Returns (nextHeader b) 0 := by
  set fd := s.proc.fds.length with hfd
  have hloop : ∀ s', Listed s s' fd ⟨a, 0, { read := true }⟩ 0 (displayHeading arc) →
      (Halts exec AnyOutcome s' (.loop (displayRound fd) () fun _ => discard (Posix.close fd)) ↔
        ¬ Walk.Returns (nextHeader b) 0) := fun s' h =>
    loop_halts_iff nextHeader_mem (A := fun s => ReadsAt s fd b)
      (fun _ _ _ => displayRound_walk) (fun _ => displayRound_total fd ())
      (fun _ => .call fun _ => .ret _) ⟨_, h.file, rfl, rfl, by rw [h.fs]; exact hb⟩
  have hheading : ∀ E : SysEvent → Prop, Spec exec E (fun _ => True)
      (s.addFile ⟨a, 0, { read := true }⟩) (printLines (displayHeading arc))
      fun _ s' => Listed s s' fd ⟨a, 0, { read := true }⟩ 0 (displayHeading arc) := by
    intro E
    have hstart : Listed s (s.addFile ⟨a, 0, { read := true }⟩) fd ⟨a, 0, { read := true }⟩ 0 [] :=
      ⟨rfl, State.file_addFile_self, (List.append_nil _).symm⟩
    exact printLines_spec (displayHeading arc) hstart
  constructor
  · intro h
    have h₁ := h.step .ok trivial
    rw [show exec .ok s (.openFile arc { read := true } 0) = _ from
      State.sysOpen_regular (by decide) ha hb] at h₁
    obtain ⟨tr, s₁, _, hrun, htr, hs₁⟩ := (hheading AnyOutcome).may
      (printLines_total _ _) fun _ _ => ⟨.ok, trivial⟩
    exact (hloop s₁ hs₁).mp (Halts.of_bind (p := printLines _) h₁ hrun htr)
  · intro hret
    refine .of_issue (Spec.open_regular trivial ha hb (fun _ => Spec.ret trivial ?_)
      (Spec.ret trivial ?_))
    · exact Total.call (fun _ => .ret _) s
    · exact Halts.bind (p := printLines _) (printLines_total _ _) (hheading AnyOutcome)
        fun _ s₁ hs₁ => (hloop s₁ hs₁).mpr hret

/-- **A search** halts exactly when its walk does not return: what follows it ends. -/
theorem extract_halts_iff (ha : s.fs.inodeOf arc = some a) (hb : s.fs.data a = some b) :
    Halts exec AnyOutcome s (extractAndRemoveFile arc name) ↔
      ¬ Walk.Returns (nextSearched b name) 0 := by
  set fd := s.proc.fds.length with hfd
  set s₁ := s.addFile ⟨a, 0, { read := true, write := true }⟩
  have hloop : Halts exec AnyOutcome s₁
      (.loop (extractRound fd name) () (extractAfterLoop fd arc name)) ↔
        ¬ Walk.Returns (nextSearched b name) 0 :=
    loop_halts_iff (fun x y h => nextHeader_mem x y (nextHeader_of_nextSearched x y h))
      (A := fun s pos => ReadsAt s fd b pos ∧ (pos : Int) ≤ offMax)
      (fun _ _ _ h => extractRound_walk h.1 h.2) (fun _ => extractRound_total fd name ())
      (fun exit => extractAfterLoop_total _ _ _ exit)
      ⟨⟨_, State.file_addFile_self, rfl, rfl, hb⟩, by decide⟩
  rw [← hloop]
  constructor
  · intro h
    have h₁ := h.step .ok trivial
    rw [show exec .ok s (.openFile arc { read := true, write := true } 0) = _ from
      State.sysOpen_regular (by decide) ha hb] at h₁
    exact h₁
  · intro h
    refine .of_issue (Spec.open_regular trivial ha hb (fun _ => Spec.ret trivial ?_)
      (Spec.ret trivial h))
    exact Total.call (fun _ => .ret _) s

/-- Every loop over the records of the archive at `arc` ends, for a request of
`name` and whatever system calls do. -/
structure ScansEnd (fs : Fs) (umask : Nat) (arc name : CString) : Prop where
  display  : Halts exec AnyOutcome (State.boot fs umask) (displayArchiveContents arc)
  extract  : Halts exec AnyOutcome (State.boot fs umask) (extractAndRemoveFile arc name)
  compress : Halts exec AnyOutcome (State.boot fs umask) (compressArchiveFile arc)

variable {fs : Fs} {umask : Nat}

theorem scansEnd_of_ends (hb : fs.content arc = some b) (h : Walk.Ends (nextHeader b) 0) :
    ScansEnd fs umask arc name := by
  obtain ⟨a, ha, hdata⟩ := Option.bind_eq_some_iff.mp hb
  refine ⟨?_, ?_, compressArchiveFile_total arc _⟩
  · exact (display_halts_iff (s := State.boot fs umask) ha hdata).mpr h.not_returns
  · exact (extract_halts_iff (s := State.boot fs umask) ha hdata).mpr
      (h.restrict nextHeader_of_nextSearched).not_returns

/-- Without negative sizes the scans end. -/
theorem scansEnd_of_sizes_nonneg (hb : fs.content arc = some b)
    (h : ∀ pos record, headerAt b pos = some record → 0 ≤ record.stSize) :
    ScansEnd fs umask arc name := scansEnd_of_ends hb (ends_of_sizes_nonneg h)

/-- A header whose size is that of a header, negated. -/
def backHeader : ArchiveRecord :=
  ArchiveRecord.new nameB ((Stat.created 0o644).setSize (2 ^ 64 - recordSize))

theorem stSize_backHeader : backHeader.stSize = -1176 := by
  rw [backHeader, ArchiveRecord.stSize, ArchiveRecord.fileStats_new, Stat.stSize, Stat.setSize,
    Stat.slice_setField, leNat_leBytes]
  unfold toInt64
  decide

theorem headerAt_backHeader : headerAt backHeader.bytes 0 = some backHeader := by
  rw [headerAt, List.drop_zero, ← backHeader.size_eq, List.take_length, ArchiveRecord.ofBytes?_bytes]

theorem returns_backHeader : Walk.Returns (nextHeader backHeader.bytes) 0 := by
  have hnext : Walk.Next (nextHeader backHeader.bytes) 0 0 := by
    refine Option.bind_eq_some_iff.mpr ⟨backHeader, headerAt_backHeader, ?_⟩
    rw [nextOffset, stSize_backHeader]
    decide
  exact ⟨0, .refl, .single hnext⟩

end Halting

end LabsOS.Archiver
