import LabsOS.Archiver.Compress

/-!
# Extraction

What a run of `extract_and_remove_file` does to a well-formed archive. The
search visits the records one after the other and changes nothing
(`extractScan_spec`); the record that was asked for is copied out before its
mark of deletion is written (`extractRecord_spec`), so that at every point at
which the archive no longer lists the record its data is in the file at its path.
-/

namespace LabsOS.Archiver

section Extract

variable {E : SysEvent → Prop} {I : State → Prop}
variable {s s' s'' : State} {fd : Fd} {f : OpenFile} {arc name : CString} {a : Ino}
variable {es pre post : List Entry} {m : Entry} {b : Bytes}

-- ---------------------------------------------------------------------------
-- The search
-- ---------------------------------------------------------------------------

/-- **The search** of an extraction reads the headers in order, up to the first
live record with the name or the end of the archive. -/
theorem extractScan_spec {Q : ExtractExit → State → Prop} (hf : s.file fd = some f)
    (hread : f.flags.read = true) (hpos : f.pos = 0) (hB : s.fs.data f.ino = some (encode es))
    (hI : ∀ s', s'.fs = s.fs → s'.proc.stdout = s.proc.stdout → I s')
    (hbroke : ∀ s', s'.fs = s.fs → s'.proc.stdout = s.proc.stdout →
      (AllSucceed E → ∀ e ∈ es, ¬ e.Matches name) → Q (.broke false) s')
    (hfound : ∀ pre m post, FirstMatch name es pre m post →
      Spec exec E I (seekState s fd f ((encode pre).length + recordSize))
        (extractRecord fd name (encode pre).length m.header) Q) :
    Spec exec E I s (Prog.while_ (extractRound fd name) ()) Q := by
  have hquiet : ∀ s', s'.fs = s.fs → s'.proc.stdout = s.proc.stdout →
      (AllSucceed E → ∀ e ∈ es, ¬ e.Matches name) → Spec exec E I s' (.ret (.broke false)) Q :=
    fun s' hfs hout h => Spec.ret (hI s' hfs hout) (hbroke s' hfs hout h)
  refine Spec.loop (fun _ s' => ∃ pre post, es = pre ++ post ∧ (∀ e ∈ pre, ¬ e.Matches name) ∧
    s' = seekState s fd f (encode pre).length) ?_
    ⟨[], es, rfl, by simp, by rw [encode_nil, List.length_nil, ← hpos, seekState_self hf]⟩
  rintro _ s' ⟨pre, post, hes, hpre, rfl⟩
  have hIs : ∀ pos, I (seekState s fd f pos) := fun pos => hI _ rfl rfl
  have hf' := seekState_file hf (encode pre).length
  refine Spec.lseek (hIs _) hf' (fun o hev _ => ?_) (fun _ _ => ?_)
  · exact Spec.fprintfErr (hIs _) (Spec.ret (hI _ rfl rfl) (hquiet _ rfl rfl
      fun hE => absurd (hE _ hev).2 Bool.false_ne_true))
  have hcur : (OpenFile.seekTo { f with pos := (encode pre).length } 0 .cur).toNat =
      (encode pre).length := by simp [OpenFile.seekTo]
  rw [hcur]
  change Spec exec E I (seekState (seekState s fd f _) fd f _) _ _
  rw [seekState_seekState]
  refine Spec.read (hIs _) hf' hread hB (fun hev => ?_) (fun n _ hfull => ?_)
  · exact Spec.fprintfErr (hIs _) (Spec.ret (hI _ rfl rfl) (hquiet _ rfl rfl
      fun hE => absurd (hE _ hev).2 Bool.false_ne_true))
  rw [seekState_afterRead]
  by_cases hshort : n < recordSize
  · -- a header that is read in part ends the search
    have hnone : ArchiveRecord.ofBytes? (OpenFile.available { f with pos := (encode pre).length }
        (encode es) n) = none := by
      rw [ArchiveRecord.ofBytes?_eq_none, OpenFile.available, List.length_take]
      omega
    have hfault : ¬ AllSucceed E := fun hE => hshort.ne (hfull hE.faultless.readsFully)
    generalize OpenFile.available { f with pos := (encode pre).length } (encode es) n = buf
      at hnone ⊢
    cases buf with
    | nil => exact Spec.ret (hIs _) (hquiet _ rfl rfl fun hE => absurd hE hfault)
    | cons b bs =>
      simp only [Prog.ret_bind, Option.bind_some, hnone]
      exact Spec.fprintfErr (hIs _) (Spec.ret (hI _ rfl rfl) (hquiet _ rfl rfl
        fun hE => absurd hE hfault))
  obtain rfl : n = recordSize := by omega
  cases post with
  | nil =>
    -- the end of the archive
    rw [List.append_nil] at hes
    subst hes
    rw [available_end]
    exact Spec.ret (hIs _) (hquiet _ rfl rfl fun _ => hpre)
  | cons m post =>
    have hofBytes := m.header.ofBytes?_bytes
    obtain ⟨x, xs, hx⟩ := List.exists_cons_of_ne_nil m.header.bytes_ne_nil
    rw [hes, available_header, m.header.size_eq]
    rw [hx] at hofBytes ⊢
    simp only [Prog.ret_bind, Option.bind_some, hofBytes, extractOrSkip]
    split
    · next hm =>
      exact Spec.bind (hfound pre m post ⟨hes, hpre, hm⟩).withInv fun exit s' hexit =>
        Spec.ret hexit.1 (Spec.ret hexit.1 hexit.2)
    · next hm =>
      refine Spec.lseek (hIs _) (seekState_file hf _) (fun o hev _ => ?_) (fun _ _ => ?_)
      · exact Spec.fprintfErr (hIs _) (Spec.ret (hI _ rfl rfl) (hquiet _ rfl rfl
          fun hE => absurd (hE _ hev).2 Bool.false_ne_true))
      refine Spec.ret (hI _ rfl rfl) ⟨pre ++ [m], post, by simp, ?_, ?_⟩
      · intro e he
        rcases List.mem_append.mp he with he | he
        · exact hpre e he
        · rw [List.mem_singleton.mp he]
          exact hm
      · rw [seekTo_next, Int.toNat_natCast]
        exact seekState_seekState fd f f _ _

/-- The search may read the header of a record. -/
theorem may_readHeader {α : Type} {k : ExtractExit → Posix α} {Q : α → State → Prop}
    (hf : s.file fd = some f) (hread : f.flags.read = true) (hE : ∀ ev, Succeeds ev → E ev)
    (hB : s.fs.data f.ino = some (encode (pre ++ m :: post)))
    (hfit : ((encode (pre ++ m :: post)).length : Int) ≤ offMax)
    (h : May exec E (seekState s fd f ((encode pre).length + recordSize))
      ((extractOrSkip fd name (encode pre).length m.header).bind
        (Prog.again (extractRound fd name) k)) Q) :
    May exec E (seekState s fd f (encode pre).length) (.loop (extractRound fd name) () k) Q := by
  have hcur : OpenFile.seekTo { f with pos := (encode pre).length } 0 .cur =
      ((encode pre).length : Int) := Int.add_zero _
  have hinRange : 0 ≤ OpenFile.seekTo { f with pos := (encode pre).length } 0 .cur ∧
      OpenFile.seekTo { f with pos := (encode pre).length } 0 .cur ≤ offMax := by
    rw [encode_append, List.length_append] at hfit
    rw [hcur]
    omega
  refine May.unfold (May.call .ok
    (State.sysLseek_inRange (seekState_file hf _) (by decide) hinRange) (hE _ ⟨rfl, rfl⟩) ?_)
  rw [hcur, Int.toNat_natCast]
  change May exec E (seekState (seekState s fd f _) fd f _) _ _
  rw [seekState_seekState]
  refine May.call .ok (State.sysRead_regular (seekState_file hf _) hread hB rfl)
    (hE _ ⟨rfl, rfl⟩) ?_
  have hofBytes := m.header.ofBytes?_bytes
  obtain ⟨x, xs, hx⟩ := List.exists_cons_of_ne_nil m.header.bytes_ne_nil
  rw [seekState_afterRead, available_header, m.header.size_eq]
  rw [hx] at hofBytes ⊢
  simp only [Prog.ret_bind, Option.bind_some, hofBytes]
  exact h

/-- The search may get to the first match of an archive of a size an `off_t` holds. -/
theorem may_scan {α : Type} {k : ExtractExit → Posix α} {Q : α → State → Prop}
    (hf : s.file fd = some f) (hread : f.flags.read = true) (hpos : f.pos = 0)
    (hE : ∀ ev, Succeeds ev → E ev) (hfm : FirstMatch name es pre m post)
    (hB : s.fs.data f.ino = some (encode es)) (hfit : ((encode es).length : Int) ≤ offMax)
    (h : May exec E (seekState s fd f ((encode pre).length + recordSize))
      ((extractRecord fd name (encode pre).length m.header).bind k) Q) :
    May exec E s (.loop (extractRound fd name) () k) Q := by
  obtain rfl := hfm.split
  -- the induction is on the records before the match that are still to be read
  have hmain : ∀ todo done, pre = done ++ todo → May exec E (seekState s fd f (encode done).length)
      (.loop (extractRound fd name) () k) Q := by
    intro todo
    induction todo with
    | nil =>
      intro done hpre
      obtain rfl : pre = done := by rw [hpre, List.append_nil]
      refine may_readHeader hf hread hE hB hfit ?_
      have hm : m.header.path = name ∧ m.header.markedDeleted = 0 := hfm.found
      rw [extractOrSkip, if_pos hm]
      change May exec E _ (((extractRecord fd name _ m.header).bind fun exit =>
        .ret (Sum.inr exit : Unit ⊕ ExtractExit)).bind _) Q
      rw [Prog.bind_assoc]
      exact h
    | cons e todo ih =>
      rintro done rfl
      rw [List.append_assoc, List.cons_append] at hB hfit
      refine may_readHeader hf hread hE hB hfit ?_
      have he : ¬ (e.header.path = name ∧ e.header.markedDeleted = 0) :=
        hfm.before e (List.mem_append_right _ (List.mem_cons_self ..))
      have hnext := seekTo_next f done e
      have hinRange : 0 ≤ OpenFile.seekTo { f with pos := (encode done).length + recordSize }
          e.header.stSize .cur ∧ OpenFile.seekTo { f with pos := (encode done).length + recordSize }
          e.header.stSize .cur ≤ offMax := by
        rw [List.append_cons, encode_append, List.length_append] at hfit
        rw [hnext]
        omega
      rw [extractOrSkip, if_neg he]
      refine May.call .ok (State.sysLseek_inRange (seekState_file hf _) (by decide) hinRange)
        (hE _ ⟨rfl, rfl⟩) ?_
      rw [hnext, Int.toNat_natCast]
      change May exec E (seekState (seekState s fd f _) fd f _) _ Q
      rw [seekState_seekState]
      exact ih (done ++ [e]) (by simp)
  have hs := hmain pre [] rfl
  rwa [encode_nil, List.length_nil, ← hpos, seekState_self hf] at hs

-- ---------------------------------------------------------------------------
-- The record that was asked for
-- ---------------------------------------------------------------------------

/-- `s'` is `s` up to the metadata of files and what was printed as a warning. -/
structure SameButStat (s s' : State) : Prop where
  fs     : s.fs.SameFiles s'.fs
  file   : ∀ fd, s'.file fd = s.file fd
  stdout : s'.proc.stdout = s.proc.stdout

theorem SameButStat.refl (s : State) : SameButStat s s := ⟨.refl _, fun _ => rfl, rfl⟩

theorem SameButStat.warned (h : SameButStat s s') (l : Line) : SameButStat s (s'.warned l) :=
  ⟨h.fs, h.file, h.stdout⟩

theorem SameButStat.withFs (h : SameButStat s s') {fs : Fs} (hfs : s'.fs.SameFiles fs) :
    SameButStat s (s'.withFs fs) :=
  ⟨⟨hfs.dir.trans h.fs.dir, hfs.slotOf.trans h.fs.slotOf,
      fun i => (hfs.data i).trans (h.fs.data i)⟩,
    h.file, h.stdout⟩

theorem restoreTimes_spec {p : CString} {stats : Stat} (h : SameButStat s s')
    (hI : ∀ s', SameButStat s s' → I s') : Spec exec E I s'
      (do
        let _ ← Posix.chown p stats.stUid stats.stGid
        match ← Posix.utime p stats.stAtime stats.stMtime with
        | false => Posix.perror "Внимание: не удалось восстановить временные метки"
        | true => pure ()) fun _ s' => SameButStat s s' := by
  refine Spec.chown (hI _ h) fun fs _ hfs => Spec.utime (hI _ (h.withFs hfs)) ?_
  intro fs' ok hfs'
  have h' := (h.withFs hfs).withFs hfs'
  cases ok with
  | false => exact Spec.fprintfErr (hI _ h') (Spec.ret (hI _ (h'.warned _)) (h'.warned _))
  | true => exact Spec.ret (hI _ h') h'

/-- Restoring the attributes changes metadata only. -/
theorem applyOriginalAttributes_spec {p : CString} {stats : Stat}
    (hI : ∀ s', SameButStat s s' → I s') :
    Spec exec E I s (applyOriginalAttributes p stats) fun _ s' => SameButStat s s' := by
  have h := SameButStat.refl s
  apply Spec.chmod (hI _ h)
  intro fs ok hfs
  have h' := h.withFs hfs
  cases ok with
  | false => exact Spec.fprintfErr (hI _ h') (restoreTimes_spec (h'.warned _) hI)
  | true => exact restoreTimes_spec h' hI

/-- The archive while the mark of deletion of `m` is written. -/
def Marking (pre : List Entry) (m : Entry) (post es' : List Entry) : Prop :=
  es' = pre ++ m :: post ∨ es' = pre ++ m.marked :: post

theorem exists_marking (pre : List Entry) (m : Entry) (post : List Entry) (n : Nat) :
    ∃ es', Marking pre m post es' ∧
      splice (encode (pre ++ m :: post)) (encode pre).length (m.header.mark.bytes.take n) =
        encode es' ∧ (markOffset < n → es' = pre ++ m.marked :: post) ∧
      (n ≤ markOffset → es' = pre ++ m :: post) := by
  rw [splice_mark]
  split
  · next hn => exact ⟨_, .inl rfl, rfl, fun h => absurd hn (Nat.not_le.mpr h), fun _ => rfl⟩
  · next hn => exact ⟨_, .inr rfl, rfl, fun _ => rfl, fun h => absurd h hn⟩

/-- The call does not keep a mark of deletion from being stored through `fd`: the seek back
to the record succeeds, and the write of its header gets to the mark. -/
def storesMark (fd : Fd) : SysEvent → Bool
  | ⟨.lseek fd' _ .set, _, r⟩ => fd' != fd || r.isSome
  | ⟨.write fd' _, _, none⟩ => fd' != fd
  | ⟨.write fd' _, _, some n⟩ => fd' != fd || markOffset < n
  | _ => true

/-- The call stores no mark of deletion through `fd`. -/
def losesMark (fd : Fd) : SysEvent → Bool
  | ⟨.write fd' _, _, some n⟩ => fd' != fd || n ≤ markOffset
  | _ => true

section Calls

variable {o : Outcome} {off : Int} {buf : Bytes} {n : Nat}

@[simp] theorem storesMark_lseek_none : storesMark fd ⟨.lseek fd off .set, o, none⟩ = false := by
  simp [storesMark]

@[simp] theorem storesMark_write_none : storesMark fd ⟨.write fd buf, o, none⟩ = false := by
  simp [storesMark]

@[simp] theorem storesMark_write : storesMark fd ⟨.write fd buf, o, some n⟩ = true ↔
    markOffset < n := by
  simp [storesMark]

@[simp] theorem losesMark_write : losesMark fd ⟨.write fd buf, o, some n⟩ = true ↔
    n ≤ markOffset := by
  simp [losesMark]

end Calls

/-- The archive `es'` once the mark of deletion of `m` was written through `fd`, in the
terms of what the calls `E` do. -/
structure MarkDone (E : SysEvent → Prop) (fd : Fd) (pre : List Entry) (m : Entry)
    (post es' : List Entry) : Prop where
  marking : Marking pre m post es'
  whole   : AllSucceed E → es' = pre ++ m.marked :: post
  stored  : (∀ ev, E ev → storesMark fd ev) → es' = pre ++ m.marked :: post
  lost    : (∀ ev, E ev → losesMark fd ev) → es' = pre ++ m :: post

/-- Writing the mark of deletion leaves the record as it was or marks it, also
when only a part of the header is written. -/
theorem writeMark_spec (hf : s.file fd = some f) (hw : f.flags.write = true)
    (happ : f.flags.append = false) (hB : s.fs.data f.ino = some (encode (pre ++ m :: post)))
    (hI : ∀ s' es', Marking pre m post es' → s'.fs = s.fs.setData f.ino (encode es') →
      s'.proc.stdout = s.proc.stdout → I s') :
    Spec exec E I s (writeMark fd (encode pre).length m.header) fun _ s' =>
      ∃ es', MarkDone E fd pre m post es' ∧ s'.fs = s.fs.setData f.ino (encode es') ∧
        s'.proc.stdout = s.proc.stdout := by
  have hsame : s.fs = s.fs.setData f.ino (encode (pre ++ m :: post)) := (Fs.setData_same hB).symm
  have hstay : Marking pre m post (pre ++ m :: post) := .inl rfl
  have hret : ∀ s', s'.fs = s.fs → s'.proc.stdout = s.proc.stdout → ¬ AllSucceed E →
      ¬ (∀ ev, E ev → storesMark fd ev) → Spec exec E I s' (.ret ()) fun _ s' =>
        ∃ es', MarkDone E fd pre m post es' ∧ s'.fs = s.fs.setData f.ino (encode es') ∧
          s'.proc.stdout = s.proc.stdout := fun s' hfs hout hE hstore =>
    Spec.ret (hI s' _ hstay (hfs.trans hsame) hout)
      ⟨_, ⟨hstay, fun h => absurd h hE, fun h => absurd h hstore, fun _ => rfl⟩,
        hfs.trans hsame, hout⟩
  refine Spec.lseek (hI s _ hstay hsame rfl) hf (fun o hev _ => ?_) (fun _ _ => ?_)
  · exact Spec.fprintfErr (hI s _ hstay hsame rfl) (hret _ rfl rfl (fun hE => nomatch (hE _ hev).2)
      fun hstore => absurd (hstore _ hev) (by simp))
  change Spec exec E I (seekState s fd f (encode pre).length) _ _
  refine Spec.write (hI _ _ hstay hsame rfl) (seekState_file hf _) hw hB (fun hev => ?_) ?_
  · exact Spec.fprintfErr (hI _ _ hstay hsame rfl) (hret _ rfl rfl
      (fun hE => nomatch (hE _ hev).2) fun hstore => absurd (hstore _ hev) (by simp))
  intro o n hn hfull hev
  obtain ⟨es', hes', hsplice, hstored, hlost⟩ := exists_marking pre m post n
  have hfs : ((seekState s fd f (encode pre).length).afterWrite fd
      { f with pos := (encode pre).length } (encode (pre ++ m :: post))
      (m.header.mark.bytes.take n)).fs = s.fs.setData f.ino (encode es') := by
    simp only [State.afterWrite, State.fs_account, State.fs_setFile, State.fs_withFs,
      OpenFile.writePos, happ, Bool.false_eq_true, if_false, hsplice]
    rfl
  have hdone : MarkDone E fd pre m post es' := by
    refine ⟨hes', fun hE => hstored ?_, fun hstore => hstored (storesMark_write.mp (hstore _ hev)),
      fun hlose => hlost (losesMark_write.mp (hlose _ hev))⟩
    rw [hfull hE.faultless, m.header.mark.size_eq]
    decide
  simp only [Prog.ret_bind]
  split
  · exact Spec.ret (hI _ es' hes' hfs rfl) ⟨es', hdone, hfs, rfl⟩
  · exact Spec.fprintfErr (hI _ es' hes' hfs rfl) (Spec.ret (hI _ es' hes' hfs rfl)
      ⟨es', hdone, hfs, rfl⟩)

/-- From `s` to `s'` the data of `m` has come into the file at `name`, another
file than the archive. -/
structure CopiedOut (s s' : State) (arc name : CString) (a : Ino) (m : Entry)
    (es' : List Entry) : Prop where
  archive : Holds s' arc a (encode es')
  output  : ∃ j, j ≠ a ∧ Holds s' name j m.data
  stdout  : s'.proc.stdout = s.proc.stdout

/-- What the body of the loop has done with the record that was asked for. -/
def RecordDone (E : SysEvent → Prop) (fd : Fd) (s : State) (arc name : CString) (a : Ino)
    (pre : List Entry) (m : Entry) (post : List Entry) : ExtractExit → State → Prop
  | .broke fileFound, s' =>
    fileFound = true ∧ Holds s' arc a (encode (pre ++ m :: post)) ∧
      Unreported (extractedLine name) s s' ∧ (AllSucceed E → m.header.stSize > maxAllowedSize)
  | .extracted, s' =>
    m.header.stSize ≤ maxAllowedSize ∧ ∃ es', MarkDone E fd pre m post es' ∧
      CopiedOut s s' arc name a m es'

theorem skipOrReport_spec {size : Int} {msg : String} (hf : s.file fd = some f)
    (hI : ∀ s', s'.fs = s.fs → s'.proc.stdout = s.proc.stdout → I s') :
    Spec exec E I s (skipOrReport fd size msg) fun _ s' =>
      s'.fs = s.fs ∧ s'.proc.stdout = s.proc.stdout := by
  refine Spec.lseek (hI s rfl rfl) hf ?_ ?_
  · intro _ _ _
    exact Spec.fprintfErr (hI s rfl rfl) (Spec.ret (hI _ rfl rfl) ⟨rfl, rfl⟩)
  · intro _ _
    exact Spec.ret (hI _ rfl rfl) ⟨rfl, rfl⟩

/-- The record that was asked for is left where it is, or the file at its path is opened
for output, which empties it. -/
theorem extractRecord_of_opened {Q : ExtractExit → State → Prop} {recordStart : Nat}
    (hpath : m.header.path = name) (hf : s.file fd = some f) (hI : ∀ s', s'.fs = s.fs → I s')
    (hleft : ∀ s', s'.fs = s.fs → Unreported (extractedLine name) s s' →
      (AllSucceed E → m.header.stSize > maxAllowedSize) → Q (.broke true) s')
    (hopened : ∀ fs' j, m.header.stSize ≤ maxAllowedSize → s.fs.Emptied fs' name j →
      Spec exec E I ((s.withFs fs').addFile
        ⟨j, 0, { write := true, creat := true, trunc := true }⟩)
        (extractTo fd s.proc.fds.length recordStart m.header) Q) :
    Spec exec E I s (extractRecord fd name recordStart m.header) Q := by
  have hquiet : Unreported (extractedLine name) s s := .of_eq rfl
  rw [extractRecord, hpath]
  split
  · next hbig =>
    refine Spec.printf (hI _ rfl) (Spec.ret_bind (Spec.bind (skipOrReport_spec (s := s.printed _) hf
      fun s' hfs _ => hI _ hfs).withInv ?_))
    rintro _ s' ⟨hIs', hfs, hout⟩
    have hunreported := hquiet.printed
      ⟨"Предупреждение: файл '%s' слишком большой (размер: %lld байт)\n",
        [.str name.bytes, .int m.header.stSize]⟩ (by simp [extractedLine])
    exact Spec.ret hIs' (hleft s' hfs (hunreported.congr hout) fun _ => hbig)
  · next hsize =>
    refine Spec.open_output (hI _ rfl) (fun o hev => ?_) fun fs' j hout =>
      hopened fs' j (Int.not_lt.mp hsize) hout
    refine Spec.fprintfErr (hI _ rfl) (Spec.ret_bind (Spec.bind (skipOrReport_spec
      (s := s.warned _) hf fun s' hfs _ => hI _ hfs).withInv ?_))
    rintro _ s' ⟨hIs', hfs, hstdout⟩
    exact Spec.ret hIs' (hleft s' hfs (.of_eq hstdout)
      fun hE => absurd (hE _ hev).2 Bool.false_ne_true)

/-- Once its data is copied out, the record is marked. -/
theorem extractMark_spec {out : Fd} {j : Ino} {stats : Stat} (hfd : fd ≠ out)
    (hf : s.file fd = some f) (hflags : f.flags = { read := true, write := true })
    (harc : Holds s arc f.ino (encode (pre ++ m :: post))) (hout : Holds s name j m.data)
    (hj : j ≠ f.ino)
    (hI' : ∀ s' es', Marking pre m post es' → CopiedOut s s' arc name f.ino m es' → I s') :
    Spec exec E I s
      (do
        let _ ← Posix.close out
        applyOriginalAttributes name stats
        writeMark fd (encode pre).length m.header
        pure ExtractExit.extracted)
      fun exit s' => exit = .extracted ∧ ∃ es', MarkDone E fd pre m post es' ∧
        CopiedOut s s' arc name f.ino m es' := by
  have hsame : ∀ s', SameButStat s s' → CopiedOut s s' arc name f.ino m (pre ++ m :: post) :=
    fun s' h => ⟨harc.sameFiles h.fs, ⟨j, hj, hout.sameFiles h.fs⟩, h.stdout⟩
  apply Spec.close (hI' _ _ (.inl rfl) (hsame _ (.refl s)))
  intro _
  have hclosed : ∀ s', SameButStat (s.setFile out none) s' →
      CopiedOut s s' arc name f.ino m (pre ++ m :: post) := fun s' h =>
    have harc' : Holds s' arc f.ino (encode (pre ++ m :: post)) := harc.sameFiles h.fs
    have hout' : Holds s' name j m.data := hout.sameFiles h.fs
    ⟨harc', ⟨j, hj, hout'⟩, h.stdout⟩
  refine Spec.ret_bind (Spec.bind (applyOriginalAttributes_spec fun s' h =>
    hI' _ _ (.inl rfl) (hclosed s' h)) fun _ s₁ hs₁ => ?_)
  have hc₁ := hclosed s₁ hs₁
  have hf₁ : s₁.file fd = some f := by
    rw [hs₁.file, State.file_setFile_ne hfd, hf]
  have hmarked : ∀ s' es', s'.fs = s₁.fs.setData f.ino (encode es') →
      s'.proc.stdout = s₁.proc.stdout → CopiedOut s s' arc name f.ino m es' := by
    intro s' es' hfs hstdout
    obtain ⟨j', hj', hname⟩ := hc₁.output
    refine ⟨⟨?_, ?_⟩, ⟨j', hj', ?_, ?_⟩, hstdout.trans hc₁.stdout⟩
    · rw [hfs, Fs.inodeOf_setData, hc₁.archive.inodeOf]
    · rw [hfs, Fs.data_setData_self hc₁.archive.data]
    · rw [hfs, Fs.inodeOf_setData, hname.inodeOf]
    · rw [hfs, Fs.data_setData_ne hj', hname.data]
  refine Spec.bind (writeMark_spec hf₁ (by rw [hflags]) (by rw [hflags]) hc₁.archive.data
    fun s' es' hes' hfs hstdout => hI' _ _ hes' (hmarked s' es' hfs hstdout)).withInv ?_
  rintro _ s₂ ⟨hI₂, es', hes', hfs, hstdout⟩
  exact Spec.ret hI₂ ⟨rfl, es', hes', hmarked s₂ es' hfs hstdout⟩

/-- **The record that was asked for**, where its path does not lead to the archive:
the mark of deletion is written only after all its data was copied out. -/
theorem extractRecord_spec (hm : m.Matches name) (hf : s.file fd = some f)
    (hflags : f.flags = { read := true, write := true })
    (hpos : f.pos = (encode pre).length + recordSize)
    (harc : Holds s arc f.ino (encode (pre ++ m :: post))) (hname : s.fs.inodeOf name ≠ some f.ino)
    (hI : ∀ s', Holds s' arc f.ino (encode (pre ++ m :: post)) → I s')
    (hI' : ∀ s' es', Marking pre m post es' → CopiedOut s s' arc name f.ino m es' → I s') :
    Spec exec E I s (extractRecord fd name (encode pre).length m.header)
      (RecordDone E fd s arc name f.ino pre m post) := by
  have hpath : m.header.path = name := hm.1
  refine extractRecord_of_opened hpath hf (fun s' hfs => hI _ (harc.congr hfs))
    (fun s' hfs hunrep hbig => ⟨rfl, harc.congr hfs, hunrep, hbig⟩) fun fs' j hsize hout => ?_
  have hj : f.ino ≠ j := by
    rintro rfl
    rcases hout.origin with hname' | hnew
    · exact hname hname'
    · exact (Fs.ino_lt harc.data).ne hnew
  set out := s.proc.fds.length
  set s₁ := (s.withFs fs').addFile ⟨j, 0, { write := true, creat := true, trunc := true }⟩
  have hf₁ : s₁.file fd = some f := State.file_addFile (s := s.withFs fs') hf
  have hfd : fd ≠ out := State.fd_ne_new hf
  have harc₁ : Holds s₁ arc f.ino (encode (pre ++ m :: post)) :=
    ⟨hout.inodeOf arc _ harc.inodeOf, hout.data _ _ hj harc.data⟩
  have hdst : WritesAtEnd s₁ out j [] :=
    ⟨hout.data_self, _, State.file_addFile_self (s := s.withFs fs'), rfl, rfl, rfl⟩
  have hdata : (encode (pre ++ m :: post)).drop f.pos = m.data ++ encode post := by
    rw [hpos, drop_header]
  have hcopied : ∀ s' r w, Copied s₁ s' fd out f (encode (pre ++ m :: post)) j [] r w →
      Holds s' arc f.ino (encode (pre ++ m :: post)) := fun s' r w hc =>
    ⟨by rw [hc.fs, Fs.inodeOf_setData, harc₁.inodeOf], hc.data_src hj harc₁.data⟩
  refine Spec.bind (duplicateContent_spec hf₁ (by rw [hflags]) harc₁.data hdst hfd hj
    fun s' r w _ _ _ hc => hI _ (hcopied s' r w hc)) ?_
  rintro ok s₂ ⟨r, w, hwr, hrt, hrl, hc, hok, hbad⟩
  have harc₂ := hcopied s₂ r w hc
  cases ok with
  | false =>
    refine Spec.fprintfErr (hI _ harc₂) (Spec.close (hI _ (harc₂.congr rfl)) fun _ =>
      Spec.ret (hI _ (harc₂.congr rfl)) ⟨rfl, harc₂.congr rfl, .of_eq hc.stdout, fun hE => ?_⟩)
    have hcut := (hbad rfl).2 hE.faultless
    rw [hdata, List.length_append, m.toNat_stSize] at hcut
    omega
  | true =>
    have hw := hok rfl
    rw [m.toNat_stSize] at hw
    have hout₂ : Holds s₂ name j m.data := by
      have hself : s₁.fs.inodeOf name = some j := hout.inodeOf_self
      refine ⟨by rw [hc.fs, Fs.inodeOf_setData, hself], ?_⟩
      rw [hc.atEnd.data, hdata, hw, List.take_left, List.nil_append]
    have hcopy : ∀ s' es', CopiedOut s₂ s' arc name f.ino m es' →
        CopiedOut s s' arc name f.ino m es' := fun s' es' h =>
      ⟨h.archive, h.output, h.stdout.trans hc.stdout⟩
    rw [hpath]
    refine (extractMark_spec (f := { f with pos := f.pos + r }) hfd hc.srcFile hflags harc₂ hout₂
      hj.symm fun s' es' hes' h => hI' s' es' hes' (hcopy s' es' h)).mono ?_
    rintro exit s₃ ⟨rfl, es', hes', h⟩
    exact ⟨hsize, es', hes', hcopy s₃ es' h⟩

-- ---------------------------------------------------------------------------
-- The whole function
-- ---------------------------------------------------------------------------

/-- What the loop of an extraction has done when it is left. -/
def LoopLeft (E : SysEvent → Prop) (fd : Fd) (s : State) (arc name : CString) (a : Ino)
    (es : List Entry) : ExtractExit → State → Prop
  | .broke _, s' =>
    Holds s' arc a (encode es) ∧ Unreported (extractedLine name) s s' ∧
      (AllSucceed E → (∀ e ∈ es, ¬ e.Matches name) ∨
        ∃ pre m post, FirstMatch name es pre m post ∧ m.header.stSize > maxAllowedSize)
  | .extracted, s' =>
    ∃ pre m post es', FirstMatch name es pre m post ∧ m.header.stSize ≤ maxAllowedSize ∧
      MarkDone E fd pre m post es' ∧ CopiedOut s s' arc name a m es'

theorem extractLoop_spec (hf : s.file fd = some ⟨a, 0, { read := true, write := true }⟩)
    (harc : Holds s arc a (encode es)) (hname : s.fs.inodeOf name ≠ some a)
    (hI : ∀ s', Holds s' arc a (encode es) → I s')
    (hI' : ∀ s' pre m post es', FirstMatch name es pre m post → Marking pre m post es' →
      CopiedOut s s' arc name a m es' → I s') :
    Spec exec E I s (Prog.while_ (extractRound fd name) ()) (LoopLeft E fd s arc name a es) := by
  refine extractScan_spec hf rfl rfl harc.data (fun s' hfs _ => hI _ (harc.congr hfs))
    (fun s' hfs hout hnone => ⟨harc.congr hfs, .of_eq hout, fun hE => .inl (hnone hE)⟩) ?_
  intro pre m post hfm
  obtain rfl := hfm.split
  set f : OpenFile := ⟨a, (encode pre).length + recordSize, { read := true, write := true }⟩
  refine (extractRecord_spec (f := f) hfm.found (seekState_file hf _) rfl rfl
    (harc.congr rfl) hname hI fun s' es' hes' h => hI' s' pre m post es' hfm hes' ?_).mono ?_
  · exact ⟨h.archive, h.output, h.stdout⟩
  · rintro (fileFound | _) s' h
    · obtain ⟨-, harc', hout, hbig⟩ := h
      exact ⟨harc', hout, fun hE => .inr ⟨pre, m, post, hfm, hbig hE⟩⟩
    · obtain ⟨hsize, es', hes', h⟩ := h
      exact ⟨pre, m, post, es', hfm, hsize, hes', ⟨h.archive, h.output, h.stdout⟩⟩

/-- The archive at `arc` holds the records `es`, or only the live ones of them,
and the file at `name` holds `d`. -/
structure Settled (s : State) (arc name : CString) (es : List Entry) (d : Bytes) : Prop where
  archive : s.fs.content arc = some (encode es) ∨
    s.fs.content arc = some (encode (es.filter (·.Live)))
  output  : s.fs.content name = some d

theorem Keeps.settled {j : Ino} {d c : Bytes} (h : Keeps s s' arc c)
    (hc : c = encode es ∨ c = encode (es.filter (·.Live))) (ha : s.fs.inodeOf arc = some a)
    (hj : j ≠ a) (hout : Holds s name j d) : Settled s' arc name es d := by
  obtain ⟨hino, hdata⟩ := h.files name j d hout.inodeOf (by rw [ha]; simpa using hj.symm) hout.data
  refine ⟨?_, by rw [content_of_inodeOf hino, hdata]⟩
  rw [h.content]
  exact hc.imp (congrArg some) (congrArg some)

/-- The end of an extraction: the archive is compacted, or stays, and success is reported. -/
theorem extractFinish_spec {j : Ino} {d : Bytes} (harc : Holds s arc a (encode es))
    (hj : j ≠ a) (hout : Holds s name j d) (hE : ReadsFully E)
    (hI : ∀ s', Settled s' arc name es d → I s') :
    Spec exec E I s (extractFinish fd arc name) fun _ s' =>
      Settled s' arc name es d ∧ s'.proc.stdout = s.proc.stdout ++ [extractedLine name] := by
  have hsettled : ∀ s' c, (c = encode es ∨ c = encode (es.filter (·.Live))) →
      Keeps (s.setFile fd none) s' arc c → Settled s' arc name es d := fun s' c hc h =>
    h.settled hc harc.inodeOf hj ⟨hout.inodeOf, hout.data⟩
  have hkept : ∀ s' kept tail, compaction (encode es) = some (kept, tail) →
      Keeps (s.setFile fd none) s' arc kept → Settled s' arc name es d := by
    intro s' kept tail hcomp h
    rw [compaction_encode] at hcomp
    obtain ⟨rfl, -⟩ := Prod.mk.inj (Option.some.inj hcomp)
    exact hsettled s' _ (.inr rfl) h
  have hrefl := hsettled _ _ (.inl rfl) (Keeps.refl (s := s.setFile fd none) harc.inodeOf harc.data)
  refine Spec.close (hI _ ⟨hrefl.archive, hrefl.output⟩) ?_
  intro _
  refine Spec.ret_bind (Spec.bind (compressArchiveFile_spec (s := s.setFile fd none) harc.inodeOf
    harc.data hE (fun s' h => hI _ (hsettled s' _ (.inl rfl) h))
    (fun s' kept tail hcomp h => hI _ (hkept s' kept tail hcomp h))) ?_)
  rintro ok s₁ ⟨hdone, -⟩
  have hs₁ : Settled s₁ arc name es d ∧ s₁.proc.stdout = s.proc.stdout := by
    cases ok with
    | false => exact ⟨hsettled s₁ _ (.inl rfl) (hdone.failed rfl), (hdone.failed rfl).stdout⟩
    | true =>
      obtain ⟨kept, tail, hcomp, h⟩ := hdone.replaced rfl
      exact ⟨hkept s₁ kept tail hcomp h, h.stdout⟩
  obtain ⟨hset, hstdout⟩ := hs₁
  have hreport : ∀ s', s'.fs = s₁.fs → s'.proc.stdout = s₁.proc.stdout → Spec exec E I s'
      (Posix.printf (extractedLine name).fmt (extractedLine name).args) fun _ s' =>
        Settled s' arc name es d ∧ s'.proc.stdout = s.proc.stdout ++ [extractedLine name] := by
    intro s' hfs hout'
    have hset' : Settled s' arc name es d := ⟨by rw [hfs]; exact hset.archive, by
      rw [hfs]; exact hset.output⟩
    refine Spec.printf (hI _ hset') (Spec.ret (hI _ ⟨hset'.archive, hset'.output⟩)
      ⟨⟨hset'.archive, hset'.output⟩, ?_⟩)
    rw [State.stdout_printed, hout', hstdout]
  cases ok with
  | false => exact Spec.fprintfErr (hI _ hset) (hreport _ rfl rfl)
  | true => exact hreport _ rfl rfl

/-- After a `break` nothing happens to the files, and no success is reported. -/
theorem extractAfterLoop_broke_spec {fileFound : Bool} (hI : I s)
    (hI' : ∀ s', s'.fs = s.fs → I s') :
    Spec exec E I s (extractAfterLoop fd arc name (.broke fileFound)) fun _ s' =>
      s'.fs = s.fs ∧ Unreported (extractedLine name) s s' := by
  have hquiet : Unreported (extractedLine name) s s := .of_eq rfl
  cases fileFound with
  | true => exact Spec.close hI fun _ => Spec.ret (hI' _ rfl) ⟨rfl, hquiet.congr rfl⟩
  | false =>
    have hnotFound := hquiet.printed (notFoundLine name) (by simp [extractedLine, notFoundLine])
    exact Spec.printf hI (Spec.close (hI' _ rfl) fun _ =>
      Spec.ret (hI' _ rfl) ⟨rfl, hnotFound.congr rfl⟩)

/-- An extraction from an archive is its search, after a `break` nothing more, and otherwise
the end that compacts the archive. -/
theorem extractAndRemoveFile_of_loop {L : ExtractExit → State → Prop} {Q : State → Prop}
    (harc : Holds s arc a b) (hI : ∀ s', s'.fs = s.fs → I s')
    (hclosed : ∀ s', s'.fs = s.fs → Unreported (extractedLine name) s s' → ¬ AllSucceed E → Q s')
    (hloop : Spec exec E I (s.addFile ⟨a, 0, { read := true, write := true }⟩)
      (Prog.while_ (extractRound s.proc.fds.length name) ()) L)
    (hI' : ∀ fileFound s₁ s', L (.broke fileFound) s₁ → s'.fs = s₁.fs → I s')
    (hbroke : ∀ fileFound s₁ s', L (.broke fileFound) s₁ → s'.fs = s₁.fs →
      Unreported (extractedLine name) s₁ s' → Q s')
    (hextracted : ∀ s₁, L .extracted s₁ →
      Spec exec E I s₁ (extractFinish s.proc.fds.length arc name) fun _ => Q) :
    Spec exec E I s (extractAndRemoveFile arc name) fun _ => Q := by
  refine Spec.open_regular (hI _ rfl) harc.inodeOf harc.data (fun hev => ?_) ?_
  · exact Spec.fprintfErr (hI _ rfl) (Spec.ret (hI _ rfl) (hclosed _ rfl (.of_eq rfl)
      fun hE => absurd (hE _ hev).2 Bool.false_ne_true))
  refine Spec.ret_bind (Spec.bind hloop fun exit s₁ hleft => ?_)
  cases exit with
  | broke fileFound =>
    exact (extractAfterLoop_broke_spec (hI' fileFound s₁ s₁ hleft rfl)
      (hI' fileFound s₁ · hleft)).mono fun _ s' h => hbroke fileFound s₁ s' hleft h.1 h.2
  | extracted => exact hextracted s₁ hleft

/-- What a whole run of an extraction has done that reports success. -/
structure Extracted (E : SysEvent → Prop) (s s' : State) (arc name : CString)
    (es pre : List Entry) (m : Entry) (post : List Entry) : Prop where
  first    : FirstMatch name es pre m post
  size     : m.header.stSize ≤ maxAllowedSize
  archive  : ∃ es', Marking pre m post es' ∧ Settled s' arc name es' m.data ∧
    (AllSucceed E → es' = pre ++ m.marked :: post)
  reported : s'.proc.stdout = s.proc.stdout ++ [extractedLine name]

/-- **Extraction** from a well-formed archive of a name that does not lead to it,
where no read is short: at every point the archive holds its records, or the
data of the first match is at its path and the archive holds them with or
without its mark, compacted or not. -/
theorem extractAndRemoveFile_spec (harc : Holds s arc a (encode es))
    (hname : s.fs.inodeOf name ≠ some a) (hE : ReadsFully E)
    (hI : ∀ s', Holds s' arc a (encode es) → I s')
    (hI' : ∀ s' pre m post es', FirstMatch name es pre m post → Marking pre m post es' →
      Settled s' arc name es' m.data → I s') :
    Spec exec E I s (extractAndRemoveFile arc name) fun _ s' =>
      (Holds s' arc a (encode es) ∧ Unreported (extractedLine name) s s' ∧
        (AllSucceed E → (∀ e ∈ es, ¬ e.Matches name) ∨
          ∃ pre m post, FirstMatch name es pre m post ∧ m.header.stSize > maxAllowedSize)) ∨
      ∃ pre m post, Extracted E s s' arc name es pre m post := by
  have hcopied : ∀ s' m es', CopiedOut s s' arc name a m es' → Settled s' arc name es' m.data := by
    rintro s' m es' ⟨harc', ⟨j, -, hout⟩, -⟩
    exact ⟨.inl harc'.content, hout.content⟩
  refine extractAndRemoveFile_of_loop harc (fun s' hfs => hI _ (harc.congr hfs))
    (fun s' hfs hunrep hE => .inl ⟨harc.congr hfs, hunrep, fun h => absurd h hE⟩)
    (extractLoop_spec State.file_addFile_self (harc.congr rfl) hname hI
      fun s' pre m post es' hfm hes' h =>
        hI' s' pre m post es' hfm hes' (hcopied s' m es' ⟨h.archive, h.output, h.stdout⟩))
    (fun _ s₁ s' hleft hfs => hI _ (hleft.1.congr hfs)) ?_ ?_
  · rintro _ s₁ s' ⟨harc₁, hunrep, hall⟩ hfs hunrep'
    exact .inl ⟨harc₁.congr hfs, hunrep.trans hunrep', hall⟩
  · rintro s₁ ⟨pre, m, post, es', hfm, hsize, hes', ⟨harc₁, ⟨j, hj, hout⟩, hstdout⟩⟩
    refine (extractFinish_spec harc₁ hj hout hE fun s' h =>
      hI' s' pre m post es' hfm hes'.marking h).mono ?_
    rintro _ s₂ ⟨hset, hrep⟩
    exact .inr ⟨pre, m, post, hfm, hsize, ⟨es', hes'.marking, hset, hes'.whole⟩,
      by rw [hrep, hstdout]; rfl⟩

end Extract

end LabsOS.Archiver
