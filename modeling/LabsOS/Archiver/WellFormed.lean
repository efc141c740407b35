import LabsOS.Archiver.Compress

/-!
# Compaction of a well-formed archive

Over a well-formed archive the loop of `compress_archive_file` stays aligned with its
records, whichever system calls fail. A short read of a header ends it early: then the
records read so far are all that is kept.

* `compressLoop_encode_spec`        — what the loop has kept when it is left.
* `compressArchiveFile_encode_spec` — what a compaction may come to.
-/

namespace LabsOS.Archiver

section Records

variable {E : SysEvent → Prop} {s s' : State} {input temp : Fd} {fi : OpenFile} {a t : Ino}
variable {es pre post : List Entry} {e : Entry} {arc : CString}

/-- Between two rounds: the records `pre` have been read and the live ones of them kept. -/
def BetweenRecords (s : State) (input temp : Fd) (fi : OpenFile) (t : Ino) (es : List Entry)
    (s' : State) : Prop :=
  ∃ pre post, es = pre ++ post ∧
    Compacting s s' input temp fi t (encode pre).length (encode (pre.filter (·.Live)))

/-- After the loop. A world that does not interfere lets it get to the end of the archive,
where it stops also after a short read. -/
structure RecordsDone (E : SysEvent → Prop) (s : State) (input temp : Fd) (fi : OpenFile) (t : Ino)
    (es : List Entry) (exit : CompressExit) (s' : State) : Prop where
  inside  : ∃ pos kept, Compacting s s' input temp fi t pos kept
  kept    : exit = .headerNotRead false → ∃ pre pos, pre <+: es ∧ (ReadsFully E → pre = es) ∧
    Compacting s s' input temp fi t pos (encode (pre.filter (·.Live)))
  reached : Faultless E → exit = .headerNotRead false

theorem keptOf_entry (e : Entry) (rest : Bytes) :
    keptOf e.header (e.data ++ rest) = encode ([e].filter (·.Live)) := by
  rw [keptOf]
  split
  · next hlive =>
    rw [List.filter_cons_of_pos (by simpa using (show e.Live from hlive)), e.toNat_stSize,
      List.take_left]
    simp [Entry.bytes]
  · next hdead => rw [List.filter_cons_of_neg (by simpa using (show ¬ e.Live from hdead))]; rfl

theorem length_encode_snoc (pre : List Entry) (e : Entry) :
    (encode (pre ++ [e])).length = (encode pre).length + recordSize + e.header.stSize.toNat := by
  rw [encode_append, List.length_append, encode_cons, encode_nil, List.append_nil, e.length_bytes,
    e.toNat_stSize]
  omega

/-- One record. -/
theorem compressEntry_spec
    (hc : Compacting s s' input temp fi t ((encode pre).length + recordSize)
      (encode (pre.filter (·.Live))))
    (hread : fi.flags.read = true) (hB : s.fs.data fi.ino = some (encode (pre ++ e :: post)))
    (hfd : input ≠ temp) (hino : fi.ino ≠ t) :
    Spec exec E (fun _ => True) s' (compressRecord input temp e.header)
      (Sum.elim (fun _ => BetweenRecords s input temp fi t (pre ++ e :: post))
        (RecordsDone E s input temp fi t (pre ++ e :: post))) := by
  refine (compressRecord_spec hc hread hB hfd hino fun _ _ _ _ => trivial).mono ?_
  rintro (_ | exit) s₁ h
  · obtain ⟨hc₁, -⟩ := h
    refine ⟨pre ++ [e], post, by rw [List.append_assoc, List.singleton_append], ?_⟩
    rw [drop_header, keptOf_entry, ← encode_append, ← List.filter_append] at hc₁
    rw [length_encode_snoc]
    exact hc₁
  · obtain ⟨rfl, hc₁, hbad⟩ := h
    refine ⟨hc₁, nofun, fun hE => ?_⟩
    -- the data of the record is all there
    have hcut := hbad hE
    rw [← length_encode_snoc, List.append_cons, encode_append, List.length_append] at hcut
    omega

/-- One round: a record is done, or a header was not read in full. -/
theorem compressRound_encode_spec
    (hc : Compacting s s' input temp fi t (encode pre).length (encode (pre.filter (·.Live))))
    (hread : fi.flags.read = true) (hB : s.fs.data fi.ino = some (encode (pre ++ post)))
    (hfd : input ≠ temp) (hino : fi.ino ≠ t) :
    Spec exec E (fun _ => True) s' (compressRound input temp ())
      (Sum.elim (fun _ => BetweenRecords s input temp fi t (pre ++ post))
        (RecordsDone E s input temp fi t (pre ++ post))) := by
  refine Spec.read trivial hc.input hread (hc.data hino hB) (fun hev => ?_) fun n hn hfull => ?_
  · exact Spec.ret trivial ⟨⟨_, _, hc⟩, nofun, fun hE => nomatch hE _ hev⟩
  have hbuf : OpenFile.available { fi with pos := (encode pre).length } (encode (pre ++ post)) n =
      (encode post).take n := by rw [OpenFile.available, encode_append, List.drop_left]
  have hc₁ := hc.read hfd.symm ((encode post).take n)
  simp only [Prog.ret_bind, hbuf]
  by_cases hend : n < recordSize ∨ post = []
  · -- a header that is not read in full ends the loop
    have hnone : ArchiveRecord.ofBytes? ((encode post).take n) = none := by
      rw [ArchiveRecord.ofBytes?_eq_none, List.length_take]
      rcases hend with hshort | rfl
      · omega
      · rw [encode_nil, List.length_nil, Nat.min_zero]
        decide
    rw [hnone]
    refine Spec.ret trivial ⟨⟨_, _, hc₁⟩, fun _ => ⟨pre, _, List.prefix_append .., ?_, hc₁⟩,
      fun _ => rfl⟩
    intro hE
    rcases hend with hshort | rfl
    · exact absurd (hfull hE) hshort.ne
    · exact (List.append_nil pre).symm
  · rw [not_or] at hend
    obtain rfl : n = recordSize := by omega
    obtain ⟨e, post, rfl⟩ := List.exists_cons_of_ne_nil hend.2
    rw [encode_eq_header, e.header.take_bytes_append] at hc₁ ⊢
    rw [ArchiveRecord.ofBytes?_bytes]
    rw [e.header.size_eq] at hc₁
    exact compressEntry_spec hc₁ hread hB hfd hino

/-- **The loop of a compaction** over a well-formed archive. -/
theorem compressLoop_encode_spec (hin : s.file input = some fi) (hread : fi.flags.read = true)
    (hpos : fi.pos = 0) (hB : s.fs.data fi.ino = some (encode es)) (htemp : WritesAtEnd s temp t [])
    (hfd : input ≠ temp) (hino : fi.ino ≠ t) :
    Spec exec E (fun _ => True) s (Prog.while_ (compressRound input temp) ())
      (RecordsDone E s input temp fi t es) := by
  refine Spec.loop (fun _ => BetweenRecords s input temp fi t es) ?_ ⟨[], es, rfl, ?_⟩
  · rintro _ s' ⟨pre, post, rfl, hc⟩
    refine (compressRound_encode_spec hc hread hB hfd hino).mono ?_
    rintro (_ | exit) s₁ hres
    · exact hres
    · exact Spec.ret trivial hres
  · refine ⟨?_, ?_, htemp, rfl⟩
    · exact (Fs.setData_same htemp.data).symm
    · rw [hin, encode_nil, List.length_nil, ← hpos]

-- ---------------------------------------------------------------------------
-- The whole function
-- ---------------------------------------------------------------------------

/-- What a compaction of an archive with the records `es` may come to: it stays, or the live
ones of the records that were read are left. -/
structure RecordsKept (E : SysEvent → Prop) (s : State) (arc : CString) (es : List Entry)
    (ok : Bool) (s' : State) : Prop where
  replaced : ok = true → ∃ pre, pre <+: es ∧ (ReadsFully E → pre = es) ∧
    Keeps s s' arc (encode (pre.filter (·.Live)))
  failed   : ok = false → Keeps s s' arc (encode es)
  done     : AllSucceed E → ok = true

/-- **Compaction** of a well-formed archive, whichever system calls fail. -/
theorem compressArchiveFile_encode_spec (ha : s.fs.inodeOf arc = some a)
    (hB : s.fs.data a = some (encode es)) :
    Spec exec E (fun _ => True) s (compressArchiveFile arc) (RecordsKept E s arc es) := by
  refine compressArchiveFile_of_replace ha hB (fun _ _ => trivial)
    (fun s' h hfault _ => ⟨nofun, fun _ => h, fun hE => absurd hE hfault⟩) ?_
  intro s' input temp tmp t hnew hout hin htemp hfd
  refine Spec.bind
    (compressLoop_encode_spec hin rfl rfl (hnew.data a _ hB) htemp hfd (hnew.ne hB)) ?_
  rintro exit s₁ ⟨⟨pos, kept, hc⟩, hkept, hreached⟩
  have hcreated : ∀ {pos : Nat} {kept : Bytes},
      Compacting s' s₁ input temp ⟨a, 0, { read := true }⟩ t pos kept →
      s.fs.Created s₁.fs (s.fs.slotOf tmp) t kept := by
    intro pos kept hc
    rw [hc.fs]
    exact hnew.setData kept
  by_cases hexit : exit = .headerNotRead false
  · obtain ⟨pre, pos, hpre, hall, hc⟩ := hkept hexit
    refine (compressFinish_spec ha hB (hcreated hc) (hc.stdout.trans hout) (fun _ _ => trivial)
      fun _ _ _ => trivial).mono fun ok s₂ hfin => ?_
    exact ⟨fun hok => ⟨pre, hpre, hall, (hfin.1 hok).2⟩, hfin.2.1,
      fun hE => hfin.2.2 hE.faultless hexit⟩
  · refine (compressFinish_spec ha hB (hcreated hc) (hc.stdout.trans hout) (fun _ _ => trivial)
      fun _ _ _ => trivial).mono fun ok s₂ hfin => ?_
    exact ⟨fun hok => absurd (hfin.1 hok).1 hexit, hfin.2.1,
      fun hE => absurd (hreached hE.faultless) hexit⟩

end Records

end LabsOS.Archiver
