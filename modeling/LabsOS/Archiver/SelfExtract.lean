import LabsOS.Archiver.Lists

/-!
# Extracting the archive from itself

The path of a record may lead to the archive it is in. Its extraction opens the
archive for output, which empties it before the data of the record is read.
`extracts_safely_iff` says that no other extraction damages an archive.
-/

namespace LabsOS.Archiver

variable {fs : Fs} {arc name : CString} {a : Ino} {es pre post : List Entry} {m : Entry}
variable {B : Bytes} {its : List Item} {it : Item} {umask : Nat} {s s' : State} {fd out : Fd}

/-- The live records of the archive at `arc`, none where there is no archive. -/
def listed (fs : Fs) (arc : CString) : List Item := ((fs.content arc).map items).getD []

/-- What an extraction of `name` should do to an archive with content `B`, whichever system
calls fail: leave its bytes, or report success and leave every other live record. -/
def ExtractsSafely (fs : Fs) (umask : Nat) (arc name : CString) (B : Bytes) : Prop :=
  ∀ tr s', Runs exec (State.boot fs umask) (extractAndRemoveFile arc name) tr s' (.ret ()) →
    (∀ ev ∈ tr, FullReads ev) →
    (extractedLine name ∉ s'.proc.stdout → s'.fs.content arc = some B) ∧
    (extractedLine name ∈ s'.proc.stdout →
      ((items B).eraseP (Item.named name)).Sublist (listed s'.fs arc))

/-- The record that would be extracted leads to the archive itself, and it has data or the
archive has other live records. -/
def Overwrites (fs : Fs) (arc name : CString) (its : List Item) : Prop :=
  fs.SameFile name arc ∧ ∃ it, its.find? (Item.named name) = some it ∧
    (it.data.length : Int) ≤ maxAllowedSize ∧
    (it.data ≠ [] ∨ its.eraseP (Item.named name) ≠ [])

-- ---------------------------------------------------------------------------
-- Safe extractions
-- ---------------------------------------------------------------------------

section Safe

variable {E : SysEvent → Prop}

/-- The end of an extraction compacts the archive and, whatever comes of that, reports
success. -/
theorem extractFinish_of_compress {P : Fs → Prop}
    (h : Spec exec E (fun _ => True) (s.setFile fd none) (compressArchiveFile arc)
      fun _ s' => P s'.fs) :
    Spec exec E (fun _ => True) s (extractFinish fd arc name) fun _ s' =>
      P s'.fs ∧ extractedLine name ∈ s'.proc.stdout := by
  refine Spec.close trivial fun _ => Spec.ret_bind (Spec.bind h fun ok s₁ hP => ?_)
  have hreport : ∀ s' : State, P s'.fs → Spec exec E (fun _ => True) s'
      (Posix.printf (extractedLine name).fmt (extractedLine name).args) fun _ s'' =>
        P s''.fs ∧ extractedLine name ∈ s''.proc.stdout := fun s' hP' =>
    Spec.printf trivial (Spec.ret trivial
      ⟨hP', List.mem_append_right _ (List.mem_singleton_self _)⟩)
  cases ok with
  | false => exact Spec.fprintfErr trivial (hreport _ hP)
  | true => exact hreport _ hP

/-- Nothing is left to copy of a record without data. -/
theorem duplicateContent_zero (src dst : Fd) :
    Spec exec E (fun _ => True) s (duplicateContent src dst 0) fun ok s' => ok = true ∧ s' = s := by
  refine Spec.loop (fun rem s' => rem = 0 ∧ s' = s) ?_ ⟨rfl, rfl⟩
  rintro _ _ ⟨rfl, rfl⟩
  exact Spec.ret trivial (Spec.ret trivial ⟨rfl, rfl⟩)

/-- Behind the end of a file there is nothing to copy. -/
theorem duplicateContent_empty {src dst : Fd} {f : OpenFile} {total : Int}
    (hf : s.file src = some f) (hread : f.flags.read = true) (hd : s.fs.data f.ino = some [])
    (htotal : 0 < total) :
    Spec exec E (fun _ => True) s (duplicateContent src dst total) fun ok s' =>
      ok = false ∧ s'.fs = s.fs ∧ s'.proc.stdout = s.proc.stdout := by
  refine Spec.loop (fun rem s' => rem = total ∧ s' = s) ?_ ⟨rfl, rfl⟩
  rintro _ _ ⟨rfl, rfl⟩
  rw [if_neg (Int.not_le.mpr htotal)]
  refine Spec.read trivial hf hread hd ?_ ?_
  · intro _
    exact Spec.ret trivial (Spec.ret trivial ⟨rfl, rfl, rfl⟩)
  · intro n _ _
    rw [OpenFile.available, List.drop_nil, List.take_nil]
    exact Spec.ret trivial (Spec.ret trivial ⟨rfl, rfl, rfl⟩)

theorem stSize_of_data_nil (h : m.data = []) : m.header.stSize = 0 := by
  rw [m.framed, h]
  rfl

theorem stSize_pos_of_data (h : m.data ≠ []) : 0 < m.header.stSize := by
  rw [m.framed]
  exact_mod_cast List.length_pos_iff.mpr h

/-- How the search of such an extraction is left. -/
def DatalessLeft (s : State) (arc name : CString) (a : Ino) (es : List Entry) :
    ExtractExit → State → Prop
  | .broke _, s' => Holds s' arc a (encode es) ∧ Unreported (extractedLine name) s s'
  | .extracted, _ => ∃ pre m post, FirstMatch name es pre m post ∧
      m.header.stSize ≤ maxAllowedSize

/-- An extraction that takes out records without data only, wherever they lead. -/
theorem extract_dataless_spec (harc : Holds s arc a (encode es))
    (hdata : ∀ pre m post, FirstMatch name es pre m post → m.header.stSize ≤ maxAllowedSize →
      m.data = []) :
    Spec exec E (fun _ => True) s (extractAndRemoveFile arc name) fun _ s' =>
      (Holds s' arc a (encode es) ∧ Unreported (extractedLine name) s s') ∨
      (extractedLine name ∈ s'.proc.stdout ∧
        ∃ pre m post, FirstMatch name es pre m post ∧ m.header.stSize ≤ maxAllowedSize) := by
  refine extractAndRemoveFile_of_loop (L := DatalessLeft s arc name a es) harc (fun _ _ => trivial)
    (fun s' hfs hunrep _ => .inl ⟨harc.congr hfs, hunrep⟩) ?_ (fun _ _ _ _ _ => trivial) ?_ ?_
  · set f : OpenFile := ⟨a, 0, { read := true, write := true }⟩
    have hf : (s.addFile f).file s.proc.fds.length = some f := State.file_addFile_self
    refine extractScan_spec hf rfl rfl harc.data (fun _ _ _ => trivial)
      (fun s' hfs hout _ => ⟨harc.congr hfs, .of_eq hout⟩) fun pre m post hfm => ?_
    refine extractRecord_of_opened hfm.found.1 (seekState_file hf _) (fun _ _ => trivial)
      (fun s' hfs hunrep _ => ⟨harc.congr hfs, hunrep⟩) fun fs' j hsize _ => ?_
    have hzero := stSize_of_data_nil (hdata pre m post hfm hsize)
    refine Spec.bind (hzero ▸ duplicateContent_zero _ _) ?_
    rintro _ _ ⟨rfl, rfl⟩
    exact Spec.close trivial fun _ => Spec.ret_bind (Spec.bind Spec.trivial fun _ _ _ =>
      Spec.bind Spec.trivial fun _ _ _ => Spec.ret trivial ⟨pre, m, post, hfm, hsize⟩)
  · rintro _ s₁ s' ⟨harc₁, hunrep⟩ hfs hunrep'
    exact .inl ⟨harc₁.congr hfs, hunrep.trans hunrep'⟩
  · intro s₁ hleft
    exact (extractFinish_of_compress (P := fun _ => True) Spec.trivial).mono
      fun _ s₂ hrep => .inr ⟨hrep.2, hleft⟩

end Safe

theorem Unreported.not_mem {l : Line} (h : Unreported l (State.boot fs umask) s') :
    l ∉ s'.proc.stdout := by
  obtain ⟨ls, hls, hnot⟩ := h
  rw [hls]
  exact hnot

theorem extractsSafely_of_not_overwrites (hB : fs.content arc = some B) (hwf : WellFormed B)
    (h : ¬ Overwrites fs arc name (items B)) : ExtractsSafely fs umask arc name B := by
  obtain ⟨es, rfl⟩ := wellFormed_iff.mp hwf
  obtain ⟨a, harc⟩ := exists_holds (s := State.boot fs umask) hB
  rw [items_encode] at h
  intro tr s' hrun htr
  rw [items_encode]
  by_cases hsame : fs.SameFile name arc
  · -- what is extracted has no data and is the only live record
    have hnone : ∀ pre m post, FirstMatch name es pre m post → m.header.stSize ≤ maxAllowedSize →
        m.data = [] ∧ (liveItems es).eraseP (Item.named name) = [] := by
      intro pre m post hfm hsize
      by_contra hlost
      refine h ⟨hsame, m.item, hfm.find?_liveItems, by rwa [size_item], ?_⟩
      by_contra hkept
      rw [not_or, not_not, not_not] at hkept
      exact hlost hkept
    have hspec := extract_dataless_spec (E := FullReads) harc
      fun pre m post hfm hsize => (hnone pre m post hfm hsize).1
    rcases (hspec tr s' _ hrun htr).2 () rfl with ⟨harc', hunrep⟩ | ⟨hrep, pre, m, post, hfm, hsize⟩
    · exact ⟨fun _ => harc'.content, fun hrep => absurd hrep hunrep.not_mem⟩
    · refine ⟨fun hunrep => absurd hrep hunrep, fun _ => ?_⟩
      rw [(hnone pre m post hfm hsize).2]
      exact List.nil_sublist _
  · have hspec := extractAndRemoveFile_spec (E := FullReads) (I := fun _ => True) harc
      (inodeOf_ne_of_not_sameFile hsame harc.inodeOf) (fun _ => id) (fun _ _ => trivial)
      (fun _ _ _ _ _ _ _ _ => trivial)
    rcases (hspec tr s' _ hrun htr).2 () rfl with ⟨harc', hunrep, -⟩ | ⟨pre, m, post, hdone⟩
    · exact ⟨fun _ => harc'.content, fun hrep => absurd hrep hunrep.not_mem⟩
    · refine ⟨fun hunrep => absurd ?_ hunrep, fun _ => ?_⟩
      · rw [hdone.reported]
        exact List.mem_append_right _ (List.mem_singleton_self _)
      obtain ⟨es', hes', hset, -⟩ := hdone.archive
      have hlist : listed s'.fs arc = liveItems es' := by
        rcases hset.archive with hb | hb <;> simp [listed, hb]
      have hothers := hdone.first.liveItems_erase
      rw [hlist, ← hothers]
      rcases hes' with rfl | rfl
      · rw [liveItems_append, liveItems_append]
        refine (List.Sublist.refl _).append ?_
        rw [liveItems_cons_live hdone.first.found.2]
        exact List.sublist_cons_self _ _
      · rw [liveItems_marked]

-- ---------------------------------------------------------------------------
-- Extractions that empty the archive
-- ---------------------------------------------------------------------------

theorem may_duplicateContent_false {src dst : Fd} {f : OpenFile} {total : Int}
    (hf : s.file src = some f) (hread : f.flags.read = true) (hd : s.fs.data f.ino = some [])
    (htotal : 0 < total) :
    May exec FullReads s (duplicateContent src dst total) fun ok s' =>
      ok = false ∧ s'.fs = s.fs ∧ s'.proc.stdout = s.proc.stdout :=
  (duplicateContent_empty hf hread hd htotal).may (duplicateContent_total _ _ _ _)
    fun _ _ => ⟨.ok, .of_ok⟩

/-- The compaction of an empty archive leaves it empty. -/
theorem extractFinish_empty (harc : Holds s arc a []) :
    Spec exec FullReads (fun _ => True) s (extractFinish fd arc name) fun _ s' =>
      s'.fs.content arc = some [] := by
  have hempty : compaction [] = some ([], []) := compaction_encode []
  refine (extractFinish_of_compress (P := fun fs => fs.content arc = some [])
    ((compressArchiveFile_spec (s := s.setFile fd none) harc.inodeOf harc.data (fun _ => id)
      (fun _ _ => trivial) fun _ _ _ _ _ => trivial).mono ?_)).mono fun _ _ h => h.1
  rintro ok s₁ ⟨hdone, -⟩
  cases ok with
  | false => exact (hdone.failed rfl).content
  | true =>
    obtain ⟨kept, tail, hcomp, h⟩ := hdone.replaced rfl
    obtain ⟨rfl, -⟩ := Prod.mk.inj (Option.some.inj (hempty.symm.trans hcomp))
    exact h.content

/-- Once the output file has emptied the archive, the archive may stay empty: the data
cannot be read any more, or the mark of deletion is not written. -/
theorem may_extractTo {f : OpenFile} {recordStart : Nat} (hf : s.file fd = some f)
    (hread : f.flags.read = true) (harc : Holds s arc f.ino []) (hfd : fd ≠ out) :
    May exec FullReads s (extractTo fd out recordStart m.header) fun exit s' =>
      Holds s' arc f.ino [] ∧ (exit = .extracted ∧ m.data = [] ∨
        exit = .broke true ∧ s'.proc.stdout = s.proc.stdout) := by
  by_cases hdata : m.data = []
  · have hzero := stSize_of_data_nil hdata
    refine May.bind (hzero ▸ (duplicateContent_zero (E := FullReads) _ _).may
      (duplicateContent_total _ _ _ _) fun _ _ => ⟨.ok, .of_ok⟩) ?_
    rintro _ _ ⟨rfl, rfl⟩
    refine May.call .ok rfl .of_ok ?_
    refine May.bind (p := applyOriginalAttributes _ _) ((applyOriginalAttributes_spec
      fun _ _ => trivial).may (applyOriginalAttributes_total _ _ _) fun _ _ => ⟨.ok, .of_ok⟩) ?_
    intro _ s₁ hs₁
    have hf₁ : s₁.file fd = some f := by
      rw [hs₁.file, State.file_setFile_ne hfd, hf]
    have hseek : exec .fail s₁ (.lseek fd recordStart .set) = (s₁, none) := by
      simp [exec, State.sysLseek, hf₁]
    refine May.call .fail hseek (by rintro _ ⟨⟩) ?_
    exact May.call .ok rfl .of_ok (May.ret ⟨(harc.congr rfl).sameFiles hs₁.fs, .inl ⟨rfl, hdata⟩⟩)
  · have hpos := stSize_pos_of_data hdata
    refine May.bind (may_duplicateContent_false hf hread harc.data hpos) ?_
    rintro _ s₁ ⟨rfl, hfs, hout⟩
    exact May.call .ok rfl .of_ok (May.call .ok rfl .of_ok
      (May.ret ⟨harc.congr hfs, .inr ⟨rfl, hout⟩⟩))

/-- An extraction to the archive itself may empty it. -/
theorem may_empty (harc : Holds s arc a (encode es)) (hname : s.fs.inodeOf name = some a)
    (hfm : FirstMatch name es pre m post) (hsize : m.header.stSize ≤ maxAllowedSize)
    (hfit : ((encode es).length : Int) ≤ offMax) :
    May exec FullReads s (extractAndRemoveFile arc name) fun _ s' =>
      s'.fs.content arc = some [] ∧ (m.data = [] ∨ Unreported (extractedLine name) s s') := by
  refine May.call .ok (State.sysOpen_regular (by decide) harc.inodeOf harc.data) .of_ok ?_
  set f : OpenFile := ⟨a, 0, { read := true, write := true }⟩
  change May exec FullReads (s.addFile f) _ _
  have hf : (s.addFile f).file s.proc.fds.length = some f := State.file_addFile_self
  refine may_scan hf rfl rfl (fun _ => Succeeds.fullReads) hfm harc.data hfit ?_
  set s₁ := seekState (s.addFile f) s.proc.fds.length f ((encode pre).length + recordSize)
  have hf₁ : s₁.file s.proc.fds.length = _ := seekState_file hf _
  have hpath : m.header.path = name := hfm.found.1
  rw [extractRecord, if_neg (Int.not_lt.mpr hsize), hpath]
  refine May.call .ok (State.sysOpen_regular (s := s₁) (by decide) hname harc.data) .of_ok ?_
  refine May.bind (may_extractTo (State.file_addFile (s := s₁.withFs _) hf₁) rfl
    (show Holds _ arc a _ from ⟨?_, ?_⟩) (State.fd_ne_new hf₁)) ?_
  · exact (Fs.inodeOf_setData _ _).trans harc.inodeOf
  · exact Fs.data_setData_self harc.data
  rintro exit s₂ ⟨harc₂, ⟨rfl, hdata⟩ | ⟨rfl, hout⟩⟩
  · obtain ⟨tr, s₃, _, hrun, htr, hs₃⟩ := (extractFinish_empty harc₂).may
      (extractAfterLoop_total _ arc name .extracted _) fun _ _ => ⟨.ok, .of_ok⟩
    exact ⟨tr, s₃, (), hrun, htr, hs₃, .inl hdata⟩
  · exact May.call .ok rfl .of_ok (May.ret ⟨harc₂.content, .inr (.of_eq hout)⟩)

theorem inodeOf_of_sameFile (h : fs.SameFile name arc) (ha : fs.inodeOf arc = some a) :
    fs.inodeOf name = some a := by
  rcases h with ⟨h, -⟩ | ⟨h, -⟩
  · unfold Fs.inodeOf at ha ⊢
    rw [h, ha]
  · rw [h, ha]

theorem not_extractsSafely_of_overwrites (hB : fs.content arc = some B) (hwf : WellFormed B)
    (hfit : (B.length : Int) ≤ offMax) (h : Overwrites fs arc name (items B)) :
    ¬ ExtractsSafely fs umask arc name B := by
  obtain ⟨es, rfl⟩ := wellFormed_iff.mp hwf
  obtain ⟨a, harc⟩ := exists_holds (s := State.boot fs umask) hB
  rw [items_encode] at h
  obtain ⟨hsame, it, hfind, hsize, hlost⟩ := h
  obtain ⟨pre, m, post, hfm, rfl⟩ := exists_firstMatch hfind
  rw [size_item] at hsize
  obtain ⟨tr, s', _, hrun, htr, hempty, hunrep⟩ :=
    may_empty harc (inodeOf_of_sameFile hsame harc.inodeOf) hfm hsize hfit
  intro hsafe
  obtain ⟨hsame', hothers⟩ := hsafe tr s' hrun htr
  by_cases hrep : extractedLine name ∈ s'.proc.stdout
  · -- success was reported: there were other live records, and none is left
    have hdata : m.data = [] := hunrep.resolve_right fun h => h.not_mem hrep
    have hnone := hothers hrep
    have hlisted : listed s'.fs arc = [] := by
      rw [listed, hempty]
      exact items_encode []
    rw [items_encode, hlisted, List.sublist_nil] at hnone
    exact hlost.elim (absurd hdata) (absurd hnone)
  · have hnil : encode [] = encode es := Option.some.inj (hempty.symm.trans (hsame' hrep))
    exact hfm.ne_nil (encode_injective hnil).symm

/-- **What an extraction damages.** An extraction is safe for a well-formed archive, of a
size an `off_t` holds, exactly when it does not overwrite it. -/
theorem extracts_safely_iff (hB : fs.content arc = some B) (hwf : WellFormed B)
    (hfit : (B.length : Int) ≤ offMax) :
    ExtractsSafely fs umask arc name B ↔ ¬ Overwrites fs arc name (items B) :=
  ⟨fun hsafe hover => not_extractsSafely_of_overwrites hB hwf hfit hover hsafe,
    extractsSafely_of_not_overwrites hB hwf⟩

def oneByteStat : Stat := (Stat.created 0o644).setSize 1

theorem stSize_oneByteStat : oneByteStat.stSize = 1 := Stat.stSize_setSize _ (by decide)

/-- A record of one byte under the name of the archive it is in. -/
def selfEntry : Entry := newEntry nameA oneByteStat [1] stSize_oneByteStat

def selfArchive : Fs := Fs.flat [(nameA, Inode.file (encode [selfEntry]))]

theorem length_selfArchive : ((encode [selfEntry]).length : Int) ≤ offMax := by
  rw [encode_cons, encode_nil, List.append_nil, selfEntry.length_bytes]
  decide

theorem selfArchive_safe_iff : ExtractsSafely selfArchive 0o22 nameA nameA (encode [selfEntry]) ↔
    ¬ Overwrites selfArchive nameA nameA (items (encode [selfEntry])) :=
  extracts_safely_iff rfl (wellFormed_encode _) length_selfArchive

/-- Its extraction may destroy the archive and report nothing. -/
theorem selfArchive_not_safe :
    selfArchive.content nameA = some (encode [selfEntry]) ∧ WellFormed (encode [selfEntry]) ∧
      ¬ ExtractsSafely selfArchive 0o22 nameA nameA (encode [selfEntry]) := by
  refine ⟨rfl, wellFormed_encode _, not_extractsSafely_of_overwrites rfl (wellFormed_encode _)
    length_selfArchive ⟨.inl ⟨rfl, rfl⟩, ⟨nameA, oneByteStat, [1]⟩, ?_, ?_, ?_⟩⟩
  · have hitems : liveItems [selfEntry] = [⟨nameA, oneByteStat, [1]⟩] :=
      liveItems_newEntry stSize_oneByteStat (by decide)
    rw [items_encode, hitems]
    exact List.find?_cons_of_pos (decide_eq_true rfl)
  · decide
  · exact .inl (List.cons_ne_nil _ _)

end LabsOS.Archiver
