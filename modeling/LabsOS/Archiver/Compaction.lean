import LabsOS.Archiver.Lists
import LabsOS.Archiver.WellFormed

/-!
# What a compaction preserves

A compaction of a well-formed archive whose system calls succeed leaves its live
records, byte for byte. The other two scanners of the format cannot tell the archive
before from the archive after it: a listing prints the same, and an extraction finds the
same record.
-/

namespace LabsOS.Archiver

variable {E : SysEvent → Prop} {fs fs' : Fs} {arc name : CString} {a : Ino} {umask : Nat}
variable {s s' : State} {tr tr' : List SysEvent} {es pre post : List Entry} {m : Entry}

-- ---------------------------------------------------------------------------
-- What an extraction finds
-- ---------------------------------------------------------------------------

/-- The first live record of a name. -/
def search (es : List Entry) (name : CString) : Option Entry := es.find? fun e => e.Matches name

theorem FirstMatch.search_eq (h : FirstMatch name es pre m post) : search es name = some m := by
  rw [search, List.find?_eq_some_iff_append]
  exact ⟨by simpa using h.found, pre, post, h.split, by simpa using h.before⟩

theorem search_eq_none (h : ∀ e ∈ es, ¬ e.Matches name) : search es name = none := by
  rw [search, List.find?_eq_none]
  simpa using h

/-- Only live records are found. -/
theorem search_filter (es : List Entry) (name : CString) :
    search (es.filter (·.Live)) name = search es name := by
  rw [search, search, List.find?_filter]
  refine congrArg (List.find? · es) (funext fun e => ?_)
  by_cases hlive : e.Live <;> simp [Entry.Matches, hlive]

/-- The call that follows when an extraction has found the record. -/
def foundCall (name : CString) (m : Entry) : Sys :=
  if m.header.stSize > maxAllowedSize then
    .printf "Предупреждение: файл '%s' слишком большой (размер: %lld байт)\n"
      [.str name.bytes, .int m.header.stSize]
  else .openFile m.header.path { write := true, creat := true, trunc := true }
    m.header.fileStats.stMode

/-- What the calls `E` of an extraction show that it has found. -/
def Finds (E : SysEvent → Prop) (name : CString) : Option Entry → Prop
  | some m => ∃ ev, E ev ∧ ev.call = foundCall name m
  | none => ∃ ev, E ev ∧ ev.call = .printf (notFoundLine name).fmt (notFoundLine name).args

theorem extractRecord_found (fd : Fd) (recordStart : Nat) :
    Spec exec E (fun _ => True) s (extractRecord fd name recordStart m.header) fun _ _ =>
      ∃ ev, E ev ∧ ev.call = foundCall name m := by
  rw [extractRecord]
  split
  · next hbig =>
    refine Spec.call trivial fun o hev => Spec.trivial.mono fun _ _ _ => ⟨_, hev, ?_⟩
    rw [foundCall, if_pos hbig]
  · next hsize =>
    refine Spec.call trivial fun o hev => Spec.trivial.mono fun _ _ _ => ⟨_, hev, ?_⟩
    rw [foundCall, if_neg hsize]

/-- **What an extraction finds** in a well-formed archive, wherever the name leads. -/
theorem extract_finds_spec (hE : AllSucceed E) (harc : Holds s arc a (encode es)) :
    Spec exec E (fun _ => True) s (extractAndRemoveFile arc name) fun _ _ =>
      Finds E name (search es name) := by
  refine Spec.open_regular trivial harc.inodeOf harc.data (fun hev => nomatch (hE _ hev).2) ?_
  change Spec exec E _ (s.addFile ⟨a, 0, { read := true, write := true }⟩) _ _
  refine Spec.ret_bind (Spec.bind (extractScan_spec (Q := fun exit _ =>
      (exit = .broke false ∧ search es name = none) ∨
      (exit ≠ .broke false ∧ ∃ m, search es name = some m ∧
        ∃ ev, E ev ∧ ev.call = foundCall name m))
    State.file_addFile_self rfl rfl harc.data (fun _ _ _ => trivial)
    (fun _ _ _ hnone => .inl ⟨rfl, search_eq_none (hnone hE)⟩) fun pre m post hfm => ?_) ?_)
  · refine (Spec.and (extractRecord_ne_broke _ _ _) (extractRecord_found _ _)).mono ?_ |>.weaken
      (fun _ => id) fun _ _ => trivial
    exact fun exit _ h => .inr ⟨h.1, m, hfm.search_eq, h.2⟩
  · rintro exit s₁ (⟨rfl, hnone⟩ | ⟨hne, m, hsome, hfound⟩)
    · rw [hnone]
      exact Spec.call trivial fun o hev => Spec.trivial.mono fun _ _ _ => ⟨_, hev, rfl⟩
    · rw [hsome]
      exact Spec.trivial.mono fun _ _ _ => hfound

-- ---------------------------------------------------------------------------
-- Before and after a compaction
-- ---------------------------------------------------------------------------

/-- What the archive at `arc`, with the records `es` before a compaction, is after it. -/
structure Compacted (fs fs' : Fs) (arc : CString) (es : List Entry) : Prop where
  content : fs'.content arc = some (encode (es.filter (·.Live)))
  /-- An archive without marks is reproduced. -/
  unmarked : (∀ e ∈ es, e.Live) → fs'.content arc = fs.content arc
  /-- A second compaction changes nothing. -/
  again : ∀ s tr s' ok, s.fs = fs' → Runs exec s (compressArchiveFile arc) tr s' (.ret ok) →
    (∀ ev ∈ tr, Succeeds ev) → ok = true ∧ s'.fs.content arc = fs'.content arc
  /-- A listing prints the same. -/
  listed : ∀ umask tr s tr' s',
    Runs exec (.boot fs umask) (displayArchiveContents arc) tr s (.ret ()) →
    Runs exec (.boot fs' umask) (displayArchiveContents arc) tr' s' (.ret ()) →
    (∀ ev ∈ tr, Succeeds ev) → (∀ ev ∈ tr', Succeeds ev) → s'.proc.stdout = s.proc.stdout
  /-- An extraction finds the same record, with the same data. -/
  extracted : ∀ name umask tr s tr' s',
    Runs exec (.boot fs umask) (extractAndRemoveFile arc name) tr s (.ret ()) →
    Runs exec (.boot fs' umask) (extractAndRemoveFile arc name) tr' s' (.ret ()) →
    (∀ ev ∈ tr, Succeeds ev) → (∀ ev ∈ tr', Succeeds ev) →
    ∃ found, Finds (· ∈ tr) name found ∧ Finds (· ∈ tr') name found ∧
      ∀ m, found = some m → m.header.stSize ≤ maxAllowedSize →
        (¬ fs.SameFile name arc → s.fs.content name = some m.data) ∧
        (¬ fs'.SameFile name arc → s'.fs.content name = some m.data)

/-- A compaction of a well-formed archive whose calls succeed leaves its live records. -/
theorem content_compressed {ok : Bool} (harc : s.fs.content arc = some (encode es))
    (hrun : Runs exec s (compressArchiveFile arc) tr s' (.ret ok)) (htr : ∀ ev ∈ tr, Succeeds ev) :
    ok = true ∧ s'.fs.content arc = some (encode (es.filter (·.Live))) := by
  obtain ⟨a, ha, hB⟩ := exists_holds harc
  have hkept := ((compressArchiveFile_encode_spec (E := Succeeds) ha hB) tr s' _ hrun htr).2 ok rfl
  obtain rfl := hkept.done fun _ => id
  obtain ⟨pre, -, hall, hkeep⟩ := hkept.replaced rfl
  obtain rfl := hall fun _ => Succeeds.fullReads
  exact ⟨rfl, hkeep.content⟩

theorem finds_of_content (harc : fs.content arc = some (encode es))
    (hrun : Runs exec (.boot fs umask) (extractAndRemoveFile arc name) tr s' (.ret ()))
    (htr : ∀ ev ∈ tr, Succeeds ev) : Finds (· ∈ tr) name (search es name) := by
  obtain ⟨a, harc'⟩ := exists_holds (s := State.boot fs umask) harc
  have hspec : Spec exec (· ∈ tr) _ (.boot fs umask) (extractAndRemoveFile arc name) _ :=
    extract_finds_spec htr harc'
  exact (hspec tr s' _ hrun fun _ => id).2 () rfl

theorem exists_firstMatch_of_search (h : search es name = some m) :
    ∃ pre post, FirstMatch name es pre m post := by
  obtain ⟨hm, pre, post, hsplit, hbefore⟩ := List.find?_eq_some_iff_append.mp h
  exact ⟨pre, post, hsplit, by simpa using hbefore, by simpa using hm⟩

/-- An extraction whose calls succeed copies out the data of what it finds. -/
theorem content_of_search (harc : fs.content arc = some (encode es)) (hm : search es name = some m)
    (hsize : m.header.stSize ≤ maxAllowedSize) (hname : ¬ fs.SameFile name arc)
    (hrun : Runs exec (.boot fs umask) (extractAndRemoveFile arc name) tr s' (.ret ()))
    (htr : ∀ ev ∈ tr, Succeeds ev) : s'.fs.content name = some m.data := by
  obtain ⟨pre, post, hfm⟩ := exists_firstMatch_of_search hm
  have hmay : CompressMayFail arc tr := ⟨tr, [], (List.append_nil tr).symm, htr, nofun, nofun⟩
  rw [← size_item] at hsize
  exact (Lists.extract (.of_encode (archiveBytes_of_content harc)) hname hrun hmay).2 m.item
    hfm.find?_liveItems hsize

/-- **Compaction** of a well-formed archive: it ends, and when all its calls succeed it
reports success and leaves the live records, which is all the other commands see. -/
theorem compaction_of_wellFormed (harc : s.fs.content arc = some (encode es)) :
    Halts exec AnyOutcome s (compressArchiveFile arc) ∧
    ∀ tr s' ok, Runs exec s (compressArchiveFile arc) tr s' (.ret ok) →
      (∀ ev ∈ tr, Succeeds ev) → ok = true ∧ Compacted s.fs s'.fs arc es := by
  refine ⟨compressArchiveFile_total arc s, fun tr s' ok hrun htr => ?_⟩
  obtain ⟨rfl, hcontent⟩ := content_compressed harc hrun htr
  refine ⟨rfl, hcontent, ?_, ?_, ?_, ?_⟩
  · intro hlive
    have hall : es.filter (·.Live) = es := List.filter_eq_self.mpr (by simpa using hlive)
    rw [hcontent, hall, harc]
  · rintro s₁ tr₁ s₂ ok₂ hfs hrun₂ htr₂
    rw [← hfs] at hcontent ⊢
    obtain ⟨hok, h⟩ := content_compressed hcontent hrun₂ htr₂
    rw [List.filter_filter] at h
    refine ⟨hok, h.trans ?_⟩
    rw [hcontent]
    simp
  · intro umask tr₁ s₁ tr₂ s₂ hrun₁ hrun₂ htr₁ htr₂
    have h₁ := Lists.display (.of_encode (archiveBytes_of_content harc)) hrun₁ htr₁
    have h₂ := Lists.display (.of_encode (archiveBytes_of_content hcontent)) hrun₂ htr₂
    rw [h₁, h₂, liveItems_filter, listing, listing]
    have htime : ∀ it, itemLine s'.fs it = itemLine s.fs it := fun it => by
      rw [itemLine, itemLine, strftimeLocal_runs hrun]
    rw [funext htime]
  · intro name umask tr₁ s₁ tr₂ s₂ hrun₁ hrun₂ htr₁ htr₂
    refine ⟨search es name, finds_of_content harc hrun₁ htr₁, ?_, fun m hm hsize => ⟨?_, ?_⟩⟩
    · rw [← search_filter es name]
      exact finds_of_content hcontent hrun₂ htr₂
    · exact fun hname => content_of_search harc hm hsize hname hrun₁ htr₁
    · rw [← search_filter es name] at hm
      exact fun hname => content_of_search hcontent hm hsize hname hrun₂ htr₂

/-- A record of one byte. -/
def oneByteEntry : Entry := fileEntry nameB (Inode.file [1]) rfl (by decide)

/-- An archive with a marked and a live record. -/
def halfDead : State :=
  .boot (.flat [(nameA, .file (encode [oneByteEntry.marked, oneByteEntry]))]) 0o22

theorem marked_record_dropped : ∃ tr s',
    Runs exec halfDead (compressArchiveFile nameA) tr s' (.ret true) ∧ (∀ ev ∈ tr, Succeeds ev) ∧
      Compacted halfDead.fs s'.fs nameA [oneByteEntry.marked, oneByteEntry] := by
  have hrun : ((compressArchiveFile nameA).run exec Succeeds (fun _ => .ok) 40 halfDead).map
      Prod.snd = some true := by decide +kernel
  obtain ⟨tr, s', ok, hruns, htr, hok⟩ := exists_run_of_map hrun
  obtain rfl : ok = true := hok
  exact ⟨tr, s', hruns, htr, ((compaction_of_wellFormed rfl).2 tr s' true hruns htr).2⟩

end LabsOS.Archiver
