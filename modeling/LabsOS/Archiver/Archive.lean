import LabsOS.Archiver.Format
import LabsOS.Kernel.Rules

/-!
# The archive in the file system

What the functions of the archiver say about a file system: the content of the
archive at a path (`Holds`, `archiveBytes`), and that it was replaced while
every other file stayed (`Keeps`).
-/

namespace LabsOS.Archiver

variable {s s' s'' : State} {arc : CString} {a t : Ino} {slot : Slot} {b c B : Bytes}

theorem content_of_inodeOf {fs : Fs} {p : CString} {i : Ino} (h : fs.inodeOf p = some i) :
    fs.content p = fs.data i := by
  rw [Fs.content, h, Option.bind_some]

/-- The content of the archive at `arc`: a path that leads nowhere yet is an empty
archive, and one that leads to a directory is none. -/
def archiveBytes (fs : Fs) (arc : CString) : Option Bytes :=
  match (fs.target arc).map fs.dir with
  | some .absent => some []
  | some (.inode i) => fs.data i
  | _ => none

/-- `arc` leads to an archive with content `b`, in the inode `a`. -/
structure Holds (s : State) (arc : CString) (a : Ino) (b : Bytes) : Prop where
  inodeOf : s.fs.inodeOf arc = some a
  data    : s.fs.data a = some b

theorem Holds.content (h : Holds s arc a b) : s.fs.content arc = some b := by
  rw [content_of_inodeOf h.inodeOf, h.data]

theorem Holds.congr (h : Holds s arc a b) (hfs : s'.fs = s.fs) : Holds s' arc a b :=
  ⟨by rw [hfs, h.inodeOf], by rw [hfs, h.data]⟩

theorem Holds.sameFiles (h : Holds s arc a b) (hfs : s.fs.SameFiles s'.fs) : Holds s' arc a b :=
  ⟨(hfs.inodeOf arc).trans h.inodeOf, (hfs.data a).trans h.data⟩

theorem archiveBytes_of_content {fs : Fs} (h : fs.content arc = some b) :
    archiveBytes fs arc = some b := by
  unfold Fs.content Fs.inodeOf at h
  unfold archiveBytes
  cases hd : (fs.target arc).map fs.dir with
  | none => simp [hd] at h
  | some e =>
    cases e with
    | inode i => simpa [hd] using h
    | absent => simp [hd] at h
    | symlink u => simp [hd] at h

/-- An archive is a regular file, or its path leads to an entry that holds nothing. -/
theorem archiveBytes_eq_some {fs : Fs} (h : archiveBytes fs arc = some b) :
    (∃ i, fs.inodeOf arc = some i ∧ fs.data i = some b) ∨
    (b = [] ∧ ∃ slot, fs.target arc = some slot ∧ fs.dir slot = .absent) := by
  unfold archiveBytes at h
  cases ht : fs.target arc with
  | none => simp [ht] at h
  | some slot =>
    cases hd : fs.dir slot with
    | absent =>
      simp only [ht, hd, Option.map_some, Option.some.injEq] at h
      exact .inr ⟨h.symm, slot, rfl, hd⟩
    | inode i =>
      simp only [ht, hd, Option.map_some] at h
      exact .inl ⟨i, Fs.inodeOf_eq_some.mpr ⟨slot, ht, hd⟩, h⟩
    | symlink u => simp [ht, hd] at h

/-- From `s` to `s'`, `arc` has come to lead to an archive with content `b`, every
path that led to another file leads to it unchanged, and nothing was printed. -/
structure Keeps (s s' : State) (arc : CString) (b : Bytes) : Prop where
  content : s'.fs.content arc = some b
  files   : ∀ p i d, s.fs.inodeOf p = some i → s.fs.inodeOf arc ≠ some i → s.fs.data i = some d →
    s'.fs.inodeOf p = some i ∧ s'.fs.data i = some d
  stdout  : s'.proc.stdout = s.proc.stdout

theorem Keeps.refl (ha : s.fs.inodeOf arc = some a) (hB : s.fs.data a = some B) :
    Keeps s s arc B :=
  ⟨by rw [content_of_inodeOf ha, hB], fun _ _ _ hp _ hd => ⟨hp, hd⟩, rfl⟩

theorem Keeps.congr (h : Keeps s s' arc c) (hfs : s''.fs = s'.fs)
    (hout : s''.proc.stdout = s'.proc.stdout) : Keeps s s'' arc c :=
  ⟨by rw [hfs, h.content], by rw [hfs]; exact h.files, hout.trans h.stdout⟩

theorem Keeps.created (ha : s.fs.inodeOf arc = some a) (hB : s.fs.data a = some B)
    (h : s.fs.Created s'.fs slot t c) (hout : s'.proc.stdout = s.proc.stdout) :
    Keeps s s' arc B :=
  ⟨by rw [content_of_inodeOf (h.inodeOf ha), h.data a B hB],
    fun _ i d hp _ hd => ⟨h.inodeOf hp, h.data i d hd⟩, hout⟩

theorem Keeps.unlinked (ha : s.fs.inodeOf arc = some a) (hB : s.fs.data a = some B)
    (h : s.fs.Created s'.fs slot t c) (hout : s'.proc.stdout = s.proc.stdout) :
    Keeps s (s'.withFs (s'.fs.link slot .absent)) arc B :=
  ⟨by rw [State.fs_withFs, content_of_inodeOf (h.inodeOf_unlink ha), Fs.data_link, h.data a B hB],
    fun _ i d hp _ hd => ⟨h.inodeOf_unlink hp, h.data i d hd⟩, hout⟩

theorem Keeps.renamed (ha : s.fs.inodeOf arc = some a) (hB : s.fs.data a = some B)
    (h : s.fs.Created s'.fs slot t c) (hout : s'.proc.stdout = s.proc.stdout) :
    Keeps s (s'.withFs ((s'.fs.link (s'.fs.slotOf arc) (.inode t)).link slot .absent)) arc c := by
  obtain ⟨harc, hothers⟩ := h.inodeOf_rename ha (h.ne hB)
  refine ⟨?_, fun p i d hp hpa hd => ⟨?_, h.data i d hd⟩, hout⟩
  · rw [State.fs_withFs, content_of_inodeOf harc, Fs.data_link, Fs.data_link, h.data_self]
  · exact hothers p i hp (fun hia => hpa (hia ▸ ha)) (h.ne hd)

/-- What is read at a record of a well-formed archive is its header. -/
theorem available_header (f : OpenFile) (pre : List Entry) (e : Entry) (post : List Entry) :
    OpenFile.available { f with pos := (encode pre).length } (encode (pre ++ e :: post))
      recordSize = e.header.bytes := by
  rw [OpenFile.available, encode_append, List.drop_left, encode_eq_header,
    e.header.take_bytes_append]

/-- What stands behind the header of a record is its data. -/
theorem drop_header (pre : List Entry) (e : Entry) (post : List Entry) :
    (encode (pre ++ e :: post)).drop ((encode pre).length + recordSize) =
      e.data ++ encode post := by
  rw [encode_append, ← List.drop_drop, List.drop_left, encode_eq_header,
    e.header.drop_bytes_append]

/-- What is read behind the last record is nothing. -/
theorem available_end (f : OpenFile) (es : List Entry) (count : Nat) :
    OpenFile.available { f with pos := (encode es).length } (encode es) count = [] := by
  rw [OpenFile.available, List.drop_length, List.take_nil]

/-- Seeking over the data of a record leads to the next one. -/
theorem seekTo_next (f : OpenFile) (pre : List Entry) (e : Entry) :
    OpenFile.seekTo { f with pos := (encode pre).length + recordSize } e.header.stSize .cur =
      ((encode (pre ++ [e])).length : Int) := by
  show (((encode pre).length + recordSize : Nat) : Int) + e.header.stSize = _
  rw [e.framed, encode_append, List.length_append, encode_cons, encode_nil, List.append_nil,
    e.length_bytes]
  omega

/-- From `s` to `s'` the line `l` was not printed. -/
def Unreported (l : Line) (s s' : State) : Prop :=
  ∃ ls, s'.proc.stdout = s.proc.stdout ++ ls ∧ l ∉ ls

variable {l : Line}

theorem Unreported.of_eq (h : s'.proc.stdout = s.proc.stdout) : Unreported l s s' :=
  ⟨[], by simp [h], by simp⟩

theorem Unreported.congr (h : Unreported l s s') (hout : s''.proc.stdout = s'.proc.stdout) :
    Unreported l s s'' := by
  obtain ⟨ls, hls, hnot⟩ := h
  exact ⟨ls, hout.trans hls, hnot⟩

theorem Unreported.printed (h : Unreported l s s') (l' : Line) (hl : l' ≠ l) :
    Unreported l s (s'.printed l') := by
  obtain ⟨ls, hls, hnot⟩ := h
  refine ⟨ls ++ [l'], by rw [State.stdout_printed, hls, List.append_assoc], ?_⟩
  simpa [hnot] using hl.symm

theorem Unreported.trans (h : Unreported l s s') (h' : Unreported l s' s'') :
    Unreported l s s'' := by
  obtain ⟨ls, hls, hnot⟩ := h
  obtain ⟨ls', hls', hnot'⟩ := h'
  exact ⟨ls ++ ls', by rw [hls', hls, List.append_assoc], by simp [hnot, hnot']⟩

/-- A program without the call that prints `l` does not print it. -/
theorem Spec.unreported {α : Type} {E : SysEvent → Prop} {p : Posix α}
    (hp : p.Calls (· ≠ .printf l.fmt l.args)) :
    Spec exec E (fun _ => True) s p fun _ s' => Unreported l s s' := by
  refine fun tr s' p' hrun _ => ⟨trivial, fun _ _ => ⟨_, (emits_runs hrun).stdout, fun hl => ?_⟩⟩
  obtain ⟨ev, hev, hprint⟩ := List.mem_flatMap.mp hl
  have hne := hrun.calls hp ev hev
  unfold printedLines at hprint
  split at hprint
  · next fmt args hcall =>
    rw [List.mem_singleton.mp hprint] at hne
    exact hne hcall
  · cases hprint

end LabsOS.Archiver
