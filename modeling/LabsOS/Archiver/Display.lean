import LabsOS.Archiver.Archive
import LabsOS.Archiver.Copy
import LabsOS.Archiver.Format

/-!
# Listing

`display_archive_contents` prints one line for each live record of a well-formed
archive, in order, when its system calls succeed.
-/

namespace LabsOS.Archiver

section Display

variable {E : SysEvent → Prop}
variable {s s' : State} {fd : Fd} {f : OpenFile} {arc : CString} {a : Ino}
variable {pre post es : List Entry} {e : Entry} {pos : Nat} {rows : List Line}

/-- The line for an item: its path, its size and its modification time. -/
def itemLine (fs : Fs) (it : Item) : Line :=
  ⟨"%-30s %-10lld %-20s\n", [.str it.path.bytes, .int it.data.length,
    ((fs.strftimeLocal it.stat.stMtime).map Arg.str).getD (.text "неизвестно")]⟩

/-- The listing of an archive with these items. -/
def listing (fs : Fs) (arc : CString) (its : List Item) : List Line :=
  displayHeading arc ++ its.map (itemLine fs)

theorem displayLine_header (fs : Fs) (e : Entry) :
    displayLine e.header (fs.strftimeLocal e.header.fileStats.stMtime) = itemLine fs e.item := by
  simp only [displayLine, itemLine, Entry.item, e.framed]

/-- `s'` is `s` while the archive is listed: it has been read up to `pos` and `rows`
were printed. -/
structure Listed (s s' : State) (fd : Fd) (f : OpenFile) (pos : Nat) (rows : List Line) :
    Prop where
  fs     : s'.fs = s.fs
  file   : s'.file fd = some { f with pos := pos }
  stdout : s'.proc.stdout = s.proc.stdout ++ rows

theorem Listed.printed (h : Listed s s' fd f pos rows) (l : Line) :
    Listed s (s'.printed l) fd f pos (rows ++ [l]) :=
  ⟨h.fs, h.file, by rw [State.stdout_printed, h.stdout, List.append_assoc]⟩

theorem Listed.seek (h : Listed s s' fd f pos rows) (pos' : Nat) :
    Listed s (seekState s' fd { f with pos := pos } pos') fd f pos' rows :=
  ⟨h.fs, seekState_file h.file pos', h.stdout⟩

theorem printLines_spec (ls : List Line) (h : Listed s s' fd f pos rows) :
    Spec exec E (fun _ => True) s' (printLines ls) fun _ s'' =>
      Listed s s'' fd f pos (rows ++ ls) := by
  induction ls generalizing s' rows with
  | nil => exact Spec.ret trivial (by simpa using h)
  | cons l ls ih =>
    refine Spec.printf trivial ((ih (h.printed l)).mono fun _ s'' h' => ?_)
    simpa using h'

/-- The offset moves over the data of a record to the next header. -/
theorem displaySeek_spec {pre post : List Entry} {e : Entry} (hE : AllSucceed E)
    (hl : Listed s s' fd f ((encode pre).length + recordSize)
      (rows ++ (liveItems (pre ++ [e])).map (itemLine s.fs))) :
    Spec exec E (fun _ => True) s'
      (do match ← Posix.lseek fd e.header.stSize .cur with
          | none =>
            Posix.perror "Ошибка: позиционирование в архиве при просмотре не удалось"
            pure (Sum.inr ())
          | some _ => pure (Sum.inl ()))
      (Sum.elim (fun _ s'' => ∃ pre' post', pre ++ e :: post = pre' ++ post' ∧
          Listed s s'' fd f (encode pre').length (rows ++ (liveItems pre').map (itemLine s.fs)))
        fun b s'' => Spec exec E (fun _ => True) s'' (Prog.ret b) fun _ s₃ =>
          ∃ pos, Listed s s₃ fd f pos
            (rows ++ (liveItems (pre ++ e :: post)).map (itemLine s.fs))) := by
  apply Spec.lseek trivial hl.file (fun o hev _ => nomatch (hE _ hev).2)
  intro _ _
  refine Spec.ret trivial ⟨pre ++ [e], post, by simp, ?_⟩
  rw [seekTo_next, Int.toNat_natCast]
  exact hl.seek _

/-- **The loop of a listing** prints the live records of a well-formed archive. -/
theorem displayLoop_spec (hE : AllSucceed E) (hread : f.flags.read = true)
    (hB : s.fs.data f.ino = some (encode es)) (h : Listed s s' fd f 0 rows) :
    Spec exec E (fun _ => True) s' (Prog.while_ (displayRound fd) ()) fun _ s'' =>
      ∃ pos, Listed s s'' fd f pos (rows ++ (liveItems es).map (itemLine s.fs)) := by
  refine Spec.loop (fun _ s'' => ∃ pre post, es = pre ++ post ∧
    Listed s s'' fd f (encode pre).length (rows ++ (liveItems pre).map (itemLine s.fs))) ?_
    ⟨[], es, rfl, by simpa using h⟩
  rintro _ s₁ ⟨pre, post, hes, hl⟩
  refine Spec.read trivial hl.file hread (by rw [hl.fs]; exact hB)
    (fun hev => nomatch (hE _ hev).2) fun n _ hfull => ?_
  obtain rfl := hfull hE.faultless.readsFully
  cases post with
  | nil =>
    rw [List.append_nil] at hes
    subst hes
    rw [available_end]
    exact Spec.ret trivial (Spec.ret trivial ⟨_, hl.seek _⟩)
  | cons e post =>
    have hl₁ := hl.seek ((encode pre).length + recordSize)
    have hofBytes := e.header.ofBytes?_bytes
    obtain ⟨x, xs, hx⟩ := List.exists_cons_of_ne_nil e.header.bytes_ne_nil
    rw [hes, available_header, State.afterRead, e.header.size_eq]
    rw [hx] at hofBytes ⊢
    simp only [Prog.ret_bind, hofBytes]
    split
    · next hlive =>
      refine Spec.strftimeLocal trivial (Spec.printf trivial (displaySeek_spec hE ?_))
      have hline : displayLine e.header (s₁.fs.strftimeLocal e.header.fileStats.stMtime) =
          itemLine s.fs e.item := by rw [hl.fs, displayLine_header]
      have hl₂ := hl₁.printed (itemLine s.fs e.item)
      have hrows : rows ++ (liveItems pre).map (itemLine s.fs) ++ [itemLine s.fs e.item] =
          rows ++ (liveItems (pre ++ [e])).map (itemLine s.fs) := by
        simp [liveItems_cons_live hlive]
      rw [hrows, ← hline] at hl₂
      exact hl₂
    · next hdead =>
      refine displaySeek_spec hE ?_
      rw [liveItems_append, liveItems_cons_dead hdead, liveItems_nil, List.append_nil]
      exact hl₁

/-- **Listing.** When its system calls succeed, a listing of a well-formed archive
prints the heading and its live records. -/
theorem displayArchiveContents_spec (hE : AllSucceed E) (ha : s.fs.inodeOf arc = some a)
    (hB : s.fs.data a = some (encode es)) :
    Spec exec E (fun _ => True) s (displayArchiveContents arc) fun _ s' =>
      s'.proc.stdout = s.proc.stdout ++ listing s.fs arc (liveItems es) := by
  refine Spec.open_regular trivial ha hB (fun hev => nomatch (hE _ hev).2) ?_
  change Spec exec E _ (s.addFile ⟨a, 0, { read := true }⟩) _ _
  have hstart : Listed s (s.addFile ⟨a, 0, { read := true }⟩) s.proc.fds.length
      ⟨a, 0, { read := true }⟩ 0 [] := ⟨rfl, State.file_addFile_self, (List.append_nil _).symm⟩
  refine Spec.ret_bind (Spec.bind (printLines_spec (displayHeading arc) hstart) fun _ s₁ h₁ => ?_)
  apply Spec.bind (displayLoop_spec hE rfl hB h₁)
  intro _ s₂ h₂
  obtain ⟨pos, h₂⟩ := h₂
  exact Spec.close trivial fun _ => Spec.ret trivial h₂.stdout

end Display

end LabsOS.Archiver
