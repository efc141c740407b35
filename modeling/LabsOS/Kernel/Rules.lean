import LabsOS.Kernel.Frames

/-!
# One rule for each system call

What a run may look like after a call, with the outcomes of `exec` already
split: each rule asks for the continuation of the program after every response
the call can give, with the state it leaves. A failed call hands its event to
the proof, so that an assumption on the environment can refute it.
-/

namespace LabsOS

section Rules

variable {E : SysEvent → Prop} {I : State → Prop} {α : Type} {Q : α → State → Prop}
variable {s : State} {fd : Fd} {f : OpenFile} {d : Bytes}

-- ---------------------------------------------------------------------------
-- Descriptors and output
-- ---------------------------------------------------------------------------

theorem Spec.close {k : Bool → Posix α} (hI : I s)
    (h : ∀ b, Spec exec E I (s.setFile fd none) (k b) Q) :
    Spec exec E I s (.call (.close fd) k) Q :=
  Spec.call hI fun _ _ => h _

theorem Spec.fsync {k : Bool → Posix α} (hI : I s) (h : ∀ b, Spec exec E I s (k b) Q) :
    Spec exec E I s (.call (.fsync fd) k) Q :=
  Spec.call hI fun _ _ => h _

theorem Spec.strftimeLocal {time : Int} {k : Option Bytes → Posix α} (hI : I s)
    (h : Spec exec E I s (k (s.fs.strftimeLocal time)) Q) :
    Spec exec E I s (.call (.strftimeLocal time) k) Q :=
  Spec.call hI fun _ _ => h

theorem Spec.printf {fmt : String} {args : List Arg} {k : Unit → Posix α} (hI : I s)
    (h : Spec exec E I (s.printed ⟨fmt, args⟩) (k ()) Q) :
    Spec exec E I s (.call (.printf fmt args) k) Q :=
  Spec.call hI fun _ _ => h

theorem Spec.fprintfErr {fmt : String} {args : List Arg} {k : Unit → Posix α} (hI : I s)
    (h : Spec exec E I (s.warned ⟨fmt, args⟩) (k ()) Q) :
    Spec exec E I s (.call (.fprintfErr fmt args) k) Q :=
  Spec.call hI fun _ _ => h

-- ---------------------------------------------------------------------------
-- Transfer
-- ---------------------------------------------------------------------------

/-- A `read` from a regular file that returns. -/
theorem State.sysRead_regular {o : Outcome} {count n : Nat} (hf : s.file fd = some f)
    (hr : f.flags.read = true) (hd : s.fs.data f.ino = some d) (hn : o.readCount count = some n) :
    s.sysRead o fd count = (s.afterRead fd f (f.available d n), some (f.available d n)) := by
  simp [State.sysRead, hf, hd, hn, hr]

theorem Spec.read {count : Nat} {k : Option Bytes → Posix α} (hI : I s)
    (hf : s.file fd = some f) (hr : f.flags.read = true) (hd : s.fs.data f.ino = some d)
    (hfail : E ⟨.read fd count, .fail, none⟩ → Spec exec E I s (k none) Q)
    (hok : ∀ n ≤ count, (ReadsFully E → n = count) →
      Spec exec E I (s.afterRead fd f (f.available d n)) (k (some (f.available d n))) Q) :
    Spec exec E I s (.call (.read fd count) k) Q := by
  apply Spec.call hI
  intro o ho
  change E ⟨.read fd count, o, (s.sysRead o fd count).2⟩ at ho
  show Spec exec E I (s.sysRead o fd count).1 (k (s.sysRead o fd count).2) Q
  have hread : ∀ n, o.readCount count = some n → _ := fun n => s.sysRead_regular hf hr hd
  cases o with
  | fail =>
    have hread : s.sysRead .fail fd count = (s, none) := by
      simp [State.sysRead, hf, hd, Outcome.readCount]
    rw [hread] at ho ⊢
    exact hfail ho
  | ok =>
    rw [hread count rfl]
    exact hok count le_rfl fun _ => rfl
  | shortWrite m =>
    rw [hread count rfl]
    exact hok count le_rfl fun _ => rfl
  | shortRead m =>
    rw [hread (min m count) rfl]
    exact hok _ (min_le_right ..) fun hE => absurd rfl (hE _ ho m)

/-- A `read` from any descriptor. -/
theorem Spec.read_any {count : Nat} {k : Option Bytes → Posix α} (hI : I s)
    (hfail : Spec exec E I s (k none) Q)
    (hok : ∀ f buf, s.file fd = some f → buf.length ≤ count →
      Spec exec E I (s.afterRead fd f buf) (k (some buf)) Q) :
    Spec exec E I s (.call (.read fd count) k) Q := by
  apply Spec.call hI
  intro o _
  show Spec exec E I (s.sysRead o fd count).1 (k (s.sysRead o fd count).2) Q
  unfold State.sysRead
  cases hf : s.file fd with
  | none => exact hfail
  | some f =>
    dsimp only
    split
    · next d n _ hn =>
      split
      · refine hok f _ hf ?_
        have hle : n ≤ count := by
          cases o <;> simp only [Outcome.readCount, Option.some.injEq, reduceCtorEq] at hn <;> omega
        rw [OpenFile.available, List.length_take]
        omega
      · exact hfail
    · exact hfail

/-- A directory cannot be read. -/
theorem Spec.read_none {count : Nat} {k : Option Bytes → Posix α} (hI : I s)
    (hf : s.file fd = some f) (hd : s.fs.data f.ino = none)
    (h : Spec exec E I s (k none) Q) : Spec exec E I s (.call (.read fd count) k) Q := by
  apply Spec.call hI
  intro o _
  show Spec exec E I (s.sysRead o fd count).1 (k (s.sysRead o fd count).2) Q
  have hread : s.sysRead o fd count = (s, none) := by simp [State.sysRead, hf, hd]
  rw [hread]
  exact h

theorem Spec.write {buf : Bytes} {k : Option Nat → Posix α} (hI : I s)
    (hf : s.file fd = some f) (hw : f.flags.write = true) (hd : s.fs.data f.ino = some d)
    (hfail : E ⟨.write fd buf, .fail, none⟩ → Spec exec E I s (k none) Q)
    (hok : ∀ o, ∀ n ≤ buf.length, (Faultless E → n = buf.length) →
      E ⟨.write fd buf, o, some n⟩ →
      Spec exec E I (s.afterWrite fd f d (buf.take n)) (k (some n)) Q) :
    Spec exec E I s (.call (.write fd buf) k) Q := by
  apply Spec.call hI
  intro o ho
  change E ⟨.write fd buf, o, (s.sysWrite o fd buf).2⟩ at ho
  show Spec exec E I (s.sysWrite o fd buf).1 (k (s.sysWrite o fd buf).2) Q
  have hwrite : ∀ n, o.writeCount buf.length = some n → s.sysWrite o fd buf =
      (s.afterWrite fd f d (buf.take n), some n) := by
    intro n hn
    simp [State.sysWrite, hf, hd, hn, hw]
  cases o with
  | fail =>
    have hwrite : s.sysWrite .fail fd buf = (s, none) := by
      simp [State.sysWrite, hf, hd, Outcome.writeCount]
    rw [hwrite] at ho ⊢
    exact hfail ho
  | ok =>
    rw [hwrite _ rfl] at ho ⊢
    exact hok _ _ le_rfl (fun _ => rfl) ho
  | shortRead m =>
    rw [hwrite _ rfl] at ho ⊢
    exact hok _ _ le_rfl (fun _ => rfl) ho
  | shortWrite m =>
    rw [hwrite _ rfl] at ho ⊢
    refine hok _ _ (min_le_right ..) (fun hE => ?_) ho
    cases hE _ ho

/-- An `lseek` to an offset in range. -/
theorem State.sysLseek_inRange {o : Outcome} {offset : Int} {whence : Whence}
    (hf : s.file fd = some f) (ho : o ≠ .fail)
    (hrange : 0 ≤ f.seekTo offset whence ∧ f.seekTo offset whence ≤ offMax) :
    s.sysLseek o fd offset whence =
      (s.setFile fd (some { f with pos := (f.seekTo offset whence).toNat }),
        some (f.seekTo offset whence).toNat) := by
  simp [State.sysLseek, hf, ho, hrange]

theorem Spec.lseek {offset : Int} {whence : Whence} {k : Option Nat → Posix α} (hI : I s)
    (hf : s.file fd = some f)
    (hfail : ∀ o, E ⟨.lseek fd offset whence, o, none⟩ →
      (o = .fail ∨ ¬ (0 ≤ f.seekTo offset whence ∧ f.seekTo offset whence ≤ offMax)) →
      Spec exec E I s (k none) Q)
    (hok : 0 ≤ f.seekTo offset whence → f.seekTo offset whence ≤ offMax →
      Spec exec E I (s.setFile fd (some { f with pos := (f.seekTo offset whence).toNat }))
        (k (some (f.seekTo offset whence).toNat)) Q) :
    Spec exec E I s (.call (.lseek fd offset whence) k) Q := by
  apply Spec.call hI
  intro o ho
  change E ⟨.lseek fd offset whence, o, (s.sysLseek o fd offset whence).2⟩ at ho
  show Spec exec E I (s.sysLseek o fd offset whence).1 (k (s.sysLseek o fd offset whence).2) Q
  by_cases hof : o = .fail
  · have hseek : s.sysLseek o fd offset whence = (s, none) := by
      simp [State.sysLseek, hf, hof]
    rw [hseek] at ho ⊢
    exact hfail o ho (.inl hof)
  · by_cases hrange : 0 ≤ f.seekTo offset whence ∧ f.seekTo offset whence ≤ offMax
    · rw [State.sysLseek_inRange hf hof hrange]
      exact hok hrange.1 hrange.2
    · have hseek : s.sysLseek o fd offset whence = (s, none) := by
        simp only [State.sysLseek, hf, if_neg hof, if_neg hrange]
      rw [hseek] at ho ⊢
      exact hfail o ho (.inr hrange)

theorem Spec.fstat {k : Option Stat → Posix α} (hI : I s)
    (hfail : ∀ o, E ⟨.fstat fd, o, none⟩ → (o = .fail ∨ s.inodeAt fd = none) →
      Spec exec E I s (k none) Q)
    (hok : ∀ o nd, s.inodeAt fd = some nd → E ⟨.fstat fd, o, some nd.fstat⟩ →
      Spec exec E I s (k (some nd.fstat)) Q) :
    Spec exec E I s (.call (.fstat fd) k) Q := by
  apply Spec.call hI
  intro o ho
  change E ⟨.fstat fd, o, (s.sysFstat o fd).2⟩ at ho
  show Spec exec E I s (k (s.sysFstat o fd).2) Q
  by_cases hof : o = .fail
  · have hstat : (s.sysFstat o fd).2 = none := by simp [State.sysFstat, hof]
    rw [hstat] at ho ⊢
    exact hfail o ho (.inl hof)
  · cases hnd : s.inodeAt fd with
    | none =>
      have hstat : (s.sysFstat o fd).2 = none := by simp [State.sysFstat, hnd]
      rw [hstat] at ho ⊢
      exact hfail o ho (.inr hnd)
    | some nd =>
      have hstat : (s.sysFstat o fd).2 = some nd.fstat := by simp [State.sysFstat, hof, hnd]
      rw [hstat] at ho ⊢
      exact hok o nd hnd ho

-- ---------------------------------------------------------------------------
-- Opening
-- ---------------------------------------------------------------------------

/-- Opening a path that cannot be opened this way. -/
theorem Spec.open_none {path : CString} {flags : OpenFlags} {mode : Nat}
    {k : Option Fd → Posix α} (hI : I s) (hopen : s.openPath path flags mode = (s, none))
    (hfail : ∀ o, E ⟨.openFile path flags mode, o, none⟩ → Spec exec E I s (k none) Q) :
    Spec exec E I s (.call (.openFile path flags mode) k) Q := by
  apply Spec.call hI
  intro o ho
  change E ⟨.openFile path flags mode, o, (s.sysOpen o path flags mode).2⟩ at ho
  show Spec exec E I (s.sysOpen o path flags mode).1 (k (s.sysOpen o path flags mode).2) Q
  have hnone : s.sysOpen o path flags mode = (s, none) := by simp [State.sysOpen, hopen]
  rw [hnone] at ho ⊢
  exact hfail o ho

theorem State.sysOpen_regular {o : Outcome} {path : CString} {flags : OpenFlags} {mode : Nat}
    {i : Ino} (ho : o ≠ .fail) (hino : s.fs.inodeOf path = some i) (hd : s.fs.data i = some d) :
    s.sysOpen o path flags mode =
      ((s.withFs (if flags.trunc then s.fs.setData i [] else s.fs)).addFile ⟨i, 0, flags⟩,
        some s.proc.fds.length) := by
  obtain ⟨slot, ht, hdir⟩ := Fs.inodeOf_eq_some.mp hino
  obtain ⟨nd, hnd, hreg⟩ := Fs.data_eq_some.mp hd
  simp [State.sysOpen, ho, State.openPath, ht, hdir, State.openInode, hnd, hreg.1]

/-- Opening a path that leads to a regular file. -/
theorem Spec.open_regular {path : CString} {flags : OpenFlags} {mode : Nat} {i : Ino}
    {k : Option Fd → Posix α} (hI : I s) (hino : s.fs.inodeOf path = some i)
    (hd : s.fs.data i = some d)
    (hfail : E ⟨.openFile path flags mode, .fail, none⟩ → Spec exec E I s (k none) Q)
    (hok : Spec exec E I
      ((s.withFs (if flags.trunc then s.fs.setData i [] else s.fs)).addFile ⟨i, 0, flags⟩)
      (k (some s.proc.fds.length)) Q) :
    Spec exec E I s (.call (.openFile path flags mode) k) Q := by
  apply Spec.call hI
  intro o ho
  change E ⟨.openFile path flags mode, o, (s.sysOpen o path flags mode).2⟩ at ho
  show Spec exec E I (s.sysOpen o path flags mode).1 (k (s.sysOpen o path flags mode).2) Q
  by_cases hof : o = .fail
  · subst hof
    exact hfail ho
  · rw [State.sysOpen_regular hof hino hd]
    exact hok

/-- Opening a path for reading, whatever it leads to. -/
theorem Spec.open_read {path : CString} {mode : Nat} {k : Option Fd → Posix α} (hI : I s)
    (hfail : ∀ o, E ⟨.openFile path { read := true } mode, o, none⟩ →
      (o = .fail ∨ s.fs.lookup path = none) → Spec exec E I s (k none) Q)
    (hok : ∀ i nd, s.fs.inodeOf path = some i → s.fs.inodes[i]? = some nd →
      Spec exec E I (s.addFile ⟨i, 0, { read := true }⟩) (k (some s.proc.fds.length)) Q) :
    Spec exec E I s (.call (.openFile path { read := true } mode) k) Q := by
  cases hino : s.fs.inodeOf path with
  | none =>
    have hlookup : s.fs.lookup path = none := by rw [Fs.lookup, hino, Option.bind_none]
    refine Spec.open_none hI ?_ fun o ho => hfail o ho (.inr hlookup)
    unfold Fs.inodeOf at hino
    unfold State.openPath
    cases ht : s.fs.target path with
    | none => rfl
    | some slot => cases hdir : s.fs.dir slot <;> simp [ht, hdir] at hino ⊢
  | some i =>
    obtain ⟨slot, ht, hdir⟩ := Fs.inodeOf_eq_some.mp hino
    cases hnd : s.fs.inodes[i]? with
    | none =>
      have hlookup : s.fs.lookup path = none := by rw [Fs.lookup, hino, Option.bind_some, hnd]
      refine Spec.open_none hI ?_ fun o ho => hfail o ho (.inr hlookup)
      simp [State.openPath, ht, hdir, State.openInode, hnd]
    | some nd =>
      apply Spec.call hI
      intro o ho
      change E ⟨.openFile path { read := true } mode, o, (s.sysOpen o path _ mode).2⟩ at ho
      show Spec exec E I (s.sysOpen o path _ mode).1 (k (s.sysOpen o path _ mode).2) Q
      by_cases hof : o = .fail
      · subst hof
        exact hfail _ ho (.inl rfl)
      · have hopen : s.sysOpen o path { read := true } mode =
            (s.addFile ⟨i, 0, { read := true }⟩, some s.proc.fds.length) := by
          simp only [State.sysOpen, if_neg hof, State.openPath, ht, hdir, State.openInode, hnd]
          split <;> rfl
        rw [hopen]
        exact hok i nd hino hnd

/-- `fs'` is `fs` with a file of content `c` created in the entry `slot`. -/
structure Fs.Created (fs fs' : Fs) (slot : Slot) (j : Ino) (c : Bytes) : Prop where
  absent : fs.dir slot = .absent
  dir    : fs'.dir = Function.update fs.dir slot (.inode j)
  slotOf : fs'.slotOf = fs.slotOf
  fresh  : j = fs.inodes.length
  data_self : fs'.data j = some c
  others : ∀ i, i ≠ j → fs'.data i = fs.data i

namespace Fs.Created

variable {fs fs' : Fs} {path : CString} {slot : Slot} {j : Ino} {c : Bytes}

theorem ne (h : fs.Created fs' slot j c) {i : Ino} {d : Bytes} (hi : fs.data i = some d) :
    i ≠ j := by
  rw [h.fresh]
  exact (ino_lt hi).ne

theorem data (h : fs.Created fs' slot j c) (i : Ino) (d : Bytes) (hd : fs.data i = some d) :
    fs'.data i = some d := (h.others i (h.ne hd)).trans hd

/-- Creating a file changes no path that leads to a file. -/
theorem inodeOf (h : fs.Created fs' slot j c) {p : CString} {i : Ino}
    (hi : fs.inodeOf p = some i) : fs'.inodeOf p = some i := by
  have hdir : fs'.dir = (fs.link slot (.inode j)).dir := h.dir
  rw [inodeOf_congr hdir h.slotOf]
  apply inodeOf_link _ hi
  intro t m ht
  obtain ⟨t', ht', hd⟩ := inodeOf_eq_some.mp hi
  obtain rfl : t = t' := Option.some.inj (ht.symm.trans ht')
  refine walk_ne_of_dir ?_ ?_
  · intro u hu
    rw [h.absent] at hu
    cases hu
  · rintro rfl
    rw [h.absent] at hd
    cases hd

/-- The path that was followed to the new entry leads to the new file. -/
theorem inodeOf_target (h : fs.Created fs' slot j c) (ht : fs.target path = some slot) :
    fs'.inodeOf path = some j := by
  have hdir : fs'.dir = (fs.link slot (.inode j)).dir := h.dir
  rw [inodeOf_congr hdir h.slotOf]
  refine inodeOf_eq_some.mpr ⟨slot, walk_link_absent h.absent ht, ?_⟩
  simp [link]

theorem dir_self (h : fs.Created fs' slot j c) : fs'.dir slot = .inode j := by
  rw [h.dir, Function.update_self]

theorem setData (h : fs.Created fs' slot j c) (c' : Bytes) :
    fs.Created (fs'.setData j c') slot j c' :=
  ⟨h.absent, h.dir, h.slotOf, h.fresh, data_setData_self h.data_self,
    fun i hi => (data_setData_ne hi).trans (h.others i hi)⟩

end Fs.Created

theorem State.createAt_created (s : State) (flags : OpenFlags) (mode : Nat) {slot : Slot}
    (h : s.fs.dir slot = .absent) :
    ∃ fs' j, s.fs.Created fs' slot j [] ∧
      (∀ (i : Nat) nd, s.fs.inodes[i]? = some nd → fs'.inodes[i]? = some nd) ∧
      s.createAt slot flags mode = ((s.withFs fs').addFile ⟨j, 0, flags⟩, s.proc.fds.length) := by
  refine ⟨(s.fs.newInode ⟨false, [], Stat.created mode⟩).link slot (.inode s.fs.inodes.length), _,
    ⟨h, rfl, rfl, rfl, Fs.data_newInode_self _, fun _ hi => Fs.data_newInode_ne hi _⟩,
    fun i nd hnd => ?_, rfl⟩
  obtain ⟨hlt, -⟩ := List.getElem?_eq_some_iff.mp hnd
  exact (List.getElem?_append_left hlt).trans hnd

/-- Opening a path that leads to no file yet, with `O_CREAT`. -/
theorem Spec.open_creat {path : CString} {flags : OpenFlags} {mode : Nat} {slot : Slot}
    {k : Option Fd → Posix α} (hI : I s) (ht : s.fs.target path = some slot)
    (hdir : s.fs.dir slot = .absent) (hcreat : flags.creat = true)
    (hfail : E ⟨.openFile path flags mode, .fail, none⟩ → Spec exec E I s (k none) Q)
    (hok : ∀ fs' j, s.fs.Created fs' slot j [] →
      (∀ (i : Nat) nd, s.fs.inodes[i]? = some nd → fs'.inodes[i]? = some nd) →
      Spec exec E I ((s.withFs fs').addFile ⟨j, 0, flags⟩) (k (some s.proc.fds.length)) Q) :
    Spec exec E I s (.call (.openFile path flags mode) k) Q := by
  apply Spec.call hI
  intro o ho
  change E ⟨.openFile path flags mode, o, (s.sysOpen o path flags mode).2⟩ at ho
  show Spec exec E I (s.sysOpen o path flags mode).1 (k (s.sysOpen o path flags mode).2) Q
  by_cases hof : o = .fail
  · subst hof
    exact hfail ho
  · obtain ⟨fs', j, hnew, hinodes, hcr⟩ := s.createAt_created flags (s.createMode mode) hdir
    have hopen : s.sysOpen o path flags mode =
        ((s.withFs fs').addFile ⟨j, 0, flags⟩, some s.proc.fds.length) := by
      simp [State.sysOpen, hof, State.openPath, ht, hdir, hcreat, hcr]
    rw [hopen]
    exact hok fs' j hnew hinodes

/-- `fs'` is `fs` with an empty file at `path`, created or truncated. -/
structure Fs.Emptied (fs fs' : Fs) (path : CString) (j : Ino) : Prop where
  inodeOf_self : fs'.inodeOf path = some j
  data_self    : fs'.data j = some []
  data         : ∀ i d, i ≠ j → fs.data i = some d → fs'.data i = some d
  inodeOf      : ∀ p i, fs.inodeOf p = some i → fs'.inodeOf p = some i
  origin       : fs.inodeOf path = some j ∨ j = fs.inodes.length

/-- Opening a path for output. -/
theorem Spec.open_output {path : CString} {mode : Nat} {k : Option Fd → Posix α} (hI : I s)
    (hfail : ∀ o, E ⟨.openFile path { write := true, creat := true, trunc := true } mode, o,
      none⟩ → Spec exec E I s (k none) Q)
    (hok : ∀ fs' j, s.fs.Emptied fs' path j →
      Spec exec E I ((s.withFs fs').addFile
        ⟨j, 0, { write := true, creat := true, trunc := true }⟩) (k (some s.proc.fds.length)) Q) :
    Spec exec E I s
      (.call (.openFile path { write := true, creat := true, trunc := true } mode) k) Q := by
  cases ht : s.fs.target path with
  | none => exact Spec.open_none hI (by simp [State.openPath, ht]) hfail
  | some slot =>
    cases hdir : s.fs.dir slot with
    | absent =>
      refine Spec.open_creat hI ht hdir rfl (hfail _) fun fs' j h _ => hok fs' j ?_
      exact ⟨h.inodeOf_target ht, h.data_self, fun i d _ hd => h.data i d hd,
        fun p i hp => h.inodeOf hp, .inr h.fresh⟩
    | symlink t => exact absurd hdir (Fs.walk_dir ht t)
    | inode i =>
      have hino : s.fs.inodeOf path = some i := Fs.inodeOf_eq_some.mpr ⟨slot, ht, hdir⟩
      cases hd : s.fs.data i with
      | none =>
        refine Spec.open_none hI ?_ hfail
        unfold Fs.data at hd
        split at hd
        · next nd hnd =>
          split at hd
          · next hisDir => simp [State.openPath, ht, hdir, State.openInode, hnd, hisDir]
          · cases hd
        · next hnd => simp [State.openPath, ht, hdir, State.openInode, hnd]
      | some d =>
        refine Spec.open_regular hI hino hd (hfail _) (hok _ i ?_)
        refine ⟨by simpa using hino, Fs.data_setData_self hd, fun j d' hne hj => ?_,
          fun p j hp => by simpa using hp, .inl hino⟩
        exact (Fs.data_setData_ne hne).trans hj

-- ---------------------------------------------------------------------------
-- Temporary files
-- ---------------------------------------------------------------------------

theorem Spec.mkstemp {template : String} {k : Option (Fd × CString) → Posix α} (hI : I s)
    (hfail : ∀ o, E ⟨.mkstemp template, o, none⟩ →
      (o = .fail ∨ s.fs.dir (s.fs.slotOf (s.fs.tempPath template s.fs.temps)) ≠ .absent) →
      Spec exec E I s (k none) Q)
    (hok : ∀ fs' path j, s.fs.Created fs' (s.fs.slotOf path) j [] →
      Spec exec E I ((s.withFs fs').addFile ⟨j, 0, { read := true, write := true }⟩)
        (k (some (s.proc.fds.length, path))) Q) :
    Spec exec E I s (.call (.mkstemp template) k) Q := by
  apply Spec.call hI
  intro o ho
  change E ⟨.mkstemp template, o, (s.sysMkstemp o template).2⟩ at ho
  show Spec exec E I (s.sysMkstemp o template).1 (k (s.sysMkstemp o template).2) Q
  set path := s.fs.tempPath template s.fs.temps with hpath
  by_cases hcond : o ≠ .fail ∧ s.fs.dir (s.fs.slotOf path) = .absent
  · have hmk : s.sysMkstemp o template =
        (((s.withFs (({ s.fs with temps := s.fs.temps + 1 } : Fs).newInode
          ⟨false, [], Stat.created 0o600⟩ |>.link (s.fs.slotOf path)
            (.inode s.fs.inodes.length))).addFile
          ⟨s.fs.inodes.length, 0, { read := true, write := true }⟩),
          some (s.proc.fds.length, path)) := by
      simp only [State.sysMkstemp, ← hpath, if_pos hcond]
      rfl
    rw [hmk]
    refine hok _ path _ ⟨hcond.2, rfl, rfl, rfl, Fs.data_newInode_self _, fun i hi => ?_⟩
    have hi' : i ≠ ({ s.fs with temps := s.fs.temps + 1 } : Fs).inodes.length := hi
    exact Fs.data_newInode_ne hi' _
  · have hmk : s.sysMkstemp o template = (s, none) := by
      simp only [State.sysMkstemp, ← hpath, if_neg hcond]
    rw [hmk] at ho ⊢
    refine hfail o ho ?_
    by_cases hof : o = .fail
    · exact .inl hof
    · exact .inr fun habs => hcond ⟨hof, habs⟩

/-- Removing a created file changes no path that led to a file before. -/
theorem Fs.Created.inodeOf_unlink {fs fs' : Fs} {slot : Slot} {j : Ino} {c : Bytes}
    (h : fs.Created fs' slot j c) {p : CString} {i : Ino} (hi : fs.inodeOf p = some i) :
    (fs'.link slot .absent).inodeOf p = some i := by
  have hdir : (fs'.link slot .absent).dir = fs.dir := by
    simp [Fs.link, h.dir, ← h.absent]
  exact (inodeOf_congr hdir h.slotOf p).trans hi

theorem Fs.holdsDirectory_slotOf {fs : Fs} {p : CString} {i : Ino} {d : Bytes}
    (hi : fs.inodeOf p = some i) (hd : fs.data i = some d) :
    State.holdsDirectory fs (fs.slotOf p) = false := by
  rcases Fs.dir_slotOf hi with hdir | ⟨u, hdir⟩
  · obtain ⟨nd, hnd, hreg, -⟩ := Fs.data_eq_some.mp hd
    simp [State.holdsDirectory, hdir, hnd, hreg]
  · simp [State.holdsDirectory, hdir]

section Replace

variable {fs fs' : Fs} {slot : Slot} {j a i : Ino} {c : Bytes} {arc p : CString}

/-- A file just created is not behind the entry of a path that led to a file before. -/
theorem Fs.Created.not_sameEntry (h : fs.Created fs' slot j c) (ha : fs.inodeOf arc = some a)
    (hne : a ≠ j) : slot ≠ fs'.slotOf arc ∧ ¬ State.sameEntry fs' slot (fs'.slotOf arc) := by
  have hslot : slot ≠ fs'.slotOf arc := by
    rw [h.slotOf]
    rintro rfl
    rcases Fs.dir_slotOf ha with hdir | ⟨u, hdir⟩ <;> rw [h.absent] at hdir <;> cases hdir
  refine ⟨hslot, ?_⟩
  rintro (heq | ⟨hdir, -⟩)
  · exact hslot heq
  · rw [h.dir_self] at hdir
    have harc := Fs.inodeOf_of_dir hdir.symm
    rw [h.inodeOf ha] at harc
    exact hne (Option.some.inj harc)

/-- After a created file is renamed over `arc`, that path leads to it and every
path that led to another file still does. -/
theorem Fs.Created.inodeOf_rename (h : fs.Created fs' slot j c) (ha : fs.inodeOf arc = some a)
    (hne : a ≠ j) :
    ((fs'.link (fs'.slotOf arc) (.inode j)).link slot .absent).inodeOf arc = some j ∧
    ∀ p i, fs.inodeOf p = some i → i ≠ a → i ≠ j →
      ((fs'.link (fs'.slotOf arc) (.inode j)).link slot .absent).inodeOf p = some i := by
  obtain ⟨hslot, -⟩ := h.not_sameEntry ha hne
  obtain ⟨ta, hta, hda⟩ := Fs.inodeOf_eq_some.mp (h.inodeOf ha)
  have hmid : (fs'.link (fs'.slotOf arc) (.inode j)).dir slot = .inode j := by
    simp [Fs.link, Function.update_of_ne hslot, h.dir_self]
  refine ⟨Fs.inodeOf_of_dir ?_, ?_⟩
  · simp [Fs.link, Function.update_of_ne hslot.symm]
  · intro p i hp hpa hpj
    have hp' := h.inodeOf hp
    -- a lookup through the entry of `arc` would have ended at `a`
    have hp₁ := Fs.inodeOf_link (z := fs'.slotOf arc) (.inode j) hp' fun t m ht hm => by
      obtain ⟨t', ht', hd⟩ := Fs.inodeOf_eq_some.mp hp'
      obtain rfl := Option.some.inj (ht.symm.trans ht')
      obtain rfl := Fs.walk_unique hm hta
      exact hpa (DirEntry.inode.inj (hd.symm.trans hda))
    -- a lookup that ended at the temporary name would lead to the new file
    apply Fs.inodeOf_link .absent hp₁
    intro t m ht
    refine Fs.walk_ne_of_dir (fun u hu => by rw [hmid] at hu; cases hu) ?_
    rintro rfl
    obtain ⟨t', ht', hd⟩ := Fs.inodeOf_eq_some.mp hp₁
    obtain rfl := Option.some.inj (ht.symm.trans ht')
    exact hpj (DirEntry.inode.inj (hd.symm.trans hmid))

end Replace

/-- Renaming a regular file over an entry that is no directory and no link to it. -/
theorem Spec.rename {old new : CString} {t : Ino} {k : Bool → Posix α} (hI : I s)
    (hsrc : s.fs.dir (s.fs.slotOf old) = .inode t) (hd : s.fs.data t = some d)
    (hdst : State.holdsDirectory s.fs (s.fs.slotOf new) = false)
    (hne : ¬ State.sameEntry s.fs (s.fs.slotOf old) (s.fs.slotOf new))
    (hfail : E ⟨.rename old new, .fail, false⟩ → Spec exec E I s (k false) Q)
    (hok : Spec exec E I
      (s.withFs ((s.fs.link (s.fs.slotOf new) (.inode t)).link (s.fs.slotOf old) .absent))
      (k true) Q) :
    Spec exec E I s (.call (.rename old new) k) Q := by
  apply Spec.call hI
  intro o ho
  change E ⟨.rename old new, o, (s.sysRename o old new).2⟩ at ho
  show Spec exec E I (s.sysRename o old new).1 (k (s.sysRename o old new).2) Q
  by_cases hof : o = .fail
  · subst hof
    exact hfail ho
  · obtain ⟨nd, hnd, hreg⟩ := Fs.data_eq_some.mp hd
    have hsrcDir : State.holdsDirectory s.fs (s.fs.slotOf old) = false := by
      simp [State.holdsDirectory, hsrc, hnd, hreg.1]
    have hren : s.sysRename o old new =
        (s.withFs ((s.fs.link (s.fs.slotOf new) (.inode t)).link (s.fs.slotOf old) .absent),
          true) := by
      simp [State.sysRename, hof, hsrc, hsrcDir, hdst, hne]
    rw [hren]
    exact hok

theorem Spec.unlink {path : CString} {k : Bool → Posix α} (hI : I s)
    (hkeep : ∀ b, Spec exec E I s (k b) Q)
    (hgone : Spec exec E I (s.withFs (s.fs.link (s.fs.slotOf path) .absent)) (k true) Q) :
    Spec exec E I s (.call (.unlink path) k) Q := by
  apply Spec.call hI
  intro o _
  show Spec exec E I (s.sysUnlink o path).1 (k (s.sysUnlink o path).2) Q
  unfold State.sysUnlink
  dsimp only
  split
  · exact hkeep false
  · exact hgone

-- ---------------------------------------------------------------------------
-- Metadata
-- ---------------------------------------------------------------------------

/-- Two file systems with the same directory entries and the same contents. -/
structure Fs.SameFiles (fs fs' : Fs) : Prop where
  dir    : fs'.dir = fs.dir
  slotOf : fs'.slotOf = fs.slotOf
  data   : ∀ i, fs'.data i = fs.data i

theorem Fs.SameFiles.inodeOf {fs fs' : Fs} (h : fs.SameFiles fs') (p : CString) :
    fs'.inodeOf p = fs.inodeOf p := inodeOf_congr h.dir h.slotOf p

theorem Fs.Created.sameFiles {fs fs' fs'' : Fs} {slot : Slot} {j : Ino} {c : Bytes}
    (h : fs.Created fs' slot j c) (h' : fs'.SameFiles fs'') : fs.Created fs'' slot j c :=
  ⟨h.absent, h'.dir.trans h.dir, h'.slotOf.trans h.slotOf, h.fresh,
    (h'.data j).trans h.data_self, fun i hi => (h'.data i).trans (h.others i hi)⟩

theorem Fs.SameFiles.refl (fs : Fs) : fs.SameFiles fs := ⟨rfl, rfl, fun _ => rfl⟩

/-- A call that changes at most the metadata of one inode. -/
theorem Spec.metadata {c : Sys} {k : c.Resp → Posix α} (hI : I s)
    (hc : ∀ o, (exec o s c).1.proc = s.proc ∧ s.fs.SameFiles (exec o s c).1.fs)
    (h : ∀ fs r, s.fs.SameFiles fs → Spec exec E I (s.withFs fs) (k r) Q) :
    Spec exec E I s (.call c k) Q := by
  apply Spec.call hI
  intro o _
  obtain ⟨hproc, hfs⟩ := hc o
  have hs : (exec o s c).1 = s.withFs (exec o s c).1.fs := by
    rw [State.withFs, ← hproc]
  rw [hs]
  exact h _ _ hfs

theorem State.changeStat_sameFiles (o : Outcome) (s : State) (i : Option Ino) (g : Stat → Stat) :
    (s.changeStat o i g).1.proc = s.proc ∧ s.fs.SameFiles (s.changeStat o i g).1.fs := by
  rcases s.changeStat_cases o i g with ⟨i, -, h⟩ | h
  · rw [h]
    exact ⟨rfl, rfl, rfl, fun j => Fs.data_setStat _ _⟩
  · rw [h]
    exact ⟨rfl, .refl _⟩

theorem Spec.chmod {path : CString} {mode : Nat} {k : Bool → Posix α} (hI : I s)
    (h : ∀ fs b, s.fs.SameFiles fs → Spec exec E I (s.withFs fs) (k b) Q) :
    Spec exec E I s (.call (.chmod path mode) k) Q :=
  Spec.metadata hI (fun o => s.changeStat_sameFiles o _ _) h

theorem Spec.chown {path : CString} {uid gid : Nat} {k : Bool → Posix α} (hI : I s)
    (h : ∀ fs b, s.fs.SameFiles fs → Spec exec E I (s.withFs fs) (k b) Q) :
    Spec exec E I s (.call (.chown path uid gid) k) Q :=
  Spec.metadata hI (fun o => s.changeStat_sameFiles o _ _) h

theorem Spec.utime {path : CString} {atime mtime : Int} {k : Bool → Posix α} (hI : I s)
    (h : ∀ fs b, s.fs.SameFiles fs → Spec exec E I (s.withFs fs) (k b) Q) :
    Spec exec E I s (.call (.utime path atime mtime) k) Q :=
  Spec.metadata hI (fun o => s.changeStat_sameFiles o _ _) h

theorem Spec.fchmod {mode : Nat} {k : Bool → Posix α} (hI : I s)
    (h : ∀ fs b, s.fs.SameFiles fs → Spec exec E I (s.withFs fs) (k b) Q) :
    Spec exec E I s (.call (.fchmod fd mode) k) Q :=
  Spec.metadata hI (fun o => s.changeStat_sameFiles o _ _) h

end Rules

end LabsOS
