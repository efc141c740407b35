import LabsOS.Kernel.Exec

/-!
# What each change of the state leaves alone

The lookups a proof needs (`State.file`, `Fs.data`, `Fs.inodeOf`, …) against
every operation that changes a state. Path lookup depends on the directory
entries only, and relinking one entry matters only to the lookups that go
through it (`Fs.target_link`).
-/

namespace LabsOS

-- ---------------------------------------------------------------------------
-- Descriptors
-- ---------------------------------------------------------------------------

namespace State

variable (s : State) {fd fd' : Fd} {f g : OpenFile}

@[simp] theorem fs_setFile (x : Option OpenFile) : (s.setFile fd x).fs = s.fs := rfl
@[simp] theorem fs_addFile : (s.addFile f).fs = s.fs := rfl
@[simp] theorem fs_printed (l : Line) : (s.printed l).fs = s.fs := rfl
@[simp] theorem fs_warned (l : Line) : (s.warned l).fs = s.fs := rfl
@[simp] theorem fs_withFs (fs : Fs) : (s.withFs fs).fs = fs := rfl
@[simp] theorem fs_account (n : Nat) : (s.account n).fs = s.fs := rfl

@[simp] theorem file_withFs (fs : Fs) : (s.withFs fs).file fd = s.file fd := rfl
@[simp] theorem file_printed (l : Line) : (s.printed l).file fd = s.file fd := rfl
@[simp] theorem file_warned (l : Line) : (s.warned l).file fd = s.file fd := rfl

@[simp] theorem file_account (n : Nat) : (s.account n).file fd = s.file fd := rfl

@[simp] theorem written_setFile (x : Option OpenFile) :
    (s.setFile fd x).proc.written = s.proc.written := rfl
@[simp] theorem written_addFile : (s.addFile f).proc.written = s.proc.written := rfl
@[simp] theorem written_withFs (fs : Fs) : (s.withFs fs).proc.written = s.proc.written := rfl
@[simp] theorem written_printed (l : Line) : (s.printed l).proc.written = s.proc.written := rfl
@[simp] theorem written_warned (l : Line) : (s.warned l).proc.written = s.proc.written := rfl
@[simp] theorem written_account (n : Nat) :
    (s.account n).proc.written = s.proc.written + n := rfl

@[simp] theorem stdout_account (n : Nat) : (s.account n).proc.stdout = s.proc.stdout := rfl
@[simp] theorem stdout_setFile (x : Option OpenFile) :
    (s.setFile fd x).proc.stdout = s.proc.stdout := rfl
@[simp] theorem stdout_addFile : (s.addFile f).proc.stdout = s.proc.stdout := rfl
@[simp] theorem stdout_withFs (fs : Fs) : (s.withFs fs).proc.stdout = s.proc.stdout := rfl
@[simp] theorem stdout_warned (l : Line) : (s.warned l).proc.stdout = s.proc.stdout := rfl
@[simp] theorem stdout_boot (fs : Fs) (umask : Nat) : (boot fs umask).proc.stdout = [] := rfl
@[simp] theorem stdout_printed (l : Line) : (s.printed l).proc.stdout = s.proc.stdout ++ [l] := rfl

variable {s}

theorem fd_lt (h : s.file fd = some f) : fd < s.proc.fds.length := by
  by_contra hlt
  rw [file, List.getElem?_eq_none (Nat.not_lt.mp hlt)] at h
  cases h

theorem file_setFile_self (h : s.file fd = some f) (x : Option OpenFile) :
    (s.setFile fd x).file fd = x := by
  have hlt := fd_lt h
  simp [file, setFile, hlt]

theorem file_setFile_ne (h : fd' ≠ fd) (x : Option OpenFile) :
    (s.setFile fd x).file fd' = s.file fd' := by
  simp [file, setFile, List.getElem?_set_ne (Ne.symm h)]

@[simp] theorem file_addFile_self : (s.addFile f).file s.proc.fds.length = some f := by
  simp [file, addFile]

theorem file_addFile (h : s.file fd = some g) : (s.addFile f).file fd = some g := by
  have hlt := fd_lt h
  simp only [file, addFile] at h ⊢
  rwa [List.getElem?_append_left hlt]

theorem fd_ne_new (h : s.file fd = some f) : fd ≠ s.proc.fds.length := (fd_lt h).ne

theorem setFile_setFile (x y : Option OpenFile) :
    (s.setFile fd x).setFile fd y = s.setFile fd y := by
  simp [setFile, List.set_set]

theorem setFile_same (h : s.file fd = some f) : s.setFile fd (some f) = s := by
  have hlt := fd_lt h
  have hget : s.proc.fds[fd] = some f := by
    simpa [file, List.getElem?_eq_getElem hlt] using h
  simp only [setFile, ← hget, List.set_getElem_self]

end State

-- ---------------------------------------------------------------------------
-- Inodes and contents
-- ---------------------------------------------------------------------------

namespace Fs

variable (fs : Fs) {i j : Ino} {d d' : Bytes}

@[simp] theorem dir_setData : (fs.setData i d).dir = fs.dir := rfl
@[simp] theorem dir_setStat (f : Stat → Stat) : (fs.setStat i f).dir = fs.dir := rfl
@[simp] theorem dir_newInode (nd : Inode) : (fs.newInode nd).dir = fs.dir := rfl
@[simp] theorem slotOf_setData : (fs.setData i d).slotOf = fs.slotOf := rfl
@[simp] theorem slotOf_setStat (f : Stat → Stat) : (fs.setStat i f).slotOf = fs.slotOf := rfl
@[simp] theorem slotOf_newInode (nd : Inode) : (fs.newInode nd).slotOf = fs.slotOf := rfl
@[simp] theorem slotOf_link (slot : Slot) (e : DirEntry) : (fs.link slot e).slotOf = fs.slotOf := rfl

@[simp] theorem data_link (slot : Slot) (e : DirEntry) : (fs.link slot e).data i = fs.data i := rfl

@[simp] theorem data_setStat (f : Stat → Stat) : (fs.setStat i f).data j = fs.data j := by
  by_cases h : i = j
  · subst h
    simp only [data, setStat, modifyInode, List.getElem?_modify_eq]
    cases fs.inodes[i]? <;> rfl
  · simp [data, setStat, modifyInode, List.getElem?_modify_ne _ _ h]

variable {fs}

theorem data_eq_some : fs.data i = some d ↔
    ∃ nd, fs.inodes[i]? = some nd ∧ nd.isDir = false ∧ nd.data = d := by
  unfold data
  cases fs.inodes[i]? with
  | none => simp
  | some nd => cases hdir : nd.isDir <;> simp [hdir]

theorem ino_lt (h : fs.data i = some d) : i < fs.inodes.length := by
  by_contra hlt
  rw [data, List.getElem?_eq_none (Nat.not_lt.mp hlt)] at h
  cases h

theorem data_setData_self (h : fs.data i = some d) : (fs.setData i d').data i = some d' := by
  simp only [data, setData, modifyInode, List.getElem?_modify_eq] at h ⊢
  cases hnd : fs.inodes[i]? with
  | none => simp [hnd] at h
  | some nd =>
    simp only [hnd] at h ⊢
    split at h
    · cases h
    · next hdir => simp [hdir]

theorem inodes_setData_ne (h : j ≠ i) : (fs.setData i d).inodes[j]? = fs.inodes[j]? :=
  List.getElem?_modify_ne _ _ (Ne.symm h)

theorem data_setData_ne (h : j ≠ i) : (fs.setData i d).data j = fs.data j := by
  simp only [data, inodes_setData_ne h]

theorem data_newInode_ne (h : i ≠ fs.inodes.length) (nd : Inode) :
    (fs.newInode nd).data i = fs.data i := by
  rcases Nat.lt_or_gt_of_ne h with hlt | hgt
  · simp only [data, newInode, List.getElem?_append_left hlt]
  · have hout : (fs.inodes ++ [nd])[i]? = none :=
      List.getElem?_eq_none (by simpa using Nat.succ_le_of_lt hgt)
    have hout' : fs.inodes[i]? = none := List.getElem?_eq_none hgt.le
    simp only [data, newInode, hout, hout']

theorem data_newInode_self (st : Stat) :
    (fs.newInode ⟨false, d, st⟩).data fs.inodes.length = some d := by
  simp [data, newInode]

theorem setData_setData : (fs.setData i d).setData i d' = fs.setData i d' := by
  simp only [setData, modifyInode, List.modify_modify_eq]
  rfl

theorem setData_same (h : fs.data i = some d) : fs.setData i d = fs := by
  have hlt := ino_lt h
  have hmod : fs.inodes.modify i (fun nd => { nd with data := d }) = fs.inodes := by
    apply List.ext_getElem?
    intro j
    by_cases hij : i = j
    · subst hij
      rw [List.getElem?_modify_eq]
      simp only [data] at h
      cases hnd : fs.inodes[i]? with
      | none => rfl
      | some nd =>
        simp only [hnd] at h
        split at h
        · cases h
        · obtain rfl := Option.some.inj h
          rfl
    · rw [List.getElem?_modify_ne _ _ hij]
  simp only [setData, modifyInode, hmod]

-- ---------------------------------------------------------------------------
-- Lookup
-- ---------------------------------------------------------------------------

theorem walk_congr {fs fs' : Fs} (h : fs'.dir = fs.dir) (n : Nat) (slot : Slot) :
    fs'.walk n slot = fs.walk n slot := by
  induction n generalizing slot with
  | zero => rfl
  | succ n ih => simp only [walk, h, ih]

theorem target_congr {fs fs' : Fs} (h : fs'.dir = fs.dir) (hslot : fs'.slotOf = fs.slotOf)
    (p : CString) : fs'.target p = fs.target p := by
  simp only [target, walk_congr h, hslot]

theorem inodeOf_congr {fs fs' : Fs} (h : fs'.dir = fs.dir) (hslot : fs'.slotOf = fs.slotOf)
    (p : CString) : fs'.inodeOf p = fs.inodeOf p := by
  simp only [inodeOf, target_congr h hslot, h]

@[simp] theorem inodeOf_setData (fs : Fs) (p : CString) :
    (fs.setData i d).inodeOf p = fs.inodeOf p := inodeOf_congr rfl rfl p

@[simp] theorem inodeOf_setStat (fs : Fs) (f : Stat → Stat) (p : CString) :
    (fs.setStat i f).inodeOf p = fs.inodeOf p := inodeOf_congr rfl rfl p

/-- A lookup ends at an entry that is no symbolic link. -/
theorem walk_dir {n : Nat} {slot t : Slot} (h : fs.walk n slot = some t) :
    ∀ u, fs.dir t ≠ .symlink u := by
  induction n generalizing slot with
  | zero => cases h
  | succ n ih =>
    rw [walk] at h
    split at h
    · exact ih h
    · next hdir =>
      obtain rfl := Option.some.inj h
      exact fun u hu => hdir u hu

/-- Two lookups from one entry that both end, end at the same one. -/
theorem walk_unique {m n : Nat} {slot t u : Slot} (hm : fs.walk m slot = some t)
    (hn : fs.walk n slot = some u) : t = u := by
  induction m generalizing n slot with
  | zero => cases hm
  | succ m ih =>
    cases n with
    | zero => cases hn
    | succ n =>
      rw [walk] at hm hn
      split at hm
      · next v hv =>
        rw [hv] at hn
        exact ih hm hn
      · next hv =>
        obtain rfl := Option.some.inj hm
        split at hn
        · next v hv' => exact absurd hv' (hv v)
        · exact Option.some.inj hn

/-- Relinking an entry from which every lookup ends elsewhere changes no lookup
that ends at `t`. -/
theorem walk_link {n : Nat} {slot t z : Slot} (e : DirEntry) (h : fs.walk n slot = some t)
    (hz : ∀ m, fs.walk m z ≠ some t) : (fs.link z e).walk n slot = some t := by
  induction n generalizing slot with
  | zero => cases h
  | succ n ih =>
    have hne : slot ≠ z := by
      rintro rfl
      exact hz _ h
    rw [walk] at h ⊢
    have hdir : (fs.link z e).dir slot = fs.dir slot := by simp [link, hne]
    rw [hdir]
    split
    · next u hu =>
      rw [hu] at h
      exact ih h
    · next hu =>
      split at h
      · next v hv => exact absurd hv (hu v)
      · exact h

/-- Relinking an entry that holds nothing to a file keeps the lookups that end there. -/
theorem walk_link_absent {n : Nat} {slot z : Slot} {j : Ino} (habs : fs.dir z = .absent)
    (h : fs.walk n slot = some z) : (fs.link z (.inode j)).walk n slot = some z := by
  induction n generalizing slot with
  | zero => cases h
  | succ n ih =>
    rw [walk] at h ⊢
    by_cases hz : slot = z
    · subst hz
      simp [link]
    · have hdir : (fs.link z (.inode j)).dir slot = fs.dir slot := by simp [link, hz]
      rw [hdir]
      split
      · next u hu =>
        rw [hu] at h
        exact ih h
      · next hu =>
        split at h
        · next v hv => exact absurd hv (hu v)
        · exact h

/-- An entry that is no symbolic link leads to itself only. -/
theorem walk_ne_of_dir {n : Nat} {z t : Slot} (hz : ∀ u, fs.dir z ≠ .symlink u) (hne : z ≠ t) :
    fs.walk n z ≠ some t := by
  cases n with
  | zero => simp [walk]
  | succ n =>
    rw [walk]
    split
    · next u hu => exact absurd hu (hz u)
    · simpa using hne

theorem inodeOf_eq_some {p : CString} :
    fs.inodeOf p = some i ↔ ∃ t, fs.target p = some t ∧ fs.dir t = .inode i := by
  unfold inodeOf
  cases ht : fs.target p with
  | none => simp
  | some t =>
    cases hd : fs.dir t <;> simp [hd]

/-- A path whose own entry holds an inode leads to it. -/
theorem target_of_dir {p : CString} (h : fs.dir (fs.slotOf p) = .inode i) :
    fs.target p = some (fs.slotOf p) := by
  show fs.walk (39 + 1) _ = _
  rw [walk, h]

theorem inodeOf_of_dir {p : CString} (h : fs.dir (fs.slotOf p) = .inode i) :
    fs.inodeOf p = some i :=
  inodeOf_eq_some.mpr ⟨_, target_of_dir h, h⟩

/-- The entry of a path that leads to an inode holds it or is a link. -/
theorem dir_slotOf {p : CString} (h : fs.inodeOf p = some i) :
    fs.dir (fs.slotOf p) = .inode i ∨ ∃ u, fs.dir (fs.slotOf p) = .symlink u := by
  obtain ⟨t, ht, hd⟩ := inodeOf_eq_some.mp h
  cases hdir : fs.dir (fs.slotOf p) with
  | symlink u => exact .inr ⟨u, rfl⟩
  | inode j =>
    rw [target_of_dir hdir] at ht
    obtain rfl := Option.some.inj ht
    exact .inl (hdir.symm.trans hd)
  | absent =>
    have ht' : fs.target p = some (fs.slotOf p) := by
      show fs.walk (39 + 1) _ = _
      rw [walk, hdir]
    obtain rfl := Option.some.inj (ht'.symm.trans ht)
    exact .inl (hdir.symm.trans hd)

/-- Relinking an entry keeps a lookup that ends at an inode, unless the entry is
one that leads to where the lookup ends. -/
theorem inodeOf_link {p : CString} {z : Slot} (e : DirEntry) (h : fs.inodeOf p = some i)
    (hz : ∀ t m, fs.target p = some t → fs.walk m z ≠ some t) :
    (fs.link z e).inodeOf p = some i := by
  obtain ⟨t, ht, hd⟩ := inodeOf_eq_some.mp h
  refine inodeOf_eq_some.mpr ⟨t, walk_link e ht (hz t · ht), ?_⟩
  have hne : t ≠ z := by
    rintro rfl
    refine hz t 1 ht ?_
    simp [walk, hd]
  simp [link, hne, hd]

end Fs

-- ---------------------------------------------------------------------------
-- What a run has stored and printed
-- ---------------------------------------------------------------------------

/-- The bytes a call has stored. -/
def storedBytes : SysEvent → Nat
  | ⟨.write .., _, some n⟩ => n
  | _ => 0

/-- The lines a call prints. -/
def printedLines : Sys → List Line
  | .printf fmt args => [⟨fmt, args⟩]
  | _ => []

/-- No write of the run has stored a byte. -/
def StoresNothing (tr : List SysEvent) : Prop := ∀ ev ∈ tr, storedBytes ev = 0

/-- From `s` to `s'` the process stored `n` bytes and printed `ls`. -/
structure Emits (s s' : State) (n : Nat) (ls : List Line) : Prop where
  written : s'.proc.written = s.proc.written + n
  stdout  : s'.proc.stdout = s.proc.stdout ++ ls

theorem Emits.of_proc {s s' : State} (hw : s'.proc.written = s.proc.written)
    (hout : s'.proc.stdout = s.proc.stdout) : Emits s s' 0 [] :=
  ⟨hw, hout.trans (List.append_nil _).symm⟩

theorem Emits.trans {s s' s'' : State} {m n : Nat} {ls ls' : List Line} (h : Emits s s' m ls)
    (h' : Emits s' s'' n ls') : Emits s s'' (m + n) (ls ++ ls') :=
  ⟨by rw [h'.written, h.written, Nat.add_assoc], by rw [h'.stdout, h.stdout, List.append_assoc]⟩

theorem State.changeStat_cases (s : State) (o : Outcome) (i : Option Ino) (f : Stat → Stat) :
    (∃ j, i = some j ∧ s.changeStat o i f = (s.withFs (s.fs.setStat j f), true)) ∨
      s.changeStat o i f = (s, false) := by
  by_cases ho : o = .fail
  · exact .inr (if_pos ho)
  · cases i with
    | none => exact .inr (if_neg ho)
    | some j => exact .inl ⟨j, rfl, if_neg ho⟩

theorem emits_changeStat (o : Outcome) (s : State) (i : Option Ino) (f : Stat → Stat) :
    Emits s (s.changeStat o i f).1 0 [] := by
  rcases s.changeStat_cases o i f with ⟨j, -, h⟩ | h <;> rw [h] <;> exact .of_proc rfl rfl

theorem emits_sysOpen (o : Outcome) (s : State) (path : CString) (flags : OpenFlags) (mode : Nat) :
    Emits s (s.sysOpen o path flags mode).1 0 [] := by
  unfold State.sysOpen State.openPath State.openInode
  repeat' split
  all_goals try exact .of_proc rfl rfl
  next hcreate =>
    cases hcreate
    exact .of_proc rfl rfl

theorem emits_sysWrite (o : Outcome) (s : State) (fd : Fd) (buf : Bytes) :
    Emits s (s.sysWrite o fd buf).1 (storedBytes ⟨.write fd buf, o, (s.sysWrite o fd buf).2⟩) [] := by
  unfold State.sysWrite
  split
  · exact .of_proc rfl rfl
  · split
    · next d n _ hn =>
      split
      · have hle : n ≤ buf.length := by
          cases o <;> simp only [Outcome.writeCount, Option.some.injEq, reduceCtorEq] at hn <;> omega
        refine ⟨?_, (List.append_nil _).symm⟩
        simp [State.afterWrite, storedBytes, hle]
      · exact .of_proc rfl rfl
    · exact .of_proc rfl rfl

/-- What one call stores and prints. -/
theorem emits_exec (o : Outcome) (s : State) (c : Sys) :
    Emits s (exec o s c).1 (storedBytes ⟨c, o, (exec o s c).2⟩) (printedLines c) := by
  cases c with
  | write fd buf => exact emits_sysWrite o s fd buf
  | openFile path flags mode => exact emits_sysOpen o s path flags mode
  | read fd count =>
    show Emits s (s.sysRead o fd count).1 0 []
    unfold State.sysRead
    repeat' split
    all_goals exact .of_proc rfl rfl
  | lseek fd offset whence =>
    show Emits s (s.sysLseek o fd offset whence).1 0 []
    unfold State.sysLseek
    repeat' split
    all_goals exact .of_proc rfl rfl
  | mkstemp template =>
    show Emits s (s.sysMkstemp o template).1 0 []
    unfold State.sysMkstemp
    dsimp only
    split <;> exact .of_proc rfl rfl
  | rename old new =>
    show Emits s (s.sysRename o old new).1 0 []
    unfold State.sysRename
    dsimp only
    repeat' split
    all_goals exact .of_proc rfl rfl
  | unlink path =>
    show Emits s (s.sysUnlink o path).1 0 []
    unfold State.sysUnlink
    dsimp only
    split <;> exact .of_proc rfl rfl
  | fchmod | chmod | chown | utime => exact emits_changeStat ..
  | printf fmt args => exact ⟨rfl, rfl⟩
  | _ => exact .of_proc rfl rfl

/-- What a run stores and prints is what its calls do. -/
theorem emits_runs {α : Type} {s s' : State} {p p' : Posix α} {tr : List SysEvent}
    (h : Runs exec s p tr s' p') :
    Emits s s' (tr.map storedBytes).sum (tr.flatMap fun ev => printedLines ev.call) := by
  induction h with
  | refl => exact .of_proc rfl rfl
  | call o _ ih => exact (emits_exec o _ _).trans ih
  | unfold _ ih => exact ih

/-- A run has stored nothing when its account has not changed. -/
theorem storesNothing_iff {α : Type} {s s' : State} {p p' : Posix α} {tr : List SysEvent}
    (h : Runs exec s p tr s' p') : StoresNothing tr ↔ s'.proc.written = s.proc.written := by
  rw [(emits_runs h).written, Nat.add_eq_left, List.sum_eq_zero_iff_forall_eq_nat]
  simp [StoresNothing]

-- ---------------------------------------------------------------------------
-- What a call does to the file system
-- ---------------------------------------------------------------------------

/-- A call that changes the metadata of a file. -/
def Sys.Metadata : Sys → Prop
  | .chmod .. => True
  | .chown .. => True
  | .utime .. => True
  | .fchmod .. => True
  | _ => False

/-- From `fs` to `fs'` data was stored, entries were changed and files were created; the files
there are keep their metadata. -/
inductive Fs.Rearranged (fs : Fs) : Fs → Prop where
  | refl : Rearranged fs fs
  | setData {fs' : Fs} (i : Ino) (d : Bytes) (h : Rearranged fs fs') :
      Rearranged fs (fs'.setData i d)
  | link {fs' : Fs} (slot : Slot) (e : DirEntry) (h : Rearranged fs fs') :
      Rearranged fs (fs'.link slot e)
  | newInode {fs' : Fs} (nd : Inode) (h : Rearranged fs fs') : Rearranged fs (fs'.newInode nd)
  | setTemps {fs' : Fs} (n : Nat) (h : Rearranged fs fs') : Rearranged fs { fs' with temps := n }

theorem rearranged_sysOpen (o : Outcome) (s : State) (path : CString) (flags : OpenFlags)
    (mode : Nat) : s.fs.Rearranged (s.sysOpen o path flags mode).1.fs := by
  unfold State.sysOpen State.openPath State.openInode
  repeat' split
  all_goals try exact .refl
  · exact .setData _ _ .refl
  · next hcreate =>
    cases hcreate
    exact .link _ _ (.newInode _ .refl)

/-- What a call does to the file system, unless it changes metadata. -/
theorem rearranged_exec {c : Sys} (o : Outcome) (s : State) (hc : ¬ c.Metadata) :
    s.fs.Rearranged (exec o s c).1.fs := by
  cases c with
  | openFile path flags mode => exact rearranged_sysOpen o s path flags mode
  | read fd count =>
    show s.fs.Rearranged (s.sysRead o fd count).1.fs
    unfold State.sysRead
    repeat' split
    all_goals exact .refl
  | write fd buf =>
    show s.fs.Rearranged (s.sysWrite o fd buf).1.fs
    unfold State.sysWrite
    repeat' split
    all_goals try exact .refl
    exact .setData _ _ .refl
  | lseek fd offset whence =>
    show s.fs.Rearranged (s.sysLseek o fd offset whence).1.fs
    unfold State.sysLseek
    repeat' split
    all_goals exact .refl
  | mkstemp template =>
    show s.fs.Rearranged (s.sysMkstemp o template).1.fs
    unfold State.sysMkstemp
    dsimp only
    split
    · exact .link _ _ (.newInode _ (.setTemps _ .refl))
    · exact .refl
  | rename old new =>
    show s.fs.Rearranged (s.sysRename o old new).1.fs
    unfold State.sysRename
    dsimp only
    repeat' split
    all_goals try exact .refl
    exact .link _ _ (.link _ _ .refl)
  | unlink path =>
    show s.fs.Rearranged (s.sysUnlink o path).1.fs
    unfold State.sysUnlink
    dsimp only
    split
    · exact .refl
    · exact .link _ _ .refl
  | fchmod | chmod | chown | utime => exact absurd trivial hc
  | _ => exact .refl

-- ---------------------------------------------------------------------------
-- The local time
-- ---------------------------------------------------------------------------

theorem Fs.Rearranged.strftimeLocal {fs fs' : Fs} (h : fs.Rearranged fs') :
    fs'.strftimeLocal = fs.strftimeLocal := by
  induction h with
  | refl => rfl
  | setData _ _ _ ih => exact ih
  | link _ _ _ ih => exact ih
  | newInode _ _ ih => exact ih
  | setTemps _ _ ih => exact ih

theorem strftimeLocal_changeStat (o : Outcome) (s : State) (i : Option Ino) (f : Stat → Stat) :
    (s.changeStat o i f).1.fs.strftimeLocal = s.fs.strftimeLocal := by
  rcases s.changeStat_cases o i f with ⟨j, -, h⟩ | h
  · rw [h]
    rfl
  · rw [h]

/-- No call changes how the C library writes the local time. -/
theorem strftimeLocal_exec (o : Outcome) (s : State) (c : Sys) :
    (exec o s c).1.fs.strftimeLocal = s.fs.strftimeLocal := by
  cases c with
  | fchmod | chmod | chown | utime => exact strftimeLocal_changeStat ..
  | _ => exact (rearranged_exec o s id).strftimeLocal

theorem strftimeLocal_runs {α : Type} {s s' : State} {p p' : Posix α} {tr : List SysEvent}
    (h : Runs exec s p tr s' p') : s'.fs.strftimeLocal = s.fs.strftimeLocal := by
  induction h with
  | refl => rfl
  | call o _ ih => exact ih.trans (strftimeLocal_exec o _ _)
  | unfold _ ih => exact ih

end LabsOS
