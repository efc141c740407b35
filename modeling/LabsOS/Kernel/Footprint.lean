import LabsOS.Kernel.Rules

/-!
# What a process leaves alone

`Confined fs A d s`: since the file system was `fs`, the process has changed no content and no
metadata but those of the inodes in `A`, and has come to the entries `d`. What it has open for
writing is in `A`.
-/

namespace LabsOS

structure Confined (fs : Fs) (A : Set Ino) (d : Slot → DirEntry) (s : State) : Prop where
  length_le : fs.inodes.length ≤ s.fs.inodes.length
  kept      : ∀ i ∉ A, s.fs.inodes[i]? = fs.inodes[i]?
  regular   : ∀ i nd, fs.inodes.length ≤ i → s.fs.inodes[i]? = some nd → nd.isDir = false
  dir       : s.fs.dir = d
  slotOf    : s.fs.slotOf = fs.slotOf
  writes    : ∀ fd f, s.file fd = some f → f.flags.write = true → f.ino ∈ A

/-- A call that works on open files, or on no files at all. -/
def Sys.Through : Sys → Prop
  | .openFile .. | .mkstemp _ | .rename .. | .unlink _ | .fchmod .. | .chmod .. | .chown ..
  | .utime .. => False
  | _ => True

namespace Confined

variable {fs : Fs} {A : Set Ino} {d : Slot → DirEntry} {s : State} {o : Outcome} {fd : Fd}
variable {f : OpenFile} {i : Ino}

theorem refl (hs : ∀ fd, s.file fd = none) (A : Set Ino) : Confined s.fs A s.fs.dir s where
  length_le := le_rfl
  kept _ _ := rfl
  regular i nd hi hnd := by
    rw [List.getElem?_eq_none hi] at hnd
    cases hnd
  dir := rfl
  slotOf := rfl
  writes fd f hf := by
    rw [hs fd] at hf
    cases hf

/-- Only the file system and the open files matter. -/
theorem congr {s' : State} (h : Confined fs A d s) (hfs : s'.fs = s.fs)
    (hfile : ∀ fd, s'.file fd = s.file fd) : Confined fs A d s' := by
  refine ⟨hfs ▸ h.length_le, ?_, ?_, hfs ▸ h.dir, hfs ▸ h.slotOf, ?_⟩
  · rw [hfs]
    exact h.kept
  · rw [hfs]
    exact h.regular
  · intro fd f hf
    rw [hfile] at hf
    exact h.writes fd f hf

theorem warned (h : Confined fs A d s) (l : Line) : Confined fs A d (s.warned l) :=
  h.congr rfl fun _ => rfl

theorem printed (h : Confined fs A d s) (l : Line) : Confined fs A d (s.printed l) :=
  h.congr rfl fun _ => rfl

-- ---------------------------------------------------------------------------
-- Changes of the state
-- ---------------------------------------------------------------------------

theorem modifyInode (h : Confined fs A d s) (hi : i ∈ A) {g : Inode → Inode}
    (hg : ∀ nd, (g nd).isDir = nd.isDir) : Confined fs A d (s.withFs (s.fs.modifyInode i g)) where
  length_le := h.length_le.trans_eq (List.length_modify ..).symm
  kept j hj := by
    have hne : i ≠ j := by
      rintro rfl
      exact hj hi
    exact (List.getElem?_modify_ne g _ hne).trans (h.kept j hj)
  regular j nd hj hnd := by
    rw [State.fs_withFs, Fs.modifyInode, List.getElem?_modify] at hnd
    obtain ⟨nd', hnd', rfl⟩ := Option.map_eq_some_iff.mp hnd
    have hreg := h.regular j nd' hj hnd'
    split
    · rw [hg, hreg]
    · exact hreg
  dir := h.dir
  slotOf := h.slotOf
  writes := h.writes

theorem setData (h : Confined fs A d s) (hi : i ∈ A) (c : Bytes) :
    Confined fs A d (s.withFs (s.fs.setData i c)) := h.modifyInode hi fun _ => rfl

theorem setFile (h : Confined fs A d s) {x : Option OpenFile}
    (hx : ∀ g, x = some g → g.flags.write = true → g.ino ∈ A) :
    Confined fs A d (s.setFile fd x) where
  length_le := h.length_le
  kept := h.kept
  regular := h.regular
  dir := h.dir
  slotOf := h.slotOf
  writes fd' g hg hwrite := by
    by_cases heq : fd' = fd
    · subst heq
      cases hfile : s.file fd' with
      | none =>
        have hlt : fd' < s.proc.fds.length := by
          have := State.fd_lt hg
          rwa [State.setFile, List.length_set] at this
        rw [State.file, State.setFile, List.getElem?_set_self hlt, Option.join_some] at hg
        exact hx g hg hwrite
      | some f =>
        rw [State.file_setFile_self hfile] at hg
        exact hx g hg hwrite
    · rw [State.file_setFile_ne heq] at hg
      exact h.writes fd' g hg hwrite

theorem addFile (h : Confined fs A d s) (hf : f.flags.write = true → f.ino ∈ A) :
    Confined fs A d (s.addFile f) where
  length_le := h.length_le
  kept := h.kept
  regular := h.regular
  dir := h.dir
  slotOf := h.slotOf
  writes fd g hg hwrite := by
    rw [State.file, State.addFile, List.getElem?_append] at hg
    split at hg
    · exact h.writes fd g hg hwrite
    · have hmem : some g ∈ [some f] := List.mem_of_getElem? (Option.join_eq_some_iff.mp hg)
      obtain rfl : g = f := by simpa using hmem
      exact hf hwrite

/-- A new file in an entry that has held nothing. -/
theorem createAt (h : Confined fs A d s) (hA : ∀ i, fs.inodes.length ≤ i → i ∈ A) {g : Fs}
    (hinodes : g.inodes = s.fs.inodes) (hdir : g.dir = s.fs.dir)
    (hslot : g.slotOf = s.fs.slotOf) (slot : Slot) (flags : OpenFlags) (mode : Nat) :
    Confined fs A (Function.update d slot (.inode s.fs.inodes.length))
      ((s.withFs g).createAt slot flags mode).1 := by
  have hnew : s.fs.inodes.length ∈ A := hA _ h.length_le
  have hlen : g.inodes.length = s.fs.inodes.length := congrArg List.length hinodes
  refine addFile ⟨?_, ?_, ?_, ?_, ?_, h.writes⟩ fun _ => ?_
  · show fs.inodes.length ≤ (g.inodes ++ [_]).length
    have := h.length_le
    rw [List.length_append]
    omega
  · intro i hi
    have hne : i ≠ g.inodes.length := by
      rintro rfl
      exact hi (hlen ▸ hnew)
    have hlt : i < fs.inodes.length := Nat.lt_of_not_le fun hle => hi (hA i hle)
    have hle := h.length_le
    show (g.inodes ++ [_])[i]? = fs.inodes[i]?
    rw [List.getElem?_append_left ((hlt.trans_le hle).trans_eq hlen.symm), hinodes]
    exact h.kept i hi
  · intro i nd hi hnd
    change (g.inodes ++ [_])[i]? = some nd at hnd
    rw [List.getElem?_append] at hnd
    split at hnd
    · rw [hinodes] at hnd
      exact h.regular i nd hi hnd
    · have hmem := List.mem_of_getElem? hnd
      rw [List.mem_singleton] at hmem
      rw [hmem]
  · show Function.update g.dir slot (.inode g.inodes.length) = _
    rw [hdir, hlen, h.dir]
  · exact hslot.trans h.slotOf
  · show g.inodes.length ∈ A
    rwa [hlen]

-- ---------------------------------------------------------------------------
-- Calls
-- ---------------------------------------------------------------------------

theorem exec_through {c : Sys} (h : Confined fs A d s) (hc : c.Through) :
    Confined fs A d (exec o s c).1 := by
  cases c with
  | openFile | mkstemp | rename | unlink | fchmod | chmod | chown | utime => exact hc.elim
  | close fd => exact h.setFile nofun
  | read fd count =>
    show Confined fs A d (s.sysRead o fd count).1
    rw [State.sysRead]
    split
    · exact h
    · next f hf =>
      split
      · split
        · refine h.setFile ?_
          intro g hg
          obtain rfl := Option.some.inj hg
          exact h.writes fd f hf
        · exact h
      · exact h
  | write fd buf =>
    show Confined fs A d (s.sysWrite o fd buf).1
    rw [State.sysWrite]
    split
    · exact h
    · next f hf =>
      split
      · split
        · next hwrite =>
          have hin := h.writes fd f hf hwrite
          refine congr (s := (s.withFs (s.fs.setData f.ino _)).setFile fd (some _)) ?_ rfl
            fun _ => rfl
          refine (h.setData hin _).setFile ?_
          intro g hg _
          obtain rfl := Option.some.inj hg
          exact hin
        · exact h
      · exact h
  | lseek fd offset whence =>
    show Confined fs A d (s.sysLseek o fd offset whence).1
    rw [State.sysLseek]
    split
    · exact h
    · next f hf =>
      split
      · exact h
      · split
        · refine h.setFile ?_
          intro g hg
          obtain rfl := Option.some.inj hg
          exact h.writes fd f hf
        · exact h
  | printf | fprintfErr => exact h.congr rfl fun _ => rfl
  | fstat | stat | fsync | strftimeLocal => exact h

theorem changeStat (h : Confined fs A d s) {x : Option Ino} (hx : ∀ i, x = some i → i ∈ A)
    (g : Stat → Stat) : Confined fs A d (s.changeStat o x g).1 := by
  unfold State.changeStat
  split
  · exact h
  · cases x with
    | none => exact h
    | some i => exact h.modifyInode (hx i rfl) fun _ => rfl

theorem exec_fchmod (h : Confined fs A d s) {mode : Nat} (hf : s.file fd = some f)
    (hwrite : f.flags.write = true) : Confined fs A d (exec o s (.fchmod fd mode)).1 := by
  apply h.changeStat
  rintro i hi
  rw [hf] at hi
  obtain rfl := Option.some.inj hi
  exact h.writes fd f hf hwrite

/-- Opening a file for reading. -/
theorem exec_openRead (h : Confined fs A d s) (path : CString) (mode : Nat) :
    Confined fs A d (exec o s (.openFile path { read := true } mode)).1 := by
  have hadd : ∀ i, Confined fs A d (s.addFile ⟨i, 0, { read := true }⟩) :=
    fun i => h.addFile nofun
  show Confined fs A d (s.sysOpen o path { read := true } mode).1
  rw [State.sysOpen]
  split
  · exact h
  · rw [State.openPath]
    split
    · exact h
    · split
      · rw [State.openInode]
        split
        · exact h
        · split
          · exact hadd _
          · exact hadd _
      · exact h
      · exact h

end Confined

/-- The entries `d` are those of `fs`, or there is a new file where `path` has led to nothing. -/
inductive Fs.MayCreate (fs : Fs) (path : CString) : (Slot → DirEntry) → Prop where
  | same : fs.MayCreate path fs.dir
  | created (slot : Slot) (i : Ino) (htarget : fs.target path = some slot)
      (habsent : fs.dir slot = .absent) (hnew : fs.inodes.length ≤ i) :
      fs.MayCreate path (Function.update fs.dir slot (.inode i))

theorem Fs.MayCreate.dir_eq {fs : Fs} {path : CString} {d : Slot → DirEntry} {slot : Slot}
    (h : fs.MayCreate path d) (hslot : fs.target path ≠ some slot) : d slot = fs.dir slot := by
  cases h with
  | same => rfl
  | created slot' i htarget =>
    have hne : slot ≠ slot' := by
      rintro rfl
      exact hslot htarget
    exact Function.update_of_ne hne _ _

theorem Fs.MayCreate.dir_eq_of_notMem {fs : Fs} {path : CString} {d : Slot → DirEntry}
    {D : Set Slot} {slot : Slot} (h : fs.MayCreate path d)
    (hD : ∀ slot, fs.target path = some slot → slot ∈ D) (hslot : slot ∉ D) :
    d slot = fs.dir slot :=
  h.dir_eq fun htarget => hslot (hD slot htarget)

namespace Confined

variable {fs : Fs} {A : Set Ino} {d : Slot → DirEntry} {s : State} {o : Outcome} {path : CString}

/-- Where a path leads that may have been created. -/
theorem inodeOf_mem (h : Confined fs A d s) (hd : fs.MayCreate path d)
    (hA : ∀ i, fs.inodes.length ≤ i → i ∈ A) (hpath : ∀ i, fs.inodeOf path = some i → i ∈ A) :
    ∀ i, s.fs.inodeOf path = some i → i ∈ A := by
  intro i hi
  cases hd with
  | same =>
    rw [Fs.inodeOf_congr h.dir h.slotOf] at hi
    exact hpath i hi
  | created slot j htarget habsent hnew =>
    have hdir : s.fs.dir = (fs.link slot (.inode j)).dir := h.dir
    rw [Fs.inodeOf_congr hdir h.slotOf] at hi
    have hlink : (fs.link slot (.inode j)).inodeOf path = some j :=
      Fs.inodeOf_eq_some.mpr ⟨slot, Fs.walk_link_absent habsent htarget, by simp [Fs.link]⟩
    obtain rfl := Option.some.inj (hlink.symm.trans hi)
    exact hA _ hnew

/-- Opening for output a path that may have been created already. -/
theorem exec_openOutput (h : Confined fs A d s) (hd : fs.MayCreate path d)
    (hA : ∀ i, fs.inodes.length ≤ i → i ∈ A) (hpath : ∀ i, fs.inodeOf path = some i → i ∈ A)
    (flags : OpenFlags) (mode : Nat) :
    ∃ d', fs.MayCreate path d' ∧ (flags.creat = false → d' = d) ∧
      Confined fs A d' (exec o s (.openFile path flags mode)).1 := by
  have hmem := h.inodeOf_mem hd hA hpath
  show ∃ d', fs.MayCreate path d' ∧ _ ∧ Confined fs A d' (s.sysOpen o path flags mode).1
  rw [State.sysOpen]
  split
  · exact ⟨d, hd, fun _ => rfl, h⟩
  · rw [State.openPath]
    split
    · exact ⟨d, hd, fun _ => rfl, h⟩
    · next slot htarget =>
      split
      · next i hdir =>
        have hi : i ∈ A := hmem i (Fs.inodeOf_eq_some.mpr ⟨slot, htarget, hdir⟩)
        refine ⟨d, hd, fun _ => rfl, ?_⟩
        rw [State.openInode]
        split
        · exact h
        · split
          · split
            · exact h
            · exact h.addFile fun _ => hi
          · split
            · exact (h.setData hi []).addFile fun _ => hi
            · exact h.addFile fun _ => hi
      · exact ⟨d, hd, fun _ => rfl, h⟩
      · next hdir =>
        split
        · next hcreat =>
          refine ⟨_, ?_, fun hno => ?_, h.createAt hA rfl rfl rfl slot flags _⟩
          · cases hd with
            | same =>
              rw [Fs.target_congr h.dir h.slotOf] at htarget
              rw [h.dir] at hdir
              exact .created slot _ htarget hdir h.length_le
            | created slot' j htarget' habsent _ =>
              have hd' : s.fs.dir = (fs.link slot' (.inode j)).dir := h.dir
              have hlink : (fs.link slot' (.inode j)).target path = some slot' :=
                Fs.walk_link_absent habsent htarget'
              rw [Fs.target_congr hd' h.slotOf] at htarget
              obtain rfl := Option.some.inj (hlink.symm.trans htarget)
              simp [h.dir] at hdir
          · rw [hno] at hcreat
            cases hcreat
        · exact ⟨d, hd, fun _ => rfl, h⟩

-- ---------------------------------------------------------------------------
-- Temporary files
-- ---------------------------------------------------------------------------

theorem exec_mkstemp (h : Confined fs A d s) (hA : ∀ i, fs.inodes.length ≤ i → i ∈ A)
    (template : String) :
    exec o s (.mkstemp template) = (s, none) ∨
    ∃ path, d (fs.slotOf path) = .absent ∧
      (exec o s (.mkstemp template)).2 = some (s.proc.fds.length, path) ∧
      (exec o s (.mkstemp template)).1.file s.proc.fds.length =
        some ⟨s.fs.inodes.length, 0, { read := true, write := true }⟩ ∧
      Confined fs A (Function.update d (fs.slotOf path) (.inode s.fs.inodes.length))
        (exec o s (.mkstemp template)).1 := by
  show s.sysMkstemp o template = _ ∨ ∃ path, _ ∧ (s.sysMkstemp o template).2 = _ ∧
    (s.sysMkstemp o template).1.file _ = _ ∧ Confined fs A _ (s.sysMkstemp o template).1
  rw [State.sysMkstemp]
  split
  · next hfree =>
    rw [h.dir, h.slotOf] at hfree
    refine .inr ⟨_, hfree.2, rfl, State.file_addFile_self, ?_⟩
    rw [h.slotOf]
    exact h.createAt hA (g := { s.fs with temps := s.fs.temps + 1 }) rfl rfl rfl _ _ _
  · exact .inl rfl

/-- The name of a file that is new is not that of a directory. -/
theorem not_holdsDirectory (h : Confined fs A d s) {slot : Slot} {t : Ino}
    (hdir : d slot = .inode t) (ht : fs.inodes.length ≤ t) :
    State.holdsDirectory s.fs slot = false := by
  unfold State.holdsDirectory
  rw [h.dir, hdir]
  show (s.fs.inodes[t]?.map Inode.isDir).getD false = false
  cases hnd : s.fs.inodes[t]? with
  | none => rfl
  | some nd => exact h.regular t nd ht hnd

theorem link (h : Confined fs A d s) (slot : Slot) (e : DirEntry) :
    Confined fs A (Function.update d slot e) (s.withFs (s.fs.link slot e)) where
  length_le := h.length_le
  kept := h.kept
  regular := h.regular
  dir := by rw [State.fs_withFs, Fs.link, h.dir]
  slotOf := h.slotOf
  writes := h.writes

theorem exec_unlink (h : Confined fs A d s) {t : Ino} (hdir : d (fs.slotOf path) = .inode t)
    (ht : fs.inodes.length ≤ t) :
    o = .fail ∧ (exec o s (.unlink path)).1 = s ∨
    Confined fs A (Function.update d (fs.slotOf path) .absent) (exec o s (.unlink path)).1 := by
  show _ ∧ (s.sysUnlink o path).1 = s ∨ Confined fs A _ (s.sysUnlink o path).1
  rw [State.sysUnlink, h.slotOf, h.not_holdsDirectory hdir ht, h.dir, hdir]
  by_cases ho : o = .fail
  · exact .inl ⟨ho, by simp [ho]⟩
  · rw [if_neg (by simpa using ho)]
    exact .inr (h.link _ _)

theorem exec_rename (h : Confined fs A d s) {new : CString} {t : Ino}
    (hdir : d (fs.slotOf path) = .inode t) (hne : fs.slotOf path ≠ fs.slotOf new)
    (hnew : d (fs.slotOf new) ≠ .inode t) :
    exec o s (.rename path new) = (s, false) ∨
    (exec o s (.rename path new)).2 = true ∧
      Confined fs A (Function.update (Function.update d (fs.slotOf new) (.inode t))
        (fs.slotOf path) .absent) (exec o s (.rename path new)).1 := by
  have hother : ¬ State.sameEntry s.fs (fs.slotOf path) (fs.slotOf new) := by
    rintro (heq | ⟨heq, -⟩)
    · exact hne heq
    · rw [h.dir, hdir] at heq
      exact hnew heq.symm
  show s.sysRename o path new = _ ∨ (s.sysRename o path new).2 = _ ∧
    Confined fs A _ (s.sysRename o path new).1
  rw [State.sysRename, h.slotOf, if_neg hother]
  split
  · exact .inl rfl
  · split
    · exact .inl rfl
    · refine .inr ⟨rfl, ?_⟩
      rw [h.dir, hdir]
      exact (h.link (fs.slotOf new) (.inode t)).link (fs.slotOf path) .absent

end Confined

end LabsOS
