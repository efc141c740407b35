import LabsOS.Kernel.Frames
import LabsOS.Program.Ownership

/-!
# Descriptors as resources

`open` and `mkstemp` hand a descriptor out and `close` takes it back; the calls between need it.
The process keeps track of the descriptors that a program owns in this sense
(`OpenBeside.tracks`), whatever the calls do.
-/

namespace LabsOS

-- ---------------------------------------------------------------------------
-- What calls do with descriptors
-- ---------------------------------------------------------------------------

/-- The descriptors that a call is given. -/
def Sys.given : Sys → List Fd
  | .close fd | .read fd _ | .write fd _ | .lseek fd _ _ | .fstat fd | .fchmod fd _ | .fsync fd =>
    [fd]
  | _ => []

/-- The descriptor that a call opens. -/
def Sys.opened : (c : Sys) → c.Resp → Option Fd
  | .openFile .., r => r
  | .mkstemp _, r => r.map Prod.fst
  | _, _ => none

/-- The descriptor that a call closes. -/
def Sys.closed : (c : Sys) → c.Resp → Option Fd
  | .close fd, _ => some fd
  | _, _ => none

def descriptors : Resources Sys Sys.Resp Fd := ⟨Sys.given, Sys.closed, Sys.opened⟩

/-- A call that neither opens nor closes a descriptor. -/
def Sys.Steady : Sys → Prop
  | .openFile .. | .mkstemp _ | .close _ => False
  | _ => True

namespace State

variable {s : State} {o : Outcome} {fd : Fd}

/-- A call opens a new descriptor, or none. -/
structure Opens (s s' : State) (r : Option Fd) : Prop where
  new : ∀ fd, r = some fd → fd = s.proc.fds.length ∧
    ∃ f, s'.proc.fds = s.proc.fds ++ [some f]
  none : r = none → s'.proc.fds = s.proc.fds

theorem sysOpen_opens (path : CString) (flags : OpenFlags) (mode : Nat) :
    s.Opens (s.sysOpen o path flags mode).1 (s.sysOpen o path flags mode).2 := by
  have hnone : s.Opens s none := ⟨nofun, fun _ => rfl⟩
  have hnew : ∀ fs f, s.Opens ((s.withFs fs).addFile f) (some s.proc.fds.length) := by
    intro fs f
    refine ⟨fun fd hfd => ⟨(Option.some.inj hfd).symm, f, rfl⟩, nofun⟩
  rw [sysOpen]
  split
  · exact hnone
  · rw [openPath]
    split
    · exact hnone
    · split
      · next i _ =>
        rw [openInode]
        split
        · exact hnone
        · split
          · split
            · exact hnone
            · exact hnew s.fs _
          · exact hnew _ _
      · exact hnone
      · split
        · exact hnew _ _
        · exact hnone

theorem sysMkstemp_opens (template : String) :
    s.Opens (s.sysMkstemp o template).1 ((s.sysMkstemp o template).2.map Prod.fst) := by
  rw [sysMkstemp]
  dsimp only
  split
  · refine ⟨fun fd hfd => ⟨(Option.some.inj hfd).symm, _, rfl⟩, nofun⟩
  · exact ⟨nofun, fun _ => rfl⟩

/-- A call leaves the descriptors as they are, or the offset of one that it is given changes. -/
def Moves (s s' : State) (given : List Fd) : Prop :=
  s'.proc.fds = s.proc.fds ∨ ∃ fd ∈ given, ∃ f g, s.file fd = some f ∧
    s'.proc.fds = s.proc.fds.set fd (some g)

theorem sysRead_moves (count : Nat) : s.Moves (s.sysRead o fd count).1 [fd] := by
  rw [sysRead]
  split
  · exact .inl rfl
  · next f hf =>
    split
    · split
      · exact .inr ⟨fd, List.mem_singleton_self _, f, _, hf, rfl⟩
      · exact .inl rfl
    · exact .inl rfl

theorem sysWrite_moves (buf : Bytes) : s.Moves (s.sysWrite o fd buf).1 [fd] := by
  rw [sysWrite]
  split
  · exact .inl rfl
  · next f hf =>
    split
    · split
      · exact .inr ⟨fd, List.mem_singleton_self _, f, _, hf, rfl⟩
      · exact .inl rfl
    · exact .inl rfl

theorem sysLseek_moves (offset : Int) (whence : Whence) :
    s.Moves (s.sysLseek o fd offset whence).1 [fd] := by
  rw [sysLseek]
  split
  · exact .inl rfl
  · next f hf =>
    split
    · exact .inl rfl
    · split
      · exact .inr ⟨fd, List.mem_singleton_self _, f, _, hf, rfl⟩
      · exact .inl rfl

theorem changeStat_fds (i : Option Ino) (f : Stat → Stat) :
    (s.changeStat o i f).1.proc.fds = s.proc.fds := by
  unfold changeStat
  split
  · rfl
  · cases i <;> rfl

theorem sysRename_fds (old new : CString) : (s.sysRename o old new).1.proc.fds = s.proc.fds := by
  rw [sysRename]
  split
  · rfl
  · split
    · rfl
    · split <;> rfl

theorem sysUnlink_fds (path : CString) : (s.sysUnlink o path).1.proc.fds = s.proc.fds := by
  rw [sysUnlink]
  split <;> rfl

theorem exec_moves {c : Sys} (hc : c.Steady) : s.Moves (exec o s c).1 c.given := by
  cases c with
  | openFile | mkstemp | close => exact hc.elim
  | read fd count => exact sysRead_moves count
  | write fd buf => exact sysWrite_moves buf
  | lseek fd offset whence => exact sysLseek_moves offset whence
  | fchmod fd mode => exact .inl (changeStat_fds ..)
  | chmod path mode => exact .inl (changeStat_fds ..)
  | chown path uid gid => exact .inl (changeStat_fds ..)
  | utime path atime mtime => exact .inl (changeStat_fds ..)
  | rename old new => exact .inl (sysRename_fds ..)
  | unlink path => exact .inl (sysUnlink_fds ..)
  | fstat | stat | fsync | strftimeLocal | printf | fprintfErr => exact .inl rfl

end State

/-- The descriptors `F` are open beside those of `s`, which are as they were. -/
structure OpenBeside (s : State) (F : Finset Fd) (s' : State) : Prop where
  length_le : s.proc.fds.length ≤ s'.proc.fds.length
  owned : ∀ fd ∈ F, s.proc.fds.length ≤ fd ∧ (s'.file fd).isSome
  others : ∀ fd ∉ F, s'.file fd = s.file fd

namespace OpenBeside

variable {s s₁ s₂ : State} {F : Finset Fd}

theorem refl (s : State) : OpenBeside s ∅ s := ⟨le_rfl, nofun, fun _ _ => rfl⟩

theorem fresh (h : OpenBeside s F s₁) : s₁.proc.fds.length ∉ F := by
  intro hmem
  obtain ⟨f, hf⟩ := Option.isSome_iff_exists.mp (h.owned _ hmem).2
  exact State.fd_ne_new hf rfl

theorem of_fds (h : OpenBeside s F s₁) (hfds : s₂.proc.fds = s₁.proc.fds) : OpenBeside s F s₂ := by
  have hfile : ∀ fd, s₂.file fd = s₁.file fd := fun fd => by rw [State.file, State.file, hfds]
  refine ⟨by rw [hfds]; exact h.length_le, fun fd hfd => ?_, fun fd hfd => ?_⟩
  · rw [hfile]
    exact h.owned fd hfd
  · rw [hfile]
    exact h.others fd hfd

theorem append (h : OpenBeside s F s₁) {f : OpenFile}
    (hfds : s₂.proc.fds = s₁.proc.fds ++ [some f]) :
    OpenBeside s (insert s₁.proc.fds.length F) s₂ := by
  have hold : ∀ fd, fd ≠ s₁.proc.fds.length → s₂.file fd = s₁.file fd := by
    intro fd hne
    rw [State.file, State.file, hfds, List.getElem?_append]
    split
    · rfl
    · have hlt : s₁.proc.fds.length < fd := by omega
      rw [List.getElem?_eq_none (by simp; omega), List.getElem?_eq_none hlt.le]
  have hnew : s₂.file s₁.proc.fds.length = some f := by simp [State.file, hfds]
  refine ⟨?_, fun fd hfd => ?_, fun fd hfd => ?_⟩
  · have := h.length_le
    rw [hfds, List.length_append]
    omega
  · rcases Finset.mem_insert.mp hfd with rfl | hfd
    · rw [hnew]
      exact ⟨h.length_le, rfl⟩
    · rw [hold fd fun heq => h.fresh (heq ▸ hfd)]
      exact h.owned fd hfd
  · rw [Finset.mem_insert, not_or] at hfd
    rw [hold fd hfd.1]
    exact h.others fd hfd.2

theorem close (h : OpenBeside s F s₁) {fd : Fd} (hfd : fd ∈ F) :
    OpenBeside s (F.erase fd) (s₁.setFile fd none) := by
  obtain ⟨f, hf⟩ := Option.isSome_iff_exists.mp (h.owned _ hfd).2
  refine ⟨?_, fun fd' hfd' => ?_, fun fd' hfd' => ?_⟩
  · rw [State.setFile, List.length_set]
    exact h.length_le
  · obtain ⟨hne, hmem⟩ := Finset.mem_erase.mp hfd'
    rw [State.file_setFile_ne hne]
    exact h.owned fd' hmem
  · by_cases heq : fd' = fd
    · subst heq
      rw [State.file_setFile_self hf, State.file,
        List.getElem?_eq_none (h.owned _ hfd).1, Option.join_none]
    · rw [State.file_setFile_ne heq]
      exact h.others fd' fun hmem => hfd' (Finset.mem_erase.mpr ⟨heq, hmem⟩)

theorem moves (h : OpenBeside s F s₁) {given : List Fd} (hgiven : ∀ fd ∈ given, fd ∈ F)
    (hmoves : s₁.Moves s₂ given) : OpenBeside s F s₂ := by
  obtain hfds | ⟨fd, hfd, f, g, hf, hfds⟩ := hmoves
  · exact h.of_fds hfds
  · have hset : OpenBeside s F (s₁.setFile fd (some g)) := by
      refine ⟨?_, fun fd' hfd' => ?_, fun fd' hfd' => ?_⟩
      · rw [State.setFile, List.length_set]
        exact h.length_le
      · by_cases heq : fd' = fd
        · subst heq
          rw [State.file_setFile_self hf]
          exact ⟨(h.owned _ hfd').1, rfl⟩
        · rw [State.file_setFile_ne heq]
          exact h.owned fd' hfd'
      · have hne : fd' ≠ fd := by
          rintro rfl
          exact hfd' (hgiven fd' hfd)
        rw [State.file_setFile_ne hne]
        exact h.others fd' hfd'
    exact hset.of_fds hfds

theorem opens (h : OpenBeside s F s₁) {r : Option Fd} (hopens : s₁.Opens s₂ r) :
    OpenBeside s (r.elim F fun fd => insert fd F) s₂ := by
  cases r with
  | none => exact h.of_fds (hopens.none rfl)
  | some fd =>
    obtain ⟨rfl, f, hfds⟩ := hopens.new fd rfl
    exact h.append hfds

theorem after_steady {c : Sys} (hc : c.Steady) (r : c.Resp) : descriptors.after F c r = F := by
  cases c with
  | openFile | mkstemp | close => exact hc.elim
  | _ => rfl

/-- **The process keeps track of the descriptors that a program owns.** -/
theorem tracks (s : State) : descriptors.Tracks exec AnyOutcome (OpenBeside s) where
  fresh o s₁ c F h hgiven _ fd hfd := by
    cases c with
    | openFile path flags mode =>
      obtain ⟨rfl, -⟩ := (State.sysOpen_opens path flags mode).new fd hfd
      exact h.fresh
    | mkstemp template =>
      obtain ⟨rfl, -⟩ := (State.sysMkstemp_opens template).new fd hfd
      exact h.fresh
    | _ => cases hfd
  step o s₁ c F h hgiven _ := by
    cases c with
    | openFile path flags mode => exact h.opens (State.sysOpen_opens path flags mode)
    | mkstemp template => exact h.opens (State.sysMkstemp_opens template)
    | close fd => exact h.close (hgiven fd (List.mem_singleton_self fd))
    | _ => exact h.moves hgiven (State.exec_moves trivial)

end OpenBeside

-- ---------------------------------------------------------------------------
-- Programs that own descriptors
-- ---------------------------------------------------------------------------

namespace Prog.Owned

variable {α : Type} {F : Finset Fd} {Q : α → Finset Fd → Prop}

theorem steady {c : Sys} {k : c.Resp → Posix α} (hc : c.Steady) (hgiven : ∀ fd ∈ c.given, fd ∈ F)
    (h : ∀ r, (k r).Owned descriptors F Q) : (Prog.call c k).Owned descriptors F Q := by
  refine ⟨hgiven, fun r _ => ?_⟩
  rw [OpenBeside.after_steady hc]
  exact h r

/-- A call that is given no descriptor. -/
theorem free {c : Sys} {k : c.Resp → Posix α} (hc : c.Steady) (hgiven : c.given = [])
    (h : ∀ r, (k r).Owned descriptors F Q) : (Prog.call c k).Owned descriptors F Q :=
  steady hc (hgiven ▸ List.forall_mem_nil _) h

theorem close {fd : Fd} {k : Bool → Posix α} (hfd : fd ∈ F)
    (h : ∀ r, (k r).Owned descriptors (F.erase fd) Q) :
    Prog.Owned descriptors F (.call (.close fd) k) Q :=
  release (List.forall_mem_singleton.mpr hfd) (fun _ => rfl) (fun _ => rfl) h

theorem openFile {path : CString} {flags : OpenFlags} {mode : Nat} {k : Option Fd → Posix α}
    (hnone : (k none).Owned descriptors F Q)
    (hsome : ∀ fd ∉ F, (k (some fd)).Owned descriptors (insert fd F) Q) :
    Prog.Owned descriptors F (.call (.openFile path flags mode) k) Q := by
  refine acquire (List.forall_mem_nil _) (fun _ => rfl) ?_ ?_
  · rintro r rfl
    exact hnone
  · rintro r fd rfl hfd
    exact hsome fd hfd

theorem mkstemp {template : String} {k : Option (Fd × CString) → Posix α}
    (hnone : (k none).Owned descriptors F Q)
    (hsome : ∀ fd ∉ F, ∀ path, (k (some (fd, path))).Owned descriptors (insert fd F) Q) :
    Prog.Owned descriptors F (.call (.mkstemp template) k) Q := by
  refine acquire (List.forall_mem_nil _) (fun _ => rfl) ?_ ?_
  · intro r hr
    obtain rfl := Option.map_eq_none_iff.mp hr
    exact hnone
  · intro r fd hr hfd
    obtain ⟨⟨_, path⟩, rfl, rfl⟩ := Option.map_eq_some_iff.mp hr
    exact hsome _ hfd path

end Prog.Owned

end LabsOS
