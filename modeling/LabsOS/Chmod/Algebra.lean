import LabsOS.Chmod.Runs

/-!
# The algebra of symbolic modes

The mode a run of `apply_symbolic_mode` writes is the one the next run reads, so runs
on one file compose as the edits of its permission bits do. `Laws` are the equations
that follow.
-/

namespace LabsOS.Chmod

open State

-- ---------------------------------------------------------------------------
-- The mode of a file
-- ---------------------------------------------------------------------------

/-- The `st_mode` of the file behind a path. -/
def fileMode (fs : Fs) (path : CString) : Option Nat :=
  (fs.lookup path).map fun nd => nd.fstat.stMode

variable {fs : Fs} {spec path : CString} {i : Ino} {old new mode : Nat} {s s' s'' s₁ s₂ : State}
  {tr : List SysEvent} {r : ExitStatus} {m n : Symbolic}

theorem stMode_fstat (nd : Inode) : nd.fstat.stMode = nd.stat.stMode := by
  rw [Inode.fstat]
  split
  · rfl
  · exact nd.stat.stMode_setSize _

/-- `chmod` writes the twelve mode bits and keeps the type of the file. -/
theorem stMode_chmodStat (mode : Nat) (st : Stat) :
    (chmodStat mode st).stMode = st.stMode / 0o10000 * 0o10000 + mode % 0o10000 := by
  have hlt := st.stMode_lt
  exact st.stMode_setMode (by omega)

theorem fileMode_chmod (hi : fs.inodeOf path = some i) (hold : fileMode fs path = some old)
    (mode : Nat) : fileMode (fs.setStat i (chmodStat mode)) path =
      some (old / 0o10000 * 0o10000 + mode % 0o10000) := by
  obtain ⟨nd, hnd, rfl⟩ := Option.map_eq_some_iff.mp hold
  have hat : fs.inodes[i]? = some nd := by simpa [Fs.lookup, hi] using hnd
  have hlook : (fs.setStat i (chmodStat mode)).lookup path =
      some { nd with stat := chmodStat mode nd.stat } := by
    rw [Fs.lookup, Fs.inodeOf_setStat, hi, Option.bind_some, Fs.setStat, Fs.modifyInode,
      List.getElem?_modify_eq, hat]
    rfl
  rw [fileMode, hlook, Option.map_some, stMode_fstat, stMode_chmodStat, stMode_fstat]

/-- A mode with the same rest is written as it stands. -/
theorem SameRest.chmod (h : SameRest old new) : old / 0o10000 * 0o10000 + new % 0o10000 = new := by
  have hdiv : new / 2 ^ 12 = old / 2 ^ 12 := by
    apply Nat.eq_of_testBit_eq
    intro j
    rw [Nat.testBit_div_two_pow, Nat.testBit_div_two_pow]
    exact h _ (by omega)
  omega

theorem stMode_of_stat {o : Outcome} {st : Stat} (h : (s.sysStat o path).2 = some st) :
    fileMode s.fs path = some st.stMode := by
  unfold sysStat at h
  split at h
  · cases h
  · obtain ⟨nd, hnd, rfl⟩ := Option.map_eq_some_iff.mp h
    rw [fileMode, hnd, Option.map_some]

/-- On a symbolic mode the file gets the mode that is meant, or a call has failed. -/
theorem runs_symbolic (hm : m.bytes = spec.bytes)
    (hrun : Runs exec s (applySymbolicMode spec path) tr s' (.ret r)) :
    (r = .success ∧ ∃ old new, fileMode s.fs path = some old ∧ fileMode s'.fs path = some new ∧
      Meant m old new) ∨
    (r = .failure ∧ s'.fs = s.fs ∧ ∃ ev ∈ tr, ¬ Succeeds ev) := by
  obtain ⟨o, tr', rfl, ⟨st, hstat, hrest⟩ | ⟨hstat, hrest⟩⟩ := runs_applySymbolicMode hrun
  · have hmeant := meant_stMode m st
    have hold := stMode_of_stat hstat
    obtain ⟨-, ⟨hr, i, hi, hfs⟩ | ⟨hr, hfs, ev, hev, hfail⟩⟩ :=
      runs_applyMode (runs_applyTo_symbolic hm hrest)
    · refine .inl ⟨hr, _, _, hold, ?_, hmeant⟩
      rw [hfs, fileMode_chmod hi hold, hmeant.rest.chmod]
    · exact .inr ⟨hr, hfs, ev, List.mem_cons_of_mem _ hev, hfail⟩
  · obtain ⟨hr, hfs, -⟩ := runs_reject hrest
    refine .inr ⟨hr, hfs, _, List.mem_cons_self, fun h => ?_⟩
    rw [hstat] at h
    exact Bool.false_ne_true h.2

-- ---------------------------------------------------------------------------
-- What a run does to it
-- ---------------------------------------------------------------------------

/-- From `s` to `s'` the permission bits of the file change by `g` and the rest of its
mode stays. -/
def Changes (g : Set Bit → Set Bit) (path : CString) (s s' : State) : Prop :=
  ∃ old new, fileMode s.fs path = some old ∧ fileMode s'.fs path = some new ∧
    bitsOf new = g (bitsOf old) ∧ SameRest old new

variable {g h : Set Bit → Set Bit}

theorem Changes.comp (hg : Changes g path s s') (hh : Changes h path s' s'') :
    Changes (h ∘ g) path s s'' := by
  obtain ⟨old, mid, hold, hmid, hbits, hrest⟩ := hg
  obtain ⟨mid', new, hmid', hnew, hbits', hrest'⟩ := hh
  obtain rfl := Option.some.inj (hmid.symm.trans hmid')
  exact ⟨old, new, hold, hnew, by rw [hbits', hbits, Function.comp], hrest.trans hrest'⟩

/-- Equal changes of one mode give equal modes. -/
theorem Changes.unique (hg : Changes g path s s₁) (hh : Changes h path s s₂) (heq : g = h) :
    fileMode s₁.fs path = fileMode s₂.fs path := by
  obtain ⟨old, new, hold, hnew, hbits, hrest⟩ := hg
  obtain ⟨old', new', hold', hnew', hbits', hrest'⟩ := hh
  obtain rfl := Option.some.inj (hold.symm.trans hold')
  rw [hnew, hnew', eq_of_bitsOf_eq (by rw [hbits, hbits', heq]) (hrest.symm.trans hrest')]

namespace Symbolic

/-- The mode as it is written. -/
def str (m : Symbolic) : CString where
  bytes := m.bytes
  noNul h := by
    rcases List.mem_append.mp h with h | h
    · obtain ⟨l, -, hl⟩ := List.mem_map.mp h
      rcases l with (_ | _ | _) | _ <;> cases hl
    · rcases List.mem_cons.mp h with h | h
      · cases hop : m.operation <;> rw [hop] at h <;> cases h
      · obtain ⟨p, -, hp⟩ := List.mem_map.mp h
        cases p <;> cases hp

end Symbolic

/-- A run applies the mode to the file behind `path`. -/
def Applies (m : Symbolic) (path : CString) (s s' : State) : Prop :=
  ∃ tr, Runs exec s (applySymbolicMode m.str path) tr s' (.ret .success)

theorem Applies.changes (h : Applies m path s s') : Changes m.edit.act path s s' := by
  obtain ⟨tr, hrun⟩ := h
  rcases runs_symbolic rfl hrun with ⟨-, old, new, hold, hnew, hmeant⟩ | ⟨hr, -⟩
  · exact ⟨old, new, hold, hnew, hmeant.bitsOf_eq, hmeant.rest⟩
  · cases hr

/-- On a file that exists a run can apply the mode. -/
theorem exists_applies (m : Symbolic) (hold : fileMode s.fs path = some old) :
    ∃ s', Applies m path s s' := by
  obtain ⟨nd, hnd, -⟩ := Option.map_eq_some_iff.mp hold
  obtain ⟨i, hi, -⟩ := Option.bind_eq_some_iff.mp hnd
  have hstat : exec .ok s (.stat path) = (s, some nd.fstat) := by
    rw [exec, sysStat, hnd]
    rfl
  have hchmod (mode : Nat) : exec .ok s (.chmod path mode) =
      (s.withFs (s.fs.setStat i (chmodStat mode)), true) := by
    rw [exec, hi]
    rfl
  have hmay : May exec AnyOutcome s (applySymbolicMode m.str path) fun r _ => r = .success := by
    refine .call Outcome.ok hstat trivial ?_
    show May exec AnyOutcome s (applyTo m.str path _) _
    rw [applyTo_symbolic rfl]
    exact .call Outcome.ok (hchmod _) trivial (.ret rfl)
  obtain ⟨tr, s', _, hrun, -, rfl⟩ := hmay
  exact ⟨s', tr, hrun⟩

-- ---------------------------------------------------------------------------
-- The laws
-- ---------------------------------------------------------------------------

theorem Symbolic.edit_congr (hop : m.operation = n.operation) (hclasses : m.classes = n.classes)
    (hperms : m.perms = n.perms) : m.edit = n.edit := by
  simp only [edit, named, hop, hclasses, hperms]

theorem Symbolic.touched_subset (m : Symbolic) : m.edit.touched ⊆ m.classes ×ˢ Set.univ := by
  rintro b (hb | hb)
  · cases hop : m.operation with
    | add => simp [edit, hop] at hb
    | remove =>
      rw [edit, hop] at hb
      exact ⟨hb.1, trivial⟩
    | assign =>
      rw [edit, hop] at hb
      exact hb
  · cases hop : m.operation with
    | add =>
      rw [edit, hop] at hb
      exact ⟨hb.1, trivial⟩
    | remove => simp [edit, hop] at hb
    | assign =>
      rw [edit, hop] at hb
      exact ⟨hb.1, trivial⟩

/-- The laws of symbolic modes, on the file behind `path`. -/
structure Laws (path : CString) : Prop where
  /-- Every mode can be applied to a file that exists. -/
  applies : ∀ m s old, fileMode s.fs path = some old → ∃ s', Applies m path s s'
  /-- The result depends on the operation, the classes and the permissions only. -/
  same : ∀ m n, m.operation = n.operation → m.classes = n.classes → m.perms = n.perms →
    ∀ s s₁ s₂, Applies m path s s₁ → Applies n path s s₂ → fileMode s₁.fs path = fileMode s₂.fs path
  twice : ∀ m s s₁ s₂, Applies m path s s₁ → Applies m path s₁ s₂ →
    fileMode s₂.fs path = fileMode s₁.fs path
  /-- Two modes may be applied in either order. -/
  swap : ∀ m n, ((∀ c ∈ m.classes, c ∉ n.classes) ∨
      (m.operation = .add ∧ n.operation = .add) ∨ (m.operation = .remove ∧ n.operation = .remove)) →
    ∀ s s₁ s₂ t₁ t₂, Applies m path s s₁ → Applies n path s₁ s₂ →
      Applies n path s t₁ → Applies m path t₁ t₂ → fileMode s₂.fs path = fileMode t₂.fs path
  /-- `W=P` is `W-rwx` and then `W+P`. -/
  assign : ∀ letters permissions s s' s₁ s₂, Applies ⟨letters, .assign, permissions⟩ path s s' →
    Applies ⟨letters, .remove, [.read, .write, .execute]⟩ path s s₁ →
    Applies ⟨letters, .add, permissions⟩ path s₁ s₂ → fileMode s'.fs path = fileMode s₂.fs path

theorem edit_comm (h : (∀ c ∈ m.classes, c ∉ n.classes) ∨
    (m.operation = .add ∧ n.operation = .add) ∨ (m.operation = .remove ∧ n.operation = .remove)) :
    n.edit.act ∘ m.edit.act = m.edit.act ∘ n.edit.act := by
  funext bits
  show n.edit.act (m.edit.act bits) = m.edit.act (n.edit.act bits)
  rcases h with hdisj | ⟨hm, hn⟩ | ⟨hm, hn⟩
  · refine Edit.act_comm_of_disjoint (fun b hn hm => ?_) bits
    exact hdisj b.1 (m.touched_subset hm).1 (n.touched_subset hn).1
  · exact Edit.act_comm_of_added (by rw [Symbolic.edit, hn]) (by rw [Symbolic.edit, hm]) bits
  · exact Edit.act_comm_of_cleared (by rw [Symbolic.edit, hn]) (by rw [Symbolic.edit, hm]) bits

/-- **The laws hold** on every path. -/
theorem laws (path : CString) : Laws path where
  applies m _ _ hold := exists_applies m hold
  same m n hop hclasses hperms s s₁ s₂ hm hn :=
    hm.changes.unique hn.changes (congrArg Edit.act (Symbolic.edit_congr hop hclasses hperms))
  twice m s s₁ s₂ h h' :=
    (h.changes.comp h'.changes).unique h.changes (funext m.edit.act_act_self)
  swap m n hmn s s₁ s₂ t₁ t₂ hm hn hn' hm' :=
    (hm.changes.comp hn.changes).unique (hn'.changes.comp hm'.changes) (edit_comm hmn)
  assign letters permissions s s' s₁ s₂ h hremove hadd := by
    refine h.changes.unique (hremove.changes.comp hadd.changes) (funext fun bits => ?_)
    have hall : Symbolic.perms ⟨letters, .remove, [.read, .write, .execute]⟩ = Set.univ := by
      ext p
      cases p <;> simp [Symbolic.perms]
    have hedit : (Symbolic.mk letters .remove [.read, .write, .execute]).edit =
        ⟨Symbolic.classes ⟨letters, .remove, [.read, .write, .execute]⟩ ×ˢ Set.univ, ∅⟩ := by
      rw [← hall]
      rfl
    rw [Function.comp, hedit]
    exact (Edit.act_clear_then_add _ _ bits).symm

end LabsOS.Chmod
