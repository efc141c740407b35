import LabsOS.Kernel.Rules

/-!
# Metadata

The attributes of a file: its twelve mode bits, its owner and group, and its times in whole
seconds. `restoredStat` is what `chmod`, `chown` and `utime`, in this order, make of the
metadata of a file; `chown` is the last to touch the mode. The metadata of a file that exists
is otherwise changed by `fchmod` only.
-/

namespace LabsOS

-- ---------------------------------------------------------------------------
-- Fields
-- ---------------------------------------------------------------------------

namespace Stat

theorem slice_setField_of_le (st : Stat) {off n off' w : Nat} (v : Nat) (hw : off' + w ≤ statSize)
    (h : off + n ≤ off') : slice off n (st.setField off' w v hw).bytes = slice off n st.bytes :=
  slice_setSlice_of_le h (by rw [st.size_eq]; omega)

theorem slice_setField_of_ge (st : Stat) {off n off' w : Nat} (v : Nat) (hw : off' + w ≤ statSize)
    (h : off' + w ≤ off) : slice off n (st.setField off' w v hw).bytes = slice off n st.bytes :=
  slice_setSlice_of_ge (by rwa [length_leBytes]) (by rwa [length_leBytes, st.size_eq])

/-- The first bytes of a field that was overwritten. -/
theorem slice_setField_take (st : Stat) {off n w : Nat} (v : Nat) (hw : off + w ≤ statSize)
    (h : n ≤ w) : slice off n (st.setField off w v hw).bytes = leBytes n v := by
  have hfield := st.slice_setField v hw
  have htake : slice off n (st.setField off w v hw).bytes =
      (slice off w (st.setField off w v hw).bytes).take n := by
    rw [slice, slice, List.take_take, Nat.min_eq_left h]
  rw [htake, hfield, take_leBytes v h]

theorem length_slice (st : Stat) {off n : Nat} (h : off + n ≤ statSize) :
    (slice off n st.bytes).length = n := by
  rw [slice, List.length_take, List.length_drop, st.size_eq]
  omega

theorem stUid_lt (st : Stat) : st.stUid < 2 ^ 32 := by
  have hlt := leNat_lt (slice 28 4 st.bytes)
  rwa [st.length_slice (by decide)] at hlt

theorem stGid_lt (st : Stat) : st.stGid < 2 ^ 32 := by
  have hlt := leNat_lt (slice 32 4 st.bytes)
  rwa [st.length_slice (by decide)] at hlt

/-- The attributes of a file, its times in whole seconds. -/
structure Attributes where
  mode  : Nat
  uid   : Nat
  gid   : Nat
  atime : Int
  mtime : Int
  deriving DecidableEq, Repr

def attributes (st : Stat) : Attributes where
  mode := st.stMode % 0o10000
  uid := st.stUid
  gid := st.stGid
  atime := st.stAtime
  mtime := st.stMtime

/-- The size is no attribute. -/
theorem attributes_setSize (st : Stat) (n : Nat) : (st.setSize n).attributes = st.attributes := by
  unfold attributes stMode stUid stGid stAtime stMtime setSize
  rw [slice_setField_of_le _ _ _ (by decide), slice_setField_of_le _ _ _ (by decide),
    slice_setField_of_le _ _ _ (by decide), slice_setField_of_ge _ _ _ (by decide),
    slice_setField_of_ge _ _ _ (by decide)]

theorem attributes_setMode (st : Stat) {mode : Nat} (h : mode < 2 ^ 32) :
    (st.setMode mode).attributes = { st.attributes with mode := mode % 0o10000 } := by
  have hmode := st.stMode_setMode h
  unfold attributes stUid stGid stAtime stMtime
  rw [hmode, setMode, slice_setField_of_ge _ _ _ (by decide),
    slice_setField_of_ge _ _ _ (by decide),
    slice_setField_of_ge _ _ _ (by decide), slice_setField_of_ge _ _ _ (by decide)]

theorem attributes_setUid (st : Stat) {uid : Nat} (h : uid < 2 ^ 32) :
    (st.setUid uid).attributes = { st.attributes with uid := uid } := by
  have huid : (st.setUid uid).stUid = uid := by
    rw [stUid, setUid, slice_setField, leNat_leBytes]
    exact Nat.mod_eq_of_lt h
  unfold attributes stMode stGid stAtime stMtime
  rw [huid, setUid, slice_setField_of_le _ _ _ (by decide), slice_setField_of_ge _ _ _ (by decide),
    slice_setField_of_ge _ _ _ (by decide), slice_setField_of_ge _ _ _ (by decide)]

theorem attributes_setGid (st : Stat) {gid : Nat} (h : gid < 2 ^ 32) :
    (st.setGid gid).attributes = { st.attributes with gid := gid } := by
  have hgid : (st.setGid gid).stGid = gid := by
    rw [stGid, setGid, slice_setField, leNat_leBytes]
    exact Nat.mod_eq_of_lt h
  unfold attributes stMode stUid stAtime stMtime
  rw [hgid, setGid, slice_setField_of_le _ _ _ (by decide), slice_setField_of_le _ _ _ (by decide),
    slice_setField_of_ge _ _ _ (by decide), slice_setField_of_ge _ _ _ (by decide)]

/-- Times that were read from a `struct stat` are stored as they are. -/
theorem attributes_setTimes (st recorded : Stat) :
    (st.setTimes recorded.stAtime recorded.stMtime).attributes =
      { st.attributes with atime := recorded.stAtime, mtime := recorded.stMtime } := by
  have hstored : ∀ n, toInt64 (leNat (leBytes 8 (toInt64 n % 2 ^ 64).toNat)) = toInt64 n := by
    intro n
    have hlt : (toInt64 n % 2 ^ 64).toNat < 256 ^ 8 := by omega
    rw [leNat_leBytes, Nat.mod_eq_of_lt hlt, toInt64_emod_toInt64]
  have hatime : (st.setTimes recorded.stAtime recorded.stMtime).stAtime = recorded.stAtime := by
    rw [stAtime, setTimes, slice_setField_of_le _ _ _ (by decide),
      slice_setField_take _ _ _ (by decide)]
    exact hstored _
  have hmtime : (st.setTimes recorded.stAtime recorded.stMtime).stMtime = recorded.stMtime := by
    rw [stMtime, setTimes, slice_setField_take _ _ _ (by decide)]
    exact hstored _
  unfold attributes
  rw [hatime, hmtime]
  unfold stMode stUid stGid setTimes
  rw [slice_setField_of_le _ _ _ (by decide), slice_setField_of_le _ _ _ (by decide),
    slice_setField_of_le _ _ _ (by decide), slice_setField_of_le _ _ _ (by decide),
    slice_setField_of_le _ _ _ (by decide), slice_setField_of_le _ _ _ (by decide)]

end Stat

-- ---------------------------------------------------------------------------
-- Restoring attributes
-- ---------------------------------------------------------------------------

open State

/-- What `chmod`, `chown` and `utime`, in this order, make of the metadata `st`. -/
def restoredStat (recorded st : Stat) : Stat :=
  (chownStat recorded.stUid recorded.stGid (chmodStat recorded.stMode st)).setTimes
    recorded.stAtime recorded.stMtime

/-- What `chown` makes of a mode. -/
def chownMode (mode : Nat) : Nat :=
  let mode := if mode.testBit 11 then mode - 0o4000 else mode
  if mode.testBit 10 && mode.testBit 3 then mode - 0o2000 else mode

/-- No set-user-ID, and no set-group-ID where the group may execute: `chown` clears nothing. -/
def SurvivesChown (mode : Nat) : Prop :=
  mode.testBit 11 = false ∧ ¬ (mode.testBit 10 = true ∧ mode.testBit 3 = true)

instance : DecidablePred SurvivesChown := fun _ => inferInstanceAs (Decidable (_ ∧ _))

theorem chownMode_le (mode : Nat) : chownMode mode ≤ mode := by
  unfold chownMode
  dsimp only
  split <;> split <;> omega

theorem chownMode_iff (mode : Nat) :
    chownMode mode % 0o10000 = mode % 0o10000 ↔ SurvivesChown mode := by
  unfold chownMode SurvivesChown
  dsimp only
  cases h11 : mode.testBit 11 with
  | true =>
    -- set-user-ID goes, whatever becomes of set-group-ID
    rw [Nat.testBit_eq_decide_div_mod_eq, decide_eq_true_eq] at h11
    rw [if_pos rfl]
    constructor
    · intro h
      split at h <;> omega
    · intro h
      cases h.1
  | false =>
    rw [if_neg Bool.false_ne_true]
    by_cases hgid : mode.testBit 10 = true ∧ mode.testBit 3 = true
    · have h10 := hgid.1
      rw [Nat.testBit_eq_decide_div_mod_eq, decide_eq_true_eq] at h10
      rw [if_pos (by rw [hgid.1, hgid.2]; rfl)]
      constructor
      · intro h
        omega
      · intro h
        exact absurd hgid h.2
    · rw [if_neg (by rwa [Bool.and_eq_true])]
      exact ⟨fun _ => ⟨rfl, hgid⟩, fun _ => rfl⟩

/-- Only the twelve mode bits matter. -/
theorem survivesChown_congr {mode mode' : Nat} (h : mode % 0o10000 = mode' % 0o10000) :
    SurvivesChown mode ↔ SurvivesChown mode' := by
  unfold SurvivesChown
  simp only [Nat.testBit_eq_decide_div_mod_eq]
  have h11 : mode / 2 ^ 11 % 2 = mode' / 2 ^ 11 % 2 := by omega
  have h10 : mode / 2 ^ 10 % 2 = mode' / 2 ^ 10 % 2 := by omega
  have h3 : mode / 2 ^ 3 % 2 = mode' / 2 ^ 3 % 2 := by omega
  rw [h11, h10, h3]

theorem attributes_chmodStat (mode : Nat) (st : Stat) :
    (chmodStat mode st).attributes = { st.attributes with mode := mode % 0o10000 } := by
  have hlt := st.stMode_lt
  have hmod : (st.stMode / 0o10000 * 0o10000 + mode % 0o10000) % 0o10000 = mode % 0o10000 := by
    omega
  rw [chmodStat, Stat.attributes_setMode _ (by omega), hmod]

theorem attributes_chownStat {uid gid : Nat} (huid : uid < noId) (hgid : gid < noId) (st : Stat) :
    (chownStat uid gid st).attributes =
      { st.attributes with mode := chownMode st.stMode % 0o10000, uid := uid, gid := gid } := by
  have hle := chownMode_le st.stMode
  have hlt := st.stMode_lt
  have hchown : chownStat uid gid st =
      ((st.setMode (chownMode st.stMode)).setUid uid).setGid gid := by
    show (if gid = noId then _ else _) = _
    rw [if_neg hgid.ne, if_neg huid.ne]
    rfl
  unfold noId at huid hgid
  rw [hchown, Stat.attributes_setGid _ (by omega), Stat.attributes_setUid _ (by omega),
    Stat.attributes_setMode _ (by omega)]

/-- An owner and a group that a file can have. -/
def Stat.Owned (st : Stat) : Prop := st.stUid ≠ noId ∧ st.stGid ≠ noId

instance : DecidablePred Stat.Owned := fun _ => inferInstanceAs (Decidable (_ ∧ _))

/-- All attributes are restored but those of the mode bits that `chown` clears. -/
theorem attributes_restoredStat {recorded : Stat} (howned : recorded.Owned) (st : Stat) :
    (restoredStat recorded st).attributes = recorded.attributes ↔
      SurvivesChown recorded.stMode := by
  have huid : recorded.stUid < noId :=
    lt_of_le_of_ne (Nat.le_sub_one_of_lt recorded.stUid_lt) howned.1
  have hgid : recorded.stGid < noId :=
    lt_of_le_of_ne (Nat.le_sub_one_of_lt recorded.stGid_lt) howned.2
  have hmode : (chmodStat recorded.stMode st).stMode % 0o10000 = recorded.stMode % 0o10000 :=
    congrArg Stat.Attributes.mode (attributes_chmodStat recorded.stMode st)
  rw [restoredStat, Stat.attributes_setTimes, attributes_chownStat huid hgid, attributes_chmodStat,
    ← survivesChown_congr hmode, ← chownMode_iff, hmode]
  constructor
  · intro h
    exact congrArg Stat.Attributes.mode h
  · intro h
    rw [h]
    rfl

-- ---------------------------------------------------------------------------
-- What keeps the metadata of a file
-- ---------------------------------------------------------------------------

/-- The metadata of an inode. -/
def Fs.statAt (fs : Fs) (i : Ino) : Option Stat := fs.inodes[i]?.map Inode.stat

/-- The attributes of the file a path leads to. -/
def Fs.attributes (fs : Fs) (path : CString) : Option Stat.Attributes :=
  (fs.lookup path).map fun nd => nd.fstat.attributes

variable {fs : Fs} {i j : Ino} {st : Stat} {s : State}

theorem Fs.attributes_eq {path : CString} (hi : fs.inodeOf path = some i)
    (hst : fs.statAt i = some st) : fs.attributes path = some st.attributes := by
  obtain ⟨nd, hnd, rfl⟩ := Option.map_eq_some_iff.mp hst
  have hfstat : nd.fstat.attributes = nd.stat.attributes := by
    rw [Inode.fstat]
    split
    · rfl
    · exact nd.stat.attributes_setSize _
  rw [Fs.attributes, Fs.lookup, hi, Option.bind_some, hnd, Option.map_some, hfstat]

@[simp] theorem Fs.statAt_setData (d : Bytes) : (fs.setData j d).statAt i = fs.statAt i := by
  by_cases hji : j = i
  · unfold Fs.statAt Fs.setData Fs.modifyInode
    rw [hji, List.getElem?_modify_eq]
    cases fs.inodes[i]? <;> rfl
  · exact congrArg (Option.map Inode.stat) (Fs.inodes_setData_ne (Ne.symm hji))

theorem Fs.statAt_setStat_self (hst : fs.statAt i = some st) (f : Stat → Stat) :
    (fs.setStat i f).statAt i = some (f st) := by
  obtain ⟨nd, hnd, rfl⟩ := Option.map_eq_some_iff.mp hst
  unfold Fs.statAt Fs.setStat Fs.modifyInode
  rw [List.getElem?_modify_eq, hnd]
  rfl

theorem Fs.statAt_setStat_ne (h : j ≠ i) (f : Stat → Stat) :
    (fs.setStat j f).statAt i = fs.statAt i :=
  congrArg (Option.map Inode.stat) (List.getElem?_modify_ne _ _ h)

theorem Fs.statAt_newInode (hst : fs.statAt i = some st) (nd : Inode) :
    (fs.newInode nd).statAt i = some st := by
  obtain ⟨nd', hnd, rfl⟩ := Option.map_eq_some_iff.mp hst
  have hlt : i < fs.inodes.length := (List.getElem?_eq_some_iff.mp hnd).1
  unfold Fs.statAt Fs.newInode
  rw [List.getElem?_append_left hlt, hnd]
  rfl

theorem Fs.Rearranged.statAt {fs' : Fs} (h : fs.Rearranged fs') (hst : fs.statAt i = some st) :
    fs'.statAt i = some st := by
  induction h with
  | refl => exact hst
  | setData j d _ ih => exact (Fs.statAt_setData d).trans ih
  | link _ _ _ ih => exact ih
  | newInode nd _ ih => exact Fs.statAt_newInode ih nd
  | setTemps _ _ ih => exact ih

/-- Every other call keeps the metadata of the files there are. -/
theorem statAt_exec {c : Sys} (o : Outcome) (hc : ¬ c.Metadata) (hst : s.fs.statAt i = some st) :
    (exec o s c).1.fs.statAt i = some st := (rearranged_exec o s hc).statAt hst

end LabsOS
