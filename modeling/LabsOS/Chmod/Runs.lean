import LabsOS.Chmod.Parsing
import LabsOS.Kernel.Frames

/-!
# Runs of the symbolic mode

What the runs of `apply_symbolic_mode` do: they read the mode of the target and then
either ask for the mode that is meant or print one message and fail.
-/

namespace LabsOS.Chmod

open State

/-- The mode a call asks for, and the path. -/
def chmodOf : SysEvent → Option (CString × Nat)
  | ⟨.chmod path mode, _, _⟩ => some (path, mode)
  | _ => none

/-- The `chmod` calls of a run. -/
def chmodCalls (tr : List SysEvent) : List (CString × Nat) := tr.filterMap chmodOf

variable {spec path : CString} {s s' : State} {tr : List SysEvent} {r : ExitStatus} {mode : Nat}
  {current : Word} {m : Symbolic} {fmt : String} {args : List Arg}

theorem runs_reject (h : Runs exec s (reject fmt args) tr s' (.ret r)) :
    r = .failure ∧ s'.fs = s.fs ∧ chmodCalls tr = [] := by
  obtain ⟨o, tr', rfl, hrest⟩ := runs_call h
  obtain ⟨rfl, rfl, hr⟩ := runs_ret hrest
  cases hr
  exact ⟨rfl, rfl, rfl⟩

/-- The one `chmod` of a mode that was accepted either changes it or reports an error. -/
theorem runs_applyMode (h : Runs exec s (applyMode path mode) tr s' (.ret r)) :
    chmodCalls tr = [(path, mode)] ∧
      ((r = .success ∧
          ∃ i, s.fs.inodeOf path = some i ∧ s'.fs = s.fs.setStat i (chmodStat mode)) ∨
        (r = .failure ∧ s'.fs = s.fs ∧ ∃ ev ∈ tr, ¬ Succeeds ev)) := by
  obtain ⟨o, tr', rfl, hrest⟩ := runs_call h
  have hexec : exec o s (.chmod path mode) =
      s.changeStat o (s.fs.inodeOf path) (chmodStat mode) := rfl
  rw [hexec] at hrest ⊢
  rcases s.changeStat_cases o (s.fs.inodeOf path) (chmodStat mode) with ⟨i, hi, hchange⟩ | hsame
  · rw [hchange] at hrest ⊢
    obtain ⟨rfl, rfl, hr⟩ := runs_ret hrest
    cases hr
    exact ⟨rfl, .inl ⟨rfl, i, hi, rfl⟩⟩
  · rw [hsame] at hrest ⊢
    obtain ⟨rfl, hfs, hcalls⟩ := runs_reject hrest
    refine ⟨congrArg (List.cons _) hcalls, .inr ⟨rfl, hfs, _, List.mem_cons_self, fun h => ?_⟩⟩
    exact Bool.false_ne_true h.2

theorem runs_applyTo_symbolic (hm : m.bytes = spec.bytes)
    (h : Runs exec s (applyTo spec path current) tr s' (.ret r)) :
    Runs exec s (applyMode path (m.result current).toNat) tr s' (.ret r) := by
  rwa [applyTo_symbolic hm] at h

theorem runs_applyTo_other (hm : ∀ m : Symbolic, m.bytes ≠ spec.bytes)
    (h : Runs exec s (applyTo spec path current) tr s' (.ret r)) :
    r = .failure ∧ s'.fs = s.fs ∧ chmodCalls tr = [] := by
  obtain ⟨fmt, args, hreject⟩ := applyTo_other path current hm
  exact runs_reject (hreject ▸ h)

/-- The run reads the mode of the target and goes on in the same state. -/
theorem runs_applySymbolicMode (h : Runs exec s (applySymbolicMode spec path) tr s' (.ret r)) :
    ∃ o tr', tr = ⟨.stat path, o, (s.sysStat o path).2⟩ :: tr' ∧
      ((∃ st, (s.sysStat o path).2 = some st ∧
          Runs exec s (applyTo spec path (BitVec.ofNat 32 st.stMode)) tr' s' (.ret r)) ∨
        ((s.sysStat o path).2 = none ∧ Runs exec s (reportSystemError path) tr' s' (.ret r))) := by
  obtain ⟨o, tr', rfl, hrest⟩ := runs_call h
  refine ⟨o, tr', rfl, ?_⟩
  have hexec : exec o s (.stat path) = (s, (s.sysStat o path).2) := rfl
  rw [hexec] at hrest
  cases hstat : (s.sysStat o path).2 with
  | none =>
    rw [hstat] at hrest
    exact .inr ⟨rfl, hrest⟩
  | some st =>
    rw [hstat] at hrest
    exact .inl ⟨st, rfl, hrest⟩

theorem meant_stMode (m : Symbolic) (st : Stat) :
    Meant m st.stMode (m.result (BitVec.ofNat 32 st.stMode)).toNat := by
  have h := m.meant_result (BitVec.ofNat 32 st.stMode)
  rwa [BitVec.toNat_ofNat, Nat.mod_eq_of_lt st.stMode_lt] at h

theorem reject_calls : (reject fmt args).Calls (· ≠ .stat path) := ⟨nofun, fun _ => trivial⟩

theorem applyTo_calls : (applyTo spec path current).Calls (· ≠ .stat path) := by
  by_cases hm : ∃ m : Symbolic, m.bytes = spec.bytes
  · obtain ⟨m, hm⟩ := hm
    rw [applyTo_symbolic hm]
    refine ⟨nofun, fun done => ?_⟩
    cases done with
    | false => exact reject_calls
    | true => trivial
  · obtain ⟨fmt, args, h⟩ := applyTo_other path current (not_exists.mp hm)
    rw [h]
    exact reject_calls

/-- The one `stat` of a run is the first call. -/
theorem stat_mem {o o' : Outcome} {st : Stat} {x : Option Stat}
    (hmem : (⟨.stat path, o', some st⟩ : SysEvent) ∈ (⟨.stat path, o, x⟩ : SysEvent) :: tr)
    (htr : ∀ ev ∈ tr, ev.call ≠ .stat path) : x = some st := by
  rcases List.mem_cons.mp hmem with heq | hmem
  · exact (eq_of_heq (Event.mk.inj heq).2.2).symm
  · exact absurd rfl (htr _ hmem)

-- ---------------------------------------------------------------------------
-- Termination
-- ---------------------------------------------------------------------------

variable {E : SysEvent → Prop}

theorem reject_total (fmt : String) (args : List Arg) : Total exec E (reject fmt args) :=
  .call fun _ => .ret _

theorem applyMode_total (path : CString) (mode : Nat) : Total exec E (applyMode path mode) := by
  refine .call ?_
  intro done
  cases done with
  | false => exact reject_total _ _
  | true => exact .ret _

theorem applyTo_total (spec path : CString) (current : Word) :
    Total exec E (applyTo spec path current) := by
  by_cases hm : ∃ m : Symbolic, m.bytes = spec.bytes
  · obtain ⟨m, hm⟩ := hm
    rw [applyTo_symbolic hm]
    exact applyMode_total _ _
  · obtain ⟨fmt, args, h⟩ := applyTo_other path current (not_exists.mp hm)
    rw [h]
    exact reject_total fmt args

theorem applySymbolicMode_total (spec path : CString) :
    Total exec E (applySymbolicMode spec path) := by
  refine .call ?_
  intro st
  cases st with
  | none => exact reject_total _ _
  | some st => exact applyTo_total _ _ _

-- ---------------------------------------------------------------------------
-- The meaning of a symbolic mode
-- ---------------------------------------------------------------------------

/-- **Symbolic modes mean what they say.** `apply_symbolic_mode` returns. On a symbolic
mode it calls `chmod` once, with the mode that is meant, whatever mode the file has. On
any other string it fails and does not call it. -/
theorem chmod_as_meant (spec path : CString) :
    Total exec AnyOutcome (applySymbolicMode spec path) ∧
    ∀ s tr s' r, Runs exec s (applySymbolicMode spec path) tr s' (.ret r) →
      (∀ m : Symbolic, m.bytes = spec.bytes →
        ∀ o st, (⟨.stat path, o, some st⟩ : SysEvent) ∈ tr →
          ∃ mode, chmodCalls tr = [(path, mode)] ∧ Meant m st.stMode mode) ∧
      ((∀ m : Symbolic, m.bytes ≠ spec.bytes) → chmodCalls tr = [] ∧ r = .failure) := by
  refine ⟨applySymbolicMode_total spec path, fun s tr s' r hrun => ?_⟩
  obtain ⟨o, tr', rfl, ⟨st, hstat, hrest⟩ | ⟨hstat, hrest⟩⟩ := runs_applySymbolicMode hrun
  · constructor
    · intro m hm o' st' hmem
      have hst : st = st' :=
        Option.some.inj (hstat.symm.trans (stat_mem hmem (hrest.calls applyTo_calls)))
      obtain ⟨hcalls, -⟩ := runs_applyMode (runs_applyTo_symbolic hm hrest)
      exact ⟨_, hcalls, hst ▸ meant_stMode m st⟩
    · intro hm
      obtain ⟨rfl, -, hcalls⟩ := runs_applyTo_other hm hrest
      exact ⟨hcalls, rfl⟩
  · obtain ⟨rfl, -, hcalls⟩ := runs_reject hrest
    refine ⟨fun m hm o' st' hmem => ?_, fun _ => ⟨hcalls, rfl⟩⟩
    cases hstat.symm.trans (stat_mem hmem (hrest.calls reject_calls))

def userExecute : CString := ⟨[117, 43, 120], by decide⟩

theorem user_execute_added : ∃ tr s',
    Runs exec (boot (.flat [(nameA, .file [])]) 0) (applySymbolicMode userExecute nameA) tr s'
      (.ret .success) ∧
    ∃ mode, chmodCalls tr = [(nameA, mode)] ∧
      Meant ⟨[.one .user], .add, [.execute]⟩ 0o100644 mode := by
  have hrun : Runs exec (boot (.flat [(nameA, .file [])]) 0) (applySymbolicMode userExecute nameA)
      _ _ (.ret .success) := .call Outcome.ok (.call Outcome.ok (.refl _ _))
  exact ⟨_, _, hrun, ((chmod_as_meant userExecute nameA).2 _ _ _ _ hrun).1
    ⟨[.one .user], .add, [.execute]⟩ rfl .ok (Inode.file []).fstat List.mem_cons_self⟩

end LabsOS.Chmod
