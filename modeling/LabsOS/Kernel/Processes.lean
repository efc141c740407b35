import LabsOS.Concurrency.Steps
import LabsOS.Kernel.Exec
import Mathlib.Logic.Function.Basic

/-!
# Processes on one file system

Processes that share a file system and interleave their system calls in any
order. Each has its own descriptors and output; a call is atomic. The log keeps
the calls of all of them in order.

* `serial_runs` — if two processes do not overlap, the second has run on what
  the first left.
-/

namespace LabsOS

structure Process where
  proc : Proc
  prog : Posix Unit

/-- A process that starts, its three standard streams open. -/
def Process.boot (umask : Nat) (prog : Posix Unit) : Process :=
  ⟨⟨List.replicate 3 none, umask, 0, [], []⟩, prog⟩

/-- The program of the process has returned. -/
def Process.finished (p : Process) : Bool :=
  match p.prog with
  | .ret _ => true
  | _ => false

theorem Process.finished_iff {p : Process} : p.finished = true ↔ p.prog = .ret () := by
  unfold finished
  cases p.prog <;> simp

structure Machine (ι : Type) where
  fs    : Fs
  procs : ι → Process
  log   : List (ι × SysEvent)

/-- The next call of a process, or one more round of a loop. -/
def Process.step (o : Outcome) (fs : Fs) (p : Process) :
    Option (Fs × Process × Option SysEvent) :=
  match p.prog with
  | .ret _ => none
  | .call c k =>
    let r := exec o ⟨fs, p.proc⟩ c
    some (r.1.fs, ⟨r.1.proc, k r.2⟩, some ⟨c, o, r.2⟩)
  | .loop body st k => some (fs, ⟨p.proc, (body st).bind (Prog.again body k)⟩, none)

section Machine

variable {ι : Type} [DecidableEq ι]

def Machine.step (a : ι × Outcome) (m : Machine ι) : Option (Machine ι) :=
  ((m.procs a.1).step a.2 m.fs).map fun r =>
    ⟨r.1, Function.update m.procs a.1 r.2.1, m.log ++ (r.2.2.map (a.1, ·)).toList⟩

/-- The calls of one process. -/
def ownCalls (i : ι) (log : List (ι × SysEvent)) : List SysEvent :=
  (log.filter (·.1 = i)).map Prod.snd

variable {i j : ι} {log : List (ι × SysEvent)} {o : Outcome} {ev : Option SysEvent}
variable {fs fs' : Fs} {p p' : Process} {m m' : Machine ι}

theorem ownCalls_cons_self {ev : SysEvent} (h : j = i) :
    ownCalls i ((j, ev) :: log) = ev :: ownCalls i log := by simp [ownCalls, h]

theorem ownCalls_cons_ne {ev : SysEvent} (h : j ≠ i) :
    ownCalls i ((j, ev) :: log) = ownCalls i log := by simp [ownCalls, h]

theorem ownCalls_append_self :
    ownCalls i (log ++ (ev.map (i, ·)).toList) = ownCalls i log ++ ev.toList := by
  cases ev <;> simp [ownCalls]

theorem ownCalls_append_ne (h : j ≠ i) :
    ownCalls i (log ++ (ev.map (j, ·)).toList) = ownCalls i log := by
  cases ev <;> simp [ownCalls, h]

theorem Process.runs_of_step (h : p.step o fs = some (fs', p', ev)) :
    Runs exec ⟨fs, p.proc⟩ p.prog ev.toList ⟨fs', p'.proc⟩ p'.prog := by
  obtain ⟨proc, prog⟩ := p
  cases prog with
  | ret a => cases h
  | call c k =>
    cases h
    exact .call o (.refl _ _)
  | loop body st k =>
    cases h
    exact .unfold (.refl _ _)

/-- What a step of the machine is: a step of one process. -/
theorem Machine.step_cases {a : ι × Outcome} (h : m.step a = some m') :
    ∃ fs' p' ev, (m.procs a.1).step a.2 m.fs = some (fs', p', ev) ∧
      m' = ⟨fs', Function.update m.procs a.1 p', m.log ++ (ev.map (a.1, ·)).toList⟩ := by
  obtain ⟨⟨fs', p', ev⟩, hstep, rfl⟩ := Option.map_eq_some_iff.mp h
  exact ⟨fs', p', ev, hstep, rfl⟩

end Machine

/-- A run without calls changes nothing, and is possible in every state. -/
theorem Runs.silent {C : Type} {R : C → Type} {S O α : Type} {exec : O → S → (c : C) → S × R c}
    {s s' : S} {p p' : Prog C R α} (h : Runs exec s p [] s' p') :
    s' = s ∧ ∀ t, Runs exec t p [] t p' := by
  generalize htr : ([] : List (Event C R O)) = tr at h
  induction h with
  | refl => exact ⟨rfl, fun t => .refl t _⟩
  | call => cases htr
  | unfold _ ih =>
    obtain ⟨hs, hruns⟩ := ih htr
    exact ⟨hs, fun t => .unfold (hruns t)⟩

-- ---------------------------------------------------------------------------
-- Two processes that do not overlap
-- ---------------------------------------------------------------------------

/-- Once the other process has made a call in `P`, process `i` makes none. -/
def Before (P : SysEvent → Prop) (i : Bool) (log : List (Bool × SysEvent)) : Prop :=
  log.Pairwise fun e e' => P e.2 → P e'.2 → e'.1 = i → e.1 = i

instance (P : SysEvent → Prop) [DecidablePred P] (i : Bool) (log : List (Bool × SysEvent)) :
    Decidable (Before P i log) := inferInstanceAs (Decidable (List.Pairwise _ _))

/-- The calls in `P` of two processes do not overlap. -/
def Apart (P : SysEvent → Prop) (log : List (Bool × SysEvent)) : Prop := ∃ i, Before P i log

/-- `m` is reached from `m₀` by a run of process `i` and a run of the other after it. -/
def Serial (i : Bool) (m₀ m : Machine Bool) : Prop :=
  ∃ fs₁,
    Runs exec ⟨m₀.fs, (m₀.procs i).proc⟩ (m₀.procs i).prog (ownCalls i m.log)
      ⟨fs₁, (m.procs i).proc⟩ (m.procs i).prog ∧
    Runs exec ⟨fs₁, (m₀.procs !i).proc⟩ (m₀.procs !i).prog (ownCalls (!i) m.log)
      ⟨m.fs, (m.procs !i).proc⟩ (m.procs !i).prog

variable {m₀ m m' : Machine Bool} {i : Bool} {o : Outcome} {ev : Option SysEvent} {fs' : Fs}
variable {p' : Process}

/-- A step of the second process. -/
theorem Serial.second (h : Serial i m₀ m)
    (hstep : (m.procs !i).step o m.fs = some (fs', p', ev)) :
    Serial i m₀ ⟨fs', Function.update m.procs (!i) p', m.log ++ (ev.map (!i, ·)).toList⟩ := by
  obtain ⟨fs₁, hfirst, hsecond⟩ := h
  refine ⟨fs₁, ?_, ?_⟩
  · rw [ownCalls_append_ne (by simp)]
    simpa using hfirst
  · rw [ownCalls_append_self]
    simpa using hsecond.trans (Process.runs_of_step hstep)

/-- A step of the first process, before the second has made a call or without making one. -/
theorem Serial.first (h : Serial i m₀ m) (hstep : (m.procs i).step o m.fs = some (fs', p', ev))
    (hbefore : ev = none ∨ ownCalls (!i) m.log = []) :
    Serial i m₀ ⟨fs', Function.update m.procs i p', m.log ++ (ev.map (i, ·)).toList⟩ := by
  obtain ⟨fs₁, hfirst, hsecond⟩ := h
  have hrun := Process.runs_of_step hstep
  suffices ∃ fs₁, Runs exec ⟨m₀.fs, (m₀.procs i).proc⟩ (m₀.procs i).prog
      (ownCalls i m.log ++ ev.toList) ⟨fs₁, p'.proc⟩ p'.prog ∧
      Runs exec ⟨fs₁, (m₀.procs !i).proc⟩ (m₀.procs !i).prog (ownCalls (!i) m.log)
        ⟨fs', (m.procs !i).proc⟩ (m.procs !i).prog by
    unfold Serial
    rw [ownCalls_append_self, ownCalls_append_ne (by simp)]
    simpa using this
  rcases hbefore with rfl | hnone
  · -- the step touches nothing but the program
    obtain ⟨hs, hsilent⟩ := hrun.silent
    obtain ⟨rfl, hproc⟩ := State.mk.inj hs
    exact ⟨fs₁, hfirst.trans (hproc ▸ hsilent _), hsecond⟩
  · -- the second process has not touched the file system yet
    rw [hnone] at hsecond ⊢
    obtain ⟨hs, hsilent⟩ := hsecond.silent
    obtain ⟨rfl, hproc⟩ := State.mk.inj hs
    exact ⟨fs', hfirst.trans hrun, hproc ▸ hsilent _⟩

/-- **Two processes that do not overlap** have run one after the other. -/
theorem serial_runs (h : Reaches Machine.step m₀ m) (hlog : m₀.log = [])
    (hbefore : Before (fun _ => True) i m.log) : Serial i m₀ m := by
  refine h.invariant (I := fun m => Before (fun _ => True) i m.log → Serial i m₀ m) ?_ ?_ hbefore
  · intro _
    rw [Serial, hlog]
    exact ⟨m₀.fs, .refl _ _, .refl _ _⟩
  · rintro ⟨j, o⟩ m m' ih hstep hbefore
    obtain ⟨fs', p', ev, hp, rfl⟩ := Machine.step_cases hstep
    obtain ⟨hold, -, hnew⟩ := List.pairwise_append.mp hbefore
    have hserial := ih hold
    by_cases hj : j = i
    · subst hj
      refine hserial.first hp ?_
      cases ev with
      | none => exact .inl rfl
      | some ev =>
        -- a call of the first process: none of the second came before
        refine .inr ?_
        rw [ownCalls, List.map_eq_nil_iff, List.filter_eq_nil_iff]
        intro e he
        have hfirst : e.1 = j := hnew e he (j, ev) (by simp) trivial trivial rfl
        simp [hfirst]
    · obtain rfl : j = !i := by simpa using Bool.eq_not_of_ne hj
      exact hserial.second hp

end LabsOS
