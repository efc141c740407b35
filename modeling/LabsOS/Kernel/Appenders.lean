import LabsOS.Kernel.Processes
import LabsOS.Kernel.Rules

/-!
# Processes that append to one file

A process that shares a file with others, seen alone: between any two of its
calls the others may leave any content in the shared file, and nothing else of
the file system changes (`View.exec`). If every process is tame in this view,
which means that its calls change the shared file by appending what they wrote
and nothing else, then a run of all of them leaves there what the calls of all
of them wrote, in the order of the calls (`shared_runs`).
-/

namespace LabsOS

/-- The bytes a call has stored. -/
def Sys.wrote : (c : Sys) → c.Resp → Bytes
  | .write _ buf, some n => buf.take n
  | _, _ => []

/-- The bytes a list of calls has stored. -/
def written (evs : List SysEvent) : Bytes := evs.flatMap fun ev => ev.call.wrote ev.resp

/-- A process that shares a file: what it has stored so far, and whether all its calls
only appended to the shared file. -/
structure View where
  state : State
  own   : Bytes
  tame  : Prop

/-- A call while the shared file `a` has the content `o.2`. -/
def View.exec (fs : Fs) (a : Ino) (o : Outcome × Bytes) (v : View) (c : Sys) : View × c.Resp :=
  let r := LabsOS.exec o.1 ⟨fs.setData a o.2, v.state.proc⟩ c
  (⟨r.1, v.own ++ c.wrote r.2, v.tame ∧ r.1.fs = fs.setData a (o.2 ++ c.wrote r.2)⟩, r.2)

section View

variable {fs : Fs} {a : Ino} {α : Type} {Q : α → View → Prop} {v v' v'' : View}
variable {fd fd' : Fd} {w u : Bytes}

/-- Every run of `p` in the view of its process is tame, and a returned result satisfies `Q`. -/
def Tame (fs : Fs) (a : Ino) (v : View) (p : Posix α) (Q : α → View → Prop) : Prop :=
  Spec (View.exec fs a) (fun _ => True) View.tame v p Q

theorem Tame.ret {x : α} (hv : v.tame) (h : Q x v) : Tame fs a v (.ret x) Q := Spec.ret hv h

/-- A call, whatever the others have left in the shared file. -/
theorem Tame.call {c : Sys} {k : c.Resp → Posix α} (hv : v.tame)
    (h : ∀ d, Spec LabsOS.exec (fun _ => True) (fun _ => True) ⟨fs.setData a d, v.state.proc⟩
      (Prog.issue c) fun r s' => s'.fs = fs.setData a (d ++ c.wrote r) ∧
        ∀ v', v'.tame → v'.state.proc = s'.proc → v'.own = v.own ++ c.wrote r →
          Tame fs a v' (k r) Q) :
    Tame fs a v (.call c k) Q := by
  apply Spec.call hv
  intro o _
  obtain ⟨hfs, hk⟩ := ((h o.2).step o.1 trivial).post
  exact hk _ ⟨hv, hfs⟩ rfl rfl

theorem View.file_eq {s : State} (h : v.state.proc = s.proc) (fd : Fd) :
    v.state.file fd = s.file fd := by rw [State.file, h]; rfl

/-- From `v` the process has come to `p` and has stored nothing. -/
structure View.Idle (v v' : View) (p : Proc) : Prop where
  tame : v'.tame
  proc : v'.state.proc = p
  own  : v'.own = v.own

/-- A call that changes no file. -/
theorem Tame.idle {c : Sys} {k : c.Resp → Posix α} (hv : v.tame) (hc : ∀ r, c.wrote r = [])
    (h : ∀ d, Spec LabsOS.exec (fun _ => True) (fun _ => True) ⟨fs.setData a d, v.state.proc⟩
      (Prog.issue c) fun r s' => s'.fs = fs.setData a d ∧
        ∀ v', v.Idle v' s'.proc → Tame fs a v' (k r) Q) :
    Tame fs a v (.call c k) Q :=
  Tame.call hv fun d => (h d).mono fun r s' ⟨hfs, hk⟩ => by
    rw [hc, List.append_nil, List.append_nil]
    exact ⟨hfs, fun v' ht hp ho => hk v' ⟨ht, hp, ho⟩⟩

/-- The descriptor appends to the file `a`. -/
def View.Appends (v : View) (fd : Fd) (a : Ino) : Prop :=
  ∃ f, v.state.file fd = some f ∧ f.ino = a ∧ f.flags.write = true ∧ f.flags.append = true

/-- From `v` to `v'` the process has appended `w` through `fd`. -/
structure View.Appended (v v' : View) (fd : Fd) (a : Ino) (w : Bytes) : Prop where
  tame    : v'.tame
  own     : v'.own = v.own ++ w
  appends : v'.Appends fd a
  others  : ∀ fd', fd' ≠ fd → v'.state.file fd' = v.state.file fd'
  stdout  : v'.state.proc.stdout = v.state.proc.stdout

theorem View.Appended.refl (hv : v.tame) (h : v.Appends fd a) : v.Appended v fd a [] :=
  ⟨hv, (List.append_nil _).symm, h, fun _ _ => rfl, rfl⟩

theorem View.Appended.trans (h : v.Appended v' fd a w) (h' : v'.Appended v'' fd a u) :
    v.Appended v'' fd a (w ++ u) :=
  ⟨h'.tame, by rw [h'.own, h.own, List.append_assoc], h'.appends,
    fun fd' hne => (h'.others fd' hne).trans (h.others fd' hne), h'.stdout.trans h.stdout⟩

theorem Tame.write {buf : Bytes} {k : Option Nat → Posix α} {d₀ : Bytes} (hv : v.tame)
    (hd : fs.data a = some d₀) (hfd : v.Appends fd a)
    (hfail : ∀ v', v.Appended v' fd a [] → Tame fs a v' (k none) Q)
    (hok : ∀ v', ∀ n ≤ buf.length, v.Appended v' fd a (buf.take n) → Tame fs a v' (k (some n)) Q) :
    Tame fs a v (.call (.write fd buf) k) Q := by
  obtain ⟨f, hf, rfl, hw, happ⟩ := hfd
  apply Tame.call hv
  intro d
  have hf' : State.file ⟨fs.setData f.ino d, v.state.proc⟩ fd = some f := hf
  refine Spec.write trivial hf' hw (Fs.data_setData_self hd) (fun _ => Spec.ret trivial ?_)
    fun o n hn _ _ => Spec.ret trivial ?_
  · refine ⟨(List.append_nil d).symm ▸ rfl, fun v' ht hp ho => hfail v' ⟨ht, ho, ?_, ?_, ?_⟩⟩
    · exact ⟨f, (View.file_eq hp fd).trans hf, rfl, hw, happ⟩
    · exact fun fd' _ => View.file_eq hp fd'
    · rw [hp]
  · have hpos : f.writePos d = d.length := by rw [OpenFile.writePos, if_pos happ]
    refine ⟨?_, fun v' ht hp ho => hok v' n hn ⟨ht, ho, ?_, ?_, ?_⟩⟩
    · simp [State.afterWrite, hpos, splice_end, Fs.setData_setData, Sys.wrote]
    · exact ⟨_, (View.file_eq hp fd).trans (State.file_setFile_self hf' _), rfl, hw, happ⟩
    · intro fd' hne
      exact (View.file_eq hp fd').trans (State.file_setFile_ne hne _)
    · rw [hp]
      rfl

theorem Tame.close {k : Bool → Posix α} (hv : v.tame)
    (h : ∀ b v', v.Idle v' (v.state.setFile fd none).proc → Tame fs a v' (k b) Q) :
    Tame fs a v (.call (.close fd) k) Q :=
  Tame.idle hv (fun _ => rfl) fun _ => Spec.close trivial fun b =>
    Spec.ret trivial ⟨rfl, fun v' hi => h b v' hi⟩

theorem Tame.printf {fmt : String} {args : List Arg} {k : Unit → Posix α} (hv : v.tame)
    (h : ∀ v', v.Idle v' (v.state.printed ⟨fmt, args⟩).proc → Tame fs a v' (k ()) Q) :
    Tame fs a v (.call (.printf fmt args) k) Q :=
  Tame.idle hv (fun _ => rfl) fun _ => Spec.printf trivial (Spec.ret trivial ⟨rfl, h⟩)

theorem Tame.fprintfErr {fmt : String} {args : List Arg} {k : Unit → Posix α} (hv : v.tame)
    (h : ∀ v', v.Idle v' (v.state.warned ⟨fmt, args⟩).proc → Tame fs a v' (k ()) Q) :
    Tame fs a v (.call (.fprintfErr fmt args) k) Q :=
  Tame.idle hv (fun _ => rfl) fun _ => Spec.fprintfErr trivial (Spec.ret trivial ⟨rfl, h⟩)

/-- Reading another file than the shared one. -/
theorem Tame.read {count : Nat} {k : Option Bytes → Posix α} {f : OpenFile} {D : Bytes}
    (hv : v.tame) (hf : v.state.file fd = some f) (hr : f.flags.read = true) (hne : f.ino ≠ a)
    (hD : fs.data f.ino = some D)
    (hfail : ∀ v', v.Idle v' v.state.proc → Tame fs a v' (k none) Q)
    (hok : ∀ n ≤ count, ∀ v', v.Idle v' (v.state.afterRead fd f (f.available D n)).proc →
      Tame fs a v' (k (some (f.available D n))) Q) :
    Tame fs a v (.call (.read fd count) k) Q :=
  Tame.idle hv (fun _ => rfl) fun _ => Spec.read trivial (f := f) hf hr
    ((Fs.data_setData_ne hne).trans hD) (fun _ => Spec.ret trivial ⟨rfl, hfail⟩)
    fun n hn _ => Spec.ret trivial ⟨rfl, hok n hn⟩

theorem Tame.fstat {k : Option Stat → Posix α} {f : OpenFile} {nd : Inode} (hv : v.tame)
    (hf : v.state.file fd = some f) (hne : f.ino ≠ a) (hnd : fs.inodes[f.ino]? = some nd)
    (hfail : ∀ v', v.Idle v' v.state.proc → Tame fs a v' (k none) Q)
    (hok : ∀ v', v.Idle v' v.state.proc → Tame fs a v' (k (some nd.fstat)) Q) :
    Tame fs a v (.call (.fstat fd) k) Q := by
  refine Tame.idle hv (fun _ => rfl) fun d => Spec.fstat trivial
    (fun _ _ _ => Spec.ret trivial ⟨rfl, hfail⟩) fun o nd' hnd' _ => Spec.ret trivial ⟨rfl, ?_⟩
  have hf' : State.file ⟨fs.setData a d, v.state.proc⟩ fd = some f := hf
  rw [State.inodeAt, hf', Option.bind_some, Fs.inodes_setData_ne hne, hnd] at hnd'
  obtain rfl := Option.some.inj hnd'
  exact hok

/-- Opening a file without truncating it. -/
theorem Tame.open_regular {path : CString} {flags : OpenFlags} {mode : Nat} {i : Ino}
    {k : Option Fd → Posix α} {D : Bytes} (hv : v.tame) (hi : fs.inodeOf path = some i)
    (hD : fs.data i = some D) (htrunc : flags.trunc = false)
    (hfail : ∀ v', v.Idle v' v.state.proc → Tame fs a v' (k none) Q)
    (hok : ∀ v', v.Idle v' (v.state.addFile ⟨i, 0, flags⟩).proc →
      Tame fs a v' (k (some v.state.proc.fds.length)) Q) :
    Tame fs a v (.call (.openFile path flags mode) k) Q := by
  apply Tame.idle hv (fun _ => rfl)
  intro d
  have hdata : ∃ D', (fs.setData a d).data i = some D' := by
    by_cases hia : i = a
    · exact ⟨d, hia ▸ Fs.data_setData_self hD⟩
    · exact ⟨D, (Fs.data_setData_ne hia).trans hD⟩
  obtain ⟨D', hD'⟩ := hdata
  refine Spec.open_regular trivial ((Fs.inodeOf_setData ..).trans hi) hD'
    (fun _ => Spec.ret trivial ⟨rfl, hfail⟩) (Spec.ret trivial ⟨?_, hok⟩)
  simp [htrunc]

theorem written_cons (ev : SysEvent) (evs : List SysEvent) :
    written (ev :: evs) = ev.call.wrote ev.resp ++ written evs := rfl

theorem written_append (evs evs' : List SysEvent) :
    written (evs ++ evs') = written evs ++ written evs' := List.flatMap_append

/-- A tame process that runs alone. -/
theorem Tame.runs {p p' : Posix α} {d : Bytes} {s s' : State} {tr : List SysEvent}
    (hrun : Runs LabsOS.exec s p tr s' p') (hs : s.fs = fs.setData a d)
    (h : Tame fs a v p Q) (hv : v.state.proc = s.proc) :
    s'.fs = fs.setData a (d ++ written tr) ∧
      ∃ v', v'.state.proc = s'.proc ∧ v'.own = v.own ++ written tr ∧ Tame fs a v' p' Q := by
  induction hrun generalizing v d with
  | refl => exact ⟨by simpa [written] using hs, v, hv, by simp [written], h⟩
  | @call s s' c k p' tr o _ ih =>
    obtain rfl : s = ⟨fs.setData a d, v.state.proc⟩ := by rw [← hs, hv]
    have hnext := Spec.step h (o, d) trivial
    obtain ⟨-, hfs⟩ := hnext.inv
    obtain ⟨hfs', v', hproc, hown, h'⟩ := ih hfs hnext rfl
    refine ⟨by rw [hfs', List.append_assoc, written_cons], v', hproc, ?_, h'⟩
    rw [hown, written_cons, ← List.append_assoc]
    rfl
  | unfold _ ih => exact ih hs (Spec.unfold h) hv

/-- A step of a tame process. -/
theorem Tame.step {Q : Unit → View → Prop} {p p' : Process} {d : Bytes} {fs' : Fs}
    {o : Outcome} {ev : Option SysEvent} (h : Tame fs a v p.prog Q) (hv : v.state.proc = p.proc)
    (hstep : p.step o (fs.setData a d) = some (fs', p', ev)) :
    fs' = fs.setData a (d ++ written ev.toList) ∧
      ∃ v', v'.state.proc = p'.proc ∧ v'.own = v.own ++ written ev.toList ∧
        Tame fs a v' p'.prog Q := by
  exact Tame.runs (Process.runs_of_step hstep) rfl h hv

end View

-- ---------------------------------------------------------------------------
-- Several of them
-- ---------------------------------------------------------------------------

section Shared

variable {ι : Type} [DecidableEq ι] {fs : Fs} {a : Ino} {B : Bytes} {m₀ m : Machine ι}
variable {Q : ι → Proc → Bytes → Prop}

/-- What the process `i` is, in its own view. -/
def Machine.Viewed (fs : Fs) (a : Ino) (Q : Proc → Bytes → Prop) (m : Machine ι) (i : ι) : Prop :=
  ∃ v, v.state.proc = (m.procs i).proc ∧ v.own = written (ownCalls i m.log) ∧
    Tame fs a v (m.procs i).prog fun _ v => Q v.state.proc v.own

/-- **Tame processes** leave in the shared file what all of them wrote, in the order of
the calls. -/
theorem shared_runs (h : Reaches Machine.step m₀ m) (hlog : m₀.log = [])
    (hfs : m₀.fs = fs.setData a B)
    (htame : ∀ i, Tame fs a ⟨⟨fs, (m₀.procs i).proc⟩, [], True⟩ (m₀.procs i).prog
      fun _ v => Q i v.state.proc v.own) :
    m.fs = fs.setData a (B ++ written (m.log.map Prod.snd)) ∧ ∀ i, m.Viewed fs a (Q i) i := by
  refine h.invariant (I := fun m => m.fs = fs.setData a (B ++ written (m.log.map Prod.snd)) ∧
    ∀ i, m.Viewed fs a (Q i) i) ?_ ?_
  · refine ⟨by rw [hfs, hlog]; simp [written], fun i => ⟨_, rfl, ?_, htame i⟩⟩
    rw [hlog]
    rfl
  · rintro ⟨j, o⟩ m m' ⟨hfs, hview⟩ hstep
    obtain ⟨fs', p', ev, hp, rfl⟩ := Machine.step_cases hstep
    obtain ⟨v, hproc, hown, hspec⟩ := hview j
    obtain ⟨rfl, v', hproc', hown', hspec'⟩ := hspec.step hproc (hfs ▸ hp)
    refine ⟨?_, ?_⟩
    · have hlast : ((ev.map ((j, ·) : SysEvent → ι × SysEvent)).toList).map Prod.snd = ev.toList := by
        cases ev <;> rfl
      rw [List.map_append, hlast, written_append, List.append_assoc]
    · intro i
      by_cases hij : i = j
      · subst hij
        refine ⟨v', ?_, ?_, ?_⟩
        · simpa using hproc'
        · rw [hown', hown, ownCalls_append_self, written_append]
        · simpa using hspec'
      · obtain ⟨w, hw, hown, hspec⟩ := hview i
        refine ⟨w, ?_, ?_, ?_⟩
        · simpa [hij] using hw
        · rw [hown, ownCalls_append_ne (Ne.symm hij)]
        · simpa [hij] using hspec

end Shared

/-- The call has stored bytes. -/
def Stores (ev : SysEvent) : Prop := ev.call.wrote ev.resp ≠ []

instance : DecidablePred Stores := fun _ => inferInstanceAs (Decidable (_ ≠ _))

/-- If one of two processes has stored all its bytes before the other stored any, what they
wrote follows each other. -/
theorem written_of_before {i : Bool} {log : List (Bool × SysEvent)} (h : Before Stores i log) :
    written (log.map Prod.snd) = written (ownCalls i log) ++ written (ownCalls (!i) log) := by
  induction log with
  | nil => rfl
  | cons e log ih =>
    obtain ⟨j, ev⟩ := e
    obtain ⟨hfirst, hrest⟩ := List.pairwise_cons.mp h
    rw [List.map_cons, written_cons, ih hrest]
    by_cases hj : j = i
    · rw [ownCalls_cons_self hj, ownCalls_cons_ne (by simp [hj]), written_cons, List.append_assoc]
    rw [ownCalls_cons_ne hj, ownCalls_cons_self (by simpa using Bool.eq_not_of_ne hj), written_cons]
    by_cases hev : Stores ev
    · -- nothing of the first process comes after a byte of the second
      have hnone : written (ownCalls i log) = [] := by
        apply List.flatMap_eq_nil_iff.mpr
        intro ev' hev'
        obtain ⟨e, he, rfl⟩ := List.mem_map.mp hev'
        obtain ⟨he, hi⟩ := List.mem_filter.mp he
        by_contra hstores
        exact hj (hfirst e he hev hstores (by simpa using hi))
      rw [hnone, List.nil_append, List.nil_append]
    · rw [not_not.mp hev, List.nil_append, List.nil_append]

end LabsOS
