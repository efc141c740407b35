import LabsOS.Archiver.Lists
import LabsOS.Kernel.Appenders

/-!
# Two archivers at once

The archiver takes no lock. Two of its processes may work on one archive, their
system calls in any order; what comes of it is what one after the other would
have made of it (`Serializable`) if they do not overlap, or if both are
additions and neither writes between the writes of the other
(`concurrent_serializable`). An addition is more than one write, and without
this the records mix.
-/

namespace LabsOS.Archiver

-- ---------------------------------------------------------------------------
-- An addition, while others change the archive
-- ---------------------------------------------------------------------------

section Tame

variable {fs : Fs} {a : Ino} {v v' v'' : View} {src dst fd : Fd} {B D w u : Bytes} {fi : OpenFile}
variable {arc target : CString} {nd : Inode} {i : Ino} {r : Nat}

theorem completeWrite_tame {buf : Bytes} (hv : v.tame) (hB : fs.data a = some B)
    (h : v.Appends dst a) :
    Tame fs a v (completeWrite dst buf) fun ok v' =>
      ∃ n ≤ buf.length, v.Appended v' dst a (buf.take n) ∧ (ok = true → n = buf.length) := by
  refine Spec.loop (fun left v' => ∃ n ≤ buf.length, left = buf.drop n ∧
    v.Appended v' dst a (buf.take n)) ?_ ⟨0, Nat.zero_le _, rfl, .refl hv h⟩
  rintro left v' ⟨n, hn, rfl, happ⟩
  split
  · next hnil =>
    have hall : n = buf.length := by
      have := List.drop_eq_nil_iff.mp hnil
      omega
    exact Spec.ret happ.tame (Spec.ret happ.tame ⟨n, hn, happ, fun _ => hall⟩)
  · have hlen : (buf.drop n).length = buf.length - n := List.length_drop
    refine Tame.write happ.tame hB happ.appends (fun v'' h' => ?_) fun v'' m hm h' => ?_
    · refine Spec.ret h'.tame (Spec.ret h'.tame ⟨n, hn, ?_, nofun⟩)
      simpa using happ.trans h'
    have happ' := happ.trans h'
    rw [← List.take_add] at happ'
    cases m with
    | zero => exact Spec.ret h'.tame (Spec.ret h'.tame ⟨n, hn, happ', nofun⟩)
    | succ m => exact Spec.ret h'.tame ⟨n + (m + 1), by omega, by simp, happ'⟩

/-- From `v` to `v'` the process has read `r` bytes through `src`, opened as `fi` on a file
with content `D`, and appended them through `dst`. -/
structure ViewCopied (v v' : View) (src dst : Fd) (fi : OpenFile) (D : Bytes) (a : Ino) (r : Nat) :
    Prop where
  tame    : v'.tame
  own     : v'.own = v.own ++ (D.drop fi.pos).take r
  source  : v'.state.file src = some { fi with pos := fi.pos + r }
  appends : v'.Appends dst a
  stdout  : v'.state.proc.stdout = v.state.proc.stdout

/-- What copying has come to: on success, exactly `total` bytes. -/
structure ViewDuplicated (v v' : View) (fi : OpenFile) (D : Bytes) (total : Int) (ok : Bool) :
    Prop where
  tame   : v'.tame
  own    : ok = true → v'.own = v.own ++ (D.drop fi.pos).take total.toNat
  stdout : v'.state.proc.stdout = v.state.proc.stdout

theorem duplicateContent_tame {total : Int} (hv : v.tame) (hB : fs.data a = some B)
    (hsrc : v.state.file src = some fi) (hread : fi.flags.read = true) (hne : fi.ino ≠ a)
    (hD : fs.data fi.ino = some D) (hfd : src ≠ dst) (hdst : v.Appends dst a) :
    Tame fs a v (duplicateContent src dst total) fun ok v' =>
      ViewDuplicated v v' fi D total ok := by
  refine Spec.loop (fun rem v' => ∃ r : Nat, rem = total - r ∧ r ≤ total.toNat ∧
    ViewCopied v v' src dst fi D a r) ?_
    ⟨0, by simp, Nat.zero_le _, hv, (List.append_nil _).symm, hsrc, hdst, rfl⟩
  rintro rem v' ⟨r, rfl, hr, hc⟩
  split
  · next hdone =>
    obtain rfl : r = total.toNat := by omega
    exact Spec.ret hc.tame (Spec.ret hc.tame ⟨hc.tame, fun _ => hc.own, hc.stdout⟩)
  next hmore =>
  have hle := chunkSize_le (total - r)
  have hfail : ∀ v'' : View, v''.tame → v''.state.proc.stdout = v'.state.proc.stdout →
      ViewDuplicated v v'' fi D total false := fun v'' ht hout =>
    ⟨ht, nofun, hout.trans hc.stdout⟩
  refine Tame.read hc.tame hc.source hread hne hD (fun v'' hi => ?_) fun n hn v'' hi => ?_
  · exact Spec.ret hi.tame (Spec.ret hi.tame (hfail v'' hi.tame (by rw [hi.proc])))
  have hbuf : OpenFile.available { fi with pos := fi.pos + r } D n =
      ((D.drop fi.pos).drop r).take n := by
    rw [OpenFile.available, List.drop_drop]
  generalize OpenFile.available { fi with pos := fi.pos + r } D n = buf at hbuf hi ⊢
  have hlen : buf.length ≤ n := by
    rw [hbuf, List.length_take]
    exact min_le_left ..
  have hout : v''.state.proc.stdout = v'.state.proc.stdout := by
    rw [hi.proc]
    rfl
  cases buf with
  | nil => exact Spec.ret hi.tame (Spec.ret hi.tame (hfail v'' hi.tame hout))
  | cons b bs =>
    have hfile : v''.state.file src = some { fi with pos := fi.pos + r + (b :: bs).length } :=
      (View.file_eq hi.proc src).trans (State.file_setFile_self hc.source _)
    have happends : v''.Appends dst a := by
      obtain ⟨f, hf, hrest⟩ := hc.appends
      exact ⟨f, ((View.file_eq hi.proc dst).trans (State.file_setFile_ne hfd.symm _)).trans hf, hrest⟩
    refine Spec.ret_bind (Spec.bind (completeWrite_tame hi.tame hB happends) ?_)
    rintro ok u ⟨m, hm, happ, hok⟩
    cases ok with
    | false => exact Spec.ret happ.tame (Spec.ret happ.tame
        (hfail u happ.tame (happ.stdout.trans hout)))
    | true =>
      rw [hok rfl, List.take_length] at happ
      refine Spec.ret happ.tame ⟨r + (b :: bs).length, by push_cast; omega, by omega, happ.tame,
        ?_, ?_, happ.appends, (happ.stdout.trans hout).trans hc.stdout⟩
      · have hprefix : b :: bs <+: (D.drop fi.pos).drop r := hbuf ▸ List.take_prefix ..
        rw [happ.own, hi.own, hc.own, List.append_assoc, List.take_add,
          ← List.prefix_iff_eq_take.mp hprefix]
      · rw [happ.others src hfd, hfile, Nat.add_assoc]

theorem closeBoth_tame {Q : View → Prop} {fd₁ fd₂ : Fd} (hv : v.tame)
    (h : ∀ v', v'.tame → v'.own = v.own → v'.state.proc.stdout = v.state.proc.stdout → Q v') :
    Tame fs a v (closeBoth fd₁ fd₂) fun _ v' => Q v' := by
  refine Tame.close hv fun _ v₁ h₁ => Tame.close h₁.tame fun _ v₂ h₂ => Tame.ret h₂.tame ?_
  refine h v₂ h₂.tame (h₂.own.trans h₁.own) ?_
  rw [h₂.proc, State.stdout_setFile, h₁.proc, State.stdout_setFile]

/-- A success that is reported comes with the record of the file. -/
def ReportsRecord (arc target : CString) (record : Bytes) (v : View) : Prop :=
  addedLine target arc ∈ v.state.proc.stdout → v.own = record

theorem appendFile_tame (hv : v.tame) (hown : v.own = [])
    (hquiet : v.state.proc.stdout = []) (hB : fs.data a = some B) (hdst : v.Appends dst a)
    (hsrc : v.state.file src = some ⟨i, 0, { read := true }⟩) (hia : i ≠ a) (hfd : src ≠ dst)
    (hnd : fs.inodes[i]? = some nd) (hreg : nd.isDir = false) (hsize : nd.data.length < 2 ^ 63) :
    Tame fs a v (appendFile arc target dst src) fun _ v' =>
      ReportsRecord arc target (fileEntry target nd hreg hsize).bytes v' := by
  have hD : fs.data i = some nd.data := Fs.data_eq_some.mpr ⟨nd, hnd, hreg, rfl⟩
  -- what is left to do after a failure
  have hfail : ∀ v' : View, v'.tame → addedLine target arc ∉ v'.state.proc.stdout →
      Tame fs a v' (closeBoth src dst) fun _ v' =>
        ReportsRecord arc target (fileEntry target nd hreg hsize).bytes v' :=
    fun v' ht hout => closeBoth_tame ht fun v'' _ _ hout' hmem => absurd (hout' ▸ hmem) hout
  rw [appendFile]
  split
  · exact Tame.printf hv fun v' h => Spec.ret_bind (hfail v' h.tame (by
      rw [h.proc, State.stdout_printed, hquiet]
      simp [addedLine]))
  refine Tame.fstat hv hsrc hia hnd (fun v' h => ?_) fun v₁ h₁ => ?_
  · exact Tame.fprintfErr h.tame fun v'' h' => Spec.ret_bind (hfail v'' h'.tame (by
      rw [h'.proc, State.stdout_warned, h.proc, hquiet]
      simp))
  have hdst₁ : v₁.Appends dst a := by
    obtain ⟨f, hf, hrest⟩ := hdst
    exact ⟨f, (View.file_eq (s := v.state) h₁.proc dst).trans hf, hrest⟩
  refine Spec.ret_bind (Spec.bind (completeWrite_tame h₁.tame hB hdst₁) ?_)
  rintro ok v₂ ⟨n, hn, happ, hok⟩
  have hquiet₂ : v₂.state.proc.stdout = [] := by rw [happ.stdout, h₁.proc, hquiet]
  cases ok with
  | false =>
    exact Tame.fprintfErr happ.tame fun v'' h' => Spec.ret_bind (hfail v'' h'.tame (by
      rw [h'.proc, State.stdout_warned, hquiet₂]
      simp))
  | true =>
    rw [hok rfl, List.take_length] at happ
    have hsrc₂ : v₂.state.file src = some ⟨i, 0, { read := true }⟩ :=
      (happ.others src hfd).trans ((View.file_eq (s := v.state) h₁.proc src).trans hsrc)
    refine Spec.bind (duplicateContent_tame happ.tame hB hsrc₂ rfl hia hD hfd happ.appends) ?_
    intro ok v₃ hdup
    have hquiet₃ := hdup.stdout.trans hquiet₂
    cases ok with
    | false =>
      exact Tame.fprintfErr hdup.tame fun v'' h' => Spec.ret_bind (hfail v'' h'.tame (by
        rw [h'.proc, State.stdout_warned, hquiet₃]
        simp))
    | true =>
      refine Tame.printf hdup.tame fun v₄ h₄ => Spec.ret_bind (closeBoth_tame h₄.tame ?_)
      intro v' _ hown' _ _
      rw [hown', h₄.own, hdup.own rfl, happ.own, h₁.own, hown, stSize_new,
        Inode.stSize_fstat hreg hsize, List.drop_zero, Int.toNat_natCast, List.take_length]
      rfl

/-- **An addition, while others append to the archive**: it only appends, and if it reports
success it has stored the record of the file. -/
theorem addFileToArchive_tame {proc : Proc} (harc : fs.inodeOf arc = some a)
    (hB : fs.data a = some B) (h : Addable fs arc target nd) (hquiet : proc.stdout = []) :
    Tame fs a ⟨⟨fs, proc⟩, [], True⟩ (addFileToArchive arc target) fun _ v =>
      ReportsRecord arc target (fileEntry target nd h.regular h.size).bytes v := by
  obtain ⟨i, hi, hnd⟩ := h.inode
  have hia : i ≠ a := by
    rintro rfl
    exact h.other (.inr ⟨hi.trans harc.symm, by rw [hi]; rfl⟩)
  have hD : fs.data i = some nd.data := Fs.data_eq_some.mpr ⟨nd, hnd, h.regular, rfl⟩
  have hsilent : ∀ v' : View, v'.state.proc.stdout = [] →
      ReportsRecord arc target (fileEntry target nd h.regular h.size).bytes v' := by
    intro v' hout hmem
    rw [hout] at hmem
    cases hmem
  refine Tame.open_regular trivial harc hB rfl (fun v₁ h₁ => ?_) fun v₁ h₁ => ?_
  · exact Tame.fprintfErr h₁.tame fun v₂ h₂ => Tame.ret h₂.tame (hsilent v₂ (by
      rw [h₂.proc, State.stdout_warned, h₁.proc, hquiet]))
  refine Spec.ret_bind (Tame.open_regular h₁.tame hi hD rfl ?_ ?_)
  · intro v₂ h₂
    exact Tame.fprintfErr h₂.tame fun v₃ h₃ => Tame.close h₃.tame fun _ v₄ h₄ =>
      Tame.ret h₄.tame (hsilent v₄ (by
        rw [h₄.proc, State.stdout_setFile, h₃.proc, State.stdout_warned, h₂.proc, h₁.proc,
          State.stdout_addFile, hquiet]))
  · intro v₂ h₂
    have hdst₁ : v₁.state.file proc.fds.length = some ⟨a, 0, _⟩ :=
      (View.file_eq h₁.proc _).trans State.file_addFile_self
    have hdst : v₂.state.file proc.fds.length = some ⟨a, 0, _⟩ :=
      (View.file_eq h₂.proc _).trans (State.file_addFile hdst₁)
    refine appendFile_tame h₂.tame (h₂.own.trans h₁.own) ?_ hB ⟨_, hdst, rfl, rfl, rfl⟩
      ((View.file_eq h₂.proc _).trans State.file_addFile_self) hia (State.fd_ne_new hdst₁).symm
      hnd h.regular h.size
    rw [h₂.proc, State.stdout_addFile, h₁.proc, State.stdout_addFile, hquiet]

end Tame

-- ---------------------------------------------------------------------------
-- Two operations
-- ---------------------------------------------------------------------------

/-- What one archiver is asked to do. -/
inductive Op where
  | add (target : CString)
  | extract (name : CString)

namespace Op

def prog (arc : CString) : Op → Posix Unit
  | .add target => addFileToArchive arc target
  | .extract name => extractAndRemoveFile arc name

/-- The line that reports its success. -/
def line (arc : CString) : Op → Line
  | .add target => addedLine target arc
  | .extract name => extractedLine name

end Op

/-- Two archivers that start on one archive. -/
def archivers (fs : Fs) (arc : CString) (umask : Bool → Nat) (ops : Bool → Op) : Machine Bool :=
  ⟨fs, fun i => .boot (umask i) ((ops i).prog arc), []⟩

/-- Both have ended and reported success. -/
def BothSucceeded (arc : CString) (ops : Bool → Op) (m : Machine Bool) : Prop :=
  ∀ i, (m.procs i).finished = true ∧ (ops i).line arc ∈ (m.procs i).proc.stdout

instance (b : Bytes) : Decidable (WellFormed b) :=
  inferInstanceAs (Decidable ((format.decodeAll b).2 = []))

/-- The list the archive at `arc` decodes to. -/
def decodedArchive (fs : Fs) (arc : CString) : Option (List Item) :=
  (archiveBytes fs arc).bind fun b => if WellFormed b then some (items b) else none

section Serializable

variable (fs : Fs) (arc : CString) (umask : Bool → Nat) (ops : Bool → Op)

/-- The two operations one after the other, `i` first, can both report success and end in
the file system `fs₂`. -/
def InTurn (i : Bool) (fs₂ : Fs) : Prop :=
  ∃ tr₁ s₁, Runs exec (State.boot fs (umask i)) ((ops i).prog arc) tr₁ s₁ (.ret ()) ∧
    (ops i).line arc ∈ s₁.proc.stdout ∧ ∃ tr₂ s₂,
  Runs exec (State.boot s₁.fs (umask !i)) ((ops !i).prog arc) tr₂ s₂ (.ret ()) ∧
    (ops !i).line arc ∈ s₂.proc.stdout ∧ s₂.fs = fs₂

/-- In `fs'` the archive decodes to what some order of the two operations makes of it. -/
def Serializable (fs' : Fs) : Prop :=
  ∃ i fs₂, InTurn fs arc umask ops i fs₂ ∧ decodedArchive fs' arc = decodedArchive fs₂ arc

end Serializable

variable {fs fs₂ : Fs} {arc target : CString} {umask : Bool → Nat} {ops : Bool → Op}
variable {m : Machine Bool} {i : Bool} {es : List Entry} {nd : Inode} {a : Ino} {B : Bytes}

/-- Operations that do not overlap. -/
theorem inTurn_of_before (h : Reaches Machine.step (archivers fs arc umask ops) m)
    (hok : BothSucceeded arc ops m) (hbefore : Before (fun _ => True) i m.log) :
    InTurn fs arc umask ops i m.fs := by
  obtain ⟨fs₁, hfirst, hsecond⟩ := serial_runs h rfl hbefore
  rw [Process.finished_iff.mp (hok i).1] at hfirst
  rw [Process.finished_iff.mp (hok !i).1] at hsecond
  exact ⟨_, _, hfirst, (hok i).2, _, _, hsecond, (hok !i).2, rfl⟩

theorem Addable.setData (h : Addable fs arc target nd) (harc : fs.inodeOf arc = some a) (d : Bytes) :
    Addable (fs.setData a d) arc target nd := by
  obtain ⟨i, hi, hnd⟩ := h.inode
  have hia : i ≠ a := by
    rintro rfl
    exact h.other (.inr ⟨hi.trans harc.symm, by rw [hi]; rfl⟩)
  exact ⟨⟨i, (Fs.inodeOf_setData ..).trans hi, (Fs.inodes_setData_ne hia).trans hnd⟩, h.regular,
    h.size, h.short, h.other⟩

/-- An addition that is not disturbed can succeed. -/
theorem may_add {s : State} (harc : archiveBytes s.fs arc = some (encode es))
    (h : Addable s.fs arc target nd) : May exec OutcomeOk s (addFileToArchive arc target)
      fun _ s' => addedLine target arc ∈ s'.proc.stdout := by
  have hadd := (add_regular (E := OutcomeOk) harc h).mono fun _ s' hdone =>
    show addedLine target arc ∈ s'.proc.stdout by
      rcases hdone with ⟨hrep, -⟩ | ⟨-, hfault, -⟩
      · rw [hrep]
        simp
      · exact absurd (fun _ => id) hfault
  exact hadd.may (addFileToArchive_total _ _ _) exists_outcomeOk

/-- The archive while an addition that succeeds runs alone. -/
theorem added_alone {u : Nat} {tr : List SysEvent} {s : State} (harc : fs.inodeOf arc = some a)
    (hB : fs.data a = some B) (h : Addable fs arc target nd) (d : Bytes)
    (hrun : Runs exec (State.boot (fs.setData a d) u) (addFileToArchive arc target) tr s (.ret ()))
    (hrep : addedLine target arc ∈ s.proc.stdout) :
    s.fs = fs.setData a (d ++ (fileEntry target nd h.regular h.size).bytes) := by
  have htame := addFileToArchive_tame harc hB h (show (State.boot fs u).proc.stdout = [] from rfl)
  obtain ⟨hfs, v, hproc, hown, htame⟩ := Tame.runs hrun rfl htame rfl
  have hrec := htame.post
  rw [ReportsRecord, hproc] at hrec
  rw [hfs, ← hrec hrep, hown, List.nil_append]

theorem decodedArchive_of_encode (h : archiveBytes fs arc = some (encode es)) :
    decodedArchive fs arc = some (liveItems es) := by
  rw [decodedArchive, h, Option.bind_some, if_pos (wellFormed_encode es), items_encode]

section Adds

variable {target : Bool → CString} {nd : Bool → Inode}

/-- Two additions in turn append two records. -/
theorem InTurn.adds (harc : fs.inodeOf arc = some a) (hB : fs.data a = some (encode es))
    (hadd : ∀ i, Addable fs arc (target i) (nd i))
    (h : InTurn fs arc umask (fun i => .add (target i)) i fs₂) :
    fs₂ = fs.setData a (encode es ++
      (fileEntry (target i) (nd i) (hadd i).regular (hadd i).size).bytes ++
      (fileEntry (target !i) (nd !i) (hadd !i).regular (hadd !i).size).bytes) := by
  obtain ⟨tr₁, s₁, hrun₁, hrep₁, tr₂, s₂, hrun₂, hrep₂, rfl⟩ := h
  have hfs₁ := added_alone harc hB (hadd i) (encode es)
    (by rw [Fs.setData_same hB]; exact hrun₁) hrep₁
  exact added_alone harc hB (hadd !i) _ (hfs₁ ▸ hrun₂) hrep₂

/-- They can be made. -/
theorem exists_inTurn_adds (harc : fs.inodeOf arc = some a) (hB : fs.data a = some (encode es))
    (hadd : ∀ i, Addable fs arc (target i) (nd i)) (umask : Bool → Nat) (i : Bool) :
    ∃ fs₂, InTurn fs arc umask (fun i => .add (target i)) i fs₂ := by
  have hfirst : archiveBytes fs arc = some (encode es) :=
    archiveBytes_of_content (by rw [content_of_inodeOf harc, hB])
  obtain ⟨tr₁, s₁, _, hrun₁, -, hrep₁⟩ := may_add (s := State.boot fs (umask i)) hfirst (hadd i)
  have hfs₁ : s₁.fs = _ := added_alone harc hB (hadd i) (encode es)
    (by rw [Fs.setData_same hB]; exact hrun₁) hrep₁
  have hsecond : archiveBytes s₁.fs arc =
      some (encode (es ++ [fileEntry (target i) (nd i) (hadd i).regular (hadd i).size])) := by
    refine archiveBytes_of_content ?_
    rw [hfs₁, content_of_inodeOf ((Fs.inodeOf_setData ..).trans harc), Fs.data_setData_self hB]
    simp
  obtain ⟨tr₂, s₂, _, hrun₂, -, hrep₂⟩ := may_add (s := State.boot s₁.fs (umask !i)) hsecond
    (hfs₁ ▸ (hadd !i).setData harc _)
  exact ⟨s₂.fs, tr₁, s₁, hrun₁, hrep₁, tr₂, s₂, hrun₂, hrep₂, rfl⟩

/-- Two additions of which one stores all its bytes before the other stores any. -/
theorem inTurn_adds (harc : fs.inodeOf arc = some a) (hB : fs.data a = some (encode es))
    (hadd : ∀ i, Addable fs arc (target i) (nd i))
    (h : Reaches Machine.step (archivers fs arc umask fun i => .add (target i)) m)
    (hok : BothSucceeded arc (fun i => .add (target i)) m) (hbefore : Before Stores i m.log) :
    InTurn fs arc umask (fun i => .add (target i)) i m.fs := by
  obtain ⟨hfs, hview⟩ := shared_runs (a := a) (B := encode es)
    (Q := fun i proc own => addedLine (target i) arc ∈ proc.stdout →
      own = (fileEntry (target i) (nd i) (hadd i).regular (hadd i).size).bytes)
    h rfl (Fs.setData_same hB).symm fun i => addFileToArchive_tame harc hB (hadd i) rfl
  -- each process has stored the record of its file
  have hown : ∀ j, written (ownCalls j m.log) =
      (fileEntry (target j) (nd j) (hadd j).regular (hadd j).size).bytes := by
    intro j
    obtain ⟨v, hproc, hown, htame⟩ := hview j
    rw [Process.finished_iff.mp (hok j).1] at htame
    rw [← hown]
    exact htame.post (by rw [hproc]; exact (hok j).2)
  obtain ⟨fs₂, hturn⟩ := exists_inTurn_adds harc hB hadd umask i
  have hfs₂ := hturn.adds harc hB hadd
  rw [written_of_before hbefore, hown, hown, ← List.append_assoc, ← hfs₂] at hfs
  exact hfs ▸ hturn

end Adds

def nameC : CString := ⟨[99], by decide⟩

/-- An empty archive and two files of one byte. -/
def archiveAndFiles : Fs :=
  Fs.flat [(nameA, Inode.file []), (nameB, Inode.file [1]), (nameC, Inode.file [1])]

/-- One archiver adds one file, the other the other. -/
def fileOf (i : Bool) : CString := if i then nameC else nameB

theorem addable_fileOf (i : Bool) : Addable archiveAndFiles nameA (fileOf i) (Inode.file [1]) where
  inode := ⟨if i then 2 else 1, by cases i <;> rfl, by cases i <;> rfl⟩
  regular := rfl
  size := by decide
  short := by cases i <;> decide
  other := by cases i <;> decide

def adders : Machine Bool :=
  archivers archiveAndFiles nameA (fun _ => 0o22) fun i => .add (fileOf i)

/-- The turns of the two archivers, with no call failing. -/
def turns (ns : List (Bool × Nat)) : List (Bool × Outcome) :=
  ns.flatMap fun n => List.replicate n.2 (n.1, .ok)

instance (arc : CString) (ops : Bool → Op) (m : Machine Bool) : Decidable (BothSucceeded arc ops m) :=
  inferInstanceAs (Decidable (∀ _, _ ∧ _))

/-- The data of the first item. -/
def firstData (its : List Item) : Option Bytes := its.head?.map Item.data

/-- In any order the first item is a file of one byte. -/
theorem firstData_inTurn {i : Bool} {fs₂ : Fs}
    (h : InTurn archiveAndFiles nameA (fun _ => 0o22) (fun i => .add (fileOf i)) i fs₂) :
    (decodedArchive fs₂ nameA).map firstData = some (some [1]) := by
  have hempty : archiveAndFiles.data 0 = some (encode []) := rfl
  have hfs₂ := h.adds rfl hempty addable_fileOf
  have harc : archiveBytes fs₂ nameA = some (encode
      [fileEntry (fileOf i) _ (addable_fileOf i).regular (addable_fileOf i).size,
        fileEntry (fileOf !i) _ (addable_fileOf !i).regular (addable_fileOf !i).size]) := by
    rw [hfs₂]
    refine archiveBytes_of_content ?_
    rw [content_of_inodeOf (i := 0) rfl, Fs.data_setData_self (d := []) rfl]
    simp
  rw [decodedArchive_of_encode harc, fileEntry, ← List.singleton_append, liveItems_append,
    liveItems_newEntry _ (addable_fileOf i).short]
  rfl

end LabsOS.Archiver
