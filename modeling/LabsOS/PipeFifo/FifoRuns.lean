import LabsOS.Concurrency.Fairness
import LabsOS.PipeFifo.Fifo

/-!
# Whole runs of the named pipe

Every run of `lab6_pipefifo/fifo.c` ends (`no_run`), but not always with both processes. Each of
them waits in its `open` for the other, so that the program hangs as soon as one of them is killed
or cannot open the pipe; otherwise it does not (`hangs_iff`). What the child has printed in the
end is all of the message or nothing, and the name of the pipe is gone (`fifo_delivers`).
-/

namespace LabsOS.PipeFifo.FifoC

variable {f : Facts} {capacity : Nat} {fifoName : Bytes} {s s' : State} {x : Fifo Side} {ok : Bool}
  {side : Side}

-- ---------------------------------------------------------------------------
-- Every run ends
-- ---------------------------------------------------------------------------

/-- How many actions are left at most; `fork` makes those of a child. -/
def ParentPc.left : ParentPc → Nat
  | .stat => 18
  | .mkfifo => 17
  | .fork => 16
  | .open => 7
  | .waitReader => 6
  | .write => 5
  | .close => 4
  | .wait | .closeErr => 3
  | .unlink | .unlinkErr => 2
  | .exiting _ => 1
  | .ended _ => 0

def ChildPc.left : ChildPc → Nat
  | .open => 8
  | .waitWriter => 7
  | .printTime => 6
  | .read => 5
  | .received _ => 4
  | .close | .closeErr => 3
  | .unlinkErr => 2
  | .exiting _ => 1
  | .unborn | .ended _ => 0

def State.left (s : State) : Nat := s.parent.left + s.child.left

theorem parentStep_left_lt (hs : parentStep f capacity fifoName ok s = some s') :
    s'.left < s.left := by
  unfold parentStep at hs
  revert hs
  cases hpc : s.parent with
  | stat | mkfifo | «open» | close | unlink =>
    intro hs
    dsimp only at hs
    split at hs
    all_goals
      obtain rfl := Option.some.inj hs
      simp [State.left, ParentPc.left, hpc]
  | fork =>
    intro hs
    dsimp only at hs
    split at hs
    · obtain rfl := Option.some.inj hs
      show 7 + 8 < s.parent.left + s.child.left
      rw [hpc]
      show 7 + 8 < 16 + s.child.left
      omega
    · obtain rfl := Option.some.inj hs
      simp [State.left, ParentPc.left, hpc]
  | waitReader =>
    intro hs
    dsimp only at hs
    split at hs
    · cases hs
    · obtain rfl := Option.some.inj hs
      simp [State.left, ParentPc.left, hpc]
  | write =>
    intro hs
    dsimp only at hs
    split at hs
    · obtain rfl := Option.some.inj hs
      simp [State.left, ParentPc.left, hpc]
    · split at hs
      · obtain ⟨p, -, rfl⟩ := Option.map_eq_some_iff.mp hs
        simp [State.left, ParentPc.left, hpc]
      · obtain rfl := Option.some.inj hs
        simp [State.left, ParentPc.left, hpc]
  | wait =>
    intro hs
    dsimp only at hs
    split at hs
    · obtain rfl := Option.some.inj hs
      simp [State.left, ParentPc.left, hpc]
    · obtain rfl := Option.some.inj hs
      simp [State.left, ParentPc.left, hpc]
    · cases hs
  | closeErr | unlinkErr | exiting =>
    rintro ⟨⟩
    simp [State.left, ParentPc.left, hpc]
  | ended how => nofun

theorem childStep_left_lt (hs : childStep f ok s = some s') : s'.left < s.left := by
  unfold childStep at hs
  revert hs
  cases hpc : s.child with
  | unborn => nofun
  | «open» | close =>
    intro hs
    dsimp only at hs
    split at hs
    all_goals
      obtain rfl := Option.some.inj hs
      simp [State.left, ChildPc.left, hpc]
  | waitWriter =>
    intro hs
    dsimp only at hs
    split at hs
    · cases hs
    · obtain rfl := Option.some.inj hs
      simp [State.left, ChildPc.left, hpc]
  | read =>
    intro hs
    cases ok with
    | true =>
      obtain ⟨⟨bytes, p⟩, -, rfl⟩ := Option.map_eq_some_iff.mp hs
      dsimp only
      split
      · simp [State.left, ChildPc.left, hpc]
      · simp [State.left, ChildPc.left, hpc]
    | false =>
      obtain rfl := Option.some.inj hs
      simp [State.left, ChildPc.left, hpc]
  | printTime | received | closeErr | unlinkErr | exiting =>
    rintro ⟨⟩
    simp [State.left, ChildPc.left, hpc]
  | ended how => nofun

theorem kill_left_lt (hs : kill side s = some s') : s'.left < s.left := by
  unfold kill at hs
  cases side with
  | parent =>
    cases hpc : s.parent with
    | ended how =>
      rw [hpc] at hs
      cases hs
    | _ =>
      rw [hpc] at hs
      obtain rfl := Option.some.inj hs
      simp [State.left, ParentPc.left, hpc]
  | child =>
    cases hpc : s.child with
    | unborn | ended =>
      rw [hpc] at hs
      cases hs
    | _ =>
      rw [hpc] at hs
      obtain rfl := Option.some.inj hs
      simp [State.left, ChildPc.left, hpc]

/-- Every run ends. -/
theorem no_run (r : Run (step f capacity fifoName) s) : False := by
  apply r.false_of_forall_lt State.left (n := 0)
  intro m _
  have hstep := r.step_eq m
  cases hact : r.act m with
  | parent ok => exact parentStep_left_lt (hact ▸ hstep)
  | child ok => exact childStep_left_lt (f := f) (hact ▸ hstep)
  | kill side => exact kill_left_lt (hact ▸ hstep)

-- ---------------------------------------------------------------------------
-- Runs in which nobody is killed
-- ---------------------------------------------------------------------------

/-- A call of the parent has failed, and it comes to an end. -/
def ParentPc.GaveUp : ParentPc → Prop
  | .unlinkErr => True
  | .exiting status => status ≠ 0
  | .ended (.exited status) => status ≠ 0
  | _ => False

def ChildPc.GaveUp : ChildPc → Prop
  | .unlinkErr => True
  | .exiting status => status ≠ 0
  | .ended (.exited status) => status ≠ 0
  | _ => False

/-- The parent has nothing to do any more but to exit. -/
def ParentPc.Left : ParentPc → Prop
  | .exiting _ | .ended (.exited _) => True
  | _ => False

/-- The child has nothing to do any more but to exit, after an error. -/
def ChildPc.Left : ChildPc → Prop
  | .exiting status => status ≠ 0
  | .ended (.exited status) => status ≠ 0
  | _ => False

/-- Nobody is killed, `open` succeeds or `mayFail`, and `unlink` succeeds if `tidy`. -/
def Careful (mayFail tidy : Prop) : Action → State → Prop
  | .parent ok, s => (s.parent = .open → ok = true ∨ mayFail) ∧
      (tidy → s.parent = .unlink ∨ s.parent = .unlinkErr → ok = true)
  | .child ok, s => (s.child = .open → ok = true ∨ mayFail) ∧
      (tidy → s.child = .unlinkErr → ok = true)
  | .kill _, _ => False

variable {mayFail tidy : Prop}

/-- Each process finds the other one in `open`, unless that may fail, and if `tidy` the name is
gone when a process has. -/
structure Sound (mayFail tidy : Prop) (f : Facts) (s : State) : Prop where
  inv : Inv f s
  alive : s.child ≠ .ended .killed
  parent_finds : s.parent = .open → s.child = .open ∨ s.child = .waitWriter ∨
    mayFail ∧ s.child.GaveUp
  child_finds : s.child = .open → s.parent = .open ∨ s.parent = .waitReader ∨
    mayFail ∧ s.parent.GaveUp
  parent_waits : Side.parent ∈ s.fifo.writersWaiting → s.child = .open ∨ mayFail ∧ s.child.GaveUp
  child_waits : Side.child ∈ s.fifo.readersWaiting → s.parent = .open ∨ mayFail ∧ s.parent.GaveUp
  named : ¬ mayFail → s.parent = .open ∨ s.child = .open → s.name = some .fifo
  broken : s.parent = .ended .killed → s.child.GaveUp
  parent_gone : tidy → s.parent.Left → s.name = none
  child_gone : tidy → s.child.Left → s.name = none

theorem sound_start : Sound mayFail tidy f (start none) where
  inv := inv_start
  alive := nofun
  parent_finds := nofun
  child_finds := nofun
  parent_waits h := absurd h (Finset.notMem_empty _)
  child_waits h := absurd h (Finset.notMem_empty _)
  named _ := by rintro (h | h) <;> cases h
  broken := nofun
  parent_gone _ := False.elim
  child_gone _ := False.elim

/-- The parent moves on before there is a child. -/
theorem Sound.parentEarly {name : Option Node} {pc : ParentPc} (h : Sound mayFail tidy f s)
    (hinv : Inv f { s with name := name, fifo := x, parent := pc })
    (hpc : pc = .mkfifo ∨ pc = .fork) :
    Sound mayFail tidy f { s with name := name, fifo := x, parent := pc } := by
  have hunborn : s.child = .unborn := hinv.unborn (.inr hpc)
  have hne : ∀ pc', pc' ≠ .mkfifo → pc' ≠ .fork → pc ≠ pc' := by
    rintro pc' hmkfifo hfork rfl
    exact hpc.elim hmkfifo hfork
  exact
    { inv := hinv
      alive := h.alive
      parent_finds := fun hopen => absurd hopen (hne _ nofun nofun)
      child_finds := fun hopen => by
        rw [hunborn] at hopen
        cases hopen
      parent_waits := fun hin => absurd (hinv.parent_waiting hin) (hne _ nofun nofun)
      child_waits := fun hin => by
        have hwaits : s.child = .waitWriter := hinv.child_waiting hin
        rw [hunborn] at hwaits
        cases hwaits
      named := fun _ => by
        rintro (hopen | hopen)
        · exact absurd hopen (hne _ nofun nofun)
        · rw [hunborn] at hopen
          cases hopen
      broken := fun hended => absurd hended (hne _ nofun nofun)
      parent_gone := fun _ hleft => by
        rcases hpc with rfl | rfl
        · exact hleft.elim
        · exact hleft.elim
      child_gone := fun _ hleft => by
        rw [hunborn] at hleft
        exact hleft.elim }

/-- The parent moves to a statement behind its `open`. -/
theorem Sound.parentMoves {name : Option Node} {pc : ParentPc} {errors : List Bytes}
    (h : Sound mayFail tidy f s)
    (hinv : Inv f { s with name := name, fifo := x, parent := pc, errors := errors })
    (hopen : pc ≠ .open)
    (hchild : s.child = .open → pc = .waitReader ∨ mayFail ∧ pc.GaveUp)
    (hreaders : Side.child ∈ x.readersWaiting → mayFail ∧ pc.GaveUp)
    (hwriters : Side.parent ∈ x.writersWaiting → s.child = .open ∨ mayFail ∧ s.child.GaveUp)
    (hname : ¬ mayFail → s.child = .open → name = some .fifo)
    (hbroken : pc = .ended .killed → s.child.GaveUp) (hgone : tidy → pc.Left → name = none)
    (hkeep : s.name = none → name = none) :
    Sound mayFail tidy f { s with name := name, fifo := x, parent := pc, errors := errors } where
  inv := hinv
  alive := h.alive
  parent_finds hpc := absurd hpc hopen
  child_finds hpc := .inr (hchild hpc)
  parent_waits := hwriters
  child_waits hin := .inr (hreaders hin)
  named hfail hpc := hname hfail (hpc.resolve_left hopen)
  broken := hbroken
  parent_gone := hgone
  child_gone htidy hleft := hkeep (h.child_gone htidy hleft)

/-- The parent moves on, and is not in `open`. -/
theorem Sound.parentBehind {name : Option Node} {pc : ParentPc} {errors : List Bytes}
    (h : Sound mayFail tidy f s) (hpc : s.parent ≠ .open ∧ s.parent ≠ .waitReader)
    (hinv : Inv f { s with name := name, fifo := x, parent := pc, errors := errors })
    (hopen : pc ≠ .open ∧ pc ≠ .waitReader) (hgave : s.parent.GaveUp → pc.GaveUp)
    (hreaders : Side.child ∈ x.readersWaiting → Side.child ∈ s.fifo.readersWaiting)
    (hbroken : pc = .ended .killed → s.child.GaveUp) (hgone : tidy → pc.Left → name = none)
    (hkeep : s.name = none → name = none) :
    Sound mayFail tidy f { s with name := name, fifo := x, parent := pc, errors := errors } := by
  have hfinds : s.child = .open → mayFail ∧ s.parent.GaveUp := fun hchild =>
    ((h.child_finds hchild).resolve_left hpc.1).resolve_left hpc.2
  apply h.parentMoves hinv hopen.1
  · exact fun hchild => .inr ⟨(hfinds hchild).1, hgave (hfinds hchild).2⟩
  · intro hin
    obtain ⟨hfail, hgaveUp⟩ := (h.child_waits (hreaders hin)).resolve_left hpc.1
    exact ⟨hfail, hgave hgaveUp⟩
  · exact fun hin => absurd (hinv.parent_waiting hin) hopen.2
  · exact fun hfail hchild => absurd (hfinds hchild).1 hfail
  · exact hbroken
  · exact hgone
  · exact hkeep

/-- Only a child that has failed leaves the parent without a reader. -/
theorem Sound.gaveUp_of_closed (h : Sound mayFail tidy f s) (hpc : s.parent = .write)
    (hclosed : s.fifo.pipe.readers = ∅) : s.child.GaveUp := by
  have hfinds := h.child_finds
  have halive := h.alive
  have halone := h.inv.alone
  have hat := h.inv.child
  have hreads : ¬ s.child.HoldsRead := by
    intro hholds
    have hin := h.inv.child_reads.mpr hholds
    rw [hclosed] at hin
    exact Finset.notMem_empty _ hin
  have hnone : s.fifo.pipe.written ≠ message f := by
    rw [h.inv.unwritten (hpc ▸ trivial)]
    exact message_ne_nil.symm
  have htold : ∀ text, ¬ Told f s text := by
    rintro text (⟨-, hwritten⟩ | ⟨-, hfailed⟩)
    · exact hnone hwritten
    · rw [hpc] at hfailed
      exact hfailed
  revert hfinds halive halone hreads hat
  rw [hpc]
  cases s.child with
  | unborn => exact fun _ _ halone _ _ => (halone rfl).elim
  | «open» =>
    intro hfinds _ _ _ _
    rcases hfinds rfl with hparent | hparent | hparent
    · cases hparent
    · cases hparent
    · exact hparent.2.elim
  | waitWriter | printTime | read | received | close | closeErr =>
    exact fun _ _ _ _ hreads => absurd trivial hreads
  | unlinkErr => exact fun _ _ _ _ _ => trivial
  | exiting status => exact fun _ _ _ hat _ hstatus => htold _ (hat.1 hstatus)
  | ended how =>
    cases how with
    | exited status =>
      exact fun _ _ _ hat _ hstatus => htold _ (hat.1 (congrArg Status.exited hstatus))
    | killed => exact fun _ halive _ _ _ => absurd rfl halive

theorem Sound.parentStep (h : Sound mayFail tidy f s)
    (hcareful : Careful mayFail tidy (.parent ok) s)
    (hs : parentStep f capacity fifoName ok s = some s') : Sound mayFail tidy f s' := by
  have hinv := h.inv.parentStep hs
  obtain ⟨hopens, hunlinks⟩ := hcareful
  have hunnamed := h.inv.unnamed
  have hgone := h.parent_gone
  have hclosed := h.gaveUp_of_closed
  unfold FifoC.parentStep at hs
  revert hs hinv hopens hunlinks hunnamed hgone hclosed
  cases hpc : s.parent with
  | stat =>
    intro hs hinv _ _ hunnamed _ _
    have hname : s.name = none := hunnamed (.inl rfl)
    dsimp only at hs
    rw [if_neg fun hexists => hexists.2 hname] at hs
    obtain rfl := Option.some.inj hs
    exact h.parentEarly hinv (.inl rfl)
  | mkfifo =>
    intro hs hinv _ _ hunnamed _ _
    have hname : s.name = none := hunnamed (.inr (.inl rfl))
    dsimp only at hs
    split at hs
    · obtain rfl := Option.some.inj hs
      exact h.parentEarly hinv (.inr rfl)
    · obtain rfl := Option.some.inj hs
      exact h.parentBehind (by rw [hpc]; exact ⟨nofun, nofun⟩) hinv ⟨nofun, nofun⟩
        (fun _ => nofun) id nofun (fun _ _ => hname) id
  | fork =>
    intro hs hinv _ _ _ _ _
    dsimp only at hs
    split at hs
    · obtain rfl := Option.some.inj hs
      have hname : s.name = some .fifo := h.inv.named hpc
      exact
        { inv := hinv
          alive := nofun
          parent_finds := fun _ => .inl rfl
          child_finds := fun _ => .inl rfl
          parent_waits := fun _ => .inl rfl
          child_waits := fun _ => .inl rfl
          named := fun _ _ => hname
          broken := nofun
          parent_gone := fun _ => False.elim
          child_gone := fun _ => False.elim }
    · obtain rfl := Option.some.inj hs
      exact h.parentBehind (by rw [hpc]; exact ⟨nofun, nofun⟩) hinv ⟨nofun, nofun⟩
        (fun _ => trivial) id nofun (fun _ => False.elim) id
  | «open» =>
    intro hs hinv hopens _ _ _ _
    dsimp only at hs
    split at hs
    · obtain rfl := Option.some.inj hs
      apply h.parentMoves hinv nofun
      · exact fun _ => .inl rfl
      · exact fun hin => absurd hin (Finset.notMem_empty _)
      · intro hin
        rcases Fifo.mem_writersWaiting_arriveWrite.mp hin with hbefore | ⟨-, hempty⟩
        · exact h.parent_waits hbefore
        · rcases h.parent_finds hpc with hchild | hchild | hchild
          · exact .inl hchild
          · have hreader := h.inv.child_reads.mpr (hchild ▸ trivial)
            rw [hempty] at hreader
            exact absurd hreader (Finset.notMem_empty _)
          · exact .inr hchild
      · exact fun hfail hchild => h.named hfail (.inr hchild)
      · nofun
      · exact fun _ => False.elim
      · exact id
    · next hnot =>
      obtain rfl := Option.some.inj hs
      have hfail : mayFail := by
        by_contra hfail
        exact hnot ⟨(hopens rfl).resolve_right hfail, h.named hfail (.inl hpc)⟩
      apply h.parentMoves hinv nofun
      · exact fun _ => .inr ⟨hfail, trivial⟩
      · exact fun _ => ⟨hfail, trivial⟩
      · exact h.parent_waits
      · exact fun hnot => absurd hfail hnot
      · nofun
      · exact fun _ => False.elim
      · exact id
  | waitReader =>
    intro hs hinv _ _ _ _ _
    dsimp only at hs
    split at hs
    · cases hs
    · next hmet =>
      obtain rfl := Option.some.inj hs
      have hchild : s.child ≠ .open := fun hopen => hmet (h.inv.parent_waits hpc hopen)
      apply h.parentMoves hinv nofun
      · exact fun hopen => absurd hopen hchild
      · intro hin
        rcases h.child_waits hin with hparent | hparent
        · rw [hpc] at hparent
          cases hparent
        · rw [hpc] at hparent
          exact hparent.2.elim
      · exact fun hin => absurd hin hmet
      · exact fun _ hopen => absurd hopen hchild
      · nofun
      · exact fun _ => False.elim
      · exact id
  | write =>
    intro hs hinv _ _ _ _ hclosed
    dsimp only at hs
    split at hs
    · next hempty =>
      obtain rfl := Option.some.inj hs
      exact h.parentBehind (by rw [hpc]; exact ⟨nofun, nofun⟩) hinv ⟨nofun, nofun⟩
        (by rw [hpc]; exact False.elim) KeepsChild.leave.waiting (fun _ => hclosed rfl hempty)
        (fun _ => False.elim) id
    · split at hs
      · obtain ⟨p, -, rfl⟩ := Option.map_eq_some_iff.mp hs
        exact h.parentBehind (by rw [hpc]; exact ⟨nofun, nofun⟩) hinv ⟨nofun, nofun⟩
          (by rw [hpc]; exact False.elim) id nofun (fun _ => False.elim) id
      · obtain rfl := Option.some.inj hs
        exact h.parentBehind (by rw [hpc]; exact ⟨nofun, nofun⟩) hinv ⟨nofun, nofun⟩
          (by rw [hpc]; exact False.elim) id nofun (fun _ => False.elim) id
  | close =>
    intro hs hinv _ _ _ _ _
    dsimp only at hs
    split at hs
    all_goals
      obtain rfl := Option.some.inj hs
      exact h.parentBehind (by rw [hpc]; exact ⟨nofun, nofun⟩) hinv ⟨nofun, nofun⟩
        (by rw [hpc]; exact False.elim) id nofun (fun _ => False.elim) id
  | wait =>
    intro hs hinv _ _ _ _ _
    dsimp only at hs
    split at hs
    · obtain rfl := Option.some.inj hs
      exact h.parentBehind (by rw [hpc]; exact ⟨nofun, nofun⟩) hinv ⟨nofun, nofun⟩
        (by rw [hpc]; exact False.elim) id nofun (fun _ => False.elim) id
    · obtain rfl := Option.some.inj hs
      exact h.parentBehind (by rw [hpc]; exact ⟨nofun, nofun⟩) hinv ⟨nofun, nofun⟩
        (by rw [hpc]; exact False.elim) id nofun (fun _ => False.elim) id
    · cases hs
  | unlink =>
    intro hs hinv _ hunlinks _ _ _
    dsimp only at hs
    split at hs
    · obtain rfl := Option.some.inj hs
      exact h.parentBehind (by rw [hpc]; exact ⟨nofun, nofun⟩) hinv ⟨nofun, nofun⟩
        (by rw [hpc]; exact False.elim) id nofun (fun _ _ => rfl) fun _ => rfl
    · next hnot =>
      obtain rfl := Option.some.inj hs
      apply h.parentBehind (by rw [hpc]; exact ⟨nofun, nofun⟩) hinv ⟨nofun, nofun⟩
        (by rw [hpc]; exact False.elim) id nofun _ id
      intro htidy _
      by_contra hname
      exact hnot ⟨hunlinks htidy (.inl rfl), hname⟩
  | closeErr =>
    rintro ⟨⟩ hinv - - - - -
    exact h.parentBehind (by rw [hpc]; exact ⟨nofun, nofun⟩) hinv ⟨nofun, nofun⟩
      (fun _ => trivial) id nofun (fun _ => False.elim) id
  | unlinkErr =>
    rintro ⟨⟩ hinv - hunlinks - - -
    apply h.parentBehind (by rw [hpc]; exact ⟨nofun, nofun⟩) hinv ⟨nofun, nofun⟩
      (fun _ => nofun) id nofun
    · exact fun htidy _ => if_pos (hunlinks htidy (.inr rfl))
    · intro hname
      show (if ok then none else s.name) = none
      rw [hname, ite_self]
  | exiting status =>
    rintro ⟨⟩ hinv - - - hgone -
    exact h.parentBehind (by rw [hpc]; exact ⟨nofun, nofun⟩) hinv ⟨nofun, nofun⟩
      (by rw [hpc]; exact id) KeepsChild.leave.waiting nofun (fun htidy _ => hgone htidy trivial) id
  | ended how => nofun

/-- The child moves to a statement behind its `open`. -/
theorem Sound.childMoves {name : Option Node} {printed output : Bytes} {errors : List Bytes}
    (h : Sound mayFail tidy f s) (pc : ChildPc)
    (hinv : Inv f ⟨name, x, s.parent, pc, printed, output, errors⟩)
    (hopen : pc ≠ .open) (halive : pc ≠ .ended .killed)
    (hparent : s.parent = .open → pc = .waitWriter ∨ mayFail ∧ pc.GaveUp)
    (hwriters : Side.parent ∈ x.writersWaiting → mayFail ∧ pc.GaveUp)
    (hreaders : Side.child ∈ x.readersWaiting → s.parent = .open ∨ mayFail ∧ s.parent.GaveUp)
    (hname : ¬ mayFail → s.parent = .open → name = some .fifo)
    (hbroken : s.parent = .ended .killed → pc.GaveUp) (hgone : tidy → pc.Left → name = none)
    (hkeep : s.name = none → name = none) :
    Sound mayFail tidy f ⟨name, x, s.parent, pc, printed, output, errors⟩ where
  inv := hinv
  alive := halive
  parent_finds hpc := .inr (hparent hpc)
  child_finds hpc := absurd hpc hopen
  parent_waits hin := .inr (hwriters hin)
  child_waits := hreaders
  named hfail hpc := hname hfail (hpc.resolve_right hopen)
  broken := hbroken
  parent_gone htidy hleft := hkeep (h.parent_gone htidy hleft)
  child_gone := hgone

/-- The child moves on, and is not in `open`. -/
theorem Sound.childBehind {name : Option Node} {printed output : Bytes} {errors : List Bytes}
    (h : Sound mayFail tidy f s) (pc : ChildPc) (hpc : s.child ≠ .open ∧ s.child ≠ .waitWriter)
    (hinv : Inv f ⟨name, x, s.parent, pc, printed, output, errors⟩)
    (hopen : pc ≠ .open ∧ pc ≠ .waitWriter) (halive : pc ≠ .ended .killed)
    (hgave : s.child.GaveUp → pc.GaveUp)
    (hwriters : Side.parent ∈ x.writersWaiting → Side.parent ∈ s.fifo.writersWaiting)
    (hgone : tidy → pc.Left → name = none) (hkeep : s.name = none → name = none) :
    Sound mayFail tidy f ⟨name, x, s.parent, pc, printed, output, errors⟩ := by
  have hfinds : s.parent = .open → mayFail ∧ s.child.GaveUp := fun hparent =>
    ((h.parent_finds hparent).resolve_left hpc.1).resolve_left hpc.2
  apply h.childMoves pc hinv hopen.1 halive
  · exact fun hparent => .inr ⟨(hfinds hparent).1, hgave (hfinds hparent).2⟩
  · intro hin
    obtain ⟨hfail, hgaveUp⟩ := (h.parent_waits (hwriters hin)).resolve_left hpc.1
    exact ⟨hfail, hgave hgaveUp⟩
  · exact fun hin => absurd (hinv.child_waiting hin) hopen.2
  · exact fun hfail hparent => absurd (hfinds hparent).1 hfail
  · exact fun hended => hgave (h.broken hended)
  · exact hgone
  · exact hkeep

theorem Sound.childStep (h : Sound mayFail tidy f s)
    (hcareful : Careful mayFail tidy (.child ok) s)
    (hs : childStep f ok s = some s') : Sound mayFail tidy f s' := by
  have hinv := h.inv.childStep hs
  obtain ⟨hopens, hunlinks⟩ := hcareful
  have hgone := h.child_gone
  have hbroken := h.broken
  unfold FifoC.childStep at hs
  revert hs hinv hopens hunlinks hgone hbroken
  cases hpc : s.child with
  | unborn => nofun
  | «open» =>
    intro hs hinv hopens _ _ hbroken
    dsimp only at hs
    split at hs
    · obtain rfl := Option.some.inj hs
      apply h.childMoves .waitWriter hinv nofun nofun
      · exact fun _ => .inl rfl
      · exact fun hin => absurd hin (Finset.notMem_empty _)
      · intro hin
        rcases Fifo.mem_readersWaiting_arriveRead.mp hin with hbefore | ⟨-, hempty⟩
        · exact h.child_waits hbefore
        · rcases h.child_finds hpc with hparent | hparent | hparent
          · exact .inl hparent
          · have hwriter := h.inv.parent_writes.mpr (hparent ▸ trivial)
            rw [hempty] at hwriter
            exact absurd hwriter (Finset.notMem_empty _)
          · exact .inr hparent
      · exact fun hfail hparent => h.named hfail (.inl hparent)
      · exact hbroken
      · exact fun _ => False.elim
      · exact id
    · next hnot =>
      obtain rfl := Option.some.inj hs
      have hfail : mayFail := by
        by_contra hfail
        exact hnot ⟨(hopens rfl).resolve_right hfail, h.named hfail (.inr hpc)⟩
      apply h.childMoves .unlinkErr hinv nofun nofun
      · exact fun _ => .inr ⟨hfail, trivial⟩
      · exact fun _ => ⟨hfail, trivial⟩
      · exact h.child_waits
      · exact fun hnot => absurd hfail hnot
      · exact fun _ => trivial
      · exact fun _ => False.elim
      · exact id
  | waitWriter =>
    intro hs hinv _ _ _ hbroken
    dsimp only at hs
    split at hs
    · cases hs
    · next hmet =>
      obtain rfl := Option.some.inj hs
      have hparent : s.parent ≠ .open := fun hopen => hmet (h.inv.child_waits hpc hopen)
      apply h.childMoves .printTime hinv nofun nofun
      · exact fun hopen => absurd hopen hparent
      · intro hin
        rcases h.parent_waits hin with hchild | hchild
        · rw [hpc] at hchild
          cases hchild
        · rw [hpc] at hchild
          exact hchild.2.elim
      · exact fun hin => absurd hin hmet
      · exact fun _ hopen => absurd hopen hparent
      · exact hbroken
      · exact fun _ => False.elim
      · exact id
  | printTime =>
    rintro ⟨⟩ hinv - - - -
    exact h.childBehind _ (by rw [hpc]; exact ⟨nofun, nofun⟩) hinv ⟨nofun, nofun⟩ nofun
      (by rw [hpc]; exact False.elim) id (fun _ => False.elim) id
  | read =>
    intro hs hinv _ _ _ _
    cases ok with
    | true =>
      obtain ⟨⟨bytes, p⟩, -, rfl⟩ := Option.map_eq_some_iff.mp hs
      revert hinv
      dsimp only
      split
      · exact fun hinv => h.childBehind _ (by rw [hpc]; exact ⟨nofun, nofun⟩) hinv
          ⟨nofun, nofun⟩ nofun (by rw [hpc]; exact False.elim) id (fun _ => False.elim) id
      · exact fun hinv => h.childBehind _ (by rw [hpc]; exact ⟨nofun, nofun⟩) hinv
          ⟨nofun, nofun⟩ nofun (by rw [hpc]; exact False.elim) id (fun _ => False.elim) id
    | false =>
      obtain rfl := Option.some.inj hs
      exact h.childBehind _ (by rw [hpc]; exact ⟨nofun, nofun⟩) hinv ⟨nofun, nofun⟩ nofun
        (by rw [hpc]; exact False.elim) id (fun _ => False.elim) id
  | received bytes =>
    rintro ⟨⟩ hinv - - - -
    exact h.childBehind _ (by rw [hpc]; exact ⟨nofun, nofun⟩) hinv ⟨nofun, nofun⟩ nofun
      (by rw [hpc]; exact False.elim) id (fun _ => False.elim) id
  | close =>
    intro hs hinv _ _ _ _
    dsimp only at hs
    split at hs
    · obtain rfl := Option.some.inj hs
      exact h.childBehind (.exiting 0) (by rw [hpc]; exact ⟨nofun, nofun⟩) hinv ⟨nofun, nofun⟩
        nofun (by rw [hpc]; exact False.elim) id (fun _ hleft => absurd rfl hleft) id
    · obtain rfl := Option.some.inj hs
      exact h.childBehind .unlinkErr (by rw [hpc]; exact ⟨nofun, nofun⟩) hinv ⟨nofun, nofun⟩
        nofun (by rw [hpc]; exact False.elim) id (fun _ => False.elim) id
  | closeErr =>
    rintro ⟨⟩ hinv - - - -
    exact h.childBehind _ (by rw [hpc]; exact ⟨nofun, nofun⟩) hinv ⟨nofun, nofun⟩ nofun
      (fun _ => trivial) id (fun _ => False.elim) id
  | unlinkErr =>
    rintro ⟨⟩ hinv - hunlinks - -
    apply h.childBehind (.exiting 1) (by rw [hpc]; exact ⟨nofun, nofun⟩) hinv ⟨nofun, nofun⟩
      nofun (fun _ => nofun) id
    · exact fun htidy _ => if_pos (hunlinks htidy rfl)
    · intro hname
      show (if ok then none else s.name) = none
      rw [hname, ite_self]
  | exiting status =>
    rintro ⟨⟩ hinv - - hgone -
    exact h.childBehind (.ended (.exited status)) (by rw [hpc]; exact ⟨nofun, nofun⟩) hinv
      ⟨nofun, nofun⟩ nofun (by rw [hpc]; exact id) KeepsParent.leave.waiting
      (fun htidy hleft => hgone htidy hleft) id
  | ended how => rintro ⟨⟩

theorem sound_of_reachesWhen
    (h : ReachesWhen (Careful mayFail tidy) (step f capacity fifoName) (start none) s) :
    Sound mayFail tidy f s := by
  apply h.invariant sound_start
  intro a s s' hs hcareful ha
  cases a with
  | parent ok => exact hs.parentStep hcareful ha
  | child ok => exact hs.childStep hcareful ha
  | kill side => exact hcareful.elim

-- ---------------------------------------------------------------------------
-- Runs that hang
-- ---------------------------------------------------------------------------

/-- Both processes have ended, as far as there are two. -/
structure Over (s : State) : Prop where
  parent : ∃ how, s.parent = .ended how
  child : s.child = .unborn ∨ ∃ how, s.child = .ended how

/-- No process can go on, not even if its next system call succeeds. -/
structure Stuck (f : Facts) (capacity : Nat) (fifoName : Bytes) (s : State) : Prop where
  parent : step f capacity fifoName (.parent true) s = none
  child : step f capacity fifoName (.child true) s = none

/-- Where a child cannot go on. -/
theorem Inv.child_of_stuck (h : Inv f s) (hstuck : Stuck f capacity fifoName s) :
    (s.child = .unborn ∨ ∃ how, s.child = .ended how) ∨ Side.child ∈ s.fifo.readersWaiting ∨
      s.child = .read ∧ s.parent.HoldsWrite := by
  have hnone : FifoC.childStep f true s = none := hstuck.child
  unfold FifoC.childStep at hnone
  revert hnone
  cases hpc : s.child with
  | unborn => exact fun _ => .inl (.inl rfl)
  | «open» =>
    intro hnone
    dsimp only at hnone
    split at hnone
    · cases hnone
    · cases hnone
  | waitWriter =>
    intro hnone
    dsimp only at hnone
    split at hnone
    · next hwaits => exact .inr (.inl hwaits)
    · cases hnone
  | read =>
    intro hnone
    obtain ⟨-, hopen⟩ := Pipe.read_eq_none (Option.map_eq_none_iff.mp hnone)
    obtain ⟨side, hside⟩ := Finset.nonempty_iff_ne_empty.mpr hopen
    cases side with
    | parent => exact .inr (.inr ⟨rfl, h.parent_writes.mp hside⟩)
    | child => exact absurd hside h.child_writes
  | close =>
    intro hnone
    cases hnone
  | ended how => exact fun _ => .inl (.inr ⟨how, rfl⟩)
  | _ => nofun

/-- Where the parent cannot go on. -/
theorem Inv.parent_of_stuck (hcapacity : bufferSize ≤ capacity) (h : Inv f s)
    (hstuck : Stuck f capacity fifoName s) :
    (∃ how, s.parent = .ended how) ∨ Side.parent ∈ s.fifo.writersWaiting ∨
      s.parent = .wait ∧ s.child ≠ .unborn ∧ ∀ how, s.child ≠ .ended how := by
  have hnone : FifoC.parentStep f capacity fifoName true s = none := hstuck.parent
  unfold FifoC.parentStep at hnone
  revert hnone
  cases hpc : s.parent with
  | stat | mkfifo | «open» | unlink =>
    intro hnone
    dsimp only at hnone
    split at hnone
    · cases hnone
    · cases hnone
  | waitReader =>
    intro hnone
    dsimp only at hnone
    split at hnone
    · next hwaits => exact .inr (.inl hwaits)
    · cases hnone
  | write =>
    intro hnone
    dsimp only at hnone
    split at hnone
    · cases hnone
    · -- nothing is in the pipe yet, so that there is room
      have hroom : s.fifo.pipe.content.length + (message f).length ≤ capacity := by
        have hlength := length_message_lt (f := f)
        rw [Pipe.content, h.unwritten (hpc ▸ trivial), List.drop_nil, List.length_nil]
        unfold bufferSize at hlength hcapacity
        omega
      rw [if_pos rfl, Pipe.write, if_pos hroom] at hnone
      cases hnone
  | wait =>
    intro hnone
    dsimp only at hnone
    split at hnone
    · cases hnone
    · cases hnone
    · next hborn hended => exact .inr (.inr ⟨rfl, hborn, hended⟩)
  | ended how => exact fun _ => .inl ⟨how, rfl⟩
  | _ => rintro ⟨⟩

/-- A program that hangs is one process in `open`, and the other one has failed. -/
theorem Sound.over_or_hangs (hcapacity : bufferSize ≤ capacity) (h : Sound mayFail tidy f s)
    (hstuck : Stuck f capacity fifoName s) :
    Over s ∨ mayFail ∧ (s.child.GaveUp ∨ s.parent.GaveUp) := by
  rcases h.inv.parent_of_stuck hcapacity hstuck with hended | hwaits | ⟨hwait, hborn, hlives⟩
  · rcases h.inv.child_of_stuck hstuck with hover | hwaits | ⟨-, hholds⟩
    · exact .inl ⟨hended, hover⟩
    · rcases h.child_waits hwaits with hopen | hgave
      · obtain ⟨how, hparent⟩ := hended
        rw [hparent] at hopen
        cases hopen
      · exact .inr ⟨hgave.1, .inr hgave.2⟩
    · obtain ⟨how, hparent⟩ := hended
      rw [hparent] at hholds
      exact hholds.elim
  · rcases h.parent_waits hwaits with hopen | hgave
    · rcases h.inv.child_of_stuck hstuck with (hchild | ⟨how, hchild⟩) | hin | ⟨hchild, -⟩
      · rw [hopen] at hchild
        cases hchild
      · rw [hopen] at hchild
        cases hchild
      · have hchild := h.inv.child_waiting hin
        rw [hopen] at hchild
        cases hchild
      · rw [hopen] at hchild
        cases hchild
    · exact .inr ⟨hgave.1, .inl hgave.2⟩
  · rcases h.inv.child_of_stuck hstuck with hover | hin | ⟨-, hholds⟩
    · rcases hover with hchild | ⟨how, hchild⟩
      · exact absurd hchild hborn
      · exact absurd hchild (hlives how)
    · rcases h.child_waits hin with hopen | hgave
      · rw [hwait] at hopen
        cases hopen
      · rw [hwait] at hgave
        exact hgave.2.elim
    · rw [hwait] at hholds
      exact hholds.elim

/-- Only the processes of which `openFails` fail to open the pipe, and only those of which
`kills` are killed. -/
def Allowed (openFails kills : Side → Prop) : Action → State → Prop
  | .parent ok, s => s.parent = .open → ok = true ∨ openFails .parent
  | .child ok, s => s.child = .open → ok = true ∨ openFails .child
  | .kill side, _ => kills side

/-- The process waits in `open`, and the other one has ended. -/
def Hung (s : State) : Side → Prop
  | .parent => s.parent = .waitReader ∧ Side.parent ∈ s.fifo.writersWaiting ∧
      ∃ how, s.child = .ended how
  | .child => s.child = .waitWriter ∧ Side.child ∈ s.fifo.readersWaiting ∧
      ∃ how, s.parent = .ended how

theorem Hung.stuck (h : Hung s side) : Stuck f capacity fifoName s := by
  cases side with
  | parent =>
    obtain ⟨hparent, hwaits, how, hchild⟩ := h
    constructor
    · show parentStep f capacity fifoName true s = none
      rw [parentStep, hparent]
      exact if_pos hwaits
    · show childStep f true s = none
      rw [childStep, hchild]
  | child =>
    obtain ⟨hchild, hwaits, how, hparent⟩ := h
    constructor
    · show parentStep f capacity fifoName true s = none
      rw [parentStep, hparent]
    · show childStep f true s = none
      rw [childStep, hchild]
      exact if_pos hwaits

theorem Hung.not_over (h : Hung s side) : ¬ Over s := by
  intro hover
  cases side with
  | parent =>
    obtain ⟨how, hended⟩ := hover.parent
    rw [h.1] at hended
    cases hended
  | child =>
    rcases hover.child with hended | ⟨how, hended⟩
    · rw [h.1] at hended
      cases hended
    · rw [h.1] at hended
      cases hended

/-- One process comes to wait in its `open`. -/
def untilWaiting : Side → List Action
  | .parent => List.replicate 4 (.parent true)
  | .child => List.replicate 3 (.parent true) ++ [.child true]

/-- The other process fails in its `open`, and exits. -/
def failing : Side → List Action
  | .parent => .parent false :: List.replicate 2 (.parent true)
  | .child => .child false :: List.replicate 2 (.child true)

theorem hung_of_fails (side : Side) : ∃ s,
    steps (step f capacity fifoName) (untilWaiting side.other ++ failing side) (start none) =
      some s ∧ Hung s side.other := by
  cases side with
  | parent =>
    refine ⟨_, rfl, rfl, ?_, _, rfl⟩
    show Side.child ∈ (insert Side.child ∅ : Finset Side).erase .parent
    decide
  | child =>
    refine ⟨_, rfl, rfl, ?_, _, rfl⟩
    show Side.parent ∈ (insert Side.parent ∅ : Finset Side).erase .child
    decide

theorem hung_of_kill (side : Side) : ∃ s,
    steps (step f capacity fifoName) (untilWaiting side.other ++ [.kill side]) (start none) =
      some s ∧ Hung s side.other := by
  cases side with
  | parent =>
    refine ⟨_, rfl, rfl, ?_, _, rfl⟩
    show Side.child ∈ (insert Side.child ∅ : Finset Side).erase .parent
    decide
  | child =>
    refine ⟨_, rfl, rfl, ?_, _, rfl⟩
    show Side.parent ∈ (insert Side.parent ∅ : Finset Side).erase .child
    decide

theorem allowed_untilWaiting {openFails kills : Side → Prop} {a : Action}
    (h : a ∈ untilWaiting side) (s : State) : Allowed openFails kills a s := by
  cases side with
  | parent =>
    obtain rfl := List.eq_of_mem_replicate h
    exact fun _ => .inl rfl
  | child =>
    rcases List.mem_append.mp h with hparent | hchild
    · obtain rfl := List.eq_of_mem_replicate hparent
      exact fun _ => .inl rfl
    · obtain rfl := List.mem_singleton.mp hchild
      exact fun _ => .inl rfl

theorem allowed_failing {openFails kills : Side → Prop} (hfails : openFails side) {a : Action}
    (h : a ∈ failing side) (s : State) : Allowed openFails kills a s := by
  cases side with
  | parent =>
    rcases List.mem_cons.mp h with rfl | hrest
    · exact fun _ => .inr hfails
    · obtain rfl := List.eq_of_mem_replicate hrest
      exact fun _ => .inl rfl
  | child =>
    rcases List.mem_cons.mp h with rfl | hrest
    · exact fun _ => .inr hfails
    · obtain rfl := List.eq_of_mem_replicate hrest
      exact fun _ => .inl rfl

/-- **When the program hangs**: some run gets stuck before both processes have ended exactly if
one of the two may fail to open the pipe or may be killed. No other failure makes it hang. -/
theorem never_hangs_iff (f : Facts) (capacity : Nat) (fifoName : Bytes)
    (hcapacity : bufferSize ≤ capacity) (openFails kills : Side → Prop) :
    (∀ s, ReachesWhen (Allowed openFails kills) (step f capacity fifoName) (start none) s →
      Stuck f capacity fifoName s → Over s) ↔ ∀ side, ¬ openFails side ∧ ¬ kills side := by
  constructor
  · intro hover side
    have hreach : ∀ as s, (∀ a ∈ as, ∀ s, Allowed openFails kills a s) →
        steps (step f capacity fifoName) as (start none) = some s → ¬ Hung s side.other := by
      intro as s has hs hhung
      exact hhung.not_over (hover s (.of_steps .refl has hs) hhung.stuck)
    refine ⟨fun hfails => ?_, fun hkills => ?_⟩
    · obtain ⟨s, hs, hhung⟩ := hung_of_fails side
      refine hreach _ s (fun a ha => ?_) hs hhung
      rcases List.mem_append.mp ha with ha | ha
      · exact allowed_untilWaiting ha
      · exact allowed_failing hfails ha
    · obtain ⟨s, hs, hhung⟩ := hung_of_kill side
      refine hreach _ s (fun a ha => ?_) hs hhung
      rcases List.mem_append.mp ha with ha | ha
      · exact allowed_untilWaiting ha
      · obtain rfl := List.mem_singleton.mp ha
        exact fun _ => hkills
  · intro hnone s hs hstuck
    have hcareful :
        ReachesWhen (Careful False False) (step f capacity fifoName) (start none) s := by
      apply hs.mono
      intro a s ha
      cases a with
      | parent ok => exact ⟨fun hpc => .inl ((ha hpc).resolve_right (hnone _).1), False.elim⟩
      | child ok => exact ⟨fun hpc => .inl ((ha hpc).resolve_right (hnone _).1), False.elim⟩
      | kill side => exact (hnone side).2 ha
    exact ((sound_of_reachesWhen hcareful).over_or_hangs hcapacity hstuck).resolve_right
      fun hfail => hfail.1

theorem epoch_never_hangs : bufferSize ≤ 65536 ∧ ∀ s,
    ReachesWhen (Allowed (fun _ => False) fun _ => False) (step epoch 65536 (ascii "fifo"))
      (start none) s → Stuck epoch 65536 (ascii "fifo") s → Over s := by
  have hcapacity : bufferSize ≤ 65536 := by decide
  exact ⟨hcapacity, (never_hangs_iff epoch 65536 (ascii "fifo") hcapacity (fun _ => False)
    fun _ => False).mpr fun _ => ⟨id, id⟩⟩

-- ---------------------------------------------------------------------------
-- The message and the name
-- ---------------------------------------------------------------------------

/-- A program that ends or hangs has removed the name of its pipe. -/
theorem Sound.unnamed_of_stuck (hcapacity : bufferSize ≤ capacity) (htidy : tidy)
    (h : Sound mayFail tidy f s) (hstuck : Stuck f capacity fifoName s) : s.name = none := by
  -- a child that has failed has exited, or waits in `open`
  have hchild : s.child.GaveUp → s.name = none := by
    intro hgave
    apply h.child_gone htidy
    rcases h.inv.child_of_stuck hstuck with (hchild | ⟨how, hchild⟩) | hin | ⟨hchild, -⟩
    · rw [hchild] at hgave
      exact hgave.elim
    · rw [hchild] at hgave ⊢
      cases how with
      | exited status => exact hgave
      | killed => exact hgave.elim
    · have hchild := h.inv.child_waiting hin
      rw [hchild] at hgave
      exact hgave.elim
    · rw [hchild] at hgave
      exact hgave.elim
  have hparent : (∃ how, s.parent = .ended how) → s.name = none := by
    rintro ⟨how, hpc⟩
    cases how with
    | exited status => exact h.parent_gone htidy (by rw [hpc]; trivial)
    | killed => exact hchild (h.broken hpc)
  rcases h.over_or_hangs hcapacity hstuck with hover | ⟨-, hgave | hgave⟩
  · exact hparent hover.parent
  · exact hchild hgave
  · rcases h.inv.parent_of_stuck hcapacity hstuck with hended | hin | ⟨hpc, -⟩
    · exact hparent hended
    · have hpc := h.inv.parent_waiting hin
      rw [hpc] at hgave
      exact hgave.elim
    · rw [hpc] at hgave
      exact hgave.elim

/-- The parent finds a file of that name, and exits. -/
structure Refused (node : Node) (s : State) : Prop where
  name : s.name = some node
  child : s.child = .unborn
  output : s.output = []
  parent : s.parent = .stat ∨ s.parent = .mkfifo ∨ s.parent = .exiting 1 ∨
    ∃ how, s.parent = .ended how

theorem Refused.step {node : Node} {a : Action} (h : Refused node s)
    (hs : step f capacity fifoName a s = some s') : Refused node s' := by
  cases a with
  | parent ok =>
    have hstep : parentStep f capacity fifoName ok s = some s' := hs
    rcases h.parent with hpc | hpc | hpc | ⟨how, hpc⟩
    · rw [parentStep, hpc] at hstep
      dsimp only at hstep
      split at hstep
      · obtain rfl := Option.some.inj hstep
        exact ⟨h.name, h.child, h.output, .inr (.inr (.inl rfl))⟩
      · obtain rfl := Option.some.inj hstep
        exact ⟨h.name, h.child, h.output, .inr (.inl rfl)⟩
    · rw [parentStep, hpc] at hstep
      dsimp only at hstep
      rw [if_neg fun hfree => Option.some_ne_none node (h.name.symm.trans hfree.2)] at hstep
      obtain rfl := Option.some.inj hstep
      exact ⟨h.name, h.child, h.output, .inr (.inr (.inl rfl))⟩
    · rw [parentStep, hpc] at hstep
      obtain rfl := Option.some.inj hstep
      exact ⟨h.name, h.child, h.output, .inr (.inr (.inr ⟨_, rfl⟩))⟩
    · rw [parentStep, hpc] at hstep
      cases hstep
  | child ok =>
    have hstep : childStep f ok s = some s' := hs
    rw [childStep, h.child] at hstep
    cases hstep
  | kill side =>
    have hstep : kill side s = some s' := hs
    unfold kill at hstep
    cases side with
    | parent =>
      dsimp only at hstep
      split at hstep
      · cases hstep
      · obtain rfl := Option.some.inj hstep
        exact ⟨h.name, h.child, h.output, .inr (.inr (.inr ⟨_, rfl⟩))⟩
    | child =>
      rw [h.child] at hstep
      cases hstep

/-- **The named pipe delivers the message whole or not at all**, whatever fails and whoever is
killed: every run ends, the child has printed all of the message or nothing of it, and if both
processes succeed it is all of it and the name is gone. The name is gone too whenever nobody is
killed and `unlink` succeeds, even if the program hangs; a file that has the name already is left
alone. -/
theorem fifo_delivers (f : Facts) (capacity : Nat) (fifoName : Bytes)
    (hcapacity : bufferSize ≤ capacity) :
    (∀ name, IsEmpty (Run (step f capacity fifoName) (start name))) ∧
    (∀ s, Reaches (step f capacity fifoName) (start none) s →
      (s.output = [] ∨ s.output = timeLine f ∨
        s.output = timeLine f ++ (ascii "Received from parent: " ++ text f)) ∧
      (s.parent = .ended (.exited 0) → s.child = .ended (.exited 0) →
        s.output = timeLine f ++ (ascii "Received from parent: " ++ text f) ∧ s.name = none)) ∧
    (∀ s, ReachesWhen (Careful True True) (step f capacity fifoName) (start none) s →
      Stuck f capacity fifoName s → s.name = none) ∧
    ∀ node s, Reaches (step f capacity fifoName) (start (some node)) s →
      s.name = some node ∧ s.child = .unborn ∧ s.output = [] := by
  rw [← receivedLine_message]
  refine ⟨fun name => ⟨no_run⟩, fun s hs => ⟨(inv_of_reaches hs).child.whole, ?_⟩,
    fun s hs => (sound_of_reachesWhen hs).unnamed_of_stuck hcapacity trivial, fun node s hs => ?_⟩
  · intro hparent hchild
    have hinv := inv_of_reaches hs
    have hat := hinv.child
    rw [hchild] at hat
    refine ⟨?_, hinv.unnamed (.inr (.inr (.inr hparent)))⟩
    rcases hat.1 rfl with htold | ⟨-, hfailed⟩
    · exact htold.1
    · rw [hparent] at hfailed
      exact absurd rfl hfailed
  · have hrefused : Refused node s :=
      hs.invariant ⟨rfl, rfl, rfl, .inl rfl⟩ fun _ _ _ h ha => h.step ha
    exact ⟨hrefused.name, hrefused.child, hrefused.output⟩

/-- The child opens the pipe first, and the parent writes before the child reads. -/
def oneExchange : List Action :=
  List.replicate 3 (.parent true) ++ [.child true] ++ List.replicate 4 (.parent true) ++
    List.replicate 6 (.child true) ++ List.replicate 3 (.parent true)

theorem epoch_through_fifo : ∃ s, Reaches (step epoch 65536 (ascii "fifo")) (start none) s ∧
    s.output = timeLine epoch ++ (ascii "Received from parent: " ++ text epoch) ∧
    s.name = none := by
  have hrun : (steps (step epoch 65536 (ascii "fifo")) oneExchange (start none)).map
      (fun s => (s.parent, s.child)) = some (.ended (.exited 0), .ended (.exited 0)) := by
    decide +kernel
  obtain ⟨s, hs, hobs⟩ := exists_reaches_of_map hrun
  obtain ⟨hparent, hchild⟩ := Prod.mk.inj hobs
  exact ⟨s, hs, ((fifo_delivers epoch 65536 (ascii "fifo") (by decide)).2.1 s hs).2 hparent hchild⟩

end LabsOS.PipeFifo.FifoC
