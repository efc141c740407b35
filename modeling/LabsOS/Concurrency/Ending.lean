import LabsOS.Concurrency.Fairness
import LabsOS.Concurrency.Launch

/-!
# How launched threads end

The process of a `Launch` ends when main returns, whatever its threads do then. Main has a
bounded number of steps, so that a run of the process that does not end either starves main or
is in the end a run of the threads, all of them created and none asked to terminate
(`Launch.threads_run`). A process that cannot go on has ended (`Launch.done_of_stuck`).
-/

namespace LabsOS.Launch

variable {T S : Type} [DecidableEq T] {l : Launch T S} {s s' : Process T S} {t : T}

/-- The process goes on until main returns. -/
def live (l : Launch T S) (a : Action T) (s : Process T S) : Option (Process T S) :=
  if s.main = .done then none else l.next a s

theorem live_eq_some {a : Action T} (h : l.live a s = some s') :
    s.main ≠ .done ∧ l.next a s = some s' := by
  rw [live] at h
  split at h
  · cases h
  · next hmain => exact ⟨hmain, h⟩

/-- The threads take steps of their own. -/
theorem threads_reach_of_live (h : Reaches l.live l.boot s) :
    Reaches l.step l.start s.threads := by
  apply threads_reach
  induction h with
  | refl => exact .refl
  | step a _ ha ih => exact ih.step a (live_eq_some ha).2

-- ---------------------------------------------------------------------------
-- While main does not give up
-- ---------------------------------------------------------------------------

/-- What main knows while it creates the threads and while it waits for them. -/
def Waits (l : Launch T S) (s : Process T S) : MainPc T → Prop
  | .create rest => s.created ++ rest = l.order ∧ s.cancelled = [] ∧ s.dead = []
  | .join rest => s.created = l.order ∧ s.cancelled = [] ∧ s.dead = [] ∧
      ∀ t ∈ l.joins, t ∈ rest ∨ l.finished t s.threads = true
  | _ => True

theorem Waits.mainNext {ok : Bool} (h : l.Waits s s.main) (hstep : l.mainNext ok s = some s') :
    l.Waits s' s'.main := by
  cases mainStep_of_mainNext hstep with
  | created hmain =>
    rw [hmain] at h
    obtain ⟨horder, hcancelled, hdead⟩ := h
    rw [List.append_nil] at horder
    exact ⟨horder, hcancelled, hdead, fun t ht => .inl ht⟩
  | create hmain =>
    rw [hmain] at h
    obtain ⟨horder, hcancelled, hdead⟩ := h
    refine ⟨?_, hcancelled, hdead⟩
    show s.created ++ [_] ++ _ = l.order
    rw [List.append_assoc]
    exact horder
  | giveUp | cancelled | cancel | joined | destroy => trivial
  | @join ok t rest hmain ht =>
    rw [hmain] at h
    obtain ⟨horder, hcancelled, hdead, hall⟩ := h
    refine ⟨horder, hcancelled, hdead, fun u hu => ?_⟩
    have hfinished : l.finished t s.threads = true := by
      rcases ht with ht | ht
      · rw [hdead] at ht
        cases ht
      · exact ht
    rcases hall u hu with hu | hu
    · rcases List.mem_cons.mp hu with rfl | hu
      · exact .inr hfinished
      · exact .inl hu
    · exact .inr hu

theorem Waits.next {a : Action T} (hstable : l.Stable) (h : l.Waits s s.main)
    (ha : l.next a s = some s') : l.Waits s' s'.main := by
  cases a with
  | main ok => exact h.mainNext ha
  | run t =>
    obtain ⟨-, -, threads, hstep, rfl⟩ := run_eq_some ha
    revert h
    show l.Waits s s.main → l.Waits _ s.main
    cases s.main with
    | create rest => exact id
    | join rest =>
      rintro ⟨horder, hcancelled, hdead, hall⟩
      refine ⟨horder, hcancelled, hdead, fun u hu => ?_⟩
      exact (hall u hu).imp_right fun hu => hstable u t _ _ hu hstep
    | cancel | destroy | done => exact id
  | die t =>
    obtain ⟨ht, rfl⟩ := die_eq_some ha
    revert h
    show l.Waits s s.main → l.Waits _ s.main
    cases s.main with
    | create rest =>
      rintro ⟨-, hcancelled, -⟩
      rw [hcancelled] at ht
      cases ht
    | join rest =>
      rintro ⟨-, hcancelled, -⟩
      rw [hcancelled] at ht
      cases ht
    | cancel | destroy | done => exact id

theorem waits_of_reaches (hstable : l.Stable) (h : Reaches l.live l.boot s) :
    l.Waits s s.main :=
  h.invariant (I := fun s => l.Waits s s.main) ⟨rfl, rfl, rfl⟩
    fun _ _ _ hs ha => hs.next hstable (live_eq_some ha).2

/-- When main has waited for all threads, they have all finished. -/
theorem finished_of_joined (hstable : l.Stable) (h : Reaches l.live l.boot s)
    (hmain : s.main = .join []) (ht : t ∈ l.joins) : l.finished t s.threads = true := by
  have hwaits := waits_of_reaches hstable h
  rw [hmain] at hwaits
  obtain ⟨-, -, -, hall⟩ := hwaits
  exact (hall t ht).resolve_left List.not_mem_nil

-- ---------------------------------------------------------------------------
-- Runs that do not end
-- ---------------------------------------------------------------------------

/-- The steps that main has left. -/
def mainLeft (l : Launch T S) (s : Process T S) : Nat :=
  match s.main with
  | .create rest => 2 * rest.length + s.created.length + l.joins.length + 6
  | .cancel rest => rest.length + 3
  | .join rest => rest.length + 3
  | .destroy => 1
  | .done => 0

theorem mainNext_mainLeft_lt {ok : Bool} (h : l.mainNext ok s = some s') :
    l.mainLeft s' < l.mainLeft s := by
  cases mainStep_of_mainNext h with
  | created hmain =>
    rw [mainLeft, mainLeft, hmain]
    show l.joins.length + 3 < 2 * 0 + s.created.length + l.joins.length + 6
    omega
  | @create t rest hmain =>
    rw [mainLeft, mainLeft, hmain]
    show 2 * rest.length + (s.created ++ [t]).length + l.joins.length + 6 <
      2 * (rest.length + 1) + s.created.length + l.joins.length + 6
    rw [List.length_append, List.length_singleton]
    omega
  | @giveUp t rest hmain =>
    have hle : (if l.cancels then s.created else []).length ≤ s.created.length := by
      split
      · exact le_rfl
      · exact Nat.zero_le _
    rw [mainLeft, mainLeft, hmain]
    show (if l.cancels then s.created else []).length + 3 <
      2 * (rest.length + 1) + s.created.length + l.joins.length + 6
    omega
  | cancelled hmain =>
    rw [mainLeft, mainLeft, hmain]
    show 1 < 0 + 3
    omega
  | @cancel ok t rest hmain =>
    rw [mainLeft, mainLeft, hmain]
    show rest.length + 3 < rest.length + 1 + 3
    omega
  | joined hmain =>
    rw [mainLeft, mainLeft, hmain]
    show 1 < 0 + 3
    omega
  | @join ok t rest hmain ht =>
    rw [mainLeft, mainLeft, hmain]
    show rest.length + 3 < rest.length + 1 + 3
    omega
  | destroy hmain =>
    rw [mainLeft, mainLeft, hmain]
    show 0 < 1
    omega

/-- A step of main. -/
def OfMain : Action T → Prop
  | .main _ => True
  | _ => False

/-- The steps of the threads leave main where it is. -/
theorem next_main {a : Action T} (h : l.next a s = some s') (ha : ¬ OfMain a) :
    s'.main = s.main ∧ l.mainLeft s' = l.mainLeft s := by
  cases a with
  | main ok => exact absurd trivial ha
  | run t =>
    obtain ⟨-, -, threads, -, rfl⟩ := run_eq_some h
    exact ⟨rfl, rfl⟩
  | die t =>
    obtain ⟨-, rfl⟩ := die_eq_some h
    exact ⟨rfl, rfl⟩

variable (r : Run l.live l.boot)

theorem exists_forall_not_main : ∃ n, ∀ m, n ≤ m → ¬ OfMain (r.act m) := by
  have hstep : ∀ m, l.next (r.act m) (r.state m) = some (r.state (m + 1)) :=
    fun m => (live_eq_some (r.step_eq m)).2
  apply r.exists_forall_not l.mainLeft
  · intro m
    by_cases hmain : OfMain (r.act m)
    · cases hact : r.act m with
      | main ok => exact (mainNext_mainLeft_lt (hact ▸ hstep m)).le
      | run t | die t =>
        rw [hact] at hmain
        exact hmain.elim
    · exact (next_main (hstep m) hmain).2.le
  · intro m hmain
    cases hact : r.act m with
    | main ok => exact mainNext_mainLeft_lt (hact ▸ hstep m)
    | run t | die t =>
      rw [hact] at hmain
      exact hmain.elim

theorem canTake_of_main (hmain : ∀ t rest, s.main ≠ .join (t :: rest)) (hdone : s.main ≠ .done) :
    CanTake l.live OfMain s := by
  refine ⟨.main true, trivial, ?_⟩
  rw [live, if_neg hdone]
  show (l.mainNext true s).isSome
  rw [mainNext]
  cases hpc : s.main with
  | create rest => cases rest <;> rfl
  | cancel rest => cases rest <;> rfl
  | join rest =>
    cases rest with
    | nil => rfl
    | cons t rest => exact absurd hpc (hmain t rest)
  | destroy => rfl
  | done => exact absurd hpc hdone

/-- **A process that does not end** starves main, or is in the end a run of its threads. -/
theorem threads_run (hstable : l.Stable) (horder : ∀ t, t ∈ l.order) (hmain : ¬ r.Starves OfMain) :
    ∃ x, Reaches l.step l.start x ∧ ∃ r' : Run l.step x, ∀ P : T → Prop, r'.Starves P →
      r.Starves fun a => ∃ t, P t ∧ a = .run t := by
  obtain ⟨n, hidle⟩ := exists_forall_not_main r
  have hnext : ∀ m, l.next (r.act m) (r.state m) = some (r.state (m + 1)) :=
    fun m => (live_eq_some (r.step_eq m)).2
  have hpc : ∀ m, n ≤ m → (r.state m).main = (r.state n).main := by
    intro m hm
    apply r.invariant_of_le (I := fun s => s.main = (r.state n).main) hm rfl
    intro k hk hI
    exact (next_main (hnext k) (hidle k hk)).1.trans hI
  -- main waits for some thread
  obtain ⟨t, rest, hjoin⟩ : ∃ t rest, (r.state n).main = .join (t :: rest) := by
    by_contra hnot
    push Not at hnot
    apply hmain
    refine ⟨⟨n, hidle⟩, fun k => ⟨max k n, le_max_left k n, ?_⟩⟩
    apply canTake_of_main
    · rw [hpc _ (le_max_right k n)]
      exact hnot
    · exact (live_eq_some (r.step_eq _)).1
  have hwaits : ∀ m, n ≤ m → (r.state m).created = l.order ∧ (r.state m).cancelled = [] ∧
      (r.state m).dead = [] := by
    intro m hm
    have hw := waits_of_reaches hstable (r.reaches m)
    rw [hpc m hm, hjoin] at hw
    exact ⟨hw.1, hw.2.1, hw.2.2.1⟩
  have hrun : ∀ m, n ≤ m → ∃ t, r.act m = .run t := by
    intro m hm
    cases hact : r.act m with
    | main ok => exact absurd (hact ▸ trivial) (hidle m hm)
    | run t => exact ⟨t, rfl⟩
    | die t =>
      obtain ⟨ht, -⟩ := die_eq_some (hact ▸ hnext m)
      rw [(hwaits m hm).2.1] at ht
      cases ht
  choose act hact using fun m => hrun (n + m) (Nat.le_add_right n m)
  have hstep : ∀ m, l.step (act m) (r.state (n + m)).threads =
      some (r.state (n + (m + 1))).threads := by
    intro m
    obtain ⟨-, -, threads, hstep, heq⟩ := run_eq_some (hact m ▸ hnext (n + m))
    rw [hstep]
    exact congrArg some (congrArg Process.threads heq).symm
  let r' : Run l.step (r.state n).threads := ⟨act, fun m => (r.state (n + m)).threads, rfl, hstep⟩
  refine ⟨(r.state n).threads, threads_reach_of_live (r.reaches n), r', ?_⟩
  rintro P ⟨⟨k, hk⟩, hable⟩
  constructor
  · refine ⟨n + k, fun m hm => ?_⟩
    rintro ⟨t, hP, ht⟩
    obtain ⟨j, rfl⟩ := Nat.exists_eq_add_of_le ((Nat.le_add_right n k).trans hm)
    rw [hact j] at ht
    obtain rfl := Action.run.inj ht
    exact hk j (by omega) hP
  · intro k'
    obtain ⟨m, hm, t, hP, hsome⟩ := hable k'
    refine ⟨n + m, by omega, .run t, ⟨t, hP, rfl⟩, ?_⟩
    obtain ⟨hcreated, -, hdead⟩ := hwaits (n + m) (Nat.le_add_right n m)
    have hdone : (r.state (n + m)).main ≠ .done := (live_eq_some (r.step_eq _)).1
    have hgoes : t ∈ (r.state (n + m)).created ∧ t ∉ (r.state (n + m)).dead := by
      rw [hcreated, hdead]
      exact ⟨horder t, List.not_mem_nil⟩
    rw [live, if_neg hdone, Launch.next, if_pos hgoes, Option.isSome_map]
    exact hsome

-- ---------------------------------------------------------------------------
-- Runs that end
-- ---------------------------------------------------------------------------

/-- **A process that cannot go on** has ended, if threads that cannot have finished. -/
theorem done_of_stuck (hstable : l.Stable) (horder : ∀ t, t ∈ l.order)
    (hthreads : ∀ x, Reaches l.step l.start x → (∀ t, l.step t x = none) →
      ∀ t, l.finished t x = true)
    (h : Reaches l.live l.boot s) (hstuck : ∀ a, l.live a s = none) : s.main = .done := by
  by_contra hdone
  have hnone : ∀ a, l.next a s = none := by
    intro a
    have := hstuck a
    rwa [live, if_neg hdone] at this
  obtain ⟨t, rest, hjoin⟩ : ∃ t rest, s.main = .join (t :: rest) := by
    by_contra hnot
    push Not at hnot
    obtain ⟨a, -, hsome⟩ := canTake_of_main hnot hdone
    rw [hstuck a] at hsome
    cases hsome
  have hwaits := waits_of_reaches hstable h
  rw [hjoin] at hwaits
  obtain ⟨hcreated, -, hdead, -⟩ := hwaits
  -- the threads are stuck too, so that main need not wait
  have hfinished : l.finished t s.threads = true := by
    apply hthreads _ (threads_reach_of_live h)
    intro u
    have hgoes : u ∈ s.created ∧ u ∉ s.dead := by
      rw [hcreated, hdead]
      exact ⟨horder u, List.not_mem_nil⟩
    have hu := hnone (.run u)
    rw [Launch.next, if_pos hgoes] at hu
    exact Option.map_eq_none_iff.mp hu
  have hmain : l.mainNext true s = none := hnone (.main true)
  rw [mainNext, hjoin] at hmain
  dsimp only at hmain
  rw [if_pos (.inr hfinished)] at hmain
  cases hmain

end LabsOS.Launch
