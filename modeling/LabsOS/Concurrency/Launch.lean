import LabsOS.Concurrency.Steps
import Mathlib.Data.List.Basic

/-!
# Launching threads

A main thread that creates threads in order, waits for them and destroys what they share. When
a thread cannot be created it gives up: it asks the threads created so far to terminate, or
does not even ask, and destroys what they share.

A request to terminate is deferred: the thread acts on it when it stands at a cancellation
point, and keeps whatever it holds. The threads are any transition system.

`Launch.unused_iff` says for which failures main destroys nothing that a thread uses.
-/

namespace LabsOS

/-- The threads, and what main does with them. -/
structure Launch (T S : Type) where
  step : T → S → Option S
  start : S
  finished : T → S → Bool
  cancelPoint : T → S → Bool
  order : List T
  joins : List T
  cancels : Bool

namespace Launch

variable {T S : Type}

-- ---------------------------------------------------------------------------
-- State
-- ---------------------------------------------------------------------------

/-- What main does next, with the threads that are still to be created, to be asked to
terminate, or to be waited for. -/
inductive MainPc (T : Type) where
  | create (rest : List T)
  | cancel (rest : List T)
  | join (rest : List T)
  | destroy
  | done
  deriving DecidableEq, Repr

/-- The process. Of the threads created, `cancelled` were asked to terminate and `dead` did. -/
structure Process (T S : Type) where
  main : MainPc T
  created : List T
  cancelled : List T
  dead : List T
  threads : S

/-- The thread does nothing any more. -/
def Process.Terminated (l : Launch T S) (s : Process T S) (t : T) : Prop :=
  t ∈ s.dead ∨ l.finished t s.threads = true

instance [DecidableEq T] (l : Launch T S) (s : Process T S) (t : T) :
    Decidable (s.Terminated l t) := inferInstanceAs (Decidable (_ ∨ _))

-- ---------------------------------------------------------------------------
-- Actions
-- ---------------------------------------------------------------------------

/-- A step of main, which creates a thread if `ok`; a step of a thread; and the end of a
thread that was asked to terminate. -/
inductive Action (T : Type) where
  | main (ok : Bool)
  | run (t : T)
  | die (t : T)
  deriving DecidableEq, Repr

variable [DecidableEq T]

/-- Main gives up. -/
def giveUp (l : Launch T S) (s : Process T S) : Process T S :=
  { s with main := .cancel (if l.cancels then s.created else []) }

def mainNext (l : Launch T S) (ok : Bool) (s : Process T S) : Option (Process T S) :=
  match s.main with
  | .create [] => some { s with main := .join l.joins }
  | .create (t :: rest) =>
    if ok then some { s with main := .create rest, created := s.created ++ [t] }
    else some (l.giveUp s)
  | .cancel [] => some { s with main := .destroy }
  | .cancel (t :: rest) => some { s with main := .cancel rest, cancelled := s.cancelled ++ [t] }
  | .join [] => some { s with main := .destroy }
  | .join (t :: rest) => if s.Terminated l t then some { s with main := .join rest } else none
  | .destroy => some { s with main := .done }
  | .done => none

def next (l : Launch T S) : Action T → Process T S → Option (Process T S)
  | .main ok, s => l.mainNext ok s
  | .run t, s =>
    if t ∈ s.created ∧ t ∉ s.dead then
      (l.step t s.threads).map fun threads => { s with threads := threads }
    else none
  | .die t, s =>
    if t ∈ s.cancelled ∧ t ∉ s.dead ∧ l.cancelPoint t s.threads = true then
      some { s with dead := s.dead ++ [t] }
    else none

/-- No thread is created yet. -/
def boot (l : Launch T S) : Process T S := ⟨.create l.order, [], [], [], l.start⟩

/-- The creation of `t` fails only if `mayFail t`. -/
def OnlyFails (mayFail : T → Prop) (a : Action T) (s : Process T S) : Prop :=
  ∀ t rest, a = .main false → s.main = .create (t :: rest) → mayFail t

variable {l : Launch T S} {s s' : Process T S} {mayFail : T → Prop} {t u : T}

/-- What a step of main does to the process. -/
inductive MainStep (l : Launch T S) (s : Process T S) : Bool → Process T S → Prop where
  | created {ok : Bool} : s.main = .create [] → MainStep l s ok { s with main := .join l.joins }
  | create {t : T} {rest : List T} : s.main = .create (t :: rest) →
      MainStep l s true { s with main := .create rest, created := s.created ++ [t] }
  | giveUp {t : T} {rest : List T} : s.main = .create (t :: rest) → MainStep l s false (l.giveUp s)
  | cancelled {ok : Bool} : s.main = .cancel [] → MainStep l s ok { s with main := .destroy }
  | cancel {ok : Bool} {t : T} {rest : List T} : s.main = .cancel (t :: rest) →
      MainStep l s ok { s with main := .cancel rest, cancelled := s.cancelled ++ [t] }
  | joined {ok : Bool} : s.main = .join [] → MainStep l s ok { s with main := .destroy }
  | join {ok : Bool} {t : T} {rest : List T} : s.main = .join (t :: rest) → s.Terminated l t →
      MainStep l s ok { s with main := .join rest }
  | destroy {ok : Bool} : s.main = .destroy → MainStep l s ok { s with main := .done }

theorem mainStep_of_mainNext {ok : Bool} (h : l.mainNext ok s = some s') : MainStep l s ok s' := by
  unfold mainNext at h
  split at h
  · next hmain => exact Option.some.inj h ▸ .created hmain
  · next hmain =>
    cases ok with
    | true => exact Option.some.inj h ▸ .create hmain
    | false => exact Option.some.inj h ▸ .giveUp hmain
  · next hmain => exact Option.some.inj h ▸ .cancelled hmain
  · next hmain => exact Option.some.inj h ▸ .cancel hmain
  · next hmain => exact Option.some.inj h ▸ .joined hmain
  · next hmain =>
    split at h
    · next ht => exact Option.some.inj h ▸ .join hmain ht
    · cases h
  · next hmain => exact Option.some.inj h ▸ .destroy hmain
  · cases h

theorem run_eq_some (h : l.next (.run t) s = some s') : t ∈ s.created ∧ t ∉ s.dead ∧
    ∃ threads, l.step t s.threads = some threads ∧ s' = { s with threads := threads } := by
  rw [next] at h
  split at h
  · next ht =>
    obtain ⟨threads, hstep, heq⟩ := Option.map_eq_some_iff.mp h
    exact ⟨ht.1, ht.2, threads, hstep, heq.symm⟩
  · cases h

theorem die_eq_some (h : l.next (.die t) s = some s') : t ∈ s.cancelled ∧
    s' = { s with dead := s.dead ++ [t] } := by
  rw [next] at h
  split at h
  · next ht => exact ⟨ht.1, (Option.some.inj h).symm⟩
  · cases h

/-- Main leaves the threads alone. -/
theorem mainNext_threads {ok : Bool} (h : l.mainNext ok s = some s') :
    s'.threads = s.threads := by
  cases mainStep_of_mainNext h <;> rfl

/-- The threads take steps of their own. -/
theorem threads_reach (h : Reaches l.next l.boot s) : Reaches l.step l.start s.threads := by
  apply h.invariant (I := fun s => Reaches l.step l.start s.threads) .refl
  intro a s s' hs ha
  cases a with
  | main ok =>
    rw [mainNext_threads ha]
    exact hs
  | run t =>
    obtain ⟨-, -, threads, hstep, rfl⟩ := run_eq_some ha
    exact hs.step t hstep
  | die t =>
    obtain ⟨-, rfl⟩ := die_eq_some ha
    exact hs

-- ---------------------------------------------------------------------------
-- Where only the first thread may not be created
-- ---------------------------------------------------------------------------

/-- What main knows of the threads while it does not give up, or gives up before any thread
is created. -/
def Knows (l : Launch T S) (s : Process T S) : MainPc T → Prop
  | .create rest => s.created ++ rest = l.order
  | .cancel rest => s.created = [] ∧ rest = []
  | .join rest => s.created = l.order ∧ ∀ t ∈ l.joins, t ∈ rest ∨ l.finished t s.threads = true
  | .destroy | .done => s.created = [] ∨
      s.created = l.order ∧ ∀ t ∈ l.joins, l.finished t s.threads = true

structure Orderly (l : Launch T S) (s : Process T S) : Prop where
  knows : l.Knows s s.main
  cancelled : s.cancelled = []
  dead : s.dead = []
  idle : s.created = [] → s.threads = l.start

omit [DecidableEq T] in
theorem Knows.run {pc : MainPc T} {threads : S} (h : l.Knows s pc)
    (hstable : ∀ u, l.finished u s.threads = true → l.finished u threads = true) :
    l.Knows { s with threads := threads } pc := by
  cases pc with
  | create rest => exact h
  | cancel rest => exact h
  | join rest => exact ⟨h.1, fun t ht => (h.2 t ht).imp_right (hstable t)⟩
  | destroy => exact h.imp_right fun h => ⟨h.1, fun t ht => hstable t (h.2 t ht)⟩
  | done => exact h.imp_right fun h => ⟨h.1, fun t ht => hstable t (h.2 t ht)⟩

omit [DecidableEq T] in
/-- Giving up here means that no thread was created. -/
theorem Orderly.created_eq_nil {rest : List T} (h : l.Orderly s)
    (hfail : ∀ u ∈ l.order.tail, ¬ mayFail u) (hmain : s.main = .create (t :: rest))
    (ht : mayFail t) : s.created = [] := by
  have horder : s.created ++ t :: rest = l.order := by
    have := h.knows
    rw [hmain] at this
    exact this
  cases hcreated : s.created with
  | nil => rfl
  | cons c cs =>
    rw [hcreated] at horder
    refine absurd ht (hfail t ?_)
    rw [← horder]
    simp

theorem Orderly.mainNext {ok : Bool} (h : l.Orderly s)
    (hfail : ∀ u ∈ l.order.tail, ¬ mayFail u) (hC : OnlyFails mayFail (.main ok) s)
    (hstep : l.mainNext ok s = some s') : l.Orderly s' := by
  have hknows := h.knows
  have hdead : ∀ t, s.Terminated l t → l.finished t s.threads = true := by
    rintro t (ht | ht)
    · rw [h.dead] at ht
      cases ht
    · exact ht
  cases mainStep_of_mainNext hstep with
  | created hmain =>
    rw [hmain] at hknows
    refine ⟨⟨?_, fun t ht => .inl ht⟩, h.cancelled, h.dead, h.idle⟩
    rw [← hknows, List.append_nil]
  | @create t rest hmain =>
    rw [hmain] at hknows
    refine ⟨?_, h.cancelled, h.dead, ?_⟩
    · show s.created ++ [t] ++ rest = l.order
      rw [List.append_assoc]
      exact hknows
    · intro hnil
      exact absurd hnil (List.append_ne_nil_of_right_ne_nil _ (List.cons_ne_nil _ _))
  | giveUp hmain =>
    have hnil := h.created_eq_nil hfail hmain (hC _ _ rfl hmain)
    refine ⟨⟨hnil, ?_⟩, h.cancelled, h.dead, h.idle⟩
    rw [hnil, ite_self]
  | cancelled hmain =>
    rw [hmain] at hknows
    exact ⟨.inl hknows.1, h.cancelled, h.dead, h.idle⟩
  | cancel hmain =>
    rw [hmain] at hknows
    cases hknows.2
  | joined hmain =>
    rw [hmain] at hknows
    refine ⟨.inr ⟨hknows.1, fun t ht => ?_⟩, h.cancelled, h.dead, h.idle⟩
    exact (hknows.2 t ht).resolve_left List.not_mem_nil
  | join hmain ht =>
    rw [hmain] at hknows
    refine ⟨⟨hknows.1, fun u hu => ?_⟩, h.cancelled, h.dead, h.idle⟩
    rcases hknows.2 u hu with hu | hu
    · rcases List.mem_cons.mp hu with rfl | hu
      · exact .inr (hdead _ ht)
      · exact .inl hu
    · exact .inr hu
  | destroy hmain =>
    rw [hmain] at hknows
    exact ⟨hknows, h.cancelled, h.dead, h.idle⟩

/-- A thread that has finished stays so. -/
def Stable (l : Launch T S) : Prop :=
  ∀ t u x x', l.finished t x = true → l.step u x = some x' → l.finished t x' = true

theorem Orderly.next {a : Action T} (h : l.Orderly s) (hstable : l.Stable)
    (hfail : ∀ u ∈ l.order.tail, ¬ mayFail u) (hC : OnlyFails mayFail a s)
    (ha : l.next a s = some s') : l.Orderly s' := by
  cases a with
  | main ok => exact h.mainNext hfail hC ha
  | run t =>
    obtain ⟨ht, -, threads, hstep, rfl⟩ := run_eq_some ha
    refine ⟨h.knows.run fun u hu => hstable u t _ _ hu hstep, h.cancelled, h.dead, fun hnil => ?_⟩
    rw [show s.created = [] from hnil] at ht
    cases ht
  | die t =>
    obtain ⟨ht, -⟩ := die_eq_some ha
    rw [h.cancelled] at ht
    cases ht

theorem orderly_of_reachesWhen (hstable : l.Stable) (hfail : ∀ u ∈ l.order.tail, ¬ mayFail u)
    (h : ReachesWhen (OnlyFails mayFail) l.next l.boot s) : l.Orderly s :=
  h.invariant ⟨rfl, rfl, rfl, fun _ => rfl⟩ fun _ _ _ hs hC ha => hs.next hstable hfail hC ha

omit [DecidableEq T] in
/-- When main destroys what the threads share, either none has been created or all have
finished. -/
theorem Orderly.at_destroy (h : l.Orderly s) (hjoins : ∀ t ∈ l.order, t ∈ l.joins)
    (hmain : s.main = .destroy) : s.created = [] ∧ s.threads = l.start ∨
      s.created = l.order ∧ ∀ t ∈ l.order, l.finished t s.threads = true := by
  have hknows := h.knows
  rw [hmain] at hknows
  rcases hknows with hnil | ⟨horder, hall⟩
  · exact .inl ⟨hnil, h.idle hnil⟩
  · exact .inr ⟨horder, fun t ht => hall t (hjoins t ht)⟩

-- ---------------------------------------------------------------------------
-- Where another thread may not be created
-- ---------------------------------------------------------------------------

omit [DecidableEq T] in
theorem OnlyFails.ok : OnlyFails mayFail (.main true) s := by
  intro t rest h
  cases h

/-- Main creates the threads `pre` before any of them starts. -/
theorem creates {pre rest : List T} (hmain : s.main = .create (pre ++ rest)) {s₀ : Process T S}
    (h : ReachesWhen (OnlyFails mayFail) l.next s₀ s) :
    ReachesWhen (OnlyFails mayFail) l.next s₀
      { s with main := .create rest, created := s.created ++ pre } := by
  induction pre generalizing s with
  | nil =>
    rw [List.append_nil, ← show s.main = .create rest from hmain]
    exact h
  | cons t pre ih =>
    have hstep : l.next (.main true) s =
        some { s with main := .create (pre ++ rest), created := s.created ++ [t] } := by
      show l.mainNext true s = _
      rw [mainNext, hmain]
      rfl
    have := ih (s := { s with main := .create (pre ++ rest), created := s.created ++ [t] }) rfl
      (h.step _ .ok hstep)
    rwa [List.append_assoc] at this

/-- Main asks the threads to terminate before any of them does. -/
theorem gives_up {rest : List T} (hmain : s.main = .cancel rest) {s₀ : Process T S}
    (h : ReachesWhen (OnlyFails mayFail) l.next s₀ s) :
    ReachesWhen (OnlyFails mayFail) l.next s₀
      { s with main := .destroy, cancelled := s.cancelled ++ rest } := by
  induction rest generalizing s with
  | nil =>
    have hstep : l.next (.main true) s = some { s with main := .destroy } := by
      show l.mainNext true s = _
      rw [mainNext, hmain]
    rw [List.append_nil]
    exact h.step _ .ok hstep
  | cons t rest ih =>
    have hstep : l.next (.main true) s =
        some { s with main := .cancel rest, cancelled := s.cancelled ++ [t] } := by
      show l.mainNext true s = _
      rw [mainNext, hmain]
    have := ih (s := { s with main := .cancel rest, cancelled := s.cancelled ++ [t] }) rfl
      (h.step _ .ok hstep)
    rwa [List.append_assoc] at this

/-- The run in which the creation of `t` fails and no thread has started by then. -/
theorem destroys_after_failure {pre post : List T} (horder : l.order = pre ++ t :: post)
    (ht : mayFail t) : ∃ s, ReachesWhen (OnlyFails mayFail) l.next l.boot s ∧ s.main = .destroy ∧
      s.created = pre ∧ s.dead = [] ∧ s.threads = l.start := by
  have hmain : l.boot.main = .create (pre ++ t :: post) := by
    rw [← horder]
    rfl
  have hcreate : ReachesWhen (OnlyFails mayFail) l.next l.boot _ := creates hmain .refl
  have hallowed : OnlyFails mayFail (.main false)
      { l.boot with main := .create (t :: post), created := l.boot.created ++ pre } := by
    intro u rest _ hcreate
    obtain ⟨rfl, rfl⟩ := List.cons.inj (MainPc.create.inj hcreate)
    exact ht
  have hfail := hcreate.step (.main false) hallowed (show _ = some (l.giveUp _) from rfl)
  exact ⟨_, gives_up rfl hfail, rfl, rfl, rfl, rfl⟩

/-- Nobody uses what the threads share: those that were created have terminated, and what
they share is `Free`. -/
structure Unused (l : Launch T S) (Free : S → Prop) (s : Process T S) : Prop where
  terminated : ∀ t ∈ s.created, s.Terminated l t
  free : Free s.threads

/-- **Main may not give up later.** What main destroys is unused, in all runs, if and only if
no thread behind the first may fail to be created. -/
theorem unused_iff {Free : S → Prop} (hstable : l.Stable) (hjoins : ∀ t ∈ l.order, t ∈ l.joins)
    (hfresh : ∀ t ∈ l.order, l.finished t l.start = false) (hstart : Free l.start)
    (hend : ∀ x, Reaches l.step l.start x → (∀ t ∈ l.order, l.finished t x = true) → Free x) :
    (∀ s, ReachesWhen (OnlyFails mayFail) l.next l.boot s → s.main = .destroy → l.Unused Free s) ↔
      ∀ t ∈ l.order.tail, ¬ mayFail t := by
  constructor
  · intro h t ht hfail
    cases horder : l.order with
    | nil =>
      rw [horder] at ht
      cases ht
    | cons t₀ rest =>
      rw [horder] at ht
      obtain ⟨pre, post, rfl⟩ := List.append_of_mem ht
      have hsplit : l.order = (t₀ :: pre) ++ t :: post := horder
      obtain ⟨s, hs, hmain, hcreated, hdead, hthreads⟩ := destroys_after_failure hsplit hfail
      -- the first thread is created and has not started
      have hmem : t₀ ∈ s.created := by
        rw [hcreated]
        exact List.mem_cons_self ..
      rcases (h s hs hmain).terminated t₀ hmem with hfirst | hfirst
      · rw [hdead] at hfirst
        cases hfirst
      · rw [hthreads, hfresh t₀ (by rw [horder]; exact List.mem_cons_self ..)] at hfirst
        cases hfirst
  · intro hfail s hs hmain
    rcases (orderly_of_reachesWhen hstable hfail hs).at_destroy hjoins hmain with
      ⟨hnil, hthreads⟩ | ⟨horder, hall⟩
    · refine ⟨?_, ?_⟩
      · intro t ht
        rw [hnil] at ht
        cases ht
      · rw [hthreads]
        exact hstart
    · exact ⟨fun t ht => .inr (hall t (horder ▸ ht)), hend _ (threads_reach hs.reaches) hall⟩

end Launch

end LabsOS
