import LabsOS.Sems.Outline
import Mathlib.Data.Finset.Card
import Mathlib.Data.Fintype.Basic

/-!
# The exchange of messages

Without signals, one process at a time is in its critical section and every receiver
copies whole messages in the order in which they were sent (`messages_in_order`).

The token of the semaphore is conserved as long as no signal is delivered to a
receiver that has taken it (`token_conserved`). A receiver that is interrupted there
takes it along (`token_lost`).
-/

namespace LabsOS.Sems

variable {ι : Type} {pid : Pid} {s : State ι}

instance : (p : Process ι) → (pc : Pc p) → Decidable (Inside p pc)
  | .sender, pc => match pc with
    | .format _ | .copy .. | .terminate _ | .unlock _ => .isTrue trivial
    | .openFile | .ftok | .shmget | .shmat | .semget | .setval | .lock _ | .exited => .isFalse id
  | .receiver _, pc => inferInstanceAs (Decidable (ReceiverPc.inside pc = true))

/-- The sender is alive and has made its `SETVAL`. -/
def SenderPc.PastSetval : SenderPc → Prop
  | .lock _ | .format _ | .copy .. | .terminate _ | .unlock _ => True
  | _ => False

variable [DecidableEq ι]

-- ---------------------------------------------------------------------------
-- Messages
-- ---------------------------------------------------------------------------

/-- What the receiver `i` has copied. -/
def receivedBy (i : ι) (received : List (Received ι)) : List (Received ι) :=
  received.filter (·.receiver = i)

/-- The string is empty, or the last message that had been sent. -/
def Received.Whole (pid : Pid) (sent : List Message) (e : Received ι) : Prop :=
  (e.seen = 0 ∧ e.text = []) ∨
    ∃ m, sent[e.seen - 1]? = some m ∧ m.number = e.seen ∧ e.text = m.text pid

/-- Critical sections do not overlap, and messages are received whole and in order. -/
structure InOrder (pid : Pid) (s : State ι) : Prop where
  exclusive : ∀ p q, Inside p (s.locals p) → Inside q (s.locals q) → p = q
  whole : ∀ e ∈ s.shared.received, e.Whole pid s.shared.sent
  increasing : ∀ i, (receivedBy i s.shared.received).Pairwise fun e f => e.seen ≤ f.seen

omit [DecidableEq ι] in
theorem Global.whole {x : Shared ι} (h : Global pid x) {e : Received ι} (he : e ∈ x.received) :
    e.Whole pid x.sent := by
  obtain ⟨htext, hseen⟩ := h.received e he
  cases hk : e.seen with
  | zero =>
    rw [hk] at htext
    exact .inl ⟨hk, htext⟩
  | succ k =>
    have hlt : k < x.sent.length := by omega
    have hm : x.sent[k]? = some x.sent[k] := List.getElem?_eq_getElem hlt
    refine .inr ⟨x.sent[k], by rw [hk]; exact hm, hk ▸ (h.numbered k _ hm).1, ?_⟩
    rw [htext, hk, ← List.take_append_getElem hlt, latest, List.getLast?_append]
    rfl

omit [DecidableEq ι] in
/-- At most one process is inside. -/
theorem eq_of_inside (h : ∀ p, Assert pid p s.shared (s.locals p)) {p q : Process ι}
    (hp : Inside p (s.locals p)) (hq : Inside q (s.locals q)) : p = q :=
  Option.some.inj (((h p).holder_eq hp).symm.trans ((h q).holder_eq hq))

/-- **Messages are received whole and in order**, in any interleaving without signals. -/
theorem messages_in_order (h : ReachesWhen (fun a _ => a.IsRun) (step pid) start s) :
    InOrder pid s := by
  have hs : (outline pid).Holds s := by
    refine Team.Outline.holds_of_reachesWhen (h.mono fun a s ha => ?_) outline_start
    cases a with
    | run p env => trivial
    | signal i => exact ha.elim
  have hG : Global pid s.shared := hs.global
  exact ⟨fun p q => eq_of_inside hs.assert, fun e he => hG.whole he,
    fun i => hG.increasing.filter _⟩

/-- All calls succeed, at noon. -/
def noon : Env := ⟨true, ⟨12, 0, 0, by decide, by decide, by decide⟩⟩

omit [DecidableEq ι] in
/-- The sender sends a message; the receiver `i`, which has started before that,
prints an empty string first. -/
def sendAndReceive (i : ι) : List (Action ι) :=
  List.replicate 6 (.run .sender noon) ++ List.replicate 8 (.run (.receiver i) noon) ++
    List.replicate 1028 (.run .sender noon) ++ List.replicate 50 (.run (.receiver i) noon)

theorem one_message_received : ∃ s : State (Fin 1),
    s.shared.received.map Received.text =
      [[], ascii "[MESSAGE #1] Time: 12:00:00, PID: 42"] ∧
    InOrder ⟨42, by decide⟩ s := by
  have hrun : (steps (fun a s => if a.IsRun then step ⟨42, by decide⟩ a s else none)
      (sendAndReceive (0 : Fin 1)) start).map (fun s => s.shared.received.map Received.text) =
      some [[], ascii "[MESSAGE #1] Time: 12:00:00, PID: 42"] := by decide +kernel
  obtain ⟨s, hs, htexts⟩ := exists_reachesWhen_of_map hrun
  exact ⟨s, htexts, messages_in_order hs⟩

-- ---------------------------------------------------------------------------
-- The token
-- ---------------------------------------------------------------------------

variable [Fintype ι]

/-- How many live processes are between their `lock_operation` and `unlock_operation`. -/
def insideCount (s : State ι) : Nat :=
  (if Inside .sender (s.locals .sender) then 1 else 0) +
    (Finset.univ.filter fun i => Inside (.receiver i) (s.locals (.receiver i))).card

/-- The process that has taken the semaphore is the one inside. -/
theorem insideCount_eq (h : ∀ p, Assert pid p s.shared (s.locals p)) :
    insideCount s = if s.shared.holder.isSome then 1 else 0 := by
  have hreceiver : ∀ i, Inside (.receiver i) (s.locals (.receiver i)) ↔
      s.shared.holder = some (.receiver i) := fun i => (h (.receiver i)).holder_iff.symm
  unfold insideCount
  simp only [← (h .sender).holder_iff, hreceiver]
  cases s.shared.holder with
  | none => simp
  | some p =>
    cases p with
    | sender => simp
    | receiver j => simp [Finset.filter_eq]

/-- **The token is conserved** in every run in which no signal is delivered to a
receiver between its `lock_operation` and its `unlock_operation`. -/
theorem token_conserved
    (h : ReachesWhen (fun a s => Undisturbed a (s.locals a.actor)) (step pid) start s)
    (hpast : (s.locals .sender).PastSetval) :
    s.shared.semaphore.getD 0 + insideCount s = 1 := by
  have hs : (outline pid).Holds s := Team.Outline.holds_of_reachesWhen h outline_start
  have hsender : SenderAt pid s.shared (s.locals .sender) := (hs.assert .sender).holds
  have htokens : tokens s.shared = 1 := by
    revert hpast hsender
    cases s.locals .sender with
    | lock counter => exact fun _ h => Ready.tokens_eq h
    | format | copy | terminate | unlock => exact fun _ h => h.1.tokens_eq
    | _ => exact fun h => h.elim
  rw [insideCount_eq hs.assert]
  exact htokens

omit [DecidableEq ι] [Fintype ι] in
/-- The sender sets everything up; the receiver `i` attaches itself, goes on for
`more` actions and is interrupted. -/
def interrupted (i : ι) (more : Nat) : List (Action ι) :=
  List.replicate 6 (.run .sender noon) ++ List.replicate (4 + more) (.run (.receiver i) noon) ++
    [.signal i, .run (.receiver i) noon]

/-- The receiver is interrupted before it takes the semaphore. -/
theorem token_kept : ∃ s : State (Fin 1), s.locals (.receiver 0) = .exited ∧
    s.shared.semaphore.getD 0 + insideCount s = 1 := by
  have hrun : (steps (fun a s => if Undisturbed a (s.locals a.actor) then
      step ⟨42, by decide⟩ a s else none) (interrupted (0 : Fin 1) 0) start).map (fun s =>
      (s.locals .sender, s.locals (.receiver 0))) = some (.lock 0, .exited) := by decide +kernel
  obtain ⟨s, hs, hobs⟩ := exists_reachesWhen_of_map hrun
  obtain ⟨hsender, hreceiver⟩ := Prod.mk.inj hobs
  exact ⟨s, hreceiver, token_conserved hs (by rw [hsender]; trivial)⟩

/-- The receiver is interrupted after it has taken the semaphore: it exits with the
token. -/
theorem token_lost : ∃ s : State (Fin 1), Reaches (step ⟨42, by decide⟩) start s ∧
    (s.locals .sender).PastSetval ∧ s.locals (.receiver 0) = .exited ∧
    s.shared.semaphore.getD 0 + insideCount s = 0 := by
  have hrun : (steps (step ⟨42, by decide⟩) (interrupted (0 : Fin 1) 1) start).map (fun s =>
      ((s.locals .sender, s.locals (.receiver 0)), s.shared.semaphore.getD 0 + insideCount s)) =
      some ((.lock 0, .exited), 0) := by decide +kernel
  obtain ⟨s, hs, hobs⟩ := exists_reaches_of_map hrun
  obtain ⟨hpcs, hcount⟩ := Prod.mk.inj hobs
  obtain ⟨hsender, hreceiver⟩ := Prod.mk.inj hpcs
  exact ⟨s, hs, by rw [hsender]; trivial, hreceiver, hcount⟩

end LabsOS.Sems
