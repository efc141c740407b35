import LabsOS.Sems.Messages

/-!
# The outline of the sender and the receivers

`tokens` counts the value of the semaphore and the process that has taken it. It is
zero until the sender has made its `SETVAL` and one from then on, so that one process
at a time is between `lock_operation` and `unlock_operation`. While the sender is not,
the segment holds its last message, padded with zeros (`Global.content`).

The outline covers the runs in which no signal is delivered to a receiver that has
taken the semaphore.
-/

namespace LabsOS.Sems

variable {ι : Type} {pid : Pid} {p : Process ι} {i : ι} {x x' : Shared ι}

-- ---------------------------------------------------------------------------
-- Assertions
-- ---------------------------------------------------------------------------

/-- The value of the semaphore and the process that has taken it. -/
def tokens (x : Shared ι) : Nat := x.semaphore.getD 0 + if x.holder.isSome then 1 else 0

/-- What holds of the shared state at any time. -/
structure Global (pid : Pid) (x : Shared ι) : Prop where
  tokens_le : tokens x ≤ 1
  content : x.holder ≠ some .sender →
    ∀ segment, x.segment = some segment → segment = padded (latest pid x.sent)
  numbered : ∀ k m, x.sent[k]? = some m → m.number = k + 1 ∧ m.number < 2 ^ 31
  received : ∀ e ∈ x.received, e.text = latest pid (x.sent.take e.seen) ∧ e.seen ≤ x.sent.length
  increasing : x.received.Pairwise fun e f => e.seen ≤ f.seen

/-- The process is between its `lock_operation` and its `unlock_operation`. -/
def Inside : (p : Process ι) → Pc p → Prop
  | .sender, pc => match pc with
    | .format _ | .copy .. | .terminate _ | .unlock _ => True
    | _ => False
  | .receiver _, pc => ReceiverPc.inside pc = true

/-- Everything is set up, and `counter` messages have been sent. -/
structure Ready (counter : Nat) (x : Shared ι) : Prop where
  tokens_eq : tokens x = 1
  semaphore : x.semaphore.isSome
  segment : x.segment.isSome
  length_sent : x.sent.length = counter

/-- What the sender asserts at each action. -/
def SenderAt (pid : Pid) (x : Shared ι) : SenderPc → Prop
  | .openFile | .ftok | .shmget => tokens x = 0 ∧ x.sent = []
  | .shmat | .semget => tokens x = 0 ∧ x.sent = [] ∧ x.segment.isSome
  | .setval => tokens x = 0 ∧ x.sent = [] ∧ x.segment.isSome ∧ x.semaphore.isSome
  | .lock counter => Ready counter x
  | .format counter | .unlock counter =>
    Ready counter x ∧ x.segment = some (padded (latest pid x.sent))
  | .copy m k => Ready x.sent.length x ∧ m.number = x.sent.length + 1 ∧ m.number < 2 ^ 31 ∧
      k ≤ bufferSize - 1 ∧
      x.segment = some (overwritten k (padded (latest pid x.sent)) (padded (m.text pid)))
  | .terminate m => Ready x.sent.length x ∧ m.number = x.sent.length + 1 ∧ m.number < 2 ^ 31 ∧
      x.segment = some (overwritten (bufferSize - 1) (padded (latest pid x.sent))
        (padded (m.text pid)))
  | .exited => True

/-- What a receiver asserts at each action. -/
def ReceiverAt (pid : Pid) (x : Shared ι) : ReceiverPc → Prop
  | .shmat | .semget => x.segment.isSome
  | .lock | .unlock => x.segment.isSome ∧ x.semaphore.isSome
  | .copy k message => (x.segment.isSome ∧ x.semaphore.isSome) ∧
      message = (latest pid x.sent).take k
  | .print message => (x.segment.isSome ∧ x.semaphore.isSome) ∧ message = latest pid x.sent
  | .handler inside => inside = false
  | _ => True

def At (pid : Pid) : (p : Process ι) → Shared ι → Pc p → Prop
  | .sender, x, pc => SenderAt pid x pc
  | .receiver _, x, pc => ReceiverAt pid x pc

/-- The process knows whether it has taken the semaphore, and what it asserts. -/
structure Assert (pid : Pid) (p : Process ι) (x : Shared ι) (pc : Pc p) : Prop where
  holder_iff : x.holder = some p ↔ Inside p pc
  holds : At pid p x pc

/-- A process works while it has taken the semaphore. Nothing is removed, and only
the sender sends and adds to the tokens. -/
structure Guarantee (p : Process ι) (x x' : Shared ι) : Prop where
  respects : Respects Shared.holder p x x'
  segment : x.segment.isSome → x'.segment.isSome
  semaphore : x.semaphore.isSome → x'.semaphore.isSome
  sender : p ≠ .sender → x'.segment = x.segment ∧ x'.sent = x.sent ∧ tokens x' = tokens x

theorem Ready.congr {counter : Nat} (h : Ready counter x) (htokens : tokens x' = tokens x)
    (hsemaphore : x.semaphore.isSome → x'.semaphore.isSome) (hsegment : x'.segment = x.segment)
    (hsent : x'.sent = x.sent) : Ready counter x' :=
  ⟨htokens.trans h.tokens_eq, hsemaphore h.semaphore, hsegment ▸ h.segment, hsent ▸ h.length_sent⟩

/-- What the sender asserts is not about who has taken the semaphore. -/
theorem SenderAt.congr {pc : SenderPc} (h : SenderAt pid x pc) (htokens : tokens x' = tokens x)
    (hsemaphore : x.semaphore.isSome → x'.semaphore.isSome) (hsegment : x'.segment = x.segment)
    (hsent : x'.sent = x.sent) : SenderAt pid x' pc := by
  cases pc with
  | setval =>
    obtain ⟨h₁, h₂, h₃, h₄⟩ := h
    exact ⟨htokens.trans h₁, hsent.trans h₂, hsegment ▸ h₃, hsemaphore h₄⟩
  | lock counter => exact Ready.congr h htokens hsemaphore hsegment hsent
  | format counter | unlock counter =>
    refine ⟨h.1.congr htokens hsemaphore hsegment hsent, ?_⟩
    rw [hsegment, hsent, h.2]
  | copy m k =>
    have hready := h.1.congr htokens hsemaphore hsegment hsent
    simp only [SenderAt, hsegment, hsent]
    exact ⟨hready, h.2⟩
  | terminate m =>
    have hready := h.1.congr htokens hsemaphore hsegment hsent
    simp only [SenderAt, hsegment, hsent]
    exact ⟨hready, h.2⟩
  | exited => trivial
  | _ =>
    simp only [SenderAt, htokens, hsegment, hsent]
    exact h

theorem Assert.stable {q : Process ι} {pc : Pc q} (hq : q ≠ p) (hguar : Guarantee p x x')
    (h : Assert pid q x pc) : Assert pid q x' pc := by
  refine ⟨(hguar.respects.holder_iff q hq).trans h.holder_iff, ?_⟩
  by_cases hin : Inside q pc
  · rw [hguar.respects.eq_of_held q hq (h.holder_iff.mpr hin)]
    exact h.holds
  · have hat := h.holds
    cases q with
    | sender =>
      obtain ⟨hsegment, hsent, htokens⟩ := hguar.sender hq.symm
      exact SenderAt.congr hat htokens hguar.semaphore hsegment hsent
    | receiver j =>
      cases pc with
      | shmat | semget => exact hguar.segment hat
      | lock => exact ⟨hguar.segment hat.1, hguar.semaphore hat.2⟩
      | handler inside => exact hat
      | ftok | shmget | exited => trivial
      | copy | print | unlock => exact absurd rfl hin

-- ---------------------------------------------------------------------------
-- The semaphore
-- ---------------------------------------------------------------------------

theorem holder_eq_none (h : tokens x = 0) : x.holder = none := by
  unfold tokens at h
  cases hholder : x.holder with
  | none => rfl
  | some q => simp [hholder] at h

/-- The semaphore can be taken only where it has the token. -/
theorem lock_eq_some (h : x.lock p = some x') (hsemaphore : x.semaphore.isSome)
    (htokens : tokens x ≤ 1) :
    x.holder = none ∧ tokens x = 1 ∧ x' = { x with semaphore := some 0, holder := some p } := by
  unfold Shared.lock at h
  split at h
  · next hnone => simp [hnone] at hsemaphore
  · cases h
  · next v hv =>
    have hholder : x.holder = none := by
      cases hholder : x.holder with
      | none => rfl
      | some q =>
        simp only [tokens, hv, hholder, Option.getD_some, Option.isSome_some, if_true] at htokens
        omega
    have hzero : v = 0 := by
      simp only [tokens, hv, hholder, Option.getD_some] at htokens
      omega
    subst hzero
    exact ⟨hholder, by simp [tokens, hv, hholder], (Option.some.inj h).symm⟩

theorem tokens_unlock (hholder : x.holder = some p) (hsemaphore : x.semaphore.isSome) :
    tokens x.unlock = tokens x := by
  obtain ⟨v, hv⟩ := Option.isSome_iff_exists.mp hsemaphore
  simp [tokens, Shared.unlock, hv, hholder]

theorem Global.lock (h : Global pid x) (hholder : x.holder = none) :
    Global pid { x with semaphore := some 0, holder := some p } :=
  ⟨by simp [tokens], fun _ => h.content (by rw [hholder]; nofun), h.numbered, h.received,
    h.increasing⟩

theorem Global.unlock (h : Global pid x) (hholder : x.holder = some p)
    (hsemaphore : x.semaphore.isSome)
    (hcontent : ∀ segment, x.segment = some segment → segment = padded (latest pid x.sent)) :
    Global pid x.unlock :=
  ⟨(tokens_unlock hholder hsemaphore).trans_le h.tokens_le, fun _ => hcontent, h.numbered,
    h.received, h.increasing⟩

theorem isSome_unlock (h : x.semaphore.isSome) : x.unlock.semaphore.isSome := by
  simpa [Shared.unlock] using h

theorem Guarantee.refl : Guarantee p x x := ⟨.refl, id, id, fun _ => ⟨rfl, rfl, rfl⟩⟩

theorem Guarantee.lock (hholder : x.holder = none) (htokens : tokens x = 1) :
    Guarantee p x { x with semaphore := some 0, holder := some p } :=
  ⟨.acquire hholder rfl, id, fun _ => rfl, fun _ => ⟨rfl, rfl, by rw [htokens]; rfl⟩⟩

theorem Guarantee.unlock (hholder : x.holder = some p) (hsemaphore : x.semaphore.isSome) :
    Guarantee p x x.unlock :=
  ⟨.release hholder rfl, id, isSome_unlock, fun _ => ⟨rfl, rfl, tokens_unlock hholder hsemaphore⟩⟩

/-- The sender sets things up while nobody can take the semaphore. -/
theorem Guarantee.setup (htokens : tokens x = 0) (hholder : x'.holder = x.holder)
    (hsegment : x.segment.isSome → x'.segment.isSome)
    (hsemaphore : x.semaphore.isSome → x'.semaphore.isSome) : Guarantee .sender x x' := by
  have hnone := holder_eq_none htokens
  refine ⟨.of_holder ?_ ?_, hsegment, hsemaphore, fun h => absurd rfl h⟩
  · intro u hu
    cases hnone.symm.trans hu
  · intro u hu
    cases (hholder.trans hnone).symm.trans hu

/-- The sender writes while it has taken the semaphore. -/
theorem Guarantee.write (hholder : x.holder = some .sender) (hholder' : x'.holder = some .sender)
    (hsegment : x.segment.isSome → x'.segment.isSome)
    (hsemaphore : x.semaphore.isSome → x'.semaphore.isSome) : Guarantee .sender x x' :=
  ⟨.work hholder hholder', hsegment, hsemaphore, fun h => absurd rfl h⟩

-- ---------------------------------------------------------------------------
-- Actions of the sender
-- ---------------------------------------------------------------------------

theorem isSome_setByte {k : Nat} {b : UInt8} (h : x.segment.isSome) :
    (x.setByte k b).segment.isSome := by
  simpa [Shared.setByte] using h

theorem length_latest_le (h : Global pid x) : (latest pid x.sent).length ≤ 53 := by
  unfold latest
  cases hlast : x.sent.getLast? with
  | none => exact Nat.zero_le _
  | some m =>
    obtain ⟨k, hk⟩ := List.mem_iff_getElem?.mp (List.mem_of_getLast? hlast)
    exact length_text_le pid (h.numbered k m hk).2

theorem zero_notMem_latest {sent : List Message} : (0 : UInt8) ∉ latest pid sent := by
  unfold latest
  cases sent.getLast? with
  | none => nofun
  | some m => exact zero_notMem_text

/-- A byte of the message that is copied. -/
theorem overwritten_next (h : Global pid x) {m : Message} (hlt : m.number < 2 ^ 31) {k : Nat}
    (hk : k < bufferSize - 1) :
    (overwritten k (padded (latest pid x.sent)) (padded (m.text pid))).set k
      ((m.buffer pid).getD k 0) =
        overwritten (k + 1) (padded (latest pid x.sent)) (padded (m.text pid)) := by
  have hold := length_padded ((length_latest_le h).trans (by decide : 53 ≤ bufferSize))
  have hnew := length_padded ((length_text_le pid hlt).trans (by decide : 53 ≤ bufferSize))
  rw [buffer_eq_text hlt, ← getD_padded]
  exact overwritten_succ (by omega) (hnew.trans hold.symm)

/-- The last byte completes the message. -/
theorem overwritten_last (h : Global pid x) {m : Message} (hlt : m.number < 2 ^ 31) :
    (overwritten (bufferSize - 1) (padded (latest pid x.sent)) (padded (m.text pid))).set
      (bufferSize - 1) 0 = padded (m.text pid) := by
  have hlen := length_text_le pid hlt
  have hsize : 53 ≤ bufferSize - 1 := by decide
  have hold := length_padded ((length_latest_le h).trans (hsize.trans (Nat.sub_le ..)))
  have hnew := length_padded (hlen.trans (hsize.trans (Nat.sub_le ..)))
  have hzero : (padded (m.text pid)).getD (bufferSize - 1) 0 = 0 := by
    rw [getD_padded, List.getD_eq_default _ _ (hlen.trans hsize)]
  have hlast := overwritten_succ (k := bufferSize - 1) (by rw [hold]; decide) (hnew.trans hold.symm)
  rw [hzero] at hlast
  have hall : bufferSize - 1 + 1 = bufferSize := rfl
  rw [hlast, hall, overwritten, List.take_of_length_le hnew.le, List.drop_of_length_le hold.le,
    List.append_nil]

/-- The message is complete. -/
theorem Global.terminate (h : Global pid x) (hholder : x.holder = some .sender) {m : Message}
    (hm : m.number = x.sent.length + 1) (hlt : m.number < 2 ^ 31) :
    Global pid { x.setByte (bufferSize - 1) 0 with sent := x.sent ++ [m] } where
  tokens_le := h.tokens_le
  content hne := absurd hholder hne
  numbered k m' hk := by
    replace hk : (x.sent ++ [m])[k]? = some m' := hk
    rw [List.getElem?_append] at hk
    split at hk
    · exact h.numbered k m' hk
    · rw [List.getElem?_singleton] at hk
      split at hk
      · obtain rfl := Option.some.inj hk
        exact ⟨by omega, hlt⟩
      · cases hk
  received e he := by
    obtain ⟨htext, hseen⟩ := h.received e he
    refine ⟨?_, hseen.trans (by simp)⟩
    rw [List.take_append_of_le_length hseen]
    exact htext
  increasing := h.increasing

/-- An action that only moves the process on, inside or outside its critical section. -/
theorem Assert.move {pc pc' : Pc p} (h : Assert pid p x pc) (hin : Inside p pc ↔ Inside p pc')
    (hat : At pid p x pc') : Assert pid p x pc' := ⟨h.holder_iff.trans hin, hat⟩

/-- The sender while it sets things up. -/
theorem assert_setup {pc : SenderPc} (htokens : tokens x = 0) (hholder : x'.holder = x.holder)
    (hpc : ¬ Inside (.sender : Process ι) pc) (hat : SenderAt pid x' pc) :
    Assert pid .sender x' pc := by
  refine ⟨iff_of_false (fun h => ?_) hpc, hat⟩
  cases (hholder.trans (holder_eq_none htokens)).symm.trans h

/-- The process has taken the semaphore. -/
theorem Assert.holder_eq {pc : Pc p} (h : Assert pid p x pc) (hin : Inside p pc) :
    x.holder = some p := h.holder_iff.mpr hin

/-- The sender has not come to its loop. -/
def SenderPc.Setup : SenderPc → Prop
  | .openFile | .ftok | .shmget | .shmat | .semget | .setval => True
  | _ => False

theorem setup_own {env : Env} {pc pc' : SenderPc} (hG : Global pid x)
    (hA : Assert pid .sender x pc) (hsetup : pc.Setup)
    (h : senderNext pid env x pc = some (x', pc')) :
    Global pid x' ∧ Assert pid .sender x' pc' ∧ Guarantee .sender x x' := by
  have hat : SenderAt pid x pc := hA.holds
  -- a call that fails
  have hexited : ¬ Inside (.sender : Process ι) pc → Global pid x ∧
      Assert pid (.sender : Process ι) x SenderPc.exited ∧ Guarantee (.sender : Process ι) x x :=
    fun hout => ⟨hG, hA.move (iff_of_false hout id) trivial, .refl⟩
  cases pc with
  | openFile =>
    rw [senderNext] at h
    split at h
    · obtain ⟨rfl, rfl⟩ := Prod.mk.inj (Option.some.inj h)
      exact ⟨⟨hG.tokens_le, hG.content, hG.numbered, hG.received, hG.increasing⟩,
        assert_setup hat.1 rfl id hat, .setup hat.1 rfl id id⟩
    · obtain ⟨rfl, rfl⟩ := Prod.mk.inj (Option.some.inj h)
      exact hexited id
  | ftok =>
    obtain ⟨rfl, rfl⟩ := Prod.mk.inj (Option.some.inj h)
    split
    · exact ⟨hG, assert_setup hat.1 rfl id hat, .refl⟩
    · exact hexited id
  | shmget =>
    rw [senderNext] at h
    split at h
    · obtain ⟨rfl, rfl⟩ := Prod.mk.inj (Option.some.inj h)
      refine ⟨⟨hG.tokens_le, fun _ segment hs => ?_, hG.numbered, hG.received, hG.increasing⟩,
        assert_setup hat.1 rfl id ⟨hat.1, hat.2, rfl⟩, .setup hat.1 rfl (fun _ => rfl) id⟩
      obtain rfl := Option.some.inj hs
      have hempty : latest pid x.sent = [] := by rw [hat.2]; rfl
      show _ = padded (latest pid x.sent)
      rw [hempty]
      rfl
    · obtain ⟨rfl, rfl⟩ := Prod.mk.inj (Option.some.inj h)
      exact hexited id
  | shmat =>
    obtain ⟨rfl, rfl⟩ := Prod.mk.inj (Option.some.inj h)
    split
    · exact ⟨hG, assert_setup hat.1 rfl id hat, .refl⟩
    · exact hexited id
  | semget =>
    rw [senderNext] at h
    split at h
    · obtain ⟨rfl, rfl⟩ := Prod.mk.inj (Option.some.inj h)
      have hholder := holder_eq_none hat.1
      have htokens : tokens { x with semaphore := some 0 } = 0 := by simp [tokens, hholder]
      exact ⟨⟨htokens.trans_le (Nat.zero_le 1), hG.content, hG.numbered, hG.received,
          hG.increasing⟩,
        assert_setup hat.1 rfl id ⟨htokens, hat.2.1, hat.2.2, rfl⟩,
        .setup hat.1 rfl id fun _ => rfl⟩
    · obtain ⟨rfl, rfl⟩ := Prod.mk.inj (Option.some.inj h)
      exact hexited id
  | setval =>
    rw [senderNext] at h
    split at h
    · obtain ⟨rfl, rfl⟩ := Prod.mk.inj (Option.some.inj h)
      obtain ⟨htokens, hsent, hsegment, hsemaphore⟩ := hat
      obtain ⟨v, hv⟩ := Option.isSome_iff_exists.mp hsemaphore
      have hone : tokens { x with semaphore := x.semaphore.map fun _ => 1 } = 1 := by
        simp [tokens, hv, holder_eq_none htokens]
      have hsem : (x.semaphore.map fun _ => 1).isSome := by rw [hv]; rfl
      exact ⟨⟨hone.le, hG.content, hG.numbered, hG.received, hG.increasing⟩,
        assert_setup htokens rfl id ⟨hone, hsem, hsegment, by rw [hsent]; rfl⟩,
        .setup htokens rfl id fun _ => hsem⟩
    · obtain ⟨rfl, rfl⟩ := Prod.mk.inj (Option.some.inj h)
      exact hexited id
  | lock _ | format _ | copy _ _ | terminate _ | unlock _ | exited => cases hsetup

theorem sender_own {env : Env} {pc pc' : SenderPc} (hG : Global pid x)
    (hA : Assert pid .sender x pc) (h : senderNext pid env x pc = some (x', pc')) :
    Global pid x' ∧ Assert pid .sender x' pc' ∧ Guarantee .sender x x' := by
  have hat : SenderAt pid x pc := hA.holds
  cases pc with
  | openFile | ftok | shmget | shmat | semget | setval => exact setup_own hG hA trivial h
  | lock counter =>
    have hready : Ready counter x := hat
    obtain ⟨x₁, hacq, heq⟩ := Option.map_eq_some_iff.mp h
    obtain ⟨rfl, rfl⟩ := Prod.mk.inj heq
    obtain ⟨hholder, htokens, rfl⟩ := lock_eq_some hacq hready.semaphore hG.tokens_le
    obtain ⟨segment, hsegment⟩ := Option.isSome_iff_exists.mp hready.segment
    have hcontent := hG.content (by rw [hholder]; nofun) segment hsegment
    exact ⟨hG.lock hholder, ⟨iff_of_true rfl trivial,
      ⟨rfl, rfl, hready.segment, hready.length_sent⟩, hsegment.trans (congrArg some hcontent)⟩,
      .lock hholder htokens⟩
  | format counter =>
    rw [senderNext] at h
    split at h
    · next hlt =>
      obtain ⟨rfl, rfl⟩ := Prod.mk.inj (Option.some.inj h)
      obtain ⟨hready, hsegment⟩ := hat
      have hlen := hready.length_sent
      refine ⟨hG, hA.move Iff.rfl ⟨hlen ▸ hready, by rw [hlen], hlt, Nat.zero_le _, ?_⟩, .refl⟩
      rw [hsegment]
      rfl
    · cases h
  | copy m k =>
    have hholder := hA.holder_eq trivial
    obtain ⟨hready, hnumber, hlt, hk, hsegment⟩ := hat
    rw [senderNext] at h
    split at h
    · next hk' =>
      obtain ⟨rfl, rfl⟩ := Prod.mk.inj (Option.some.inj h)
      refine ⟨⟨hG.tokens_le, fun hne => absurd hholder hne, hG.numbered, hG.received,
          hG.increasing⟩, ⟨hA.holder_iff.trans Iff.rfl, ?_⟩,
        .write hholder hholder isSome_setByte id⟩
      refine ⟨⟨hready.tokens_eq, hready.semaphore, isSome_setByte hready.segment, rfl⟩, hnumber, hlt,
        hk', ?_⟩
      show x.segment.map _ = _
      rw [hsegment, Option.map_some]
      exact congrArg some (overwritten_next hG hlt hk')
    · next hk' =>
      obtain ⟨rfl, rfl⟩ := Prod.mk.inj (Option.some.inj h)
      have hdone : k = bufferSize - 1 := by omega
      exact ⟨hG, hA.move Iff.rfl ⟨hready, hnumber, hlt, hdone ▸ hsegment⟩, .refl⟩
  | terminate m =>
    have hholder := hA.holder_eq trivial
    obtain ⟨hready, hnumber, hlt, hsegment⟩ := hat
    obtain ⟨rfl, rfl⟩ := Prod.mk.inj (Option.some.inj h)
    refine ⟨hG.terminate hholder hnumber hlt, ⟨hA.holder_iff.trans Iff.rfl, ?_⟩,
      .write hholder hholder isSome_setByte id⟩
    refine ⟨⟨hready.tokens_eq, hready.semaphore, isSome_setByte hready.segment, ?_⟩, ?_⟩
    · rw [hnumber]
      exact List.length_append
    · show x.segment.map _ = _
      rw [hsegment, Option.map_some, overwritten_last hG hlt, latest, List.getLast?_append]
      rfl
  | unlock counter =>
    have hholder := hA.holder_eq trivial
    obtain ⟨hready, hsegment⟩ := hat
    obtain ⟨rfl, rfl⟩ := Prod.mk.inj (Option.some.inj h)
    refine ⟨hG.unlock hholder hready.semaphore fun segment hs => ?_,
      ⟨iff_of_false nofun id, ?_⟩, .unlock hholder hready.semaphore⟩
    · exact Option.some.inj (hs.symm.trans hsegment)
    · exact hready.congr (tokens_unlock hholder hready.semaphore) isSome_unlock rfl rfl
  | exited => cases h

-- ---------------------------------------------------------------------------
-- Actions of the receivers
-- ---------------------------------------------------------------------------

/-- The byte that a receiver reads while it has taken the semaphore. -/
theorem Global.getD_segment (h : Global pid x) (hholder : x.holder = some (.receiver i))
    (hsegment : x.segment.isSome) (k : Nat) :
    (x.segment.getD []).getD k 0 = (latest pid x.sent).getD k 0 := by
  obtain ⟨segment, hs⟩ := Option.isSome_iff_exists.mp hsegment
  rw [hs, Option.getD_some, h.content (by rw [hholder]; nofun) segment hs, getD_padded]

/-- The copying stops at the end of the message. -/
theorem take_eq_latest (h : Global pid x) {k : Nat}
    (hstop : ¬ (k < messageSize - 1 ∧ (latest pid x.sent).getD k 0 ≠ 0)) :
    (latest pid x.sent).take k = latest pid x.sent := by
  refine List.take_of_length_le (Nat.le_of_not_lt fun hlt => hstop ⟨?_, ?_⟩)
  · have hlen := length_latest_le h
    unfold messageSize
    omega
  · intro h0
    rw [List.getD_eq_getElem _ _ hlt] at h0
    exact zero_notMem_latest (h0 ▸ List.getElem_mem hlt)

theorem Global.print (h : Global pid x) (i : ι) {message : Bytes}
    (hmessage : message = latest pid x.sent) :
    Global pid { x with received := x.received ++ [⟨i, message, x.sent.length⟩] } := by
  refine ⟨h.tokens_le, h.content, h.numbered, ?_, ?_⟩
  · intro e he
    rcases List.mem_append.mp he with he | he
    · exact h.received e he
    · rw [List.mem_singleton.mp he, List.take_length]
      exact ⟨hmessage, le_rfl⟩
  · refine List.pairwise_append.mpr ⟨h.increasing, List.pairwise_singleton .., fun e he f hf => ?_⟩
    rw [List.mem_singleton.mp hf]
    exact (h.received e he).2

theorem receiver_own {env : Env} {pc pc' : ReceiverPc} (hG : Global pid x)
    (hA : Assert pid (.receiver i) x pc) (h : receiverNext env i x pc = some (x', pc')) :
    Global pid x' ∧ Assert pid (.receiver i) x' pc' ∧ Guarantee (.receiver i) x x' := by
  have hat : ReceiverAt pid x pc := hA.holds
  have hholder : pc.inside = true → x.holder = some (.receiver i) := hA.holder_iff.mpr
  cases pc with
  | ftok =>
    obtain ⟨rfl, rfl⟩ := Prod.mk.inj (Option.some.inj h)
    split <;> exact ⟨hG, hA.move Iff.rfl trivial, .refl⟩
  | shmget =>
    obtain ⟨rfl, rfl⟩ := Prod.mk.inj (Option.some.inj h)
    split
    · next hok => exact ⟨hG, hA.move Iff.rfl hok.2, .refl⟩
    · exact ⟨hG, hA.move Iff.rfl trivial, .refl⟩
  | shmat =>
    obtain ⟨rfl, rfl⟩ := Prod.mk.inj (Option.some.inj h)
    split
    · exact ⟨hG, hA.move Iff.rfl hat, .refl⟩
    · exact ⟨hG, hA.move Iff.rfl trivial, .refl⟩
  | semget =>
    obtain ⟨rfl, rfl⟩ := Prod.mk.inj (Option.some.inj h)
    split
    · next hok => exact ⟨hG, hA.move Iff.rfl ⟨hat, hok.2⟩, .refl⟩
    · exact ⟨hG, hA.move Iff.rfl trivial, .refl⟩
  | lock =>
    obtain ⟨x₁, hacq, heq⟩ := Option.map_eq_some_iff.mp h
    obtain ⟨rfl, rfl⟩ := Prod.mk.inj heq
    obtain ⟨hnone, htokens, rfl⟩ := lock_eq_some hacq hat.2 hG.tokens_le
    exact ⟨hG.lock hnone, ⟨iff_of_true rfl rfl, ⟨hat.1, rfl⟩, rfl⟩,
      .lock hnone htokens⟩
  | copy k message =>
    obtain ⟨hset, hmessage⟩ := hat
    rw [receiverNext, hG.getD_segment (hholder rfl) hset.1] at h
    obtain ⟨rfl, rfl⟩ := Prod.mk.inj (Option.some.inj h)
    split
    · next hgo =>
      have hlt : k < (latest pid x.sent).length := by
        by_contra hge
        exact hgo.2 (List.getD_eq_default _ _ (Nat.le_of_not_lt hge))
      refine ⟨hG, hA.move Iff.rfl ⟨hset, ?_⟩, .refl⟩
      rw [hmessage, List.getD_eq_getElem _ _ hlt, List.take_append_getElem]
    · next hstop =>
      exact ⟨hG, hA.move Iff.rfl ⟨hset, hmessage.trans (take_eq_latest hG hstop)⟩, .refl⟩
  | print message =>
    obtain ⟨rfl, rfl⟩ := Prod.mk.inj (Option.some.inj h)
    have hl := hholder rfl
    exact ⟨hG.print i hat.2, ⟨hA.holder_iff, hat.1⟩,
      .work hl hl, id, id, fun _ => ⟨rfl, rfl, rfl⟩⟩
  | unlock =>
    obtain ⟨rfl, rfl⟩ := Prod.mk.inj (Option.some.inj h)
    have hl := hholder rfl
    exact ⟨hG.unlock hl hat.2 (hG.content (by rw [hl]; nofun)),
      ⟨iff_of_false nofun nofun, hat.1, isSome_unlock hat.2⟩, .unlock hl hat.2⟩
  | handler inside =>
    obtain rfl : inside = false := hat
    obtain ⟨rfl, rfl⟩ := Prod.mk.inj (Option.some.inj h)
    exact ⟨hG, hA.move Iff.rfl trivial, .refl⟩
  | exited => cases h

/-- A signal is delivered outside the critical section. -/
theorem interrupt_own {pc pc' : ReceiverPc} (hG : Global pid x)
    (hA : Assert pid (.receiver i) x pc) (hout : pc.inside = false)
    (h : interrupt x pc = some (x', pc')) :
    Global pid x' ∧ Assert pid (.receiver i) x' pc' ∧ Guarantee (.receiver i) x x' := by
  cases pc with
  | handler | exited => cases h
  | copy | print | unlock => cases hout
  | _ =>
    obtain ⟨rfl, rfl⟩ := Prod.mk.inj (Option.some.inj h)
    exact ⟨hG, hA.move Iff.rfl rfl, .refl⟩

-- ---------------------------------------------------------------------------
-- The outline
-- ---------------------------------------------------------------------------

/-- No signal is delivered to a receiver that has taken the semaphore. -/
def Undisturbed : (a : Action ι) → Pc a.actor → Prop
  | .run .., _ => True
  | .signal _, pc => ReceiverPc.inside pc = false

instance : (a : Action ι) → (pc : Pc a.actor) → Decidable (Undisturbed a pc)
  | .run .., _ => .isTrue trivial
  | .signal _, pc => inferInstanceAs (Decidable (ReceiverPc.inside pc = false))

variable [DecidableEq ι]

/-- The outline of the processes. -/
def outline (pid : Pid) : Team.Outline (T := Process ι) Action.actor (next pid) where
  Allowed a _ pc := Undisturbed a pc
  Global := Global pid
  Assert := Assert pid
  Guarantee := Guarantee
  own a x pc x' pc' hG hA hC h := by
    cases a with
    | signal i => exact interrupt_own hG hA hC h
    | run p env =>
      cases p with
      | sender => exact sender_own hG hA h
      | receiver i => exact receiver_own hG hA h
  stable p q x x' pc hq _ hguar hA := hA.stable hq hguar

omit [DecidableEq ι] in
theorem outline_start : (outline pid).Holds (start : State ι) where
  global :=
    { tokens_le := Nat.zero_le 1
      content := nofun
      numbered := nofun
      received := nofun
      increasing := .nil }
  assert p := by
    cases p with
    | sender => exact ⟨iff_of_false nofun id, rfl, rfl⟩
    | receiver i => exact ⟨iff_of_false nofun nofun, trivial⟩

end LabsOS.Sems
