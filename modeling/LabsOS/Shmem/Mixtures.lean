import LabsOS.Shmem.Exchange
import Mathlib.Data.Finset.Basic
import Mathlib.Data.Finset.SDiff

/-!
# Every mixture is read

A receiver of `lab7_shmem/receive.c` may print any mixture of two messages that follow each other
(`exists_mixture`), and prints nothing but mixtures (`reads_mix_messages`).
-/

namespace LabsOS.Shmem.Exchange

variable {ι : Type} [DecidableEq ι] {pid : Pid} {pids : ι → Pid} {s : State ι} {i : ι}

-- ---------------------------------------------------------------------------
-- Runs of one process
-- ---------------------------------------------------------------------------

theorem sender_step {env : Env} {x' : Shared ι} {pc' : SenderPc}
    (h : senderNext pid env s.shared (s.locals .sender) = some (x', pc')) :
    step pid pids ⟨.sender, env⟩ s = some ⟨x', Function.update s.locals .sender pc'⟩ :=
  Team.step_of_next (a := (⟨.sender, env⟩ : Action ι)) h

theorem receiver_step {env : Env} {x' : Shared ι} {pc' : ReceiverPc}
    (h : receiverNext pids env i s.shared (s.locals (.receiver i)) = some (x', pc')) :
    step pid pids ⟨.receiver i, env⟩ s = some ⟨x', Function.update s.locals (.receiver i) pc'⟩ :=
  Team.step_of_next (a := (⟨.receiver i, env⟩ : Action ι)) h

/-- The sender stores all bytes of its message that are left. -/
theorem sender_stores (pid : Pid) (pids : ι → Pid) (env : Env) (data : Nat → UInt8)
    (left : Finset Nat) :
    ∀ s : State ι, s.locals .sender = .memcpy data left → ∃ s', Reaches (step pid pids) s s' ∧
      s'.locals = Function.update s.locals .sender (.print data) ∧
      s'.shared = s.shared.withSegment
        ⟨fun j => if j ∈ left then data j else s.shared.segment.cells j,
          s.shared.segment.versions, s.shared.segment.versions.length - 1⟩ := by
  induction left using Finset.induction_on with
  | empty =>
    intro s hs
    have hnext : senderNext pid env s.shared (s.locals .sender) =
        some (s.shared.withSegment s.shared.segment.finish, .print data) := by
      rw [hs, senderNext, if_pos rfl]
    exact ⟨_, .step _ .refl (sender_step hnext), rfl, by simp [Register.finish]⟩
  | insert j left hj ih =>
    intro s hs
    have hnext : senderNext pid { env with index := j } s.shared (s.locals .sender) =
        some (s.shared.withSegment (s.shared.segment.store j (data j)), .memcpy data left) := by
      rw [hs, senderNext, if_neg (Finset.insert_ne_empty j left),
        if_pos (Finset.mem_insert_self ..), Finset.erase_insert hj]
    obtain ⟨s', hreach, hlocals, hshared⟩ := ih
      ⟨s.shared.withSegment (s.shared.segment.store j (data j)),
        Function.update s.locals .sender (.memcpy data left)⟩ (by simp)
    refine ⟨s', (Reaches.step _ .refl (sender_step hnext)).trans hreach, ?_, ?_⟩
    · rw [hlocals, Function.update_idem]
    · rw [hshared]
      have hcells : (fun k => if k ∈ left then data k else
          Function.update s.shared.segment.cells j (data j) k) =
          fun k => if k ∈ insert j left then data k else s.shared.segment.cells k := by
        funext k
        by_cases hk : k = j
        · subst hk
          simp
        · simp [hk]
      show s.shared.withSegment ⟨_, _, _⟩ = _
      rw [← hcells]
      rfl

/-- `memset` stores all zeros that are left. -/
theorem sender_clears (pid : Pid) (pids : ι → Pid) (env : Env) (left : Finset Nat) :
    ∀ s : State ι, s.locals .sender = .memset left → ∃ s' cells, Reaches (step pid pids) s s' ∧
      s'.locals = Function.update s.locals .sender .format ∧
      s'.shared = s.shared.withSegment
        ⟨cells, s.shared.segment.versions, s.shared.segment.complete⟩ := by
  induction left using Finset.induction_on with
  | empty =>
    intro s hs
    have hnext : senderNext pid env s.shared (s.locals .sender) = some (s.shared, .format) := by
      rw [hs, senderNext, if_pos rfl]
    exact ⟨_, _, .step _ .refl (sender_step hnext), rfl, rfl⟩
  | insert j left hj ih =>
    intro s hs
    have hnext : senderNext pid { env with index := j } s.shared (s.locals .sender) =
        some (s.shared.withSegment (s.shared.segment.store j 0), .memset left) := by
      rw [hs, senderNext, if_neg (Finset.insert_ne_empty j left),
        if_pos (Finset.mem_insert_self ..), Finset.erase_insert hj]
    obtain ⟨s', cells, hreach, hlocals, hshared⟩ := ih
      ⟨s.shared.withSegment (s.shared.segment.store j 0),
        Function.update s.locals .sender (.memset left)⟩ (by simp)
    refine ⟨s', cells, (Reaches.step _ .refl (sender_step hnext)).trans hreach, ?_, ?_⟩
    · rw [hlocals, Function.update_idem]
    · rw [hshared]
      rfl

/-- The receiver copies the bytes `part` of those that are left. -/
theorem receiver_loads (pid : Pid) (pids : ι → Pid) (i : ι) (env : Env) (since : Nat)
    (part : Finset Nat) :
    ∀ (s : State ι) (data : Nat → UInt8) (left : Finset Nat), part ⊆ left →
      s.locals (.receiver i) = .memcpy since data left → ∃ s', Reaches (step pid pids) s s' ∧
      s'.locals = Function.update s.locals (.receiver i) (.memcpy since
        (fun j => if j ∈ part then s.shared.segment.cells j else data j) (left \ part)) ∧
      s'.shared = s.shared := by
  induction part using Finset.induction_on with
  | empty =>
    intro s data left _ hs
    refine ⟨s, .refl, ?_, rfl⟩
    have hsame : (.memcpy since (fun j => if j ∈ (∅ : Finset Nat) then s.shared.segment.cells j
        else data j) (left \ ∅) : ReceiverPc) = s.locals (.receiver i) := by
      rw [hs]
      simp
    rw [hsame, Function.update_eq_self]
  | insert j part hj ih =>
    intro s data left hpart hs
    obtain ⟨hjleft, hrest⟩ := Finset.insert_subset_iff.mp hpart
    have hne : left ≠ ∅ := Finset.ne_empty_of_mem hjleft
    have hnext : receiverNext pids { env with index := j } i s.shared (s.locals (.receiver i)) =
        some (s.shared, .memcpy since (Function.update data j (s.shared.segment.cells j))
          (left.erase j)) := by
      rw [hs, receiverNext, if_neg hne, if_pos hjleft]
    have hpart' : part ⊆ left.erase j := fun k hk =>
      Finset.mem_erase.mpr ⟨fun heq => hj (heq ▸ hk), hrest hk⟩
    obtain ⟨s', hreach, hlocals, hshared⟩ := ih
      ⟨s.shared, Function.update s.locals (.receiver i) (.memcpy since
        (Function.update data j (s.shared.segment.cells j)) (left.erase j))⟩
      (Function.update data j (s.shared.segment.cells j)) (left.erase j) hpart' (by simp)
    refine ⟨s', (Reaches.step _ .refl (receiver_step hnext)).trans hreach, ?_, hshared⟩
    have hcells : (fun k => if k ∈ part then s.shared.segment.cells k else
        Function.update data j (s.shared.segment.cells j) k) =
        fun k => if k ∈ insert j part then s.shared.segment.cells k else data k := by
      funext k
      by_cases hk : k = j
      · subst hk
        simp
      · simp [hk]
    have hleft : left.erase j \ part = left \ insert j part := by
      ext k
      simp only [Finset.mem_sdiff, Finset.mem_erase, Finset.mem_insert]
      tauto
    rw [hlocals, Function.update_idem, ← hcells, ← hleft]

/-- One round of the loop of the sender. -/
theorem sender_writes (pid : Pid) (pids : ι → Pid) (env : Env) {s : State ι}
    (hs : s.locals .sender = .format) :
    ∃ s', Reaches (step pid pids) s s' ∧ s'.locals = s.locals ∧
      ∀ j < bufSize, s'.shared.segment.cells j = dataString pid env.time env.rest j := by
  have hformat : senderNext pid env s.shared (s.locals .sender) =
      some (s.shared.send env.time (dataString pid env.time env.rest),
        .memcpy (dataString pid env.time env.rest) (Finset.range bufSize)) := by
    rw [hs, senderNext]
  obtain ⟨s₁, hreach, hlocals, hshared⟩ := sender_stores pid pids env
    (dataString pid env.time env.rest) (Finset.range bufSize)
    ⟨s.shared.send env.time (dataString pid env.time env.rest), Function.update s.locals .sender
      (.memcpy (dataString pid env.time env.rest) (Finset.range bufSize))⟩ (by simp)
  have hprint : s₁.locals .sender = .print (dataString pid env.time env.rest) := by
    rw [hlocals]
    simp
  have hnext : senderNext pid env s₁.shared (s₁.locals .sender) =
      some (s₁.shared.print .sender (ascii "[sender]: data has been written: " ++
        string (dataString pid env.time env.rest) ++ ascii "\n"), .format) := by
    rw [hprint, senderNext]
  refine ⟨_, ((Reaches.step _ .refl (sender_step hformat)).trans hreach).step _
    (sender_step hnext), ?_, fun j hj => ?_⟩
  · show Function.update s₁.locals .sender .format = s.locals
    rw [hlocals, Function.update_idem, Function.update_idem, ← hs, Function.update_eq_self]
  · show s₁.shared.segment.cells j = _
    rw [hshared]
    exact if_pos (Finset.mem_range.mpr hj)

/-- A receiver prints its copy. -/
theorem receiver_prints (pid : Pid) (pids : ι → Pid) (env : Env) {s : State ι} {since : Nat}
    {data : Nat → UInt8} (hs : s.locals (.receiver i) = .memcpy since data ∅)
    (hdata : Terminated data) :
    ∃ s', Reaches (step pid pids) s s' ∧
      ∃ e ∈ s'.shared.received, e.receiver = i ∧ e.data = string data := by
  have hmemcpy : receiverNext pids env i s.shared (s.locals (.receiver i)) =
      some (s.shared, .print since data) := by
    rw [hs, receiverNext, if_pos rfl]
  have hprint : receiverNext pids env i s.shared
      (Function.update s.locals (.receiver i) (.print since data) (.receiver i)) =
      some ((s.shared.print (.receiver i) (receivedLines (pids i) (string data) env.time)).receive
        ⟨i, string data, since, s.shared.segment.versions.length - 1⟩, .start) := by
    rw [Function.update_self, receiverNext, if_pos hdata]
  exact ⟨_, (Reaches.step _ .refl (receiver_step hmemcpy)).step _ (receiver_step hprint), _,
    List.mem_append_right _ (List.mem_singleton_self _), rfl, rfl⟩

-- ---------------------------------------------------------------------------
-- Mixtures
-- ---------------------------------------------------------------------------

/-- A time of which each character is from one of two. -/
def mixed (choice : Nat → Bool) (t₁ t₂ : LocalTime) : Bytes :=
  (List.range 19).map fun j => if choice j then t₁.stamp.getD j 0 else t₂.stamp.getD j 0

theorem length_mixed (choice : Nat → Bool) (t₁ t₂ : LocalTime) :
    (mixed choice t₁ t₂).length = 19 := by
  rw [mixed, List.length_map, List.length_range]

theorem getElem?_text_mixed (choice : Nat → Bool) (t₁ t₂ : LocalTime) (j : Nat) :
    (text pid (mixed choice t₁ t₂))[j]? =
      if choice (j - 13) then (text pid t₁.stamp)[j]? else (text pid t₂.stamp)[j]? := by
  simp only [getElem?_text (length_mixed choice t₁ t₂), getElem?_text t₁.length_stamp,
    getElem?_text t₂.length_stamp]
  by_cases hfirst : j < 13
  · simp only [if_pos hfirst, ite_self]
  · by_cases hsecond : j < 32
    · have hlt : j - 13 < 19 := by omega
      have hlt₁ : j - 13 < t₁.stamp.length := t₁.length_stamp.symm ▸ hlt
      have hlt₂ : j - 13 < t₂.stamp.length := t₂.length_stamp.symm ▸ hlt
      simp only [if_neg hfirst, if_pos hsecond, mixed, List.getElem?_map, List.getElem?_range hlt,
        Option.map_some, List.getD_eq_getElem _ _ hlt₁, List.getD_eq_getElem _ _ hlt₂,
        List.getElem?_eq_getElem hlt₁, List.getElem?_eq_getElem hlt₂]
      split <;> rfl
    · simp only [if_neg hfirst, if_neg hsecond, ite_self]

/-- The string of an array whose bytes are from two messages. -/
theorem string_eq_mixed {choice : Nat → Bool} {t₁ t₂ : LocalTime} {rest data : Nat → UInt8}
    (hdata : ∀ j < bufSize, data j =
      if choice (j - 13) then dataString pid t₁ rest j else dataString pid t₂ rest j) :
    Terminated data ∧ string data = text pid (mixed choice t₁ t₂) := by
  have hend : data (messageLength pid) = 0 := by
    rw [hdata _ (messageLength_lt_bufSize pid), dataString_messageLength, dataString_messageLength,
      ite_self]
  have hbyte : ∀ j < messageLength pid, data j ≠ 0 ∧
      (text pid (mixed choice t₁ t₂))[j]? = some (data j) := by
    intro j hj
    obtain ⟨htext₁, hne₁⟩ := dataString_of_lt t₁ rest hj
    obtain ⟨htext₂, hne₂⟩ := dataString_of_lt t₂ rest hj
    rw [hdata j (hj.trans (messageLength_lt_bufSize pid)), getElem?_text_mixed]
    split
    · exact ⟨hne₁, htext₁⟩
    · exact ⟨hne₂, htext₂⟩
  have hlength := length_string_eq hend (messageLength_lt_bufSize pid) fun j hj => (hbyte j hj).1
  refine ⟨⟨_, messageLength_lt_bufSize pid, hend⟩, List.ext_getElem? fun j => ?_⟩
  by_cases hj : j < messageLength pid
  · rw [(getElem?_string (hlength ▸ hj)).1, (hbyte j hj).2]
  · rw [List.getElem?_eq_none (by rw [hlength]; omega),
      List.getElem?_eq_none (by rw [length_text pid (length_mixed ..)]; omega)]

/-- **Any mixture is read.** The receiver copies some bytes before the sender stores its second
message, and the others behind it. -/
theorem exists_mixture (i : ι) (t₁ t₂ : LocalTime) (choice : Nat → Bool) :
    ∃ s : State ι, Reaches (step pid pids) start s ∧
      ∃ e ∈ s.shared.received, e.receiver = i ∧ e.data = text pid (mixed choice t₁ t₂) := by
  let rest : Nat → UInt8 := fun _ => 0
  let part := (Finset.range bufSize).filter fun j => choice (j - 13) = true
  -- the first message
  obtain ⟨s₁, cells, hreach₁, hlocals₁, -⟩ :=
    sender_clears pid pids ⟨t₁, rest, 0⟩ (Finset.range bufSize) start rfl
  obtain ⟨s₂, hreach₂, hlocals₂, hcells₂⟩ :=
    sender_writes pid pids ⟨t₁, rest, 0⟩ (s := s₁) (by rw [hlocals₁]; simp)
  have hstart : s₂.locals (.receiver i) = .start := by
    rw [hlocals₂, hlocals₁]
    rfl
  -- some bytes of it
  have hnext : receiverNext pids ⟨t₁, rest, 0⟩ i s₂.shared (s₂.locals (.receiver i)) =
      some (s₂.shared, .memcpy s₂.shared.segment.complete rest (Finset.range bufSize)) := by
    rw [hstart, receiverNext]
  obtain ⟨s₃, hreach₃, hlocals₃, hshared₃⟩ :=
    receiver_loads pid pids i ⟨t₁, rest, 0⟩ s₂.shared.segment.complete
      part ⟨s₂.shared, Function.update s₂.locals (.receiver i)
        (.memcpy s₂.shared.segment.complete rest (Finset.range bufSize))⟩ rest
      (Finset.range bufSize) (Finset.filter_subset ..) (by simp)
  have hsender₃ : s₃.locals .sender = .format := by
    rw [hlocals₃, hlocals₂, hlocals₁]
    simp
  -- the second message, and the other bytes
  obtain ⟨s₄, hreach₄, hlocals₄, hcells₄⟩ :=
    sender_writes pid pids ⟨t₂, rest, 0⟩ hsender₃
  obtain ⟨s₅, hreach₅, hlocals₅, -⟩ :=
    receiver_loads pid pids i ⟨t₂, rest, 0⟩ s₂.shared.segment.complete
      (Finset.range bufSize \ part) s₄ _ _ subset_rfl
      (by rw [hlocals₄, hlocals₃, Function.update_self])
  have hreceiver₅ := congrFun hlocals₅ (.receiver i)
  rw [Function.update_self, Finset.sdiff_self] at hreceiver₅
  have hdata : ∀ j < bufSize, (if j ∈ Finset.range bufSize \ part then s₄.shared.segment.cells j
      else if j ∈ part then s₂.shared.segment.cells j else rest j) =
      if choice (j - 13) then dataString pid t₁ rest j else dataString pid t₂ rest j := by
    intro j hj
    have hpart : j ∈ part ↔ choice (j - 13) = true := by simp [part, hj]
    by_cases hchoice : choice (j - 13) = true
    · rw [if_neg (by simp [hpart, hchoice]), if_pos (hpart.mpr hchoice), if_pos hchoice,
        hcells₂ j hj]
    · rw [if_pos (by simp [hpart, hchoice, hj]), if_neg hchoice, hcells₄ j hj]
  obtain ⟨hterminated, hstring⟩ := string_eq_mixed hdata
  obtain ⟨s₆, hreach₆, e, he, hreceiver, hstring'⟩ :=
    receiver_prints pid pids ⟨t₂, rest, 0⟩ hreceiver₅ hterminated
  refine ⟨s₆, ?_, e, he, hreceiver, hstring'.trans hstring⟩
  exact ((((hreach₁.trans hreach₂).step _ (receiver_step hnext)).trans hreach₃).trans
    hreach₄).trans (hreach₅.trans hreach₆)

end LabsOS.Shmem.Exchange
