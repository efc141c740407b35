import LabsOS.Concurrency.Fairness
import LabsOS.Sems.Turns

/-!
# Progress of the turns

A thread of `lab9_sems/thread_example.c` that holds the semaphore can go on until it gives it
back, so that the threads never block each other for good (`lines_are_turns`). But the reader
takes the semaphore again at once: it can have all the turns, while the writer waits
(`reader_may_starve_writer`).
-/

namespace LabsOS.Sems.Threads

variable {tid : Thread → Nat} {env : Env} {x x' : Shared} {pc pc' : Pc} {s s' : State}

-- ---------------------------------------------------------------------------
-- Steps of the holder
-- ---------------------------------------------------------------------------

/-- The steps that are left in front of `sem_post`. -/
def Pc.left : Pc → Nat
  | .printStarted => 1023
  | .wait => 1022
  | .count => 1021
  | .time => 1020
  | .store _ left => 1010 + left.card
  | .load _ _ left => 1000 + left.card
  | .snprintf _ _ left => 300 + left.card
  | .printf _ _ got => 1 + (bufferSize - got.length)
  | .post => 0

/-- A step of the holder, on the data or printing a line in front of `sem_post`. -/
structure Works (x x' : Shared) (pc pc' : Pc) : Prop where
  inside : pc'.Inside
  left_lt : pc'.left < pc.left
  created : x'.created = x.created
  exited : x'.exited = x.exited
  printed : x'.output.length = x.output.length ∧ pc' ≠ .post ∨
    x'.output.length = x.output.length + 1 ∧ pc' = .post

/-- `localtime` and the loads behind it go on. -/
theorem clock_moves (x : Shared) {next : LocalTime → Bytes → Pc} (time : LocalTime)
    (hnext : ∀ current clock, (next current clock).Inside ∧ (next current clock).left < 1000 ∧
      next current clock ≠ .post)
    (hpc : pc = .time ∨ (∃ current left, pc = .store current left) ∨
      ∃ current loaded left, pc = .load current loaded left) :
    ∃ env x' pc', clockNext env x next pc = some (x', pc') ∧ Works x x' pc pc' ∧
      x'.data.counter = x.data.counter := by
  have hcard : (Finset.univ : Finset Field).card = 3 := rfl
  rcases hpc with rfl | ⟨current, left, rfl⟩ | ⟨current, loaded, left, rfl⟩
  · refine ⟨⟨true, time, .hour, 0⟩, x, _, rfl,
      ⟨trivial, ?_, rfl, rfl, .inl ⟨rfl, by rintro ⟨⟩⟩⟩, rfl⟩
    show 1010 + (Finset.univ : Finset Field).card < 1020
    rw [hcard]
    decide
  · by_cases hleft : left = ∅
    · refine ⟨⟨true, time, .hour, 0⟩, x, .load current (fun _ => 0) Finset.univ, if_pos hleft,
        ⟨trivial, ?_, rfl, rfl, .inl ⟨rfl, by rintro ⟨⟩⟩⟩, rfl⟩
      show 1000 + (Finset.univ : Finset Field).card < 1010 + left.card
      rw [hcard]
      omega
    · obtain ⟨field, hfield⟩ := Finset.nonempty_iff_ne_empty.mpr hleft
      refine ⟨⟨true, time, field, 0⟩, x.setField field (tmOf current field),
        .store current (left.erase field), (if_neg hleft).trans (if_pos hfield),
        ⟨trivial, ?_, rfl, rfl, .inl ⟨rfl, by rintro ⟨⟩⟩⟩, rfl⟩
      exact Nat.add_lt_add_left (Finset.card_erase_lt_of_mem hfield) 1010
  · by_cases hleft : left = ∅
    · obtain ⟨hin, hlt, hne⟩ := hnext current (clock loaded)
      exact ⟨⟨true, time, .hour, 0⟩, x, _, by rw [clockNext, if_pos hleft],
        ⟨hin, hlt.trans_le (Nat.le_add_right _ _), rfl, rfl, .inl ⟨rfl, hne⟩⟩, rfl⟩
    · obtain ⟨field, hfield⟩ := Finset.nonempty_iff_ne_empty.mpr hleft
      refine ⟨⟨true, time, field, 0⟩, x,
        .load current (Function.update loaded field (x.data.tm field)) (left.erase field),
        (if_neg hleft).trans (if_pos hfield),
        ⟨trivial, ?_, rfl, rfl, .inl ⟨rfl, by rintro ⟨⟩⟩⟩, rfl⟩
      exact Nat.add_lt_add_left (Finset.card_erase_lt_of_mem hfield) 1000

theorem printf_moves {event : Event} {line : Bytes → Bytes} {current : LocalTime}
    {timeString got content : Bytes} (hholds : Holds x.data.buffer content)
    (hgot : got <+: content) :
    ∃ x' pc', printfNext x event line current timeString got = some (x', pc') ∧
      Works x x' (.printf current timeString got) pc' ∧ x'.data.counter = x.data.counter := by
  have hlt := (hholds.read hgot).1
  rw [printfNext, if_pos hlt]
  split
  · exact ⟨_, _, rfl, ⟨trivial, Nat.lt_add_right _ Nat.one_pos, rfl, rfl,
      .inr ⟨List.length_append, rfl⟩⟩, rfl⟩
  · refine ⟨_, _, rfl, ⟨trivial, ?_, rfl, rfl, .inl ⟨rfl, by rintro ⟨⟩⟩⟩, rfl⟩
    show 1 + (bufferSize - (got ++ [_]).length) < 1 + (bufferSize - got.length)
    rw [List.length_append, List.length_singleton]
    omega

/-- The writer goes on inside, unless its counter would overflow. -/
theorem writer_moves (hA : Assert tid .writer x pc) (hin : pc.Inside) (hpost : pc ≠ .post)
    (hcounter : x.data.counter + 1 < 2 ^ 31) (time : LocalTime) :
    ∃ env x' pc', writerNext tid env x pc = some (x', pc') := by
  obtain ⟨-, hat⟩ := hA
  have hformat : ∀ current clock, (x.format current clock).Inside ∧
      (x.format current clock).left < 1000 ∧ x.format current clock ≠ .post := by
    intro current clock
    refine ⟨trivial, ?_, nofun⟩
    show 300 + (Finset.range _).card < 1000
    rw [Finset.card_range, List.length_take]
    have := min_le_left (bufferSize - 1) (message x.data.counter clock).length
    unfold bufferSize at *
    omega
  cases pc with
  | printStarted | wait => cases hin
  | post => exact absurd rfl hpost
  | count => exact ⟨⟨true, time, .hour, 0⟩, _, _, by rw [writerNext, if_pos hcounter]⟩
  | time =>
    obtain ⟨env, x', pc', h, -⟩ := clock_moves x time hformat (.inl rfl)
    exact ⟨env, x', pc', h⟩
  | store current left =>
    obtain ⟨env, x', pc', h, -⟩ := clock_moves x time hformat (.inr (.inl ⟨current, left, rfl⟩))
    exact ⟨env, x', pc', h⟩
  | load current loaded left =>
    obtain ⟨env, x', pc', h, -⟩ :=
      clock_moves x time hformat (.inr (.inr ⟨current, loaded, left, rfl⟩))
    exact ⟨env, x', pc', h⟩
  | snprintf current text left =>
    by_cases hleft : left = ∅
    · exact ⟨⟨true, time, .hour, 0⟩, _, _, by rw [writerNext, if_pos hleft]⟩
    · obtain ⟨index, hindex⟩ := Finset.nonempty_iff_ne_empty.mpr hleft
      exact ⟨⟨true, time, .hour, index⟩, _, _, by rw [writerNext, if_neg hleft, if_pos hindex]⟩
  | printf current timeString got =>
    obtain ⟨-, hholds, hgot⟩ := hat
    obtain ⟨x', pc', h, -⟩ := printf_moves hholds hgot
    exact ⟨⟨true, time, .hour, 0⟩, x', pc', h⟩

/-- The reader goes on inside. -/
theorem reader_moves (hG : Global tid x) (hA : Assert tid .reader x pc) (hin : pc.Inside)
    (hpost : pc ≠ .post) (time : LocalTime) :
    ∃ env x' pc', readerNext tid env x pc = some (x', pc') ∧ Works x x' pc pc' ∧
      x'.data.counter = x.data.counter := by
  obtain ⟨hholder, hat⟩ := hA
  have hprintf : ∀ (current : LocalTime) (clock : Bytes), (Pc.printf current clock []).Inside ∧
      (Pc.printf current clock []).left < 1000 ∧ Pc.printf current clock [] ≠ .post :=
    fun _ _ => ⟨trivial, show 1 + (256 - 0) < 1000 by decide, nofun⟩
  cases pc with
  | printStarted | wait => cases hin
  | post => exact absurd rfl hpost
  | count | snprintf => exact hat.elim
  | time =>
    obtain ⟨env, x', pc', h, hrest⟩ := clock_moves x time hprintf (.inl rfl)
    exact ⟨env, x', pc', h, hrest⟩
  | store current left =>
    obtain ⟨env, x', pc', h, hrest⟩ :=
      clock_moves x time hprintf (.inr (.inl ⟨current, left, rfl⟩))
    exact ⟨env, x', pc', h, hrest⟩
  | load current loaded left =>
    obtain ⟨env, x', pc', h, hrest⟩ :=
      clock_moves x time hprintf (.inr (.inr ⟨current, loaded, left, rfl⟩))
    exact ⟨env, x', pc', h, hrest⟩
  | printf current timeString got =>
    obtain ⟨-, hgot⟩ := hat
    have hl : x.holder = some .reader := hholder.mpr trivial
    obtain ⟨x', pc', h, hrest⟩ := printf_moves (hG.idle (by rw [hl]; nofun)).2 hgot
    exact ⟨⟨true, time, .hour, 0⟩, x', pc', h, hrest⟩

theorem step_writer {l : Pc} (hcreated : Thread.writer ∈ s.shared.created)
    (hexited : s.shared.exited = false)
    (h : writerNext tid env s.shared (s.locals .writer) = some (x', l)) :
    step tid ⟨.writer, env⟩ s = some ⟨x', Function.update s.locals .writer l⟩ := by
  apply Team.step_of_next
  rw [← h]
  exact if_pos ⟨hcreated, hexited⟩

theorem step_reader {l : Pc} (hcreated : Thread.reader ∈ s.shared.created)
    (hexited : s.shared.exited = false)
    (h : readerNext tid env s.shared (s.locals .reader) = some (x', l)) :
    step tid ⟨.reader, env⟩ s = some ⟨x', Function.update s.locals .reader l⟩ := by
  apply Team.step_of_next
  rw [← h]
  exact if_pos ⟨hcreated, hexited⟩

/-- Threads that have been created do not block each other. -/
theorem exists_step (h : Reaches (step tid) start s) (hexited : s.shared.exited = false)
    (hwriter : Thread.writer ∈ s.shared.created) (hreader : Thread.reader ∈ s.shared.created)
    (hcounter : s.shared.data.counter + 1 < 2 ^ 31) (time : LocalTime) :
    ∃ a, a.actor ≠ .main ∧ (step tid a s).isSome := by
  have hs := outline_holds h
  have hG : Global tid s.shared := hs.global
  have hmain : s.shared.holder ≠ some .main := hs.assert .main
  have hA : Assert tid .writer s.shared (s.locals .writer) := hs.assert .writer
  have hB : Assert tid .reader s.shared (s.locals .reader) := hs.assert .reader
  have hwrites : ∀ env x' l, writerNext tid env s.shared (s.locals .writer) = some (x', l) →
      ∃ a, a.actor ≠ .main ∧ (step tid a s).isSome :=
    fun env x' l hnext => ⟨⟨.writer, env⟩, nofun, by rw [step_writer hwriter hexited hnext]; rfl⟩
  have hreads : ∀ env x' l, readerNext tid env s.shared (s.locals .reader) = some (x', l) →
      ∃ a, a.actor ≠ .main ∧ (step tid a s).isSome :=
    fun env x' l hnext => ⟨⟨.reader, env⟩, nofun, by rw [step_reader hreader hexited hnext]; rfl⟩
  by_cases hl : s.shared.holder = some .reader
  · -- the reader goes on
    have hin := hB.1.mp hl
    by_cases hpost : s.locals .reader = .post
    · exact hreads ⟨true, time, .hour, 0⟩ _ _ (by rw [hpost, readerNext])
    · obtain ⟨env, x', l, hnext, -⟩ := reader_moves hG hB hin hpost time
      exact hreads env x' l hnext
  · by_cases hin : Pc.Inside (s.locals .writer)
    · by_cases hpost : s.locals .writer = .post
      · exact hwrites ⟨true, time, .hour, 0⟩ _ _ (by rw [hpost, writerNext])
      · obtain ⟨env, x', l, hnext⟩ := writer_moves hA hin hpost hcounter time
        exact hwrites env x' l hnext
    · -- nobody holds the semaphore
      have hfree : s.shared.holder = none := by
        cases hholder : s.shared.holder with
        | none => rfl
        | some t =>
          cases t with
          | main => exact absurd hholder hmain
          | writer => exact absurd (hA.1.mp hholder) hin
          | reader => exact absurd hholder hl
      have hwait : ∀ l : Pc, ¬ l.Inside → ∃ x' l', writerNext tid ⟨true, time, .hour, 0⟩ s.shared l =
          some (x', l') := by
        intro l hl
        cases l with
        | printStarted => exact ⟨_, _, rfl⟩
        | wait =>
          have hpos : 0 < s.shared.semaphore := by
            rw [hG.semaphore, if_pos hfree]
            exact Nat.one_pos
          exact ⟨_, _, by rw [writerNext, Shared.wait, if_pos hpos]; rfl⟩
        | _ => exact absurd trivial hl
      obtain ⟨x', l', hnext⟩ := hwait _ hin
      exact hwrites _ x' l' hnext

/-- **The lines are those of turns**: whatever the threads do in between, what is printed is what
they print if each takes its turn in one step. And they never block each other. -/
theorem lines_are_turns (tid : Thread → Nat) : ∀ s, Reaches (step tid) start s →
    s.shared.output.map Line.text = (room tid (s.shared.output.map Line.event)).lines ∧
    (s.shared.exited = false → Thread.writer ∈ s.shared.created → .reader ∈ s.shared.created →
      s.shared.data.counter + 1 < 2 ^ 31 → ∃ a, a.actor ≠ .main ∧ (step tid a s).isSome) :=
  fun _ h => ⟨(outline_holds h).global.lines, fun hexited hwriter hreader hcounter =>
    exists_step h hexited hwriter hreader hcounter
      ⟨0, 0, 0, by decide, by decide, by decide⟩⟩

theorem noon_hour_lt : 12 < 24 := by decide

theorem noon_minute_lt : 0 < 60 := by decide

/-- Noon, and `second` seconds. -/
def noon (second : Fin 60) : LocalTime :=
  ⟨12, 0, second, noon_hour_lt, noon_minute_lt, second.isLt.le⟩

def act (t : Thread) (second : Fin 60) (field : Field) (index : Nat) : Action :=
  ⟨t, true, noon second, field, index⟩

/-- The threads are created and come to their loops. -/
def setup : List Action :=
  List.replicate 3 (act .main 0 .hour 0) ++ [act .writer 0 .hour 0, act .reader 0 .hour 0]

/-- `localtime`, and the fields that are loaded behind it. -/
def clockActions (t : Thread) (second : Fin 60) : List Action :=
  [.hour, .hour, .minute, .second, .hour, .hour, .minute, .second, .hour].map
    fun field => act t second field 0

/-- The writer takes its turn, and then the reader. -/
def twoTurns : List Action :=
  setup ++ List.replicate 2 (act .writer 0 .hour 0) ++ clockActions .writer 0 ++
    (List.range 23).map (act .writer 0 .hour) ++ List.replicate 25 (act .writer 0 .hour 0) ++
    [act .reader 1 .hour 0] ++ clockActions .reader 1 ++ List.replicate 24 (act .reader 1 .hour 0)

theorem first_message_shown : ∃ s, Reaches (step fun t => if t = .writer then 7 else 8) start s ∧
    s.shared.output.map Line.text =
      [ascii "Main program started. Press Ctrl+C to exit.\n",
        ascii "Writer thread started (TID: 7)\n", ascii "Reader thread started (TID: 8)\n",
        ascii "Writer (TID: 7): Wrote - Message #1 at 12:00:00\n",
        ascii "Reader (TID: 8) | Time: 12:00:01 | Buffer content: Message #1 at 12:00:00\n"] ∧
    ∃ a, a.actor ≠ .main ∧ (step (fun t => if t = .writer then 7 else 8) a s).isSome := by
  have hrun : (steps (step fun t => if t = .writer then 7 else 8) twoTurns start).map (fun s =>
      (s.shared.output.map Line.event, s.shared.exited, s.shared.created, s.shared.data.counter)) =
      some ([.started .main, .started .writer, .started .reader, .wrote (noon 0), .read (noon 1)],
        false, [.writer, .reader], 1) := by
    decide +kernel
  obtain ⟨s, hs, hobs⟩ := exists_reaches_of_map hrun
  obtain ⟨hevents, hrest⟩ := Prod.mk.inj hobs
  obtain ⟨hexited, hrest⟩ := Prod.mk.inj hrest
  obtain ⟨hcreated, hcounter⟩ := Prod.mk.inj hrest
  obtain ⟨hlines, hnext⟩ := lines_are_turns _ s hs
  refine ⟨s, hs, ?_, hnext hexited (by rw [hcreated]; decide) (by rw [hcreated]; decide)
    (by rw [hcounter]; decide)⟩
  rw [hlines, hevents]
  decide +kernel

-- ---------------------------------------------------------------------------
-- Starvation
-- ---------------------------------------------------------------------------

/-- The writer waits for the semaphore, and the reader is at its `sem_wait` for an even `k` and
inside for an odd one. -/
structure Busy (tid : Thread → Nat) (k : Nat) (s : State) : Prop where
  reach : Reaches (step tid) start s
  created : s.shared.created = [.writer, .reader]
  exited : s.shared.exited = false
  main : s.locals .main = .join
  writer : s.locals .writer = .wait
  counter : s.shared.data.counter = 0
  reader : if k % 2 = 0 then s.locals .reader = .wait else Pc.Inside (s.locals .reader)
  printed : k ≤ 2 * s.shared.output.length + k % 2
  printed_post : s.locals .reader = .post → k + 1 ≤ 2 * s.shared.output.length

namespace Busy

variable {k : Nat}

/-- The reader takes a step. -/
theorem step {x' : Shared} {l : Pc} (h : Busy tid k s)
    (hnext : readerNext tid env s.shared (s.locals .reader) = some (x', l))
    (hcreated : x'.created = s.shared.created) (hexited : x'.exited = s.shared.exited)
    (hcounter : x'.data.counter = s.shared.data.counter) {j : Nat}
    (hreader : if j % 2 = 0 then l = .wait else l.Inside)
    (hprinted : j ≤ 2 * x'.output.length + j % 2)
    (hpost : l = .post → j + 1 ≤ 2 * x'.output.length) :
    ∃ s', Threads.step tid ⟨.reader, env⟩ s = some s' ∧ s'.locals .reader = l ∧ Busy tid j s' := by
  have hreaderCreated : Thread.reader ∈ s.shared.created := by
    rw [h.created]
    decide
  have hstep := step_reader hreaderCreated h.exited hnext
  have hself : Function.update s.locals .reader l .reader = l := Function.update_self ..
  refine ⟨_, hstep, hself, h.reach.step _ hstep, hcreated.trans h.created, hexited.trans h.exited,
    ?_, ?_, hcounter.trans h.counter, ?_, hprinted, ?_⟩
  · exact h.main
  · exact h.writer
  · show if j % 2 = 0 then Function.update s.locals .reader l .reader = .wait
      else Pc.Inside (Function.update s.locals .reader l .reader)
    rw [hself]
    exact hreader
  · show Function.update s.locals .reader l .reader = .post → _
    rw [hself]
    exact hpost

/-- Nobody else holds the semaphore. -/
theorem holder (h : Busy tid k s) :
    s.shared.holder = if k % 2 = 0 then none else some .reader := by
  have hs := outline_holds h.reach
  have hmain : s.shared.holder ≠ some .main := hs.assert .main
  have hA : Assert tid .writer s.shared (s.locals .writer) := hs.assert .writer
  have hB : Assert tid .reader s.shared (s.locals .reader) := hs.assert .reader
  have hreader := h.reader
  rw [h.writer] at hA
  split
  · next hk =>
    rw [if_pos hk] at hreader
    rw [hreader] at hB
    cases hholder : s.shared.holder with
    | none => rfl
    | some t =>
      cases t with
      | main => exact absurd hholder hmain
      | writer => exact (hA.1.mp hholder).elim
      | reader => exact (hB.1.mp hholder).elim
  · next hk =>
    rw [if_neg hk] at hreader
    exact hB.1.mpr hreader

/-- The reader goes on with its turn, which ends. -/
theorem advance (h : Busy tid k s) : ∃ a s', Threads.step tid a s = some s' ∧
    a.actor = .reader ∧
    (Busy tid k s' ∧ Pc.left (s'.locals .reader) < Pc.left (s.locals .reader) ∨
      Busy tid (k + 1) s') := by
  have hs := outline_holds h.reach
  have hG : Global tid s.shared := hs.global
  have hB : Assert tid .reader s.shared (s.locals .reader) := hs.assert .reader
  have hholder := h.holder
  have hreader := h.reader
  have hprinted := h.printed
  by_cases hk : k % 2 = 0
  · rw [if_pos hk] at hholder hreader
    have hpos : 0 < s.shared.semaphore := by
      rw [hG.semaphore, if_pos hholder]
      exact Nat.one_pos
    have hnext : readerNext tid ⟨true, noon 0, .hour, 0⟩ s.shared (s.locals .reader) =
        some ({ s.shared with semaphore := s.shared.semaphore - 1, holder := some .reader },
          .time) := by
      rw [hreader, readerNext, Shared.wait, if_pos hpos]
      rfl
    obtain ⟨s', hstep, -, hbusy⟩ := h.step hnext rfl rfl rfl (j := k + 1)
      (by rw [if_neg (by omega)]; trivial)
      (show k + 1 ≤ 2 * s.shared.output.length + (k + 1) % 2 by omega) (by rintro ⟨⟩)
    exact ⟨_, s', hstep, rfl, .inr hbusy⟩
  · rw [if_neg hk] at hholder hreader
    by_cases hpost : s.locals .reader = .post
    · have hmore := h.printed_post hpost
      have hnext : readerNext tid ⟨true, noon 0, .hour, 0⟩ s.shared (s.locals .reader) =
          some (s.shared.post, .wait) := by
        rw [hpost, readerNext]
      obtain ⟨s', hstep, -, hbusy⟩ := h.step hnext rfl rfl rfl (j := k + 1)
        (by rw [if_pos (by omega)])
        (show k + 1 ≤ 2 * s.shared.output.length + (k + 1) % 2 by omega) (by rintro ⟨⟩)
      exact ⟨_, s', hstep, rfl, .inr hbusy⟩
    · obtain ⟨env, x', l, hnext, hworks, hcounter⟩ := reader_moves hG hB hreader hpost (noon 0)
      have hlength : k ≤ 2 * x'.output.length + k % 2 ∧
          (l = .post → k + 1 ≤ 2 * x'.output.length) := by
        rcases hworks.printed with ⟨hsame, hne⟩ | ⟨hmore, -⟩
        · exact ⟨by omega, fun hl => absurd hl hne⟩
        · exact ⟨by omega, fun _ => by omega⟩
      obtain ⟨s', hstep, hself, hbusy⟩ := h.step hnext hworks.created hworks.exited hcounter (j := k)
        (by rw [if_neg hk]; exact hworks.inside) hlength.1 hlength.2
      exact ⟨_, s', hstep, rfl, .inl ⟨hbusy, hself ▸ hworks.left_lt⟩⟩

/-- Inside a turn of the reader the others cannot go on. -/
theorem not_canTake (h : Busy tid k s) (hk : k % 2 = 1) {t : Thread} (ht : t ≠ .reader) :
    ¬ CanTake (Threads.step tid) (fun a => a.actor = t) s := by
  rintro ⟨⟨t', env⟩, rfl : t' = t, hsome⟩
  obtain ⟨s', hs'⟩ := Option.isSome_iff_exists.mp hsome
  obtain ⟨l', hnext, -⟩ := Team.step_eq_some hs'
  have hholder := h.holder
  rw [if_neg (by omega)] at hholder
  cases t' with
  | main =>
    change mainNext tid env s.shared (s.locals .main) = _ at hnext
    rw [h.main] at hnext
    cases hnext
  | writer =>
    have hzero : s.shared.semaphore = 0 := by
      rw [(outline_holds h.reach).global.semaphore, if_neg (by rw [hholder]; nofun)]
    have hnext : (if _ then writerNext tid env s.shared (s.locals .writer) else none) =
      some (s'.shared, l') := hnext
    rw [h.writer, writerNext, Shared.wait, hzero, if_neg (Nat.lt_irrefl 0)] at hnext
    split at hnext <;> cases hnext
  | reader => exact absurd rfl ht

end Busy

theorem exists_busy (tid : Thread → Nat) : ∃ s, Busy tid 0 s := by
  have hreach : Reaches (step tid) start _ :=
    Reaches.refl.steps (show steps (step tid) setup start = some _ from rfl)
  exact ⟨_, hreach, rfl, rfl, rfl, rfl, rfl, rfl, Nat.zero_le _, nofun⟩

/-- **The reader may starve the writer**: there is a run in which no thread can go on all the time
without doing so, the reader prints line after line, and the writer never gets the semaphore. -/
theorem reader_may_starve_writer (tid : Thread → Nat) :
    ∃ s, Reaches (step tid) start s ∧ ∃ r : Run (step tid) s,
      (∀ t n, ∃ m, n ≤ m ∧
        ((r.act m).actor = t ∨ ¬ CanTake (step tid) (fun a => a.actor = t) (r.state m))) ∧
      (∀ n, (r.state n).locals .writer = .wait ∧ (r.state n).shared.data.counter = 0) ∧
      ∀ k, ∃ n, k ≤ (r.state n).shared.output.length := by
  obtain ⟨s, hs⟩ := exists_busy tid
  obtain ⟨r, hbusy, hturns⟩ := Run.exists_of_turns (I := Busy tid)
    (f := fun _ s => Pc.left (s.locals .reader)) (Q := fun _ (a : Action) => a.actor = .reader) hs (by
      intro p
      obtain ⟨a, s', hstep, ha, ⟨hsame, hlt⟩ | hmore⟩ := p.holds.advance
      · exact ⟨a, ⟨p.turn, s', hsame⟩, hstep, .inl ⟨rfl, hlt⟩⟩
      · exact ⟨a, ⟨p.turn + 1, s', hmore⟩, hstep, .inr ⟨rfl, ha⟩⟩)
  refine ⟨s, hs.reach, r, fun t n => ?_, fun n => ?_, fun k => ?_⟩
  · obtain ⟨m, hm, hin, ha⟩ := hturns (2 * n + 1)
    refine ⟨m, by omega, ?_⟩
    by_cases ht : t = .reader
    · exact .inl (ha.trans ht.symm)
    · exact .inr (hin.not_canTake (by omega) ht)
  · obtain ⟨k, hk⟩ := hbusy n
    exact ⟨hk.writer, hk.counter⟩
  · obtain ⟨n, -, hn, -⟩ := hturns (2 * k)
    have := hn.printed
    exact ⟨n, by omega⟩

end LabsOS.Sems.Threads
