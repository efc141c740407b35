import LabsOS.Sems.Threads

/-!
# Turns

However the two threads of `lab9_sems/thread_example.c` are interleaved, they print what they
print if each of them takes its turn in one step (`lines_are_turns`): the messages have the
numbers 1, 2, 3 and so on, a reader shows the last message that was printed, and each line has the
time that its thread has asked for.
-/

namespace LabsOS.Sems.Threads

variable {tid : Thread → Nat} {env : Env} {x x' : Shared} {pc pc' : Pc} {t u : Thread}

-- ---------------------------------------------------------------------------
-- The buffer
-- ---------------------------------------------------------------------------

/-- The string in the buffer. -/
structure Holds (buffer : Nat → UInt8) (content : Bytes) : Prop where
  length_lt : content.length < bufferSize
  noNul : (0 : UInt8) ∉ content
  bytes : ∀ j ≤ content.length, buffer j = content.getD j 0

/-- The next byte ends the string or is one of it. -/
theorem Holds.read {buffer : Nat → UInt8} {content got : Bytes} (h : Holds buffer content)
    (hgot : got <+: content) : got.length < bufferSize ∧
      (buffer got.length = 0 → got = content) ∧
      (buffer got.length ≠ 0 → got ++ [buffer got.length] <+: content) := by
  have hle := hgot.length_le
  have hbyte := h.bytes got.length hle
  refine ⟨hle.trans_lt h.length_lt, fun hzero => ?_, fun hne => ?_⟩
  · apply hgot.eq_of_length_le
    by_contra hlt
    rw [not_le] at hlt
    rw [hbyte, List.getD_eq_getElem _ _ hlt] at hzero
    exact h.noNul (hzero ▸ List.getElem_mem hlt)
  · obtain ⟨rest, rfl⟩ := hgot
    cases rest with
    | nil =>
      rw [hbyte, List.append_nil, List.getD_eq_default _ _ le_rfl] at hne
      exact absurd rfl hne
    | cons b rest =>
      have hb : buffer got.length = b := by
        rw [hbyte, List.getD_append_right _ _ _ _ le_rfl, Nat.sub_self]
        rfl
      rw [hb]
      exact ⟨rest, by rw [List.append_assoc]; rfl⟩

theorem length_clock (t : LocalTime) : (clock (tmOf t)).length = 8 := by
  have hhour := length_twoDigits (n := t.hour) (by have := t.hour_lt; omega)
  have hminute := length_twoDigits (n := t.minute) (by have := t.minute_lt; omega)
  have hsecond := length_twoDigits (n := t.second) (by have := t.second_le; omega)
  have hcolon : (ascii ":").length = 1 := by decide
  simp only [clock, tmOf, List.length_append, hhour, hminute, hsecond, hcolon]

theorem length_message_lt {n : Nat} (hn : n < 2 ^ 31) (t : LocalTime) :
    (message n (clock (tmOf t))).length < bufferSize - 1 := by
  have hnumber : (decimal n).length ≤ 10 := length_decimal_le hn
  have h₁ : (ascii "Message #").length = 9 := by decide
  have h₂ : (ascii " at ").length = 4 := by decide
  simp only [message, List.length_append, length_clock, h₁, h₂, bufferSize]
  omega

theorem zero_notMem_message (n : Nat) (t : LocalTime) :
    (0 : UInt8) ∉ message n (clock (tmOf t)) := by
  have hnumber : (0 : UInt8) ∉ decimal n := zero_notMem_digits (by decide)
  simp only [message, clock, List.mem_append, hnumber, zero_notMem_twoDigits, or_false]
  decide

/-- `snprintf` cuts nothing off. -/
theorem take_message {n : Nat} (hn : n < 2 ^ 31) (t : LocalTime) :
    (message n (clock (tmOf t))).take (bufferSize - 1) = message n (clock (tmOf t)) :=
  List.take_of_length_le (length_message_lt hn t).le

theorem holds_initial : Holds (fun j => initial.getD j 0) initial :=
  ⟨by decide, by decide, fun _ _ => rfl⟩

-- ---------------------------------------------------------------------------
-- What the semaphore protects
-- ---------------------------------------------------------------------------

/-- The room after what was printed. -/
def Shared.room (tid : Thread → Nat) (x : Shared) : Room :=
  Threads.room tid (x.output.map Line.event)

/-- The part of the state that only the holder of the semaphore changes. -/
structure Guarded where
  holder : Option Thread
  data : Data
  counter : Nat
  content : Bytes

def Shared.guarded (tid : Thread → Nat) (x : Shared) : Guarded :=
  ⟨x.holder, x.data, (x.room tid).counter, (x.room tid).content⟩

theorem room_print (tid : Thread → Nat) (x : Shared) (event : Event) (text : Bytes) :
    (x.print event text).room tid = (x.room tid).next tid event := by
  rw [Shared.room, Shared.print, List.map_append, Threads.room, List.foldl_append]
  rfl

/-- What holds at any time. -/
structure Global (tid : Thread → Nat) (x : Shared) : Prop where
  semaphore : x.semaphore = if x.holder = none then 1 else 0
  lines : x.output.map Line.text = (x.room tid).lines
  bound : x.data.counter < 2 ^ 31
  idle : x.holder ≠ some .writer →
    x.data.counter = (x.room tid).counter ∧ Holds x.data.buffer (x.room tid).content

/-- The thread is between `sem_wait` and `sem_post`. -/
def Pc.Inside : Pc → Prop
  | .printStarted | .wait => False
  | _ => True

/-- What both threads assert in `localtime` and behind it. -/
def ClockAt (d : Data) : Pc → Prop
  | .store current left => ∀ f ∉ left, d.tm f = tmOf current f
  | .load current loaded left => d.tm = tmOf current ∧ ∀ f ∉ left, loaded f = tmOf current f
  | _ => True

/-- What the writer asserts at each statement. -/
def WriterAt (v : Guarded) : Pc → Prop
  | .printStarted | .wait => True
  | .count => v.data.counter = v.counter
  | .snprintf current text left =>
    v.data.counter = v.counter + 1 ∧ text = message (v.counter + 1) (clock (tmOf current)) ∧
      ∀ j ≤ text.length, j ∉ left → v.data.buffer j = text.getD j 0
  | .printf current _ got =>
    v.data.counter = v.counter + 1 ∧
      Holds v.data.buffer (message (v.counter + 1) (clock (tmOf current))) ∧
      got <+: message (v.counter + 1) (clock (tmOf current))
  | .post => v.data.counter = v.counter ∧ Holds v.data.buffer v.content
  | pc => v.data.counter = v.counter + 1 ∧ ClockAt v.data pc

/-- What the reader asserts at each statement. -/
def ReaderAt (v : Guarded) : Pc → Prop
  | .printf current timeString got => timeString = clock (tmOf current) ∧ got <+: v.content
  | .count | .snprintf .. => False
  | pc => ClockAt v.data pc

/-- The thread knows whether it holds the semaphore, and what it asserts. -/
def Assert (tid : Thread → Nat) : (t : Thread) → Shared → Local t → Prop
  | .main, x, _ => x.holder ≠ some .main
  | .writer, x, pc => (x.holder = some .writer ↔ pc.Inside) ∧ WriterAt (x.guarded tid) pc
  | .reader, x, pc => (x.holder = some .reader ↔ pc.Inside) ∧ ReaderAt (x.guarded tid) pc

/-- A thread works on what is protected while it holds the semaphore. -/
def Guarantee (tid : Thread → Nat) (t : Thread) (x x' : Shared) : Prop :=
  Respects Guarded.holder t (x.guarded tid) (x'.guarded tid)

theorem Assert.stable {pc : Local u} (hu : u ≠ t) (hguar : Guarantee tid t x x')
    (h : Assert tid u x pc) : Assert tid u x' pc := by
  have hholder : x'.holder = some u ↔ x.holder = some u := hguar.holder_iff u hu
  have hkeep : x.holder = some u → x'.guarded tid = x.guarded tid := hguar.eq_of_held u hu
  cases u with
  | main => exact fun hmain => h (hholder.mp hmain)
  | writer =>
    refine ⟨hholder.trans h.1, ?_⟩
    by_cases hin : Pc.Inside pc
    · rw [hkeep (h.1.mpr hin)]
      exact h.2
    · cases pc with
      | printStarted | wait => trivial
      | _ => exact absurd trivial hin
  | reader =>
    refine ⟨hholder.trans h.1, ?_⟩
    by_cases hin : Pc.Inside pc
    · rw [hkeep (h.1.mpr hin)]
      exact h.2
    · cases pc with
      | printStarted | wait => trivial
      | _ => exact absurd trivial hin

-- ---------------------------------------------------------------------------
-- Steps
-- ---------------------------------------------------------------------------

/-- A thread says that it has started. -/
theorem Global.started (h : Global tid x) (t : Thread) :
    Global tid (x.print (.started t) (startedLine tid t)) ∧
      (x.print (.started t) (startedLine tid t)).guarded tid = x.guarded tid := by
  have hroom := room_print tid x (.started t) (startedLine tid t)
  refine ⟨⟨h.semaphore, ?_, h.bound, ?_⟩, ?_⟩
  · rw [hroom]
    show (x.output ++ [_]).map Line.text = (x.room tid).lines ++ [startedLine tid t]
    rw [List.map_append, h.lines]
    rfl
  · rw [hroom]
    exact h.idle
  · rw [Shared.guarded, hroom]
    rfl

theorem Global.wait (h : Global tid x) (hwait : x.wait t = some x') :
    x.holder = none ∧ x' = { x with semaphore := x.semaphore - 1, holder := some t } := by
  rw [Shared.wait] at hwait
  split at hwait
  · next hpos =>
    refine ⟨?_, (Option.some.inj hwait).symm⟩
    by_contra hne
    rw [h.semaphore, if_neg hne] at hpos
    exact absurd hpos (Nat.lt_irrefl 0)
  · cases hwait

/-- What a step of `localtime`, or of its caller, does. -/
theorem clock_own {next : LocalTime → Bytes → Pc} (hat : ClockAt x.data pc)
    (h : clockNext env x next pc = some (x', pc')) :
    (∃ tm, x' = { x with data := { x.data with tm := tm } }) ∧
      (ClockAt x'.data pc' ∧ (∃ current left, pc' = .store current left) ∨
        ClockAt x'.data pc' ∧ (∃ current loaded left, pc' = .load current loaded left) ∨
        ∃ current, pc' = next current (clock (tmOf current))) := by
  cases pc with
  | time =>
    obtain ⟨rfl, rfl⟩ := Prod.mk.inj (Option.some.inj h)
    exact ⟨⟨_, rfl⟩, .inl ⟨fun f hf => absurd (Finset.mem_univ f) hf, _, _, rfl⟩⟩
  | store current left =>
    rw [clockNext] at h
    split at h
    · next hleft =>
      obtain ⟨rfl, rfl⟩ := Prod.mk.inj (Option.some.inj h)
      refine ⟨⟨_, rfl⟩, .inr (.inl ⟨⟨?_, fun f hf => absurd (Finset.mem_univ f) hf⟩, _, _, _, rfl⟩)⟩
      funext f
      exact hat f (hleft ▸ Finset.notMem_empty f)
    · split at h
      · obtain ⟨rfl, rfl⟩ := Prod.mk.inj (Option.some.inj h)
        refine ⟨⟨_, rfl⟩, .inl ⟨fun f hf => ?_, _, _, rfl⟩⟩
        show Function.update x.data.tm env.field (tmOf current env.field) f = tmOf current f
        by_cases hfield : f = env.field
        · rw [hfield, Function.update_self]
        · rw [Function.update_of_ne hfield]
          exact hat f fun hleft => hf (Finset.mem_erase.mpr ⟨hfield, hleft⟩)
      · cases h
  | load current loaded left =>
    obtain ⟨htm, hloaded⟩ := hat
    rw [clockNext] at h
    split at h
    · next hleft =>
      obtain ⟨rfl, rfl⟩ := Prod.mk.inj (Option.some.inj h)
      refine ⟨⟨_, rfl⟩, .inr (.inr ⟨current, ?_⟩)⟩
      congr 2
      funext f
      exact hloaded f (hleft ▸ Finset.notMem_empty f)
    · split at h
      · obtain ⟨rfl, rfl⟩ := Prod.mk.inj (Option.some.inj h)
        refine ⟨⟨_, rfl⟩, .inr (.inl ⟨⟨htm, fun f hf => ?_⟩, _, _, _, rfl⟩)⟩
        by_cases hfield : f = env.field
        · rw [hfield, Function.update_self, htm]
        · rw [Function.update_of_ne hfield]
          exact hloaded f fun hleft => hf (Finset.mem_erase.mpr ⟨hfield, hleft⟩)
      · cases h
  | _ => cases h

theorem printf_cases {event : Event} {line : Bytes → Bytes} {current : LocalTime}
    {timeString got content : Bytes} (hholds : Holds x.data.buffer content)
    (hgot : got <+: content)
    (h : printfNext x event line current timeString got = some (x', pc')) :
    x' = x.print event (line content) ∧ pc' = .post ∨
      ∃ got', x' = x ∧ pc' = .printf current timeString got' ∧ got' <+: content := by
  obtain ⟨hlt, hlast, hmore⟩ := hholds.read hgot
  rw [printfNext, if_pos hlt] at h
  split at h
  · next hzero =>
    obtain ⟨rfl, rfl⟩ := Prod.mk.inj (Option.some.inj h)
    exact .inl ⟨by rw [hlast hzero], rfl⟩
  · next hne =>
    obtain ⟨rfl, rfl⟩ := Prod.mk.inj (Option.some.inj h)
    exact .inr ⟨_, rfl, rfl, hmore hne⟩

/-- The holder of the semaphore changes the data. -/
theorem Global.work (h : Global tid x) {data : Data} (hbound : data.counter < 2 ^ 31)
    (hidle : x.holder ≠ some .writer → data.counter = x.data.counter ∧ data.buffer = x.data.buffer) :
    Global tid { x with data := data } := by
  refine ⟨h.semaphore, h.lines, hbound, fun hne => ?_⟩
  obtain ⟨hcounter, hbuffer⟩ := hidle hne
  obtain ⟨hcount, hholds⟩ := h.idle hne
  exact ⟨hcounter.trans hcount, hbuffer ▸ hholds⟩

/-- `localtime` and the loads behind it, in the writer. -/
theorem writer_clock (hG : Global tid x) (hl : x.holder = some .writer)
    (hcounter : x.data.counter = (x.room tid).counter + 1) (hat : ClockAt x.data pc)
    (h : clockNext env x x.format pc = some (x', pc')) :
    Global tid x' ∧ Assert tid .writer x' pc' ∧ Guarantee tid .writer x x' := by
  obtain ⟨⟨tm, rfl⟩, hrest⟩ := clock_own hat h
  refine ⟨hG.work hG.bound fun hne => absurd hl hne, ?_, .work hl hl⟩
  rcases hrest with ⟨hat, current, left, rfl⟩ | ⟨hat, current, loaded, left, rfl⟩ | ⟨current, rfl⟩
  · exact ⟨iff_of_true hl trivial, hcounter, hat⟩
  · exact ⟨iff_of_true hl trivial, hcounter, hat⟩
  · rw [Shared.format, take_message hG.bound]
    refine ⟨iff_of_true hl trivial, hcounter, hcounter ▸ rfl, fun j hj hnot => ?_⟩
    exact absurd (Finset.mem_range.mpr (Nat.lt_succ_of_le hj)) hnot

theorem writer_own (hG : Global tid x) (hA : Assert tid .writer x pc)
    (h : writerNext tid env x pc = some (x', pc')) :
    Global tid x' ∧ Assert tid .writer x' pc' ∧ Guarantee tid .writer x x' := by
  obtain ⟨hin, hat⟩ := hA
  have hlock : pc.Inside → x.holder = some .writer := hin.mpr
  cases pc with
  | printStarted =>
    obtain ⟨rfl, rfl⟩ := Prod.mk.inj (Option.some.inj h)
    obtain ⟨hglobal, hguarded⟩ := hG.started .writer
    refine ⟨hglobal, ⟨hin, trivial⟩, ?_⟩
    rw [Guarantee, hguarded]
    exact .refl
  | wait =>
    obtain ⟨x₁, hwait, heq⟩ := Option.map_eq_some_iff.mp h
    obtain ⟨rfl, rfl⟩ := Prod.mk.inj heq
    obtain ⟨hfree, rfl⟩ := hG.wait hwait
    have hone : x.semaphore = 1 := by rw [hG.semaphore, if_pos hfree]
    have hidle := hG.idle (by rw [hfree]; nofun)
    refine ⟨⟨?_, hG.lines, hG.bound, fun hne => absurd rfl hne⟩, ⟨iff_of_true rfl trivial, hidle.1⟩,
      .acquire hfree rfl⟩
    show x.semaphore - 1 = 0
    rw [hone]
  | count =>
    have hl := hlock trivial
    rw [writerNext] at h
    split at h
    · next hlt =>
      obtain ⟨rfl, rfl⟩ := Prod.mk.inj (Option.some.inj h)
      refine ⟨hG.work hlt fun hne => absurd hl hne, ⟨iff_of_true hl trivial, ?_, trivial⟩,
        .work hl hl⟩
      exact congrArg (· + 1) hat
    · cases h
  | time => exact writer_clock hG (hlock trivial) hat.1 hat.2 h
  | store current left => exact writer_clock hG (hlock trivial) hat.1 hat.2 h
  | load current loaded left => exact writer_clock hG (hlock trivial) hat.1 hat.2 h
  | snprintf current text left =>
    have hl := hlock trivial
    obtain ⟨hcounter, htext, hbytes⟩ := hat
    rw [writerNext] at h
    split at h
    · next hleft =>
      obtain ⟨rfl, rfl⟩ := Prod.mk.inj (Option.some.inj h)
      have hcounter' : x.data.counter = (x.room tid).counter + 1 := hcounter
      refine ⟨hG, ⟨hin, hcounter, ?_, List.nil_prefix⟩, .refl⟩
      rw [← htext]
      refine ⟨?_, ?_, fun j hj => hbytes j hj (hleft ▸ Finset.notMem_empty j)⟩
      · rw [htext]
        exact (length_message_lt (hcounter' ▸ hG.bound) current).trans (by decide)
      · rw [htext]
        exact zero_notMem_message _ _
    · split at h
      · next hleft =>
        obtain ⟨rfl, rfl⟩ := Prod.mk.inj (Option.some.inj h)
        refine ⟨hG.work hG.bound fun hne => absurd hl hne,
          ⟨iff_of_true hl trivial, hcounter, htext, fun j hj hnot => ?_⟩, .work hl hl⟩
        show Function.update x.data.buffer env.index (text.getD env.index 0) j = text.getD j 0
        by_cases hindex : j = env.index
        · rw [hindex, Function.update_self]
        · rw [Function.update_of_ne hindex]
          exact hbytes j hj fun hleft => hnot (Finset.mem_erase.mpr ⟨hindex, hleft⟩)
      · cases h
  | printf current timeString got =>
    have hl := hlock trivial
    obtain ⟨hcounter, hholds, hgot⟩ := hat
    rcases printf_cases hholds hgot h with ⟨rfl, rfl⟩ | ⟨got', rfl, rfl, hgot'⟩
    · have hroom := room_print tid x (.wrote current)
        (wroteLine tid (message ((x.room tid).counter + 1) (clock (tmOf current))))
      refine ⟨⟨hG.semaphore, ?_, hG.bound, fun hne => absurd hl hne⟩,
        ⟨iff_of_true hl trivial, ?_⟩, .work hl hl⟩
      · show (x.output ++ [_]).map Line.text = _
        rw [List.map_append, hG.lines]
        exact (congrArg Room.lines hroom).symm
      · show WriterAt (Shared.guarded tid (x.print _ _)) .post
        rw [Shared.guarded]
        exact ⟨hcounter.trans (congrArg Room.counter hroom).symm,
          (congrArg Room.content hroom).symm ▸ hholds⟩
    · exact ⟨hG, ⟨hin, hcounter, hholds, hgot'⟩, .refl⟩
  | post =>
    have hl := hlock trivial
    obtain ⟨rfl, rfl⟩ := Prod.mk.inj (Option.some.inj h)
    have hzero : x.semaphore = 0 := by rw [hG.semaphore, if_neg (by rw [hl]; nofun)]
    refine ⟨⟨?_, hG.lines, hG.bound, fun _ => hat⟩, ⟨iff_of_false nofun id, trivial⟩,
      .release hl rfl⟩
    show x.semaphore + 1 = 1
    rw [hzero]

/-- `localtime` and the loads behind it, in the reader. -/
theorem reader_clock (hG : Global tid x) (hl : x.holder = some .reader) (hat : ClockAt x.data pc)
    (h : clockNext env x (fun current clock => .printf current clock []) pc = some (x', pc')) :
    Global tid x' ∧ Assert tid .reader x' pc' ∧ Guarantee tid .reader x x' := by
  obtain ⟨⟨tm, rfl⟩, hrest⟩ := clock_own hat h
  refine ⟨hG.work hG.bound fun _ => ⟨rfl, rfl⟩, ?_, .work hl hl⟩
  rcases hrest with ⟨hat, current, left, rfl⟩ | ⟨hat, current, loaded, left, rfl⟩ | ⟨current, rfl⟩
  · exact ⟨iff_of_true hl trivial, hat⟩
  · exact ⟨iff_of_true hl trivial, hat⟩
  · exact ⟨iff_of_true hl trivial, rfl, List.nil_prefix⟩

theorem reader_own (hG : Global tid x) (hA : Assert tid .reader x pc)
    (h : readerNext tid env x pc = some (x', pc')) :
    Global tid x' ∧ Assert tid .reader x' pc' ∧ Guarantee tid .reader x x' := by
  obtain ⟨hin, hat⟩ := hA
  have hlock : pc.Inside → x.holder = some .reader := hin.mpr
  cases pc with
  | printStarted =>
    obtain ⟨rfl, rfl⟩ := Prod.mk.inj (Option.some.inj h)
    obtain ⟨hglobal, hguarded⟩ := hG.started .reader
    refine ⟨hglobal, ⟨hin, trivial⟩, ?_⟩
    rw [Guarantee, hguarded]
    exact .refl
  | wait =>
    obtain ⟨x₁, hwait, heq⟩ := Option.map_eq_some_iff.mp h
    obtain ⟨rfl, rfl⟩ := Prod.mk.inj heq
    obtain ⟨hfree, rfl⟩ := hG.wait hwait
    have hone : x.semaphore = 1 := by rw [hG.semaphore, if_pos hfree]
    have hidle := hG.idle (by rw [hfree]; nofun)
    refine ⟨⟨?_, hG.lines, hG.bound, fun _ => hidle⟩, ⟨iff_of_true rfl trivial, trivial⟩,
      .acquire hfree rfl⟩
    show x.semaphore - 1 = 0
    rw [hone]
  | count | snprintf => cases h
  | time => exact reader_clock hG (hlock trivial) (show ClockAt x.data .time from trivial) h
  | store current left =>
    exact reader_clock hG (hlock trivial) (show ClockAt x.data (.store current left) from hat) h
  | load current loaded left =>
    exact reader_clock hG (hlock trivial) (show ClockAt x.data (.load current loaded left) from hat)
      h
  | printf current timeString got =>
    have hl := hlock trivial
    obtain ⟨rfl, hgot⟩ := hat
    have hidle := hG.idle (by rw [hl]; nofun)
    rcases printf_cases hidle.2 hgot h with ⟨rfl, rfl⟩ | ⟨got', rfl, rfl, hgot'⟩
    · have hroom := room_print tid x (.read current)
        (readLine tid (clock (tmOf current)) (x.room tid).content)
      refine ⟨⟨hG.semaphore, ?_, hG.bound, fun _ => ?_⟩, ⟨iff_of_true hl trivial, trivial⟩,
        .work hl hl⟩
      · show (x.output ++ [_]).map Line.text = _
        rw [List.map_append, hG.lines]
        exact (congrArg Room.lines hroom).symm
      · rw [hroom]
        exact hidle
    · exact ⟨hG, ⟨hin, rfl, hgot'⟩, .refl⟩
  | post =>
    have hl := hlock trivial
    obtain ⟨rfl, rfl⟩ := Prod.mk.inj (Option.some.inj h)
    have hzero : x.semaphore = 0 := by rw [hG.semaphore, if_neg (by rw [hl]; nofun)]
    refine ⟨⟨?_, hG.lines, hG.bound, fun _ => hG.idle (by rw [hl]; nofun)⟩,
      ⟨iff_of_false nofun id, trivial⟩, .release hl rfl⟩
    show x.semaphore + 1 = 1
    rw [hzero]

theorem main_own {pc pc' : MainPc} (hG : Global tid x) (hA : Assert tid .main x pc)
    (h : mainNext tid env x pc = some (x', pc')) :
    Global tid x' ∧ Assert tid .main x' pc' ∧ Guarantee tid .main x x' := by
  cases pc with
  | createWriter | createReader =>
    rw [mainNext] at h
    split at h
    · obtain ⟨rfl, rfl⟩ := Prod.mk.inj (Option.some.inj h)
      exact ⟨⟨hG.semaphore, hG.lines, hG.bound, hG.idle⟩, hA, .refl⟩
    · obtain ⟨rfl, rfl⟩ := Prod.mk.inj (Option.some.inj h)
      exact ⟨⟨hG.semaphore, hG.lines, hG.bound, hG.idle⟩, hA, .refl⟩
  | printStarted =>
    obtain ⟨rfl, rfl⟩ := Prod.mk.inj (Option.some.inj h)
    obtain ⟨hglobal, hguarded⟩ := hG.started .main
    refine ⟨hglobal, hA, ?_⟩
    rw [Guarantee, hguarded]
    exact .refl
  | join | returned => cases h

theorem next_own {a : Action} {l l' : Local a.actor} (hG : Global tid x)
    (hA : Assert tid a.actor x l) (h : next tid a x l = some (x', l')) :
    Global tid x' ∧ Assert tid a.actor x' l' ∧ Guarantee tid a.actor x x' := by
  obtain ⟨t, env⟩ := a
  cases t with
  | main => exact main_own hG hA h
  | writer =>
    rw [next] at h
    split at h
    · exact writer_own hG hA h
    · cases h
  | reader =>
    rw [next] at h
    split at h
    · exact reader_own hG hA h
    · cases h

/-- The outline of the threads. -/
def outline (tid : Thread → Nat) : Team.Outline Action.actor (next tid) where
  Allowed _ _ _ := True
  Global := Global tid
  Assert := Assert tid
  Guarantee := Guarantee tid
  own _ _ _ _ _ hG hA _ h := next_own hG hA h
  stable _ _ _ _ _ hu _ hguar hA := hA.stable hu hguar

theorem outline_holds {s : State} (h : Reaches (step tid) start s) : (outline tid).Holds s := by
  apply Team.Outline.holds_of_reaches h _ fun _ _ _ => trivial
  refine ⟨⟨rfl, rfl, show 0 < 2 ^ 31 by decide, fun _ => ⟨rfl, holds_initial⟩⟩, fun t => ?_⟩
  cases t with
  | main => exact nofun
  | writer | reader => exact ⟨iff_of_false nofun id, trivial⟩

end LabsOS.Sems.Threads
