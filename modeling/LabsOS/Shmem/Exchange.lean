import LabsOS.Concurrency.Register
import LabsOS.Concurrency.Team
import LabsOS.Kernel.Text
import Mathlib.Data.List.GetD

/-!
# The sender and the receivers of the time

The loops of `lab7_shmem/send.c` and `lab7_shmem/receive.c`, with one sender and any number of
receivers `ι` that are attached to the segment. The `memcpy` of both copy one byte at a time, in
any order, and nothing keeps them apart. Of the structure that is copied, only `data_string` is
ever looked at.

What a receiver prints is a mixture of messages (`Received.Mixes`), and its copy has a NUL.
-/

namespace LabsOS.Shmem.Exchange

-- ---------------------------------------------------------------------------
-- Messages
-- ---------------------------------------------------------------------------

/-- `BUFSIZE`. -/
def bufSize : Nat := 256

/-- The fields of a `struct tm` that are printed. -/
structure LocalTime where
  year : Nat
  month : Nat
  day : Nat
  hour : Nat
  minute : Nat
  second : Nat
  le_year : 1000 ≤ year
  year_lt : year < 10000
  month_le : month ≤ 12
  day_le : day ≤ 31
  hour_lt : hour < 24
  minute_lt : minute < 60
  second_le : second ≤ 60

/-- `"%Y-%m-%d %H:%M:%S"`. -/
def LocalTime.stamp (t : LocalTime) : Bytes :=
  decimal t.year ++ ascii "-" ++ twoDigits t.month ++ ascii "-" ++ twoDigits t.day ++ ascii " " ++
    twoDigits t.hour ++ ascii ":" ++ twoDigits t.minute ++ ascii ":" ++ twoDigits t.second

/-- What `getpid` returns. -/
abbrev Pid := { n : Nat // n < 2 ^ 31 }

/-- `"Sender time: %s, Sender PID: %d"`. -/
def text (pid : Pid) (stamp : Bytes) : Bytes :=
  ascii "Sender time: " ++ stamp ++ ascii ", Sender PID: " ++ decimal pid

/-- `data_string`: what `snprintf` leaves there, and the bytes behind it, which are not
initialised. -/
def dataString (pid : Pid) (t : LocalTime) (rest : Nat → UInt8) (j : Nat) : UInt8 :=
  let message := (text pid t.stamp).take (bufSize - 1)
  if j < message.length then message.getD j 0 else if j = message.length then 0 else rest j

/-- The bytes of an array, as `%s` prints them. -/
def string (data : Nat → UInt8) : Bytes := ((List.range bufSize).map data).takeWhile (· ≠ 0)

/-- A NUL is in the array. -/
def Terminated (data : Nat → UInt8) : Prop := ∃ j < bufSize, data j = 0

instance (data : Nat → UInt8) : Decidable (Terminated data) :=
  inferInstanceAs (Decidable (∃ j < bufSize, data j = 0))

-- ---------------------------------------------------------------------------
-- State
-- ---------------------------------------------------------------------------

inductive Process (ι : Type) where
  | sender
  | receiver (i : ι)
  deriving DecidableEq, Repr

/-- What a receiver has printed as data, nothing where there is none, with the last message that
was complete when it began to copy and the last one begun when it ended. -/
structure Received (ι : Type) where
  receiver : ι
  data : Bytes
  since : Nat
  upto : Nat

/-- `data_string` of the segment, what the processes have printed, and the history: the times of
the messages that were begun, and what was received. -/
structure Shared (ι : Type) where
  segment : Register UInt8
  output : List (Process ι × Bytes)
  sent : List LocalTime
  received : List (Received ι)

/-- The next action of the sender: `memset`, or a statement of `write_string_in_shm`. `left` are
the bytes that are still to be stored. -/
inductive SenderPc where
  | memset (left : Finset Nat)
  | format
  | memcpy (data : Nat → UInt8) (left : Finset Nat)
  | print (data : Nat → UInt8)

/-- The next action of a receiver. -/
inductive ReceiverPc where
  | start
  | memcpy (since : Nat) (data : Nat → UInt8) (left : Finset Nat)
  | print (since : Nat) (data : Nat → UInt8)

@[reducible] def Pc {ι : Type} : Process ι → Type
  | .sender => SenderPc
  | .receiver _ => ReceiverPc

abbrev State (ι : Type) := Team (T := Process ι) (Shared ι) Pc

variable {ι : Type}

/-- The kernel gives a segment of zeros. -/
def start : State ι where
  shared := ⟨.create fun _ => 0, [], [], []⟩
  locals
    | .sender => .memset (Finset.range bufSize)
    | .receiver _ => .start

-- ---------------------------------------------------------------------------
-- Actions
-- ---------------------------------------------------------------------------

/-- What the rest of the world decides about an action: the time, the bytes of memory that is not
initialised, and the byte that is copied next. -/
structure Env where
  time : LocalTime
  rest : Nat → UInt8
  index : Nat

namespace Shared

variable (x : Shared ι)

def withSegment (r : Register UInt8) : Shared ι := { x with segment := r }

def print (p : Process ι) (line : Bytes) : Shared ι := { x with output := x.output ++ [(p, line)] }

def send (t : LocalTime) (data : Nat → UInt8) : Shared ι :=
  { x with segment := x.segment.begin data, sent := x.sent ++ [t] }

def receive (r : Received ι) : Shared ι := { x with received := x.received ++ [r] }

end Shared

def senderNext (pid : Pid) (env : Env) (x : Shared ι) : SenderPc → Option (Shared ι × SenderPc)
  | .memset left =>
    if left = ∅ then some (x, .format)
    else if env.index ∈ left then
      some (x.withSegment (x.segment.store env.index 0), .memset (left.erase env.index))
    else none
  | .format =>
    let data := dataString pid env.time env.rest
    some (x.send env.time data, .memcpy data (Finset.range bufSize))
  | .memcpy data left =>
    if left = ∅ then some (x.withSegment x.segment.finish, .print data)
    else if env.index ∈ left then
      some (x.withSegment (x.segment.store env.index (data env.index)),
        .memcpy data (left.erase env.index))
    else none
  | .print data =>
    some (x.print .sender (ascii "[sender]: data has been written: " ++ string data ++ ascii "\n"),
      .format)

/-- What a receiver with the process id `pid` prints. -/
def receivedLines (pid : Pid) (data : Bytes) (t : LocalTime) : Bytes :=
  if data = [] then ascii "[receiver]: no data available\n"
  else
    ascii "[receiver]: got data: " ++ data ++ ascii "\n[receiver]: receiver time: " ++ t.stamp ++
      ascii ", receiver PID: " ++ decimal pid ++ ascii "\n"

/-- The next action of the receiver `i`. Without a NUL in its copy `strlen` would leave the
array. -/
def receiverNext (pids : ι → Pid) (env : Env) (i : ι) (x : Shared ι) :
    ReceiverPc → Option (Shared ι × ReceiverPc)
  | .start => some (x, .memcpy x.segment.complete env.rest (Finset.range bufSize))
  | .memcpy since data left =>
    if left = ∅ then some (x, .print since data)
    else if env.index ∈ left then
      some (x, .memcpy since (Function.update data env.index (x.segment.cells env.index))
        (left.erase env.index))
    else none
  | .print since data =>
    if Terminated data then
      some ((x.print (.receiver i) (receivedLines (pids i) (string data) env.time)).receive
        ⟨i, string data, since, x.segment.versions.length - 1⟩, .start)
    else none

structure Action (ι : Type) where
  actor : Process ι
  env : Env

def next (pid : Pid) (pids : ι → Pid) :
    (a : Action ι) → Shared ι → Pc a.actor → Option (Shared ι × Pc a.actor)
  | ⟨.sender, env⟩ => senderNext pid env
  | ⟨.receiver i, env⟩ => receiverNext pids env i

def step [DecidableEq ι] (pid : Pid) (pids : ι → Pid) : Action ι → State ι → Option (State ι) :=
  Team.step Action.actor (next pid pids)

-- ---------------------------------------------------------------------------
-- The text of a message
-- ---------------------------------------------------------------------------

variable {pid : Pid} {t : LocalTime} {stamp : Bytes} {rest data : Nat → UInt8} {j k : Nat}

theorem length_decimal_year (t : LocalTime) : (decimal t.year).length = 4 := by
  have hle : (decimal t.year).length ≤ 4 :=
    length_digits_le (by decide) (by decide) (t.year_lt.trans_le (by decide))
  have hlt : ¬ (decimal t.year).length ≤ 3 := by
    rw [decimal, digits, List.length_map, Nat.length_toDigits_le_iff (by decide) (by decide)]
    have := t.le_year
    omega
  omega

theorem LocalTime.length_stamp (t : LocalTime) : t.stamp.length = 19 := by
  have hyear := length_decimal_year t
  have hmonth := length_twoDigits (n := t.month) (by have := t.month_le; omega)
  have hday := length_twoDigits (n := t.day) (by have := t.day_le; omega)
  have hhour := length_twoDigits (n := t.hour) (by have := t.hour_lt; omega)
  have hminute := length_twoDigits (n := t.minute) (by have := t.minute_lt; omega)
  have hsecond := length_twoDigits (n := t.second) (by have := t.second_le; omega)
  have hsigns : (ascii "-").length = 1 ∧ (ascii " ").length = 1 ∧ (ascii ":").length = 1 := by
    decide
  simp only [LocalTime.stamp, List.length_append, hyear, hmonth, hday, hhour, hminute, hsecond,
    hsigns]

/-- The length of all messages. -/
def messageLength (pid : Pid) : Nat := 46 + (decimal pid).length

theorem messageLength_lt (pid : Pid) : messageLength pid < bufSize - 1 := by
  have hpid : (decimal pid.1).length ≤ 10 := length_decimal_le pid.2
  show 46 + (decimal pid.1).length < 256 - 1
  omega

theorem length_texts : (ascii "Sender time: ").length = 13 ∧
    (ascii ", Sender PID: ").length = 14 := by decide

theorem length_text (pid : Pid) (h : stamp.length = 19) :
    (text pid stamp).length = messageLength pid := by
  simp only [text, List.length_append, length_texts, h]
  show 13 + 19 + 14 + (decimal pid).length = 46 + (decimal pid).length
  omega

/-- The bytes of a message, of which only the time is not always the same. -/
theorem getElem?_text (h : stamp.length = 19) : (text pid stamp)[j]? =
    if j < 13 then (ascii "Sender time: ")[j]? else
      if j < 32 then stamp[j - 13]? else (ascii ", Sender PID: " ++ decimal pid)[j - 32]? := by
  have hfirst : (ascii "Sender time: " ++ stamp).length = 32 := by
    rw [List.length_append, length_texts.1, h]
  rw [text, List.append_assoc]
  split
  · next hj =>
    rw [List.append_assoc, List.getElem?_append_left (by rw [length_texts.1]; exact hj)]
  · next hj =>
    split
    · next hj' =>
      rw [List.getElem?_append_left (by rw [hfirst]; exact hj'),
        List.getElem?_append_right (by rw [length_texts.1]; omega), length_texts.1]
    · next hj' =>
      rw [List.getElem?_append_right (by rw [hfirst]; omega), hfirst]

theorem zero_notMem_text (t : LocalTime) : (0 : UInt8) ∉ text pid t.stamp := by
  have hdecimal : ∀ n, (0 : UInt8) ∉ decimal n := fun n => zero_notMem_digits (by decide)
  have htwo : ∀ n, (0 : UInt8) ∉ twoDigits n := by
    intro n
    simp [twoDigits, hdecimal, List.mem_replicate]
  simp only [text, LocalTime.stamp, List.mem_append, hdecimal, htwo, or_false]
  decide

/-- Nothing is cut off. -/
theorem dataString_eq (pid : Pid) (t : LocalTime) (rest : Nat → UInt8) (j : Nat) :
    dataString pid t rest j =
      if j < messageLength pid then (text pid t.stamp).getD j 0
      else if j = messageLength pid then 0 else rest j := by
  have hlength := length_text pid t.length_stamp
  have htake : (text pid t.stamp).take (bufSize - 1) = text pid t.stamp := by
    apply List.take_of_length_le
    rw [hlength]
    exact (messageLength_lt pid).le
  rw [dataString, htake, hlength]

theorem dataString_of_lt (t : LocalTime) (rest : Nat → UInt8) (hj : j < messageLength pid) :
    (text pid t.stamp)[j]? = some (dataString pid t rest j) ∧ dataString pid t rest j ≠ 0 := by
  have hlt : j < (text pid t.stamp).length := by
    rw [length_text pid t.length_stamp]
    exact hj
  rw [dataString_eq, if_pos hj, List.getD_eq_getElem _ _ hlt]
  refine ⟨List.getElem?_eq_getElem hlt, fun hzero => ?_⟩
  have hmem := List.getElem_mem hlt
  rw [hzero] at hmem
  exact zero_notMem_text t hmem

theorem dataString_messageLength : dataString pid t rest (messageLength pid) = 0 := by
  rw [dataString_eq, if_neg (lt_irrefl _), if_pos rfl]

-- ---------------------------------------------------------------------------
-- Strings
-- ---------------------------------------------------------------------------

/-- The bytes of a string are those of its array. -/
theorem getElem?_string (h : j < (string data).length) :
    (string data)[j]? = some (data j) ∧ data j ≠ 0 ∧ j < bufSize := by
  have hstart : string data <+: (List.range bufSize).map data := List.takeWhile_prefix _
  have hlt : j < bufSize := by
    have := hstart.length_le
    rw [List.length_map, List.length_range] at this
    omega
  have heq : (string data)[j] = data j := by
    rw [hstart.getElem h]
    simp
  refine ⟨?_, ?_, hlt⟩
  · rw [List.getElem?_eq_getElem h, heq]
  · have hmem := List.mem_takeWhile_imp (List.getElem_mem h)
    rw [heq] at hmem
    simpa using hmem

/-- A string ends before a NUL. -/
theorem length_string_le (h : data k = 0) : (string data).length ≤ k := by
  by_contra hnot
  exact (getElem?_string (not_le.mp hnot)).2.1 h

/-- It ends at the first one. -/
theorem length_string_eq (h : data k = 0) (hk : k < bufSize) (hne : ∀ j < k, data j ≠ 0) :
    (string data).length = k := by
  refine le_antisymm (length_string_le h) ?_
  have hsplit : bufSize = k + (bufSize - k) := by omega
  have hall : ∀ a ∈ (List.range k).map data, decide (a ≠ 0) = true := by
    intro a ha
    obtain ⟨j, hj, rfl⟩ := List.mem_map.mp ha
    exact decide_eq_true (hne j (List.mem_range.mp hj))
  rw [string, hsplit, List.range_add, List.map_append, List.takeWhile_append_of_pos hall,
    List.length_append, List.length_map, List.length_range]
  exact Nat.le_add_right _ _

-- ---------------------------------------------------------------------------
-- Mixtures
-- ---------------------------------------------------------------------------

/-- The data is a mixture of the messages from the last one that was complete when the copy
began to the last one begun when it ended. Only the time can be mixed, once there is a message. -/
structure Received.Mixes (pid : Pid) (sent : List LocalTime) (e : Received ι) : Prop where
  since_le : e.since ≤ e.upto
  upto_le : e.upto ≤ sent.length
  bytes : ∀ (j : Nat) (a : UInt8), e.data[j]? = some a → ∃ k t, e.since ≤ k + 1 ∧ k + 1 ≤ e.upto ∧
    sent[k]? = some t ∧ (text pid t.stamp)[j]? = some a
  full : 0 < e.since → ∃ stamp : Bytes, stamp.length = 19 ∧ e.data = text pid stamp

/-- The versions of the segment: zeros, and the messages. -/
structure History (pid : Pid) (sent : List LocalTime) (r : Register UInt8) : Prop where
  length : r.versions.length = sent.length + 1
  zero : r.versions[0]? = some fun _ => 0
  message : ∀ k v, r.versions[k + 1]? = some v →
    ∃ t rest, sent[k]? = some t ∧ v = dataString pid t rest

variable {sent : List LocalTime} {r : Register UInt8} {since : Nat}

/-- A byte of a version. -/
theorem History.shows (h : History pid sent r) {a : UInt8} (hshows : r.Shows k j a)
    (hj : j < messageLength pid) : k = 0 ∧ a = 0 ∨ a ≠ 0 ∧ ∃ l t, k = l + 1 ∧ sent[l]? = some t ∧
      (text pid t.stamp)[j]? = some a := by
  obtain ⟨v, hv, rfl⟩ := hshows
  cases k with
  | zero =>
    obtain rfl := Option.some.inj (h.zero.symm.trans hv)
    exact .inl ⟨rfl, rfl⟩
  | succ l =>
    obtain ⟨t, rest, ht, rfl⟩ := h.message l v hv
    obtain ⟨htext, hne⟩ := dataString_of_lt t rest hj
    exact .inr ⟨hne, l, t, rfl, ht, htext⟩

/-- All versions have a NUL behind the message. -/
theorem History.shows_length (h : History pid sent r) {a : UInt8}
    (hshows : r.Shows k (messageLength pid) a) : a = 0 := by
  obtain ⟨v, hv, rfl⟩ := hshows
  cases k with
  | zero =>
    obtain rfl := Option.some.inj (h.zero.symm.trans hv)
    rfl
  | succ l =>
    obtain ⟨t, rest, -, rfl⟩ := h.message l v hv
    exact dataString_messageLength

theorem messageLength_lt_bufSize (pid : Pid) : messageLength pid < bufSize :=
  (messageLength_lt pid).trans_le (Nat.sub_le ..)

/-- A complete copy has a NUL. -/
theorem History.length_eq_zero (h : History pid sent r)
    (hcopy : r.Copying bufSize since ∅ data) : data (messageLength pid) = 0 := by
  obtain ⟨k, -, hshows⟩ := hcopy.copied _ (messageLength_lt_bufSize pid) (Finset.notMem_empty _)
  exact h.shows_length hshows

/-- A text that agrees with some message at each byte is a message but for its time. -/
theorem exists_stamp {s : Bytes} (hs : s.length = messageLength pid)
    (h : ∀ j < messageLength pid, ∃ t : LocalTime, (text pid t.stamp)[j]? = s[j]?) :
    ∃ stamp : Bytes, stamp.length = 19 ∧ s = text pid stamp := by
  have hlength : ((s.drop 13).take 19).length = 19 := by
    rw [List.length_take, List.length_drop, hs]
    show min 19 (46 + _ - 13) = 19
    omega
  refine ⟨(s.drop 13).take 19, hlength, List.ext_getElem? fun j => ?_⟩
  by_cases hj : j < messageLength pid
  · obtain ⟨t, ht⟩ := h j hj
    rw [← ht, getElem?_text hlength, getElem?_text t.length_stamp]
    split
    · rfl
    · next hfirst =>
      split
      · next hsecond =>
        have hback := ht
        rw [getElem?_text t.length_stamp, if_neg hfirst, if_pos hsecond] at hback
        rw [hback, List.getElem?_take_of_lt (by omega), List.getElem?_drop]
        congr 1
        omega
      · rfl
  · rw [List.getElem?_eq_none (by rw [hs]; omega),
      List.getElem?_eq_none (by rw [length_text pid hlength]; omega)]

/-- What a complete copy is printed as. -/
theorem History.mixes (h : History pid sent r) (hcopy : r.Copying bufSize since ∅ data)
    (hcomplete : r.complete < r.versions.length) (i : ι) :
    Received.Mixes pid sent ⟨i, string data, since, r.versions.length - 1⟩ := by
  have hupto : r.versions.length - 1 = sent.length := by
    rw [h.length]
    rfl
  have hend : data (messageLength pid) = 0 := h.length_eq_zero hcopy
  have hle : (string data).length ≤ messageLength pid := length_string_le hend
  have hshows : ∀ j < messageLength pid, ∃ k, since ≤ k ∧ r.Shows k j (data j) := fun j hj =>
    hcopy.copied j (hj.trans (messageLength_lt_bufSize pid)) (Finset.notMem_empty j)
  refine ⟨hcopy.since_le.trans (Nat.le_sub_one_of_lt hcomplete), hupto.le, fun j a ha => ?_,
    fun hsince => ?_⟩
  · have hj : j < (string data).length := (List.getElem?_eq_some_iff.mp ha).1
    obtain ⟨heq, hne, -⟩ := getElem?_string hj
    obtain rfl := Option.some.inj (heq.symm.trans ha)
    obtain ⟨k, hk, hversion⟩ := hshows j (hj.trans_le hle)
    rcases h.shows hversion (hj.trans_le hle) with ⟨-, hzero⟩ | ⟨-, l, t, rfl, ht, htext⟩
    · exact absurd hzero hne
    · exact ⟨l, t, hk, Nat.le_sub_one_of_lt hversion.lt, ht, htext⟩
  · have hbytes : ∀ j < messageLength pid, data j ≠ 0 ∧
        ∃ t : LocalTime, (text pid t.stamp)[j]? = some (data j) := by
      intro j hj
      obtain ⟨k, hk, hversion⟩ := hshows j hj
      rcases h.shows hversion hj with ⟨rfl, -⟩ | ⟨hne, l, t, -, -, htext⟩
      · exact absurd hk (Nat.not_le.mpr hsince)
      · exact ⟨hne, t, htext⟩
    have hlength := length_string_eq hend (messageLength_lt_bufSize pid) fun j hj => (hbytes j hj).1
    apply exists_stamp hlength
    intro j hj
    obtain ⟨t, ht⟩ := (hbytes j hj).2
    exact ⟨t, ht.trans (getElem?_string (hlength ▸ hj)).1.symm⟩

/-- What was copied while no message was stored is the last one, or nothing. -/
theorem Received.Mixes.eq_of_alone {e : Received ι} (h : e.Mixes pid sent)
    (halone : e.since = e.upto) : (e.since = 0 → e.data = []) ∧
      ∀ k t, e.since = k + 1 → sent[k]? = some t → e.data = text pid t.stamp := by
  constructor
  · intro hzero
    apply List.eq_nil_of_length_eq_zero
    by_contra hne
    obtain ⟨k, t, -, hupto, -⟩ :=
      h.bytes 0 _ (List.getElem?_eq_getElem (Nat.pos_of_ne_zero hne))
    omega
  · intro k t hk ht
    obtain ⟨stamp, hstamp, hdata⟩ := h.full (by omega)
    refine List.ext_getElem? fun j => ?_
    by_cases hj : j < e.data.length
    · have hget := List.getElem?_eq_getElem hj
      obtain ⟨l, u, hsince, hupto, hu, htext⟩ := h.bytes j _ hget
      obtain rfl : l = k := by omega
      obtain rfl := Option.some.inj (hu.symm.trans ht)
      rw [hget, htext]
    · have hlength : e.data.length = messageLength pid := by rw [hdata, length_text pid hstamp]
      rw [List.getElem?_eq_none (by omega),
        List.getElem?_eq_none (by rw [length_text pid t.length_stamp]; omega)]

theorem Received.Mixes.mono {e : Received ι} (h : e.Mixes pid sent) (t : LocalTime) :
    e.Mixes pid (sent ++ [t]) where
  since_le := h.since_le
  upto_le := h.upto_le.trans (by simp)
  bytes j a ha := by
    obtain ⟨k, u, hsince, hupto, hu, htext⟩ := h.bytes j a ha
    refine ⟨k, u, hsince, hupto, ?_, htext⟩
    rw [List.getElem?_append_left (List.getElem?_eq_some_iff.mp hu).1]
    exact hu
  full := h.full

theorem History.congr (h : History pid sent r) {r' : Register UInt8}
    (hversions : r'.versions = r.versions) : History pid sent r' where
  length := by rw [hversions, h.length]
  zero := by rw [hversions, h.zero]
  message k v hv := h.message k v (hversions ▸ hv)

theorem History.begin (h : History pid sent r) (t : LocalTime) (rest : Nat → UInt8) :
    History pid (sent ++ [t]) (r.begin (dataString pid t rest)) where
  length := by
    show (r.versions ++ [_]).length = _
    rw [List.length_append, List.length_append, h.length]
    rfl
  zero := by
    show (r.versions ++ [_])[0]? = _
    rw [List.getElem?_append_left (by rw [h.length]; exact Nat.succ_pos _)]
    exact h.zero
  message k v hv := by
    have hv' : (r.versions ++ [dataString pid t rest])[k + 1]? = some v := hv
    by_cases hk : k < sent.length
    · rw [List.getElem?_append_left (by rw [h.length]; omega)] at hv'
      obtain ⟨u, rest', hu, rfl⟩ := h.message k v hv'
      exact ⟨u, rest', by rw [List.getElem?_append_left hk, hu], rfl⟩
    · rw [List.getElem?_append_right (by rw [h.length]; omega), h.length] at hv'
      have hk' : k + 1 - (sent.length + 1) = k - sent.length := by omega
      rw [hk'] at hv'
      obtain ⟨hlt, heq⟩ := List.getElem?_eq_some_iff.mp hv'
      have hkeq : k - sent.length = 0 := by
        rw [List.length_singleton] at hlt
        omega
      refine ⟨t, rest, ?_, ?_⟩
      · rw [List.getElem?_append_right (not_lt.mp hk), hkeq]
        rfl
      · rw [← heq]
        simp

-- ---------------------------------------------------------------------------
-- What holds in every run
-- ---------------------------------------------------------------------------

structure Global (pid : Pid) (x : Shared ι) : Prop where
  history : History pid x.sent x.segment
  sound : x.segment.Sound bufSize
  received : ∀ e ∈ x.received, e.Mixes pid x.sent

/-- What a process knows of the segment and of its copy. -/
def Assert : (p : Process ι) → Shared ι → Pc p → Prop
  | .sender, x, .memset _ => x.segment.Idle bufSize ∧ x.segment.complete = 0
  | .sender, x, .format | .sender, x, .print _ => x.segment.Idle bufSize
  | .sender, x, .memcpy data left => x.segment.Writing bufSize data left
  | .receiver _, _, .start => True
  | .receiver _, x, .memcpy since data left => x.segment.Copying bufSize since left data
  | .receiver _, x, .print since data => x.segment.Copying bufSize since ∅ data

/-- What the process does to the segment. -/
def Guarantee : Process ι → Shared ι → Shared ι → Prop
  | .sender, x, x' => x.segment.Later x'.segment
  | .receiver _, x, x' => x'.segment = x.segment

variable {pids : ι → Pid} {env : Env} {x x' : Shared ι} {i : ι}

/-- Nothing is received, and no message is begun. -/
theorem Global.withSegment (h : Global pid x) {r' : Register UInt8}
    (hversions : r'.versions = x.segment.versions) (hsound : r'.Sound bufSize) :
    Global pid (x.withSegment r') where
  history := h.history.congr hversions
  sound := hsound
  received := h.received

theorem sender_own (hx : Global pid x) {pc pc' : SenderPc} (hpc : Assert (.sender : Process ι) x pc)
    (hnext : senderNext pid env x pc = some (x', pc')) :
    Global pid x' ∧ Assert (.sender : Process ι) x' pc' ∧ Guarantee .sender x x' := by
  cases pc with
  | memset left =>
    obtain ⟨hidle, hzero⟩ := hpc
    rw [senderNext] at hnext
    split at hnext
    · cases hnext
      exact ⟨hx, hidle, .refl⟩
    · split at hnext
      · cases hnext
        have hshows : x.segment.Shows x.segment.complete env.index 0 := by
          rw [hzero]
          exact ⟨_, hx.history.zero, rfl⟩
        have hidle' := hidle.store hshows
        exact ⟨hx.withSegment rfl hidle'.sound, ⟨hidle', hzero⟩, .store⟩
      · cases hnext
  | format =>
    cases hnext
    have hwriting := Register.Idle.begin hpc (dataString pid env.time env.rest)
    exact ⟨⟨hx.history.begin _ _, hwriting.sound, fun e he => (hx.received e he).mono _⟩, hwriting,
      .begin⟩
  | memcpy data left =>
    have hwriting : x.segment.Writing bufSize data left := hpc
    rw [senderNext] at hnext
    split at hnext
    · next hleft =>
      cases hnext
      subst hleft
      have hidle := hwriting.finish
      have hlater : x.segment.Later x.segment.finish :=
        .finish (by rw [hwriting.length]; omega)
      exact ⟨hx.withSegment rfl hidle.sound, hidle, hlater⟩
    · split at hnext
      · cases hnext
        have hwriting' := hwriting.store (j := env.index)
        exact ⟨hx.withSegment rfl hwriting'.sound, hwriting', .store⟩
      · cases hnext
  | print data =>
    cases hnext
    exact ⟨⟨hx.history, hx.sound, hx.received⟩, hpc, .refl⟩

theorem receiver_own (hx : Global pid x) {pc pc' : ReceiverPc} (hpc : Assert (.receiver i) x pc)
    (hnext : receiverNext pids env i x pc = some (x', pc')) :
    Global pid x' ∧ Assert (.receiver i) x' pc' ∧ Guarantee (.receiver i) x x' := by
  cases pc with
  | start =>
    cases hnext
    exact ⟨hx, .start _, rfl⟩
  | memcpy since data left =>
    have hcopy : x.segment.Copying bufSize since left data := hpc
    rw [receiverNext] at hnext
    split at hnext
    · next hleft =>
      cases hnext
      subst hleft
      exact ⟨hx, hcopy, rfl⟩
    · split at hnext
      · cases hnext
        exact ⟨hx, hcopy.load hx.sound, rfl⟩
      · cases hnext
  | print since data =>
    rw [receiverNext] at hnext
    split at hnext
    · cases hnext
      obtain ⟨k, hk, hshows⟩ := hx.sound 0 (by decide)
      refine ⟨⟨hx.history, hx.sound, fun e he => ?_⟩, trivial, rfl⟩
      rcases List.mem_append.mp he with hbefore | hnew
      · exact hx.received e hbefore
      · obtain rfl := List.mem_singleton.mp hnew
        exact hx.history.mixes hpc (hk.trans_lt hshows.lt) i
    · cases hnext

theorem stable (p u : Process ι) (hpu : u ≠ p) (hguar : Guarantee p x x') (pc : Pc u)
    (hpc : Assert u x pc) : Assert u x' pc := by
  have hlater : x.segment.Later x'.segment := by
    cases p with
    | sender => exact hguar
    | receiver i =>
      have heq : x'.segment = x.segment := hguar
      rw [heq]
      exact .refl
  cases u with
  | sender =>
    have heq : x'.segment = x.segment := by
      cases p with
      | sender => exact absurd rfl hpu
      | receiver i => exact hguar
    cases pc with
    | memset left => exact ⟨heq ▸ hpc.1, heq ▸ hpc.2⟩
    | format | print =>
      show x'.segment.Idle bufSize
      rw [heq]
      exact hpc
    | memcpy data left =>
      show x'.segment.Writing bufSize data left
      rw [heq]
      exact hpc
  | receiver i =>
    cases pc with
    | start => trivial
    | memcpy | print => exact Register.Copying.mono hpc hlater

variable [DecidableEq ι]

def outline (pid : Pid) (pids : ι → Pid) : Team.Outline Action.actor (next pid pids) where
  Allowed _ _ _ := True
  Global := Global pid
  Assert := Assert
  Guarantee := Guarantee
  own a x l x' l' hx hl _ hnext := by
    obtain ⟨p, env⟩ := a
    cases p with
    | sender => exact sender_own hx hl hnext
    | receiver i => exact receiver_own hx hl hnext
  stable p u _ _ l hpu _ hguar hl := stable p u hpu hguar l hl

omit [DecidableEq ι] in
theorem outline_start : (outline pid pids).Holds (start : State ι) where
  global :=
    { history := ⟨rfl, rfl, fun k v hv => by simp [start, Register.create] at hv⟩
      sound := (Register.idle_create _ _).sound
      received := fun e he => absurd he List.not_mem_nil }
  assert p := by
    cases p with
    | sender => exact ⟨Register.idle_create _ _, rfl⟩
    | receiver i => trivial

theorem outline_holds {s : State ι} (h : Reaches (step pid pids) start s) :
    (outline pid pids).Holds s :=
  Team.Outline.holds_of_reaches h outline_start fun _ _ _ => trivial

end LabsOS.Shmem.Exchange
