import LabsOS.Sems.Sems
import Mathlib.Data.List.GetD

/-!
# The text of a message

A message fits in both buffers of 100 bytes and holds no NUL, so `strncpy` copies
all of it, whatever the counter, the time and the process id.
-/

namespace LabsOS.Sems

variable {pid : Pid} {m : Message} {k : Nat}

/-- The longest message has 53 bytes. -/
theorem length_text_le (pid : Pid) (hm : m.number < 2 ^ 31) : (m.text pid).length ≤ 53 := by
  have hnumber : (decimal m.number).length ≤ 10 := length_decimal_le hm
  have hpid : (decimal pid.1).length ≤ 10 := length_decimal_le pid.2
  have hhour := length_twoDigits (n := m.time.hour) (by have := m.time.hour_lt; omega)
  have hminute := length_twoDigits (n := m.time.minute) (by have := m.time.minute_lt; omega)
  have hsecond := length_twoDigits (n := m.time.second) (by have := m.time.second_le; omega)
  have h₁ : (ascii "[MESSAGE #").length = 10 := by decide
  have h₂ : (ascii "] Time: ").length = 8 := by decide
  have h₃ : (ascii ":").length = 1 := by decide
  have h₄ : (ascii ", PID: ").length = 7 := by decide
  simp only [Message.text, List.length_append, hhour, hminute, hsecond, h₁, h₂, h₃, h₄]
  omega

theorem zero_notMem_twoDigits {n : Nat} : (0 : UInt8) ∉ twoDigits n := by
  have hdecimal : (0 : UInt8) ∉ decimal n := zero_notMem_digits (by decide)
  simp [twoDigits, hdecimal, List.mem_replicate]

theorem zero_notMem_text : (0 : UInt8) ∉ m.text pid := by
  have hnumber : (0 : UInt8) ∉ decimal m.number := zero_notMem_digits (by decide)
  have hpid : (0 : UInt8) ∉ decimal pid.1 := zero_notMem_digits (by decide)
  simp only [Message.text, List.mem_append, hnumber, hpid, zero_notMem_twoDigits, or_false]
  decide

/-- `snprintf` cuts nothing off. -/
theorem buffer_eq_text (hm : m.number < 2 ^ 31) : m.buffer pid = m.text pid := by
  have hlen := length_text_le pid hm
  exact List.take_of_length_le (by unfold messageSize; omega)

-- ---------------------------------------------------------------------------
-- The segment
-- ---------------------------------------------------------------------------

/-- A string, padded with zeros to the size of the segment. -/
def padded (text : Bytes) : Bytes := text ++ List.replicate (bufferSize - text.length) 0

/-- What a reader of the segment finds after these messages. -/
def latest (pid : Pid) (sent : List Message) : Bytes :=
  (sent.getLast?.map (Message.text pid)).getD []

theorem getD_padded (text : Bytes) (k : Nat) : (padded text).getD k 0 = text.getD k 0 := by
  unfold padded
  by_cases hk : k < text.length
  · rw [List.getD_append _ _ _ _ hk]
  · rw [List.getD_append_right _ _ _ _ (Nat.le_of_not_lt hk),
      List.getD_eq_default text _ (Nat.le_of_not_lt hk)]
    simp [List.getD_eq_getElem?_getD, List.getElem?_replicate]
    split <;> rfl

theorem length_padded {text : Bytes} (h : text.length ≤ bufferSize) :
    (padded text).length = bufferSize := by
  rw [padded, List.length_append, List.length_replicate]
  omega

/-- The segment where the first `k` bytes of a new content have been written. -/
def overwritten (k : Nat) (old new : Bytes) : Bytes := new.take k ++ old.drop k

theorem overwritten_succ {old new : Bytes} (hk : k < old.length) (hlen : new.length = old.length) :
    (overwritten k old new).set k (new.getD k 0) = overwritten (k + 1) old new := by
  have hnew : k < new.length := hlen ▸ hk
  have htake : (new.take k).length = k := List.length_take_of_le hnew.le
  rw [overwritten, overwritten, List.set_append_right _ _ htake.le, htake, Nat.sub_self,
    List.drop_eq_getElem_cons hk, List.set_cons_zero, ← List.take_append_getElem hnew,
    List.append_assoc, List.getD_eq_getElem _ _ hnew, List.singleton_append]

end LabsOS.Sems
