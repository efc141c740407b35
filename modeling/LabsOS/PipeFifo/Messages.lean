import LabsOS.Kernel.Pipe
import LabsOS.Kernel.Text

/-!
# The message of the parent

What `lab6_pipefifo/pipe.c` and `lab6_pipefifo/fifo.c` have in common: the parent makes up a
message in an array of `BUFFER_SIZE` bytes, where it fits (`length_message_lt`), and the child
prints what it received as a string.
-/

namespace LabsOS.PipeFifo

/-- `BUFFER_SIZE`. -/
def bufferSize : Nat := 256

/-- What `strftime` leaves in `time_str`. -/
structure TimeStr extends CString where
  length_lt : bytes.length < 64

/-- What the system tells the two processes: the times at which they ask for it, and the process
id of the parent. -/
structure Facts where
  childTime : TimeStr
  parentTime : TimeStr
  parentPid : Nat
  parentPid_lt : parentPid < 2 ^ 31

inductive Side where
  | parent
  | child
  deriving DecidableEq, Repr

def Side.other : Side → Side
  | .parent => .child
  | .child => .parent

/-- How a process ends. -/
inductive Status where
  | exited (status : Nat)
  | killed
  deriving DecidableEq, Repr

variable (f : Facts)

/-- `"Parent process time: %s\nParent PID: %d\n"`. -/
def text : Bytes :=
  ascii "Parent process time: " ++ f.parentTime.bytes ++ ascii "\nParent PID: " ++
    decimal f.parentPid ++ ascii "\n"

/-- The string that `snprintf` leaves in `buffer`. -/
def message : Bytes := (text f).take (bufferSize - 1)

/-- `"Child process time: %s\n"`. -/
def timeLine : Bytes := ascii "Child process time: " ++ f.childTime.bytes ++ ascii "\n"

/-- `"Received from parent: %s"` of the bytes received and the NUL behind them. -/
def receivedLine (bytes : Bytes) : Bytes :=
  ascii "Received from parent: " ++ (CString.ofBytes (bytes ++ [0])).bytes

variable {f}

theorem length_text_lt : (text f).length < bufferSize - 1 := by
  have htime := f.parentTime.length_lt
  have hpid := length_decimal_le f.parentPid_lt
  have htexts : (ascii "Parent process time: ").length = 21 ∧
      (ascii "\nParent PID: ").length = 13 ∧ (ascii "\n").length = 1 := by decide
  simp only [text, List.length_append, htexts]
  show _ < 256 - 1
  omega

/-- Nothing is cut off. -/
theorem message_eq : message f = text f := List.take_of_length_le length_text_lt.le

theorem length_message_lt : (message f).length < bufferSize - 1 := by
  rw [message_eq]
  exact length_text_lt

theorem message_ne_nil : message f ≠ [] := by
  intro h
  rw [message_eq, text] at h
  have hlast := (List.append_eq_nil_iff.mp h).2
  exact absurd hlast (by decide)

theorem zero_notMem_message : (0 : UInt8) ∉ message f := by
  have hpid : (0 : UInt8) ∉ decimal f.parentPid := zero_notMem_digits (by decide)
  simp only [message_eq, text, List.mem_append, f.parentTime.noNul, hpid, or_false]
  decide

/-- The message is printed in full. -/
theorem receivedLine_message :
    receivedLine (message f) = ascii "Received from parent: " ++ text f := by
  have hstring : CString.ofBytes (message f ++ [0]) = ⟨message f, zero_notMem_message⟩ :=
    CString.ofBytes_append_nul ⟨message f, zero_notMem_message⟩ []
  rw [receivedLine, hstring]
  show _ ++ message f = _
  rw [message_eq]

/-- Two processes at the epoch. -/
def epoch : Facts where
  childTime := ⟨⟨ascii "Thu Jan 01 00:00:00 1970", by decide⟩, by decide⟩
  parentTime := ⟨⟨ascii "Thu Jan 01 00:00:05 1970", by decide⟩, by decide⟩
  parentPid := 42
  parentPid_lt := by decide

end LabsOS.PipeFifo
