import LabsOS.Archiver.Archiver

/-!
# The calls the archiver makes

Which system calls the parts of an extraction can issue, whatever they are
answered. The two that matter to what a run is taken for, opening a file and
printing a line, are named by the functions that issue them; all others are
`Sys.Plain`. Where data is only moved between files that are open, they are
`Sys.Transfer`.
-/

namespace LabsOS

/-- A call that neither opens a file nor prints a line. -/
def Sys.Plain : Sys → Prop
  | .openFile .. => False
  | .printf .. => False
  | _ => True

/-- A call that moves data through open files, closes them, or warns. -/
def Sys.Transfer : Sys → Prop
  | .close _ => True
  | .read .. => True
  | .write .. => True
  | .lseek .. => True
  | .fsync _ => True
  | .fprintfErr .. => True
  | _ => False

theorem Sys.Transfer.plain {c : Sys} (h : c.Transfer) : c.Plain := by
  cases c <;> trivial

namespace Archiver

open Posix

variable {P : Sys → Prop}

section Transfer

variable (hP : ∀ c : Sys, c.Transfer → P c)
include hP

theorem completeWrite_calls (fd : Fd) (buf : Bytes) : (completeWrite fd buf).Calls P := by
  refine ⟨fun left => ?_, fun _ => trivial⟩
  dsimp only
  split
  · trivial
  · refine ⟨hP _ trivial, fun r => ?_⟩
    rcases r with _ | _ | n <;> trivial

theorem duplicateContent_calls (src dst : Fd) (total : Int) :
    (duplicateContent src dst total).Calls P := by
  refine ⟨fun rem => ?_, fun _ => trivial⟩
  dsimp only
  split
  · trivial
  · refine ⟨hP _ trivial, fun r => ?_⟩
    rcases r with _ | _ | ⟨x, xs⟩
    · trivial
    · trivial
    · apply (completeWrite_calls hP dst (x :: xs)).bind
      intro ok
      cases ok <;> trivial

theorem skipBytes_calls (fd : Fd) (length : Int) : (skipBytes fd length).Calls P := by
  rw [skipBytes]
  split
  · trivial
  · refine ⟨hP _ trivial, fun r => ?_⟩
    cases r with
    | some _ => trivial
    | none =>
      refine ⟨fun rem => ?_, fun _ => trivial⟩
      dsimp only
      split
      · trivial
      · refine ⟨hP _ trivial, fun r => ?_⟩
        rcases r with _ | _ | ⟨x, xs⟩ <;> trivial

theorem skipOrReport_calls (fd : Fd) (size : Int) (msg : String) :
    (skipOrReport fd size msg).Calls P := by
  refine ⟨hP _ trivial, fun r => ?_⟩
  cases r
  · exact ⟨hP _ trivial, fun _ => trivial⟩
  · trivial

theorem writeMark_calls (fd : Fd) (recordStart : Nat) (record : ArchiveRecord) :
    (writeMark fd recordStart record).Calls P := by
  refine ⟨hP _ trivial, fun r => ?_⟩
  cases r
  · exact ⟨hP _ trivial, fun _ => trivial⟩
  · refine ⟨hP _ trivial, fun r => ?_⟩
    cases r with
    | none => exact ⟨hP _ trivial, fun _ => trivial⟩
    | some n =>
      simp only [Prog.ret_bind]
      split
      · trivial
      · exact ⟨hP _ trivial, fun _ => trivial⟩

theorem compressRecord_calls (input temp : Fd) (record : ArchiveRecord) :
    (compressRecord input temp record).Calls P := by
  rw [compressRecord]
  split
  · apply (completeWrite_calls hP ..).bind
    intro ok
    cases ok
    · exact ⟨hP _ trivial, fun _ => trivial⟩
    · apply (duplicateContent_calls hP ..).bind
      intro ok
      cases ok
      · exact ⟨hP _ trivial, fun _ => trivial⟩
      · trivial
  · apply (skipBytes_calls hP ..).bind
    intro ok
    cases ok
    · exact ⟨hP _ trivial, fun _ => trivial⟩
    · trivial

theorem compressRound_calls (input temp : Fd) (st : Unit) :
    (compressRound input temp st).Calls P := by
  refine ⟨hP _ trivial, fun r => ?_⟩
  cases r with
  | none => trivial
  | some buf =>
    simp only [Prog.ret_bind]
    split
    · trivial
    · exact compressRecord_calls hP ..

theorem compressCleanup_calls (input temp : Fd) (path : CString)
    (hunlink : ∀ path, P (.unlink path)) : (compressCleanup input temp path).Calls P :=
  ⟨hP _ trivial, fun _ => ⟨hP _ trivial, fun _ => ⟨hunlink _, fun _ => trivial⟩⟩⟩

theorem compressFinish_calls (arc : CString) (input temp : Fd) (path : CString)
    (exit : CompressExit) (hunlink : ∀ path, P (.unlink path))
    (hrename : ∀ old new, P (.rename old new)) :
    (compressFinish arc input temp path exit).Calls P := by
  rcases exit with _ | _ | _
  · exact compressCleanup_calls hP _ _ _ hunlink
  · refine ⟨hP _ trivial, fun _ => ⟨hP _ trivial, fun _ => ⟨hP _ trivial, fun _ =>
      ⟨hrename _ _, fun r => ?_⟩⟩⟩⟩
    cases r
    · exact ⟨hP _ trivial, fun _ => ⟨hunlink _, fun _ => trivial⟩⟩
    · trivial
  · exact ⟨hP _ trivial, fun _ => compressCleanup_calls hP _ _ _ hunlink⟩

/-- The rounds of a compaction and its end. -/
theorem compressReplace_calls (arc : CString) (input temp : Fd) (path : CString)
    (hunlink : ∀ path, P (.unlink path)) (hrename : ∀ old new, P (.rename old new)) :
    ((Prog.while_ (compressRound input temp) ()).bind
      (compressFinish arc input temp path)).Calls P :=
  ⟨fun st => compressRound_calls hP _ _ st,
    fun _ => compressFinish_calls hP _ _ _ _ _ hunlink hrename⟩

end Transfer

section Plain

variable (hP : ∀ c : Sys, c.Plain → P c)
include hP

theorem transfer_of_plain (c : Sys) (hc : c.Transfer) : P c := hP c hc.plain

theorem restoreTimes_calls (p : CString) (stats : Stat) : (do
    let _ ← chown p stats.stUid stats.stGid
    match ← utime p stats.stAtime stats.stMtime with
    | false => perror "Внимание: не удалось восстановить временные метки"
    | true => pure () : Posix Unit).Calls P := by
  refine ⟨hP _ trivial, fun _ => ⟨hP _ trivial, fun r => ?_⟩⟩
  cases r
  · exact ⟨hP _ trivial, fun _ => trivial⟩
  · trivial

theorem applyOriginalAttributes_calls (p : CString) (stats : Stat) :
    (applyOriginalAttributes p stats).Calls P := by
  have htimes := restoreTimes_calls hP p stats
  refine ⟨hP _ trivial, fun r => ?_⟩
  cases r
  · exact ⟨hP _ trivial, fun _ => htimes⟩
  · exact htimes

/-- The record that was asked for: its file is opened for output, or a line tells
that it is too large. -/
theorem extractRecord_calls {name : CString} (fd : Fd) (recordStart : Nat) (record : ArchiveRecord)
    (hopen : ∀ path mode, P (.openFile path { write := true, creat := true, trunc := true } mode))
    (hprint : ∀ args,
      P (.printf "Предупреждение: файл '%s' слишком большой (размер: %lld байт)\n" args)) :
    (extractRecord fd name recordStart record).Calls P := by
  rw [extractRecord]
  split
  · exact ⟨hprint _, fun _ =>
      (skipOrReport_calls (transfer_of_plain hP) ..).bind fun _ => trivial⟩
  · refine ⟨hopen _ _, fun r => ?_⟩
    cases r with
    | none =>
      exact ⟨hP _ trivial, fun _ =>
        (skipOrReport_calls (transfer_of_plain hP) ..).bind fun _ => trivial⟩
    | some out =>
      apply (duplicateContent_calls (transfer_of_plain hP) ..).bind
      intro ok
      cases ok
      · exact ⟨hP _ trivial, fun _ => ⟨hP _ trivial, fun _ => trivial⟩⟩
      · exact ⟨hP _ trivial, fun _ => (applyOriginalAttributes_calls hP ..).bind fun _ =>
          (writeMark_calls (transfer_of_plain hP) ..).bind fun _ => trivial⟩

theorem extractOrSkip_calls {name : CString} (fd : Fd) (recordStart : Nat) (record : ArchiveRecord)
    (hopen : ∀ path mode, P (.openFile path { write := true, creat := true, trunc := true } mode))
    (hprint : ∀ args,
      P (.printf "Предупреждение: файл '%s' слишком большой (размер: %lld байт)\n" args)) :
    (extractOrSkip fd name recordStart record).Calls P := by
  rw [extractOrSkip]
  split
  · exact (extractRecord_calls hP _ _ _ hopen hprint).bind fun _ => trivial
  · refine ⟨hP _ trivial, fun r => ?_⟩
    cases r
    · exact ⟨hP _ trivial, fun _ => trivial⟩
    · trivial

theorem extractRound_calls {name : CString} (fd : Fd) (st : Unit)
    (hopen : ∀ path mode, P (.openFile path { write := true, creat := true, trunc := true } mode))
    (hprint : ∀ args,
      P (.printf "Предупреждение: файл '%s' слишком большой (размер: %lld байт)\n" args)) :
    (extractRound fd name st).Calls P := by
  refine ⟨hP _ trivial, fun r => ?_⟩
  cases r with
  | none => exact ⟨hP _ trivial, fun _ => trivial⟩
  | some recordStart =>
    refine ⟨hP _ trivial, fun r => ?_⟩
    simp only [Prog.ret_bind]
    split
    · trivial
    · split
      · exact ⟨hP _ trivial, fun _ => trivial⟩
      · exact extractOrSkip_calls hP _ _ _ hopen hprint

theorem compressArchiveFile_calls (arc : CString) (hopen : P (.openFile arc { read := true } 0)) :
    (compressArchiveFile arc).Calls P := by
  refine ⟨hopen, fun r => ?_⟩
  cases r with
  | none => exact ⟨hP _ trivial, fun _ => trivial⟩
  | some input =>
    refine ⟨hP _ trivial, fun r => ?_⟩
    rcases r with _ | ⟨temp, path⟩
    · exact ⟨hP _ trivial, fun _ => ⟨hP _ trivial, fun _ => trivial⟩⟩
    · have hrest : ((Prog.while_ (compressRound input temp) ()).bind
          (compressFinish arc input temp path)).Calls P :=
        compressReplace_calls (transfer_of_plain hP) arc input temp path
          (fun _ => hP _ trivial) fun _ _ => hP _ trivial
      refine ⟨hP _ trivial, fun r => ?_⟩
      cases r with
      | none => exact hrest
      | some stats => exact ⟨hP _ trivial, fun _ => hrest⟩

/-- The end of an extraction reports it. -/
theorem extractFinish_calls {name : CString} (fd : Fd) (arc : CString)
    (hopen : P (.openFile arc { read := true } 0))
    (hprint : P (.printf (extractedLine name).fmt (extractedLine name).args)) :
    (extractFinish fd arc name).Calls P := by
  refine ⟨hP _ trivial, fun _ => (compressArchiveFile_calls hP arc hopen).bind fun ok => ?_⟩
  cases ok
  · exact ⟨hP _ trivial, fun _ => ⟨hprint, fun _ => trivial⟩⟩
  · exact ⟨hprint, fun _ => trivial⟩

end Plain

end Archiver

end LabsOS
