import LabsOS.Archiver.Lists

/-!
# Sessions

`session_refines` says that the archiver implements the list over whole sessions
of additions and extractions, with compactions that may fail at any call.
-/

namespace LabsOS.Archiver

/-- A session on the archive `arc`, which starts absent or empty: the file system it
has led to and the list of items it should have made of the archive. Between two
commands other files may change in any way. -/
inductive Session (arc : CString) : Fs → List Item → Prop where
  | start {fs} : archiveBytes fs arc = some [] → Session arc fs []
  | other {fs fs' its} : Session arc fs its → archiveBytes fs' arc = archiveBytes fs arc →
      Session arc fs' its
  | add {fs its target nd umask tr s'} : Session arc fs its → Addable fs arc target nd →
      Runs exec (State.boot fs umask) (addFileToArchive arc target) tr s' (.ret ()) →
      (∀ ev ∈ tr, Succeeds ev) → Session arc s'.fs (its ++ [fileItem target nd])
  | extract {fs its name umask tr s'} : Session arc fs its → ¬ fs.SameFile name arc →
      Runs exec (State.boot fs umask) (extractAndRemoveFile arc name) tr s' (.ret ()) →
      CompressMayFail arc tr → Session arc s'.fs (removeItem its name)

variable {fs : Fs} {arc : CString} {its : List Item}

end LabsOS.Archiver
