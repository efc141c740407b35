import LabsOS.CatGrep.Streams
import LabsOS.Ls.Myls
import LabsOS.Text.Components

/-!
# Which of the two tools runs

`main` looks for the names of its tools in the whole of `argv[0]`, in lower case. The
names hold no `/`, so an occurrence lies in the directory part or in the last component, and
`main` runs the tool that the last component names unless the directory part names another
(`main_dispatch_iff`).
-/

namespace LabsOS.CatGrep

open Ls (tolower)

-- ---------------------------------------------------------------------------
-- main
-- ---------------------------------------------------------------------------

/-- `strstr`: the string from the first occurrence of `needle` on. -/
def strstr (needle : Bytes) : Bytes → Option Bytes
  | [] => if needle = [] then some [] else none
  | c :: s => if needle.isPrefixOf (c :: s) then some (c :: s) else strstr needle s

inductive Tool where
  | textProcessor
  | patternSearcher
  deriving DecidableEq, Repr

/-- The tests of `main` on its name in lower case. -/
def selectTool (lowerName : Bytes) : Option Tool :=
  if (strstr (ascii "mycat") lowerName).isSome then some .textProcessor
  else if (strstr (ascii "mygrep") lowerName).isSome then some .patternSearcher
  else none

variable (env : Env) (regcomp : CString → Option (Ere UInt8))

def runTool (argv0 : CString) (args : List CString) (io : Console) :
    Option Tool → Word × Console
  | some .textProcessor => textProcessorMain env argv0 args io
  | some .patternSearcher => patternSearcherMain env regcomp argv0 args io
  | none => (1, io.error (.fprintf "Program must be executed as 'mycat' or 'mygrep'\n" []))

/-- `main`, where `strdup` finds the memory for its copy. -/
def main (argv0 : CString) (args : List CString) (io : Console) : Word × Console :=
  let lowerName := argv0.bytes.map tolower
  runTool env regcomp argv0 args io (selectTool lowerName)

-- ---------------------------------------------------------------------------
-- strstr
-- ---------------------------------------------------------------------------

variable {needle s : Bytes}

theorem isSome_strstr : (strstr needle s).isSome ↔ needle <:+: s := by
  induction s with
  | nil =>
    rw [List.infix_nil, strstr]
    split
    · next h => exact iff_of_true rfl h
    · next h => exact iff_of_false Bool.false_ne_true h
  | cons c s ih =>
    rw [List.infix_cons_iff, strstr, ← ih]
    split
    · next h => exact iff_of_true rfl (.inl (List.isPrefixOf_iff_prefix.mp h))
    · next h =>
      rw [List.isPrefixOf_iff_prefix] at h
      exact ⟨.inr, fun h' => h'.resolve_left h⟩

-- ---------------------------------------------------------------------------
-- The name in its directory
-- ---------------------------------------------------------------------------

/-- `/`. -/
def slash : UInt8 := 47

/-- The bytes hold `name`, in upper or lower case. -/
def Holds (name : String) (bytes : Bytes) : Prop := ascii name <:+: bytes.map tolower

instance (name : String) (bytes : Bytes) : Decidable (Holds name bytes) :=
  decidable_of_iff ((strstr (ascii name) (bytes.map tolower)).isSome = true) isSome_strstr

/-- The tool that the last component of `argv[0]` names. -/
def ownTool (argv0 : CString) : Option Tool :=
  if Holds "mycat" (lastComponent slash argv0.bytes) then some .textProcessor
  else if Holds "mygrep" (lastComponent slash argv0.bytes) then some .patternSearcher
  else none

/-- What the directory part names, the last component names as well or overrules. -/
structure NamedByLast (argv0 : CString) : Prop where
  mycat : Holds "mycat" (directoryPart slash argv0.bytes) →
    Holds "mycat" (lastComponent slash argv0.bytes)
  mygrep : Holds "mygrep" (directoryPart slash argv0.bytes) →
    Holds "mycat" (lastComponent slash argv0.bytes) ∨
      Holds "mygrep" (lastComponent slash argv0.bytes)

variable {env regcomp}

/-- A name is in the path if it is in one of its two parts. -/
theorem holds_path_iff (name : String) (hname : slash ∉ ascii name) (path : Bytes) :
    Holds name path ↔ Holds name (directoryPart slash path) ∨
      Holds name (lastComponent slash path) := by
  have hdir : IsDirectory slash ((directoryPart slash path).map tolower) := by
    rcases isDirectory_directoryPart slash path with h | ⟨d, h⟩
    · exact .inl (by rw [h, List.map_nil])
    · exact .inr ⟨d.map tolower, by rw [h, List.map_append]; rfl⟩
  unfold Holds
  rw [← infix_directory_append_iff hdir hname, ← List.map_append,
    directoryPart_append_lastComponent]

theorem selectTool_map_tolower (bytes : Bytes) : selectTool (bytes.map tolower) =
    if Holds "mycat" bytes then some .textProcessor
    else if Holds "mygrep" bytes then some .patternSearcher else none :=
  if_congr isSome_strstr rfl (if_congr isSome_strstr rfl rfl)

/-- The selected tool is the one of the last component. -/
theorem selectTool_eq_ownTool_iff (argv0 : CString) :
    selectTool (argv0.bytes.map tolower) = ownTool argv0 ↔ NamedByLast argv0 := by
  have hcat := holds_path_iff "mycat" (by decide) argv0.bytes
  have hgrep := holds_path_iff "mygrep" (by decide) argv0.bytes
  rw [selectTool_map_tolower, ownTool]
  simp only [hcat, hgrep]
  constructor
  · intro h
    by_cases hlast : Holds "mycat" (lastComponent slash argv0.bytes)
    · exact ⟨fun _ => hlast, fun _ => .inl hlast⟩
    rw [if_neg hlast] at h
    have hdir : ¬ Holds "mycat" (directoryPart slash argv0.bytes) := by
      intro hdir
      rw [if_pos (.inl hdir)] at h
      split at h
      · cases h
      · cases h
    rw [if_neg (not_or.mpr ⟨hdir, hlast⟩)] at h
    refine ⟨fun h' => absurd h' hdir, fun h' => .inr ?_⟩
    by_contra hlast'
    rw [if_pos (.inl h'), if_neg hlast'] at h
    cases h
  · intro h
    simp only [or_iff_right_of_imp h.mycat]
    split
    · rfl
    · next hlast =>
      simp only [or_iff_right_of_imp fun hdir => (h.mygrep hdir).resolve_left hlast]

/-- The tools are told apart by what they complain of when they are given nothing. -/
theorem runTool_injective {argv0 : CString} {t t' : Option Tool}
    (h : runTool ⟨fun _ => .ok [], []⟩ (fun _ => none) argv0 [] ⟨[], []⟩ t =
      runTool ⟨fun _ => .ok [], []⟩ (fun _ => none) argv0 [] ⟨[], []⟩ t') : t = t' := by
  have hcat : (runTool ⟨fun _ => .ok [], []⟩ (fun _ => none) argv0 [] ⟨[], []⟩
      (some .textProcessor)).2.stderr = [] := by
    show (streamTextDisplay [] 0 ⟨[], []⟩).stderr = []
    rw [streamTextDisplay, whileGetline_eq]
    rfl
  have hstderr := congrArg (fun r => r.2.stderr) h
  cases t with
  | none =>
    cases t' with
    | none => rfl
    | some t' =>
      cases t' with
      | textProcessor => cases hstderr.trans hcat
      | patternSearcher => simp [runTool, patternSearcherMain, Console.error] at hstderr
  | some t =>
    cases t with
    | textProcessor =>
      cases t' with
      | none => cases hcat.symm.trans hstderr
      | some t' =>
        cases t' with
        | textProcessor => rfl
        | patternSearcher => cases hcat.symm.trans hstderr
    | patternSearcher =>
      cases t' with
      | none => simp [runTool, patternSearcherMain, Console.error] at hstderr
      | some t' =>
        cases t' with
        | textProcessor => cases hstderr.trans hcat
        | patternSearcher => rfl

/-- `main` does what a tool does only by running it. -/
theorem main_eq_runTool_iff {argv0 : CString} {t : Option Tool} :
    (∀ env regcomp args io, main env regcomp argv0 args io =
      runTool env regcomp argv0 args io t) ↔ selectTool (argv0.bytes.map tolower) = t := by
  constructor
  · intro h
    exact runTool_injective (h _ _ _ _)
  · intro h env regcomp args io
    rw [main, h]

/-- **Which tool runs.** Whatever it is given and finds, `main` does what the tool does that
its own name asks for, if and only if the directory it was called in names no other. -/
theorem main_dispatch_iff (argv0 : CString) :
    (∀ env regcomp args io, main env regcomp argv0 args io =
      runTool env regcomp argv0 args io (ownTool argv0)) ↔ NamedByLast argv0 :=
  main_eq_runTool_iff.trans (selectTool_eq_ownTool_iff argv0)

/-- `mygrep` in a directory `mycat`. -/
def grepInCat : CString := ⟨ascii "mycat/mygrep", by decide⟩

def plainGrep : CString := ⟨ascii "mygrep", by decide⟩

/-- It runs the other tool, and not the one that the same name runs elsewhere. -/
theorem main_dispatch_directory :
    lastComponent slash grepInCat.bytes = lastComponent slash plainGrep.bytes ∧
    ownTool grepInCat = some .patternSearcher ∧
    (∀ env regcomp args io, main env regcomp plainGrep args io =
      patternSearcherMain env regcomp plainGrep args io) ∧
    (∀ env regcomp args io, main env regcomp grepInCat args io =
      textProcessorMain env grepInCat args io) ∧
    ¬ ∀ env regcomp args io, main env regcomp grepInCat args io =
      runTool env regcomp grepInCat args io (ownTool grepInCat) := by
  have hgrep : selectTool (plainGrep.bytes.map tolower) = some .patternSearcher := by decide +kernel
  have hcat : selectTool (grepInCat.bytes.map tolower) = some .textProcessor := by decide +kernel
  have hown : ownTool grepInCat = some .patternSearcher := by decide +kernel
  refine ⟨by decide +kernel, hown, main_eq_runTool_iff.mpr hgrep, main_eq_runTool_iff.mpr hcat, ?_⟩
  intro h
  have hsame := main_eq_runTool_iff.mp h
  rw [hcat, hown] at hsame
  cases hsame

end LabsOS.CatGrep
