import LabsOS.CatGrep.Getopt
import LabsOS.Kernel.Text
import LabsOS.Regex.Ere
import LabsOS.Text.Lines

/-!
# mycat and mygrep

The functions of `lab1_cat_grep/main.c`, statement by statement. A stream is the bytes
that are still to be read from it; what is printed goes to a `Console`, which remembers
each `printf`. An `int` is a word of 32 bits. `regcomp` is the C library's, and stays a
parameter; what it compiles to is searched for as POSIX has it.
-/

namespace LabsOS.CatGrep

abbrev Word := BitVec 32

def lineNumFlag : Word := 0x01
def nonblankNumFlag : Word := 0x02
def endMarkerFlag : Word := 0x04

/-- `options_set & FLAG` as a condition. -/
def hasFlag (optionsSet flag : Word) : Bool := optionsSet &&& flag != 0

/-- A message on the standard error. -/
inductive Message where
  | fprintf (fmt : String) (args : List Bytes)
  | perror (text : Bytes)
  deriving DecidableEq, Repr

/-- What the program has printed so far, one item for each call. -/
structure Console where
  stdout : List Bytes
  stderr : List Message
  deriving DecidableEq, Repr

namespace Console

def printf (io : Console) (text : Bytes) : Console := { io with stdout := io.stdout ++ [text] }

def error (io : Console) (m : Message) : Console := { io with stderr := io.stderr ++ [m] }

/-- The bytes on the standard output. -/
def text (io : Console) : Bytes := io.stdout.flatten

end Console

/-- What the program finds: the file behind each name, or the reason why it cannot be
opened, and its standard input. -/
structure Env where
  fopen : CString → Except Bytes Bytes
  stdin : Bytes

-- ---------------------------------------------------------------------------
-- getline
-- ---------------------------------------------------------------------------

/-- The newline. -/
def newline : UInt8 := 10

/-- `getline`: the next line with its newline, and the rest of the stream. -/
def getline (stream : Bytes) : Option (Bytes × Bytes) :=
  if stream = [] then none
  else
    match stream.dropWhile (· ≠ newline) with
    | [] => some (stream, [])
    | nl :: rest => some (stream.takeWhile (· ≠ newline) ++ [nl], rest)

theorem length_getline {stream line rest : Bytes} (h : getline stream = some (line, rest)) :
    rest.length < stream.length := by
  unfold getline at h
  split at h
  · cases h
  · next hne =>
    split at h
    · obtain ⟨-, rfl⟩ := Prod.mk.inj (Option.some.inj h)
      exact List.length_pos_of_ne_nil hne
    · next hdrop =>
      obtain ⟨-, rfl⟩ := Prod.mk.inj (Option.some.inj h)
      have hle := (List.dropWhile_sublist (l := stream) (· ≠ newline)).length_le
      rw [hdrop, List.length_cons] at hle
      omega

/-- `while (getline(&line, ..) != -1) body`. -/
def whileGetline {σ : Type} (body : σ → Bytes → σ) (st : σ) (stream : Bytes) : σ :=
  match _h : getline stream with
  | none => st
  | some (line, rest) => whileGetline body (body st line) rest
termination_by stream.length
decreasing_by exact length_getline _h

/-- The buffer of `getline`, which ends with a NUL behind the line. -/
def lineBuffer (line : Bytes) : Bytes := line ++ [0]

/-- The string at the start of a buffer. -/
def cstr (buffer : Bytes) : Bytes := (CString.ofBytes buffer).bytes

-- ---------------------------------------------------------------------------
-- mycat
-- ---------------------------------------------------------------------------

/-- `"%6d\t"`. -/
def numberField (counter : Word) : Bytes := padLeft 6 (signedDecimal counter.toInt) ++ [9]

def displayTextLine (textBuffer : Bytes) (length : Nat) (optionsSet : Word)
    (counter : Word) (io : Console) : Word × Console :=
  let lineIsEmpty := textBuffer.head? = some newline ∨ length = 0
  let (counter, io) :=
    if hasFlag optionsSet nonblankNumFlag ∧ ¬ lineIsEmpty then
      (counter + 1, io.printf (numberField counter))
    else if hasFlag optionsSet lineNumFlag ∧ ¬ hasFlag optionsSet nonblankNumFlag then
      (counter + 1, io.printf (numberField counter))
    else (counter, io)
  if hasFlag optionsSet endMarkerFlag then
    if 0 < length ∧ textBuffer[length - 1]? = some newline then
      let textBuffer := textBuffer.set (length - 1) 0
      (counter, io.printf (cstr textBuffer ++ ascii "$\n"))
    else (counter, io.printf (cstr textBuffer ++ ascii "$\n"))
  else (counter, io.printf (cstr textBuffer))

def streamTextDisplay (inputStream : Bytes) (optionsSet : Word) (io : Console) : Console :=
  (whileGetline
    (fun (st : Word × Console) line =>
      displayTextLine (lineBuffer line) line.length optionsSet st.1 st.2)
    (1, io) inputStream).2

variable (env : Env)

def processTextFile (filename : CString) (optionsSet : Word) (io : Console) : Word × Console :=
  match env.fopen filename with
  | .error reason =>
    (1, (io.error (.fprintf "Error opening '%s': " [filename.bytes])).error (.perror reason))
  | .ok inputFile => (0, streamTextDisplay inputFile optionsSet io)

def processTextInput (optionsSet : Word) (io : Console) : Console :=
  streamTextDisplay env.stdin optionsSet io

def catShortOpts : Bytes := ascii "nbE"

def catLongOpts : List LongOption :=
  [⟨ascii "number", 110⟩, ⟨ascii "number-nonblank", 98⟩, ⟨ascii "show-ends", 69⟩]

/-- The loop over the options; `none` is the way to the usage message. -/
def selectOptions : List (Option UInt8) → Word → Option Word
  | [], selectedOptions => some selectedOptions
  | some 110 :: options, selectedOptions => selectOptions options (selectedOptions ||| lineNumFlag)
  | some 98 :: options, selectedOptions =>
    selectOptions options (selectedOptions ||| nonblankNumFlag)
  | some 69 :: options, selectedOptions => selectOptions options (selectedOptions ||| endMarkerFlag)
  | _ :: _, _ => none

/-- `argv0` is the name of the program, `args` are the arguments behind it. -/
def textProcessorMain (argv0 : CString) (args : List CString) (io : Console) : Word × Console :=
  let (options, operands) := getoptLong catShortOpts catLongOpts args
  match selectOptions options 0 with
  | none => (1, io.error (.fprintf "Usage: %s [-n] [-b] [-E] [file...]\n" [argv0.bytes]))
  | some selectedOptions =>
    if operands = [] then (0, processTextInput env selectedOptions io)
    else
      operands.foldl
        (fun (st : Word × Console) filename =>
          let (status, io) := processTextFile env filename selectedOptions st.2
          (st.1 ||| status, io))
        (0, io)

-- ---------------------------------------------------------------------------
-- mygrep
-- ---------------------------------------------------------------------------

/-- `regexec(..) == 0`. -/
def regexec (compiledRegex : Ere UInt8) (string : Bytes) : Bool := compiledRegex.search string

/-- The body of the loop in `search_stream_pattern`. -/
def searchLine (compiledRegex : Ere UInt8) (sourceName : Option CString) (multiSource : Bool)
    (foundStatus : Bool) (io : Console) (lineBuffer : Bytes) : Bool × Console :=
  if regexec compiledRegex (cstr lineBuffer) then
    (true,
      match multiSource, sourceName with
      | true, some name => io.printf (name.bytes ++ ascii ":" ++ cstr lineBuffer)
      | _, _ => io.printf (cstr lineBuffer))
  else (foundStatus, io)

def searchStreamPattern (compiledRegex : Ere UInt8) (inputStream : Bytes)
    (sourceName : Option CString) (multiSource : Bool) (io : Console) : Word × Console :=
  let (foundStatus, io) := whileGetline
    (fun (st : Bool × Console) line =>
      searchLine compiledRegex sourceName multiSource st.1 st.2 (lineBuffer line))
    (false, io) inputStream
  (if foundStatus then 0 else 1, io)

variable (regcomp : CString → Option (Ere UInt8))

def searchFilePattern (searchPattern filename : CString) (multiSource : Bool) (io : Console) :
    Word × Console :=
  match env.fopen filename with
  | .error reason =>
    (1, (io.error (.fprintf "Cannot open '%s': " [filename.bytes])).error (.perror reason))
  | .ok inputFile =>
    match regcomp searchPattern with
    | none => (1, io.error (.fprintf "Pattern compilation failed\n" []))
    | some patternRegex => searchStreamPattern patternRegex inputFile (some filename) multiSource io

def searchInputPattern (searchPattern : CString) (io : Console) : Console :=
  match regcomp searchPattern with
  | none => io.error (.fprintf "Pattern compilation failed\n" [])
  | some patternRegex => (searchStreamPattern patternRegex env.stdin none false io).2

def patternSearcherMain (argv0 : CString) (args : List CString) (io : Console) : Word × Console :=
  match args with
  | [] => (1, io.error (.fprintf "Usage: %s search_pattern [file...]\n" [argv0.bytes]))
  | targetPattern :: files =>
    let multipleSources := decide (args.length + 1 > 3)
    if files = [] then (0, searchInputPattern env regcomp targetPattern io)
    else
      files.foldl
        (fun (st : Word × Console) filename =>
          let (status, io) :=
            searchFilePattern env regcomp targetPattern filename multipleSources st.2
          (st.1 ||| status, io))
        (0, io)

end LabsOS.CatGrep
