import LabsOS.Kernel.Exec
import LabsOS.Kernel.Text

/-!
# mychmod

The functions of `lab4_chmod/mychmod.c`, statement by statement. A `mode_t` and the
`int` of the categories are words of 32 bits. `exit(EXIT_FAILURE)` in
`report_system_error` ends the program with the status its callers would return.
-/

namespace LabsOS.Chmod

open Posix

inductive ExitStatus where
  | success
  | failure
  deriving DecidableEq, Repr

/-- `report_system_error`. -/
def reportSystemError (messageContext : CString) : Posix ExitStatus := do
  fprintfErr "%s" [.str messageContext.bytes]
  pure .failure

/-- A message about the mode and `return EXIT_FAILURE`. -/
def reject (fmt : String) (args : List Arg) : Posix ExitStatus := do
  fprintfErr fmt args
  pure .failure

/-- The `chmod` both kinds of mode end with. -/
def applyMode (targetPath : CString) (mode : Nat) : Posix ExitStatus := do
  match ← chmod targetPath mode with
  | false => reportSystemError targetPath
  | true => pure .success

-- ---------------------------------------------------------------------------
-- Numeric modes
-- ---------------------------------------------------------------------------

/-- The characters `strtol` skips. -/
def isSpace (b : UInt8) : Bool := b = 32 || (9 ≤ b && b ≤ 13)

def isOctalDigit (b : UInt8) : Bool := 48 ≤ b && b ≤ 55

/-- The value of octal digits. -/
def octalValue (digits : Bytes) : Nat := digits.foldl (fun v b => 8 * v + (b.toNat - 48)) 0

/-- The largest `long`. -/
def longMax : Int := 2 ^ 63 - 1

/-- A sign, and what follows it. -/
def readSign : Bytes → Int × Bytes
  | 45 :: text => (-1, text)
  | 43 :: text => (1, text)
  | text => (1, text)

/-- `strtol(text, &end, 8)`: the value, and the text `end` points at. Without a digit
there is no conversion; what is out of range saturates. -/
def strtolOctal (text : Bytes) : Int × Bytes :=
  let (sign, unsigned) := readSign (text.dropWhile isSpace)
  match unsigned.takeWhile isOctalDigit with
  | [] => (0, text)
  | digits =>
    (max (-longMax - 1) (min longMax (sign * octalValue digits)), unsigned.dropWhile isOctalDigit)

def applyNumericMode (modeInput targetPath : CString) : Posix ExitStatus :=
  let (modeValue, endPtr) := strtolOctal modeInput.bytes
  if endPtr ≠ [] ∨ modeValue < 0 ∨ modeValue > 0o7777 then
    reject "mode: invalid numeric permission '%s'\n" [.str modeInput.bytes]
  else applyMode targetPath modeValue.toNat

-- ---------------------------------------------------------------------------
-- Symbolic modes
-- ---------------------------------------------------------------------------

abbrev Word := BitVec 32

def irwxu : Word := 0o700
def irwxg : Word := 0o070
def irwxo : Word := 0o007

/-- What a letter of `"ugoa"` adds to the categories. -/
def categoryBits : UInt8 → Option Word
  | 117 => some 4
  | 103 => some 2
  | 111 => some 1
  | 97 => some 7
  | _ => none

/-- The loop over the letters of the categories. -/
def parseCategories (categories : Word) : Bytes → Word × Bytes
  | [] => (categories, [])
  | b :: rest =>
    match categoryBits b with
    | some bits => parseCategories (categories ||| bits) rest
    | none => (categories, b :: rest)

inductive Operation where
  | add
  | remove
  | assign
  deriving DecidableEq, Repr

/-- The operator at the front of the text, and what follows it. -/
def parseOperation : Bytes → Option (Operation × Bytes)
  | 43 :: rest => some (.add, rest)
  | 45 :: rest => some (.remove, rest)
  | 61 :: rest => some (.assign, rest)
  | _ => none

/-- What a permission letter adds to the flags: its bit for user, group and others. -/
def permissionBits : UInt8 → Option Word
  | 114 => some 0o444
  | 119 => some 0o222
  | 120 => some 0o111
  | _ => none

/-- The loop over the permission letters, or the letter that is none. -/
def parsePermissions (permissionFlags : Word) : Bytes → Except UInt8 Word
  | [] => .ok permissionFlags
  | b :: rest =>
    match permissionBits b with
    | some bits => parsePermissions (permissionFlags ||| bits) rest
    | none => .error b

/-- `mask` if the category is selected. -/
def ifSelected (categories category mask : Word) : Word :=
  if categories &&& category ≠ 0 then mask else 0

def categoryMask (categories : Word) : Word :=
  ifSelected categories 4 irwxu ||| ifSelected categories 2 irwxg ||| ifSelected categories 1 irwxo

def effectiveBits (categories permissionFlags : Word) : Word :=
  ifSelected categories 4 (permissionFlags &&& irwxu) |||
    ifSelected categories 2 (permissionFlags &&& irwxg) |||
    ifSelected categories 1 (permissionFlags &&& irwxo)

def newMode (categories permissionFlags currentMode : Word) : Operation → Word
  | .add => currentMode ||| effectiveBits categories permissionFlags
  | .remove => currentMode &&& ~~~ effectiveBits categories permissionFlags
  | .assign =>
    (currentMode &&& ~~~ categoryMask categories) ||| effectiveBits categories permissionFlags

/-- `apply_symbolic_mode` once the mode of the target is known. -/
def applyTo (modeSpec targetPath : CString) (currentMode : Word) : Posix ExitStatus :=
  let (categories, parsePos) := parseCategories 0 modeSpec.bytes
  let categories := if categories = 0 then 7 else categories
  match parseOperation parsePos with
  | none => reject "mode: invalid operator in '%s'\n" [.str modeSpec.bytes]
  | some (operation, rest) =>
    match parsePermissions 0 rest with
    | .error b =>
      reject "mode: invalid permission '%c' in '%s'\n" [.str [b], .str modeSpec.bytes]
    | .ok permissionFlags =>
      applyMode targetPath (newMode categories permissionFlags currentMode operation).toNat

def applySymbolicMode (modeSpec targetPath : CString) : Posix ExitStatus := do
  match ← stat targetPath with
  | none => reportSystemError targetPath
  | some fileInfo => applyTo modeSpec targetPath (BitVec.ofNat 32 fileInfo.stMode)

-- ---------------------------------------------------------------------------
-- main
-- ---------------------------------------------------------------------------

/-- The loop of `main` that decides which kind of mode the string is. -/
def isNumeric : Bytes → Bool
  | [] => true
  | b :: rest => if b < 48 ∨ b > 55 then false else isNumeric rest

/-- `main` with its two arguments. -/
def mychmod (modeString targetFile : CString) : Posix ExitStatus :=
  if isNumeric modeString.bytes then applyNumericMode modeString targetFile
  else applySymbolicMode modeString targetFile

end LabsOS.Chmod
