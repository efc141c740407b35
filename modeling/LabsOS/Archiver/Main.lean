import LabsOS.Archiver.Archiver
import LabsOS.Kernel.Text

/-!
# The command line of the archiver

`main` of `lab5_archive/main.c`. It calls `getopt_long` once: operands in front of the first
option are skipped, `--` ends the options, a long name may be cut short, and an argument that an
option needs is the rest of its text or the next argument, whatever that is. What `getopt_long`
itself says of an option that it does not accept is left out.
-/

namespace LabsOS.Archiver

open Posix

/-- An option with its argument. -/
inductive Choice where
  | input (file : CString)
  | extract (file : CString)
  | stat
  | help
  deriving DecidableEq, Repr

/-- `long_options`. -/
def longOptions : List (Bytes × UInt8) :=
  [(ascii "input", 105), (ascii "extract", 101), (ascii "stat", 115), (ascii "help", 104)]

/-- The option `c`, where `value` is the argument that it is given if it needs one, and `excess`
whether it is given one that it does not need. -/
def choose (value : Option CString) (excess : Bool) (c : UInt8) : Option Choice :=
  if c = 105 then value.map .input
  else if c = 101 then value.map .extract
  else if c = 115 then if excess then none else some .stat
  else if c = 104 then if excess then none else some .help
  else none

/-- The option `-c`, followed by `rest` in the same argument. -/
def shortChoice (c : UInt8) (rest : Bytes) (next : Option CString) : Option Choice :=
  choose (if rest = [] then next else some (.ofBytes rest)) false c

/-- The option `--text`. -/
def longChoice (text : Bytes) (next : Option CString) : Option Choice :=
  let name := text.takeWhile (· ≠ 61)
  let value := if name = text then next else some (.ofBytes (text.drop (name.length + 1)))
  let found := longOptions.filter fun o => o.1 = name
  match if found = [] then longOptions.filter fun o => name.isPrefixOf o.1 else found with
  | [o] => choose value (name ≠ text) o.2
  | _ => none

/-- What `getopt_long` returns, or `none` for an error or where there is no option. -/
def getoptFirst : List CString → Option Choice
  | [] => none
  | arg :: args =>
    match arg.bytes with
    | [45, 45] => none
    | 45 :: 45 :: text => longChoice text args.head?
    | 45 :: c :: rest => shortChoice c rest args.head?
    | _ => getoptFirst args

def showHelpInfo : Posix Unit := do
  printf "Использование: ./archiver <архив> [опции] [файлы]\n" []
  printf "Опции:\n" []
  printf "  -i, --input <файл>    Добавить файл в архив\n" []
  printf "  -e, --extract <файл>  Извлечь файл из архива (с удалением записи)\n" []
  printf "  -s, --stat            Показать содержимое архива\n" []
  printf "  -h, --help            Показать эту справку\n" []

def help (status : Nat) : Posix Nat := do
  showHelpInfo
  pure status

/-- `main`, with the arguments from `argv[0]` on. -/
def main : List CString → Posix Nat
  | [] | [_] => help 1
  | _ :: archiveName :: args =>
    if archiveName.bytes = ascii "--help" ∨ archiveName.bytes = ascii "-h" then help 0
    else if args = [] then help 1
    else
      match getoptFirst args with
      | some (.input file) => do
        addFileToArchive archiveName file
        pure 0
      | some (.extract file) => do
        extractAndRemoveFile archiveName file
        pure 0
      | some .stat => do
        displayArchiveContents archiveName
        pure 0
      | some .help => help 0
      | none => help 1

end LabsOS.Archiver
