import LabsOS.Kernel.Bytes

/-!
# getopt_long

The C library's `getopt_long` for options without arguments, as a loop that calls it
until -1 sees it: the options in the order they are returned, and the operands that are
left behind `optind`. Operands between the options are moved behind them, `--` ends the
options, and a long name may be cut short as long as it is not ambiguous.
-/

namespace LabsOS

/-- An entry of the table of long options. -/
structure LongOption where
  name : Bytes
  val : UInt8

/-- What a long option, given without its `--`, returns. Here and below `none` is `'?'`. -/
def longOption (longOpts : List LongOption) (text : Bytes) : Option UInt8 :=
  let name := text.takeWhile (· ≠ 61)
  let found :=
    match longOpts.find? fun o => o.name = name with
    | some o => some o.val
    | none =>
      match longOpts.filter fun o => name.isPrefixOf o.name with
      | [] => none
      | o :: others => if others.all fun o' => o'.val = o.val then some o.val else none
  -- none of the options takes an argument behind a `=`
  if name = text then found else none

def shortOption (shortOpts : Bytes) (c : UInt8) : Option UInt8 :=
  if c ∈ shortOpts then some c else none

/-- The options and the operands among the arguments behind `argv[0]`. -/
def getoptLong (shortOpts : Bytes) (longOpts : List LongOption) :
    List CString → List (Option UInt8) × List CString
  | [] => ([], [])
  | arg :: args =>
    let (options, operands) := getoptLong shortOpts longOpts args
    match arg.bytes with
    | [45, 45] => ([], args)
    | 45 :: 45 :: text => (longOption longOpts text :: options, operands)
    | 45 :: c :: cs => ((c :: cs).map (shortOption shortOpts) ++ options, operands)
    | _ => (options, arg :: operands)

end LabsOS
