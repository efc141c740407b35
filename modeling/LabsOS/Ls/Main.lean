import LabsOS.CatGrep.Getopt
import LabsOS.Ls.Ledger

/-!
# The command line of myls

`main` of `lab2_ls/myls.c`, with the `getopt` of the C library, whose messages it turns off.

`main_any_order`: where no call fails, `main` does what its arguments ask for, in whatever order
they stand.
-/

namespace LabsOS

-- ---------------------------------------------------------------------------
-- getopt
-- ---------------------------------------------------------------------------

/-- The options that an argument holds, or `none` if it is an operand. -/
def optionsIn (shortOpts : Bytes) (arg : CString) : Option (List (Option UInt8)) :=
  match arg.bytes with
  | 45 :: c :: cs => some ((c :: cs).map (shortOption shortOpts))
  | _ => none

/-- What a loop that calls `getopt` until -1 sees: the options in the order they are returned, and
the operands that are left behind `optind`. -/
def getopt (shortOpts : Bytes) : List CString → List (Option UInt8) × List CString
  | [] => ([], [])
  | arg :: args =>
    if arg.bytes = [45, 45] then ([], args)
    else
      match optionsIn shortOpts arg with
      | some found => (found ++ (getopt shortOpts args).1, (getopt shortOpts args).2)
      | none => ((getopt shortOpts args).1, arg :: (getopt shortOpts args).2)

/-- Without `--` each argument is looked at by itself. -/
theorem getopt_eq (shortOpts : Bytes) {args : List CString}
    (hends : ∀ arg ∈ args, arg.bytes ≠ [45, 45]) :
    getopt shortOpts args = (args.flatMap fun arg => (optionsIn shortOpts arg).getD [],
      args.filter fun arg => (optionsIn shortOpts arg).isNone) := by
  induction args with
  | nil => rfl
  | cons arg args ih =>
    rw [getopt, if_neg (hends arg (List.mem_cons_self ..)),
      ih fun arg' harg' => hends arg' (List.mem_cons_of_mem _ harg')]
    cases hfound : optionsIn shortOpts arg with
    | some found => simp [hfound]
    | none => simp [hfound]

namespace Ls

-- ---------------------------------------------------------------------------
-- main
-- ---------------------------------------------------------------------------

/-- `option_str`. -/
def optionStr : Bytes := ascii "hla"

def helpLine (argv0 : CString) : Line where
  fmt := "Directory listing utility\nUsage: %s [options] [directory]\nOptions:\n" ++
    "  -a  Include hidden entries\n  -l  Detailed view\n  -h  Display help\n"
  args := [.str argv0.bytes]

/-- The loop of `main`. -/
def readOptions (argv0 : CString) : List (Option UInt8) → Myls Unit
  | [] => pure ()
  | none :: rest => do
    reportError 1
    readOptions argv0 rest
  | some c :: rest =>
    if c = 104 then do
      printf (helpLine argv0).fmt (helpLine argv0).args
      cleanupApp
      Act.stop (.exit 0)
    else if c = 108 then do
      Act.modify fun app => { app with flags := app.flags ||| flagLong }
      readOptions argv0 rest
    else if c = 97 then do
      Act.modify fun app => { app with flags := app.flags ||| flagAll }
      readOptions argv0 rest
    else readOptions argv0 rest

/-- `main` behind its loop. -/
def listOperand (qsort : (Entry → Entry → Int) → List Entry → List Entry) :
    List CString → Myls Unit
  | [] => listDirectory qsort here
  | [target] => listDirectory qsort target
  | _ => do
    fprintfErr "Error: Too many arguments provided\n" []
    cleanupApp
    Act.stop (.exit 1)

def main (qsort : (Entry → Entry → Int) → List Entry → List Entry) (argv0 : CString)
    (args : List CString) : Myls Unit := do
  initApp
  readOptions argv0 (getopt optionStr args).1
  listOperand qsort (getopt optionStr args).2

/-- `AppData app = {0};` -/
def AppData.zero : AppData := ⟨none, none, false, 0, none, 0⟩

-- ---------------------------------------------------------------------------
-- What the arguments ask for
-- ---------------------------------------------------------------------------

inductive Request where
  | refuse
  | help
  | list (flags : Flags) (target : CString)
  deriving DecidableEq, Repr

/-- The flags that `-a` and `-l` set. -/
def flagsOf (options : List (Option UInt8)) : Flags :=
  (if some 97 ∈ options then flagAll else 0) ||| (if some 108 ∈ options then flagLong else 0)

/-- An option that is not known is refused, and so is a second operand. -/
def request (options : List (Option UInt8)) (operands : List CString) : Request :=
  if none ∈ options then .refuse
  else if some 104 ∈ options then .help
  else
    match operands with
    | [] => .list (flagsOf options) here
    | [target] => .list (flagsOf options) target
    | _ => .refuse

/-- The request is carried out when the program has ended with `x` in the state `s'`. -/
def Request.Done (argv0 : CString) (view : View) (entries : List Dirent) :
    Request → Stop → State → Prop
  | .refuse, x, s' => x = .exit 1 ∧ s'.stdout = []
  | .help, x, s' => x = .exit 0 ∧ s'.stdout = [helpLine argv0]
  | .list flags target, x, s' => ∃ ds, InOrder entries ds ∧
      (directoryOutput view flags target ds).stop.getD (.exit 0) = x ∧
      s'.stdout = (directoryOutput view flags target ds).lines

variable {options : List (Option UInt8)} {flags : Flags} {argv0 target : CString} {s : State}
variable {E : Event Call Call.Resp Outcome → Prop} {Z : Stop → State → Prop}
variable {qsort : (Entry → Entry → Int) → List Entry → List Entry} {args args' : List CString}
variable {view : View} {entries : List Dirent}

theorem flagsOf_all (options : List (Option UInt8)) :
    flagsOf (some 97 :: options) = flagAll ||| flagsOf options := by
  unfold flagsOf
  by_cases hall : some 97 ∈ options <;> by_cases hlong : some 108 ∈ options <;>
    simp [hall, hlong, flagAll, flagLong]

theorem flagsOf_long (options : List (Option UInt8)) :
    flagsOf (some 108 :: options) = flagLong ||| flagsOf options := by
  unfold flagsOf
  by_cases hall : some 97 ∈ options <;> by_cases hlong : some 108 ∈ options <;>
    simp [hall, hlong, flagAll, flagLong]

theorem flagsOf_other {c : UInt8} (hall : c ≠ 97) (hlong : c ≠ 108) :
    flagsOf (some c :: options) = flagsOf options := by
  simp [flagsOf, hall.symm, hlong.symm]

/-- Only the options that there are matter, and the operand if there is one. -/
theorem request_congr {options' : List (Option UInt8)} {operands operands' : List CString}
    (hoptions : options.Perm options') (hoperands : operands.Perm operands') :
    request options operands = request options' operands' := by
  have hflags : flagsOf options = flagsOf options' := by
    simp only [flagsOf, hoptions.mem_iff]
  simp only [request, hoptions.mem_iff, hflags]
  match operands, hoperands with
  | [], h => rw [List.nil_perm.mp h]
  | [target], h => rw [List.singleton_perm.mp h]
  | a :: b :: l, h =>
    obtain ⟨c, d, l', rfl⟩ : ∃ c d l', operands' = c :: d :: l' := by
      match operands', h.length_eq with
      | c :: d :: l', _ => exact ⟨c, d, l', rfl⟩
    rfl

theorem request_perm (hperm : args.Perm args') (hends : ∀ arg ∈ args, arg.bytes ≠ [45, 45]) :
    request (getopt optionStr args).1 (getopt optionStr args).2 =
      request (getopt optionStr args').1 (getopt optionStr args').2 := by
  rw [getopt_eq optionStr hends,
    getopt_eq optionStr fun arg harg => hends arg (hperm.mem_iff.mpr harg)]
  exact request_congr (hperm.flatMap_right _) (hperm.filter _)

-- ---------------------------------------------------------------------------
-- The runs of main
-- ---------------------------------------------------------------------------

theorem initApp_spec :
    Act.Meets exec Undisturbed (fun _ => True) .zero s initApp
      (fun _ app' s' => app' = .ready 0 ∧ s' = s) Z := by
  apply Act.Meets.call_bind True.intro
  intro o ho
  obtain rfl : o = .ok := ho
  exact Act.Meets.modify True.intro ⟨rfl, rfl⟩

/-- Nothing but the buffer is allocated yet. -/
theorem cleanupApp_ready :
    Act.Meets exec E (fun _ => True) (.ready flags) s cleanupApp (fun _ _ s' => s' = s) Z := by
  apply (cleanupApp_spec (L := []) (.inl ⟨rfl, rfl⟩)).mono _ fun _ _ hz => hz
  rintro _ app' s' ⟨-, rfl⟩
  simp [State.release]

/-- An option ends the program. -/
def Stops (argv0 : CString) (options : List (Option UInt8)) (s : State) (x : Stop)
    (s' : State) : Prop :=
  none ∈ options ∧ x = .exit 1 ∧ s'.stdout = s.stdout ∨
    some 104 ∈ options ∧ x = .exit 0 ∧ s'.stdout = s.stdout ++ [helpLine argv0]

theorem Stops.cons {x : Stop} {s' : State} (h : Stops argv0 options s x s') (o : Option UInt8) :
    Stops argv0 (o :: options) s x s' :=
  h.imp (And.imp_left (List.mem_cons_of_mem o)) (And.imp_left (List.mem_cons_of_mem o))

/-- The flags are set, if no option ends the program. -/
theorem readOptions_spec (argv0 : CString) (options : List (Option UInt8)) (flags : Flags) :
    Act.Meets exec E (fun _ => True) (.ready flags) s (readOptions argv0 options)
      (fun _ app' s' => (none ∉ options ∧ some 104 ∉ options) ∧
        app' = .ready (flags ||| flagsOf options) ∧ s' = s)
      (Stops argv0 options s) := by
  induction options generalizing flags with
  | nil => exact Act.Meets.pure True.intro ⟨by simp, by simp [flagsOf], rfl⟩
  | cons o rest ih =>
    have hcons : ∀ flags', o ≠ none → o ≠ some 104 →
        flags' ||| flagsOf rest = flags ||| flagsOf (o :: rest) →
        Act.Meets exec E (fun _ => True) (.ready flags') s (readOptions argv0 rest)
          (fun _ app' s' => (none ∉ o :: rest ∧ some 104 ∉ o :: rest) ∧
            app' = .ready (flags ||| flagsOf (o :: rest)) ∧ s' = s)
          (Stops argv0 (o :: rest) s) := by
      intro flags' hnone hhelp hflags
      refine (ih flags').mono ?_ fun x s' hstops => hstops.cons o
      rintro _ app' s' ⟨hrest, rfl, rfl⟩
      rw [hflags]
      exact ⟨⟨by simp [hnone.symm, hrest.1], by simp [hhelp.symm, hrest.2]⟩, rfl, rfl⟩
    cases o with
    | none =>
      apply Act.Meets.bind (Q := fun _ _ _ => False)
      · refine (reportError_spec (L := []) (.inl ⟨rfl, rfl⟩) 1).mono (fun _ _ _ h => h) ?_
        exact fun x s' hq => .inl ⟨List.mem_cons_self .., hq.exit, hq.stdout⟩
      · exact fun _ _ _ h => h.elim
    | some c =>
      rw [readOptions]
      split
      · next hc =>
        subst hc
        refine Act.Meets.call_bind True.intro fun _ _ => ?_
        apply Act.Meets.bind cleanupApp_ready
        rintro _ app' s' rfl
        exact Act.Meets.stop True.intro (.inr ⟨List.mem_cons_self .., rfl, rfl⟩)
      · next hhelp =>
        have hne : some c ≠ some 104 := fun heq => hhelp (Option.some.inj heq)
        split
        · next hc =>
          subst hc
          refine Act.Meets.modify_bind (hcons (flags ||| flagLong) nofun hne ?_)
          rw [flagsOf_long, BitVec.or_assoc]
        · next hlong =>
          split
          · next hc =>
            subst hc
            refine Act.Meets.modify_bind (hcons (flags ||| flagAll) nofun hne ?_)
            rw [flagsOf_all, BitVec.or_assoc]
          · next hall => exact hcons flags nofun hne (by rw [flagsOf_other hall hlong])

theorem listDirectory_prints (hqsort : SortsEntries qsort) (flags : Flags) (target : CString) :
    Act.Meets exec Undisturbed (fun _ => True) (.ready flags) (.boot view entries)
      (listDirectory qsort target) (fun _ _ _ => False)
      ((Request.list flags target).Done argv0 view entries) := by
  have hboth := (processDirectory_spec hqsort flags target (.boot view entries)).and
    (processDirectory_releases hqsort flags target)
  refine Act.Meets.bind (hboth.mono (fun _ _ _ h => h) fun x s' h => ?_) fun _ app' s' h => ?_
  · obtain ⟨⟨ds, hds, hprinted⟩, -⟩ := h
    have hstop : (directoryOutput view flags target ds).stop = some x := hprinted.stop
    exact ⟨ds, hds, by rw [hstop, Option.getD_some], hprinted.stdout⟩
  · obtain ⟨⟨ds, hds, hprinted⟩, hlist, -⟩ := h
    apply Act.Meets.bind (cleanupApp_spec (.inl ⟨hlist, rfl⟩))
    rintro _ app'' s'' ⟨-, rfl⟩
    have hstop : (directoryOutput view flags target ds).stop = none := hprinted.stop
    refine Act.Meets.stop True.intro ⟨ds, hds, by rw [hstop, Option.getD_none], ?_⟩
    exact hprinted.stdout

/-- Where nothing fails, `main` carries out its request. An option that is not known and `-h` are
not both among the arguments, since the first of them decides. -/
theorem main_spec (hqsort : SortsEntries qsort) (argv0 : CString) (args : List CString)
    (hone : none ∈ (getopt optionStr args).1 → some 104 ∉ (getopt optionStr args).1) :
    Act.Meets exec Undisturbed (fun _ => True) .zero (.boot view entries)
      (main qsort argv0 args) (fun _ _ _ => False)
      ((request (getopt optionStr args).1 (getopt optionStr args).2).Done argv0 view entries) := by
  unfold main
  generalize getopt optionStr args = parsed at hone ⊢
  obtain ⟨options, operands⟩ := parsed
  apply Act.Meets.bind initApp_spec
  rintro _ app₁ s₁ ⟨rfl, rfl⟩
  refine Act.Meets.bind ((readOptions_spec argv0 options 0).mono (fun _ _ _ h => h) ?_) ?_
  · rintro x s' (⟨hnone, rfl, hout⟩ | ⟨hhelp, rfl, hout⟩)
    · rw [show request options operands = .refuse from if_pos hnone]
      exact ⟨rfl, hout⟩
    · have hnone : none ∉ options := fun hnone => hone hnone hhelp
      rw [show request options operands = .help from (if_neg hnone).trans (if_pos hhelp)]
      exact ⟨rfl, hout⟩
  · rintro _ app₂ s₂ ⟨⟨hnone, hhelp⟩, rfl, rfl⟩
    have hflags : 0 ||| flagsOf options = flagsOf options := by simp
    unfold request
    rw [if_neg hnone, if_neg hhelp, hflags]
    match operands with
    | [] => exact listDirectory_prints hqsort _ here
    | [target] => exact listDirectory_prints hqsort _ target
    | _ :: _ :: _ =>
      refine Act.Meets.call_bind True.intro fun _ _ => ?_
      apply Act.Meets.bind cleanupApp_ready
      rintro _ app' s' rfl
      exact Act.Meets.stop True.intro ⟨rfl, rfl⟩

/-- **The order of the arguments.** Where no call fails, `main` does for the arguments in any
order what they ask for: it lists the directory that is their operand, with the entries that `-a`
asks for and as `-l` asks for it. -/
theorem main_any_order (hqsort : SortsEntries qsort) (argv0 : CString) (view : View)
    (entries : List Dirent) (hperm : args.Perm args')
    (hends : ∀ arg ∈ args, arg.bytes ≠ [45, 45])
    (hone : none ∈ (getopt optionStr args).1 → some 104 ∉ (getopt optionStr args).1) :
    Act.Meets exec Undisturbed (fun _ => True) .zero (.boot view entries)
      (main qsort argv0 args') (fun _ _ _ => False)
      ((request (getopt optionStr args).1 (getopt optionStr args).2).Done argv0 view entries) := by
  have hends' : ∀ arg ∈ args', arg.bytes ≠ [45, 45] :=
    fun arg harg => hends arg (hperm.mem_iff.mpr harg)
  have hoptions : (getopt optionStr args).1.Perm (getopt optionStr args').1 := by
    rw [getopt_eq optionStr hends, getopt_eq optionStr hends']
    exact hperm.flatMap_right _
  rw [request_perm hperm hends]
  apply main_spec hqsort argv0 args'
  rwa [← hoptions.mem_iff, ← hoptions.mem_iff]

def longAll : CString := ⟨ascii "-la", by decide⟩

/-- An operand in front of the options. -/
theorem main_operand_first :
    Act.Meets exec Undisturbed (fun _ => True) .zero
      (.boot (flatDirectory []).view [upperA, lowerB]) (main insertionSortBy nameA [here, longAll])
      (fun _ _ _ => False)
      ((Request.list (flagAll ||| flagLong) here).Done nameA (flatDirectory []).view
        [upperA, lowerB]) := by
  have hrequest : request (getopt optionStr [longAll, here]).1
      (getopt optionStr [longAll, here]).2 = .list (flagAll ||| flagLong) here := by decide
  have hmain := main_any_order sortsEntries_insertionSortBy nameA (flatDirectory []).view
    [upperA, lowerB] (.swap here longAll []) (by decide) (by decide)
  rwa [hrequest] at hmain

end Ls

end LabsOS
