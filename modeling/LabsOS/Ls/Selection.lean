import LabsOS.Ls.Ledger

/-!
# What the flags change

The names and colours a listing shows, under each setting of `-a` and `-l`. The long and the
short form of `display_entry` decide on the colour by tests of their own: for a socket, a
pipe, a device or a file of no known type, the short form looks at the execute bits and the
long form does not. And a listing ends at the first entry that cannot be displayed, which
with `-a` may be one that is hidden without it.

`flags_only_select_and_format_iff` says for which directories none of this matters.
-/

namespace LabsOS.Ls

variable {view : View} {flags : Flags} {target name : CString} {path : Bytes} {info : Stat}
variable {o o' : Output} {d : Dirent} {ds : List Dirent}

-- ---------------------------------------------------------------------------
-- Names and colours
-- ---------------------------------------------------------------------------

/-- The name and the colour on a line that shows an entry. -/
def shownPair : Line → Option (Bytes × Int)
  | ⟨fmt, [.str _, .int color, .str name, .str _]⟩ =>
    if fmt = "%s%dm%s%s" ∨ fmt = "%s%dm%-20s%s" then some (name, color) else none
  | _ => none

def shownPairs (lines : List Line) : List (Bytes × Int) := lines.filterMap shownPair

theorem shownPairs_append (l l' : List Line) :
    shownPairs (l ++ l') = shownPairs l ++ shownPairs l' := List.filterMap_append

theorem shownPairs_andThen : shownPairs (o.andThen o').lines =
    if o.stop.isSome then shownPairs o.lines else shownPairs o.lines ++ shownPairs o'.lines := by
  unfold Output.andThen
  split
  · rfl
  · exact shownPairs_append _ _

theorem shownPairs_eq_nil {lines : List Line} (h : ∀ l ∈ lines, shownPair l = none) :
    shownPairs lines = [] := List.filterMap_eq_nil_iff.mpr h

theorem shownPairs_singleton {l : Line} {x : Bytes × Int} (h : shownPair l = some x) :
    shownPairs [l] = [x] := by
  rw [shownPairs, List.filterMap_cons_some h, List.filterMap_nil]

theorem shownPairs_permLines (perms : Nat) : shownPairs (permLines perms) = [] := by
  apply shownPairs_eq_nil
  intro l hl
  obtain ⟨i, -, rfl⟩ := List.mem_map.mp hl
  rfl

theorem shownPair_idLine (name : Option Bytes) (id : Nat) : shownPair (idLine name id) = none := by
  cases name <;> rfl

theorem shownPairs_targetLines (link : Option Bytes) (mode : Nat) :
    shownPairs (targetLines link mode) = [] := by
  unfold targetLines
  split
  · cases link <;> rfl
  · rfl

/-- The number behind a colour. -/
def colorCode (colorIdx : Nat) : Int := (colorCodes.getD colorIdx 0 : Nat)

theorem shownPair_nameLine {fmt : String} (hfmt : fmt = "%s%dm%s%s" ∨ fmt = "%s%dm%-20s%s")
    (color : Nat) (name : CString) :
    shownPair ⟨fmt, nameArgs color name⟩ = some (name.bytes, colorCode color) := if_pos hfmt

/-- The long form shows the name once the time is printed. -/
theorem longOutput_pairs (view : View) (name : CString) (path : Bytes) (info : Stat) :
    ((longOutput view name path info).stop = none ↔
      (view.strftimeLocal info.stMtime).isSome) ∧
    shownPairs (longOutput view name path info).lines =
      if (view.strftimeLocal info.stMtime).isSome then
        [(name.bytes, colorCode (longType info.stMode).2)] else [] := by
  have hfront : shownPairs ([charLine (longType info.stMode).1] ++ permLines info.stMode ++
      [charLine 32, ⟨"%lu ", [.int info.stNlink]⟩, idLine (view.getpwuid info.stUid) info.stUid,
        idLine (view.getgrgid info.stGid) info.stGid, ⟨"%8lld ", [.int info.stSize]⟩]) = [] := by
    rw [shownPairs_append, shownPairs_append, shownPairs_permLines, List.append_nil]
    refine shownPairs_eq_nil ?_
    simp only [List.forall_mem_cons]
    exact ⟨rfl, rfl, shownPair_idLine _ _, shownPair_idLine _ _, rfl, nofun⟩
  have hname : shownPairs ([⟨"%s%dm%s%s", nameArgs (longType info.stMode).2 name⟩] ++
      targetLines (view.readlink path) info.stMode ++ [⟨"\n", []⟩]) =
      [(name.bytes, colorCode (longType info.stMode).2)] := by
    rw [shownPairs_append, shownPairs_append, shownPairs_targetLines,
      shownPairs_singleton (shownPair_nameLine (.inl rfl) _ _)]
    rfl
  unfold longOutput
  cases view.strftimeLocal info.stMtime with
  | none =>
    refine ⟨⟨nofun, nofun⟩, ?_⟩
    rw [shownPairs_andThen]
    show shownPairs (_ ++ _ ++ _) ++ [] = []
    rw [hfront]
    rfl
  | some text =>
    refine ⟨⟨fun _ => rfl, fun _ => rfl⟩, ?_⟩
    rw [shownPairs_andThen]
    show shownPairs (_ ++ _ ++ _) ++ shownPairs (_ ++ (_ ++ _ ++ _)) = _
    rw [hfront, shownPairs_append, hname]
    rfl

theorem shortOutput_pairs (name : CString) (info : Stat) :
    shownPairs (shortOutput name info).lines = [(name.bytes, colorCode (shortColor info.stMode))] :=
  shownPairs_singleton (shownPair_nameLine (.inr rfl) _ _)

-- ---------------------------------------------------------------------------
-- The pairs of a listing
-- ---------------------------------------------------------------------------

/-- What `lstat` finds of an entry, if its path fits. -/
def found (view : View) (target : CString) (d : Dirent) : Option Stat :=
  if Fits target d then view.lstat (fullPath target d.dName) else none

/-- The entry can be displayed in the short form. -/
def displays (view : View) (target : CString) (d : Dirent) : Bool := (found view target d).isSome

/-- The entry can be displayed in the long form: there is a local time for it, too. -/
def dated (view : View) (target : CString) (d : Dirent) : Bool :=
  (found view target d).any fun info => (view.strftimeLocal info.stMtime).isSome

/-- The mode of an entry that can be displayed. -/
def modeOf (view : View) (target : CString) (d : Dirent) : Nat :=
  ((found view target d).map Stat.stMode).getD 0

/-- The pair of an entry whose colour is decided by `color`. -/
def pairOf (view : View) (target : CString) (color : Nat → Nat) (d : Dirent) : Bytes × Int :=
  (d.dName.bytes, colorCode (color (modeOf view target d)))

/-- A listing shows its entries up to the first that cannot be displayed. -/
theorem shownPairs_listing {ok : Dirent → Bool} {color : Nat → Nat}
    (hok : ∀ d, shown flags d → ok d →
      (entryOutput view flags target d).stop = none ∧
      shownPairs (entryOutput view flags target d).lines = [pairOf view target color d])
    (hbad : ∀ d, shown flags d → ok d = false →
      (entryOutput view flags target d).stop.isSome ∧
      shownPairs (entryOutput view flags target d).lines = [])
    (ds : List Dirent) :
    shownPairs (listing view flags target ds).lines =
      ((ds.filter (shown flags)).takeWhile ok).map (pairOf view target color) := by
  rw [← listing_filter]
  have hall : ∀ d ∈ ds.filter (shown flags), shown flags d := fun d hd => (List.mem_filter.mp hd).2
  generalize ds.filter (shown flags) = l at hall
  induction l with
  | nil => rfl
  | cons d l ih =>
    have hd := hall d (List.mem_cons_self ..)
    rw [listing, shownPairs_andThen]
    cases h : ok d with
    | true =>
      obtain ⟨hstop, hpairs⟩ := hok d hd h
      rw [hstop, hpairs, List.takeWhile_cons_of_pos h, List.map_cons,
        ih fun d hd => hall d (List.mem_cons_of_mem _ hd)]
      rfl
    | false =>
      obtain ⟨hstop, hpairs⟩ := hbad d hd h
      rw [if_pos hstop, hpairs, List.takeWhile_cons_of_neg (by rw [h]; exact Bool.false_ne_true)]
      rfl

theorem entryOutput_shown (hshown : shown flags d) : entryOutput view flags target d =
    (found view target d).elim (.ended (.exit 1)) fun info =>
      if flags &&& flagLong != 0 then longOutput view d.dName (fullPath target d.dName) info
      else shortOutput d.dName info := by
  unfold entryOutput found infoOutput
  rw [if_pos hshown]
  by_cases hfits : Fits target d
  · rw [if_pos hfits, if_pos (show (fullPath target d.dName).length < pathBufferSize from hfits)]
    cases view.lstat (fullPath target d.dName) <;> rfl
  · rw [if_neg hfits, if_neg (show ¬ (fullPath target d.dName).length < pathBufferSize from hfits)]
    rfl

/-- The short form. -/
theorem shownPairs_listing_short (hlong : (flags &&& flagLong != 0) = false) (ds : List Dirent) :
    shownPairs (listing view flags target ds).lines =
      ((ds.filter (shown flags)).takeWhile (displays view target)).map
        (pairOf view target shortColor) := by
  refine shownPairs_listing ?_ ?_ ds
  · intro d hshown hd
    obtain ⟨info, hinfo⟩ := Option.isSome_iff_exists.mp hd
    rw [entryOutput_shown hshown, hinfo, Option.elim_some, hlong, if_neg Bool.false_ne_true,
      shortOutput_pairs, pairOf, modeOf, hinfo]
    exact ⟨rfl, rfl⟩
  · intro d hshown hd
    have hnone : found view target d = none := Option.isNone_iff_eq_none.mp (by
      rw [← Option.not_isSome, ← displays, hd]
      rfl)
    rw [entryOutput_shown hshown, hnone]
    exact ⟨rfl, rfl⟩

/-- The long form. -/
theorem shownPairs_listing_long (hlong : (flags &&& flagLong != 0) = true) (ds : List Dirent) :
    shownPairs (listing view flags target ds).lines =
      ((ds.filter (shown flags)).takeWhile (dated view target)).map
        (pairOf view target fun mode => (longType mode).2) := by
  refine shownPairs_listing ?_ ?_ ds
  · intro d hshown hd
    obtain ⟨info, hinfo, htime⟩ := (Option.any_eq_true _ _).mp hd
    obtain ⟨hstop, hpairs⟩ := longOutput_pairs view d.dName (fullPath target d.dName) info
    rw [entryOutput_shown hshown, hinfo, Option.elim_some, hlong, if_pos rfl, hpairs,
      if_pos htime, pairOf, modeOf, hinfo]
    exact ⟨hstop.mpr htime, rfl⟩
  · intro d hshown hd
    rw [entryOutput_shown hshown]
    cases hinfo : found view target d with
    | none => exact ⟨rfl, rfl⟩
    | some info =>
      obtain ⟨hstop, hpairs⟩ := longOutput_pairs view d.dName (fullPath target d.dName) info
      have htime : ¬ (view.strftimeLocal info.stMtime).isSome := by
        unfold dated at hd
        rw [hinfo, Option.any_some] at hd
        rw [hd]
        exact Bool.false_ne_true
      rw [Option.elim_some, hlong, if_pos rfl, hpairs, if_neg htime]
      exact ⟨Option.isSome_iff_ne_none.mpr (mt hstop.mp htime), rfl⟩

-- ---------------------------------------------------------------------------
-- Comparing two listings
-- ---------------------------------------------------------------------------

/-- Two lists cut off at their first bad element agree. -/
theorem map_takeWhile_eq_iff {α β : Type} {p q : α → Bool} {f g : α → β}
    (hqp : ∀ a, q a → p a) (l : List α) : (l.takeWhile p).map f = (l.takeWhile q).map g ↔
      ∀ a ∈ l.takeWhile p, q a ∧ f a = g a := by
  induction l with
  | nil => simp
  | cons a l ih =>
    cases hp : p a with
    | false =>
      have hq : q a = false := by
        rw [← Bool.not_eq_true]
        exact fun hq => by simp [hqp a hq] at hp
      simp [hp, hq]
    | true =>
      cases hq : q a with
      | true => simp [hp, hq, ih]
      | false => simp [hp, hq]

/-- Cutting off at the first bad element and selecting the last part commute unless a bad
element in front of that part cuts off some of it. -/
theorem map_takeWhile_filter_iff {α β : Type} {p : α → Bool} (ok : α → Bool) (f : α → β)
    {l : List α} (hlast : l.Pairwise fun a b => p a → p b) :
    ((l.filter p).takeWhile ok).map f = ((l.takeWhile ok).filter p).map f ↔
      (∀ a ∈ l, p a = false → ok a) ∨ (l.filter p).takeWhile ok = [] := by
  induction l with
  | nil => simp
  | cons a l ih =>
    obtain ⟨hrest, hlast⟩ := List.pairwise_cons.mp hlast
    cases hp : p a with
    | true =>
      -- all of the list is selected
      have hall : ∀ b ∈ a :: l, p b = true := by
        intro b hb
        rcases List.mem_cons.mp hb with rfl | hb
        · exact hp
        · exact hrest b hb hp
      have hcut : ∀ b ∈ (a :: l).takeWhile ok, p b = true := fun b hb =>
        hall b ((List.takeWhile_sublist ok).mem hb)
      rw [List.filter_eq_self.mpr hall, List.filter_eq_self.mpr hcut]
      refine iff_of_true rfl (.inl fun b hb hnot => ?_)
      rw [hall b hb] at hnot
      cases hnot
    | false =>
      cases hok : ok a with
      | true => simp [hp, hok, ih hlast]
      | false => simp [hp, hok]

-- ---------------------------------------------------------------------------
-- The colours
-- ---------------------------------------------------------------------------

/-- A file of a type that both forms test for. -/
def OfCommonType (mode : Nat) : Prop :=
  fileType mode = sIfReg ∨ fileType mode = sIfDir ∨ fileType mode = sIfLnk

instance (mode : Nat) : Decidable (OfCommonType mode) := inferInstanceAs (Decidable (_ ∨ _ ∨ _))

theorem colorCode_inj {c c' : Nat} (hc : c < 4) (hc' : c' < 4) :
    colorCode c = colorCode c' ↔ c = c' := by
  have hall : ∀ c < 4, ∀ c' < 4, (colorCode c = colorCode c' ↔ c = c') := by decide
  exact hall c hc c' hc'

/-- The two chains of tests agree unless an execute bit is set where only the second looks
at it. -/
theorem longType_eq_shortColor_iff (mode : Nat) :
    (longType mode).2 = shortColor mode ↔ (isExecutable mode → OfCommonType mode) := by
  unfold longType shortColor OfCommonType
  generalize fileType mode = t
  generalize isExecutable mode = x
  by_cases hreg : t = sIfReg
  · subst hreg
    cases x <;> decide
  by_cases hdir : t = sIfDir
  · subst hdir
    cases x <;> decide
  by_cases hlnk : t = sIfLnk
  · subst hlnk
    cases x <;> decide
  simp only [hreg, hdir, hlnk, if_false, or_false]
  have hnormal : (if t = sIfChr then ((99 : UInt8), colorNormal)
      else if t = sIfBlk then (98, colorNormal)
      else if t = sIfFifo then (112, colorNormal)
      else if t = sIfSock then (115, colorNormal)
      else (63, colorNormal)).2 = colorNormal := by split_ifs <;> rfl
  rw [hnormal]
  cases x <;> decide

theorem longType_color_lt (mode : Nat) : (longType mode).2 < 4 := by
  unfold longType
  split_ifs <;> decide

theorem shortColor_lt (mode : Nat) : shortColor mode < 4 := by
  unfold shortColor
  split_ifs <;> decide

theorem pairOf_eq_iff (d : Dirent) : pairOf view target shortColor d =
      pairOf view target (fun mode => (longType mode).2) d ↔
    (isExecutable (modeOf view target d) → OfCommonType (modeOf view target d)) := by
  unfold pairOf
  rw [Prod.mk.injEq, and_iff_right rfl, colorCode_inj (shortColor_lt _) (longType_color_lt _),
    eq_comm, longType_eq_shortColor_iff]

-- ---------------------------------------------------------------------------
-- The four settings
-- ---------------------------------------------------------------------------

/-- `app.flags` with and without `-a` and `-l`. -/
def optionFlags (all long : Bool) : Flags :=
  (if all then flagAll else 0) ||| (if long then flagLong else 0)

theorem optionFlags_all (all long : Bool) : (optionFlags all long &&& flagAll != 0) = all := by
  revert all long
  decide

theorem optionFlags_long (all long : Bool) : (optionFlags all long &&& flagLong != 0) = long := by
  revert all long
  decide

theorem shown_optionFlags (all long : Bool) :
    shown (optionFlags all long) = fun d => !startsWithDot d || all := by
  funext d
  rw [shown, optionFlags_all]

/-- The entries the short form displays. -/
def displayed (view : View) (target : CString) (all : Bool) (ds : List Dirent) : List Dirent :=
  (ds.filter fun d => !startsWithDot d || all).takeWhile (displays view target)

/-- A name that is shown without `-a`. -/
def plainName (x : Bytes × Int) : Bool := x.1.head? != some 46

/-- The flags only select and format: `pairs all long` are the names and colours shown
under these settings. -/
def SelectAndFormat (pairs : Bool → Bool → List (Bytes × Int)) : Prop :=
  (∀ all, pairs all true = pairs all false) ∧
  ∀ long, pairs false long = (pairs true long).filter plainName

/-- The entries `ds`, in the order in which they are listed, do not tell the settings apart:
each that is displayed has a local time and no execute bit that only the short form looks at,
and no hidden entry ends the listing early. -/
structure Uniform (view : View) (target : CString) (ds : List Dirent) : Prop where
  alike : ∀ all, ∀ d ∈ displayed view target all ds, dated view target d ∧
    (isExecutable (modeOf view target d) → OfCommonType (modeOf view target d))
  hidden : (∀ d ∈ ds, startsWithDot d → displays view target d) ∨
    displayed view target false ds = []

theorem plainName_pairOf (color : Nat → Nat) (d : Dirent) :
    plainName (pairOf view target color d) = !startsWithDot d := by
  unfold plainName pairOf startsWithDot
  rw [bne, beq_eq_decide]

/-- Hidden entries are listed first. -/
theorem hidden_first (hsorted : SortedBy entrySorter ds) :
    ds.Pairwise fun d e => (!startsWithDot d) = true → (!startsWithDot e) = true := by
  refine hsorted.imp fun {d e} hle hd => ?_
  unfold entrySorter at hle
  cases he : startsWithDot e with
  | false => rfl
  | true =>
    rw [Bool.not_eq_true'] at hd
    simp [hd, he] at hle

theorem displays_of_dated (h : dated view target d) : displays view target d := by
  unfold dated at h
  unfold displays
  cases hfound : found view target d with
  | none =>
    rw [hfound] at h
    cases h
  | some info => rfl

/-- The names and colours that a listing with these options shows. -/
def listedPairs (view : View) (target : CString) (ds : List Dirent) (all long : Bool) :
    List (Bytes × Int) := shownPairs (listing view (optionFlags all long) target ds).lines

theorem listedPairs_short (all : Bool) : listedPairs view target ds all false =
    (displayed view target all ds).map (pairOf view target shortColor) := by
  rw [listedPairs, shownPairs_listing_short (optionFlags_long all false), displayed,
    shown_optionFlags]

theorem listedPairs_long (all : Bool) : listedPairs view target ds all true =
    ((ds.filter fun d => !startsWithDot d || all).takeWhile (dated view target)).map
      (pairOf view target fun mode => (longType mode).2) := by
  rw [listedPairs, shownPairs_listing_long (optionFlags_long all true), shown_optionFlags]

/-- `-l` only formats. -/
theorem listedPairs_long_eq_short_iff (all : Bool) :
    listedPairs view target ds all true = listedPairs view target ds all false ↔
      ∀ d ∈ displayed view target all ds, dated view target d ∧
        (isExecutable (modeOf view target d) → OfCommonType (modeOf view target d)) := by
  rw [listedPairs_short, listedPairs_long, eq_comm, displayed,
    map_takeWhile_eq_iff fun _ => displays_of_dated]
  simp only [pairOf_eq_iff]

/-- `-a` only selects. -/
theorem listedPairs_plain_iff (hsorted : SortedBy entrySorter ds) :
    listedPairs view target ds false false =
        (listedPairs view target ds true false).filter plainName ↔
      (∀ d ∈ ds, startsWithDot d → displays view target d) ∨
        displayed view target false ds = [] := by
  have hplain : plainName ∘ pairOf view target shortColor = fun d => !startsWithDot d :=
    funext fun d => plainName_pairOf shortColor d
  have hiff := map_takeWhile_filter_iff (displays view target) (pairOf view target shortColor)
    (hidden_first hsorted)
  rw [listedPairs_short, listedPairs_short, List.filter_map, hplain]
  unfold displayed
  simp only [Bool.or_true, List.filter_true, Bool.or_false]
  simpa only [Bool.not_eq_false'] using hiff

/-- What is shown under the four settings tells nothing of them where the entries are
uniform. -/
theorem selectAndFormat_listing_iff (hsorted : SortedBy entrySorter ds) :
    SelectAndFormat (listedPairs view target ds) ↔ Uniform view target ds := by
  constructor
  · rintro ⟨hformat, hselect⟩
    refine ⟨fun all => ?_, (listedPairs_plain_iff hsorted).mp (hselect false)⟩
    exact (listedPairs_long_eq_short_iff all).mp (hformat all)
  · rintro ⟨halike, hhidden⟩
    have hformat := fun all => (listedPairs_long_eq_short_iff all).mpr (halike all)
    have hselect := (listedPairs_plain_iff hsorted).mpr hhidden
    refine ⟨hformat, fun long => ?_⟩
    cases long with
    | false => exact hselect
    | true =>
      -- the long form shows the same names
      rw [hformat false, hformat true]
      exact hselect

-- ---------------------------------------------------------------------------
-- Four runs
-- ---------------------------------------------------------------------------

/-- A run of `process_directory` from `s` in which every call finds what there is. -/
structure ListingRun (qsort : (Entry → Entry → Int) → List Entry → List Entry) (flags : Flags)
    (target : CString) (s : State) where
  trace : List (Event Call Call.Resp Outcome)
  final : State
  result : Except Stop (Unit × AppData)
  runs : Runs exec s (processDirectory qsort target (.ready flags)) trace final (.ret result)
  undisturbed : ∀ ev ∈ trace, Undisturbed ev

variable {qsort : (Entry → Entry → Int) → List Entry → List Entry} {s : State}

/-- The names it shows, and their colours. -/
def ListingRun.pairs (r : ListingRun qsort flags target s) : List (Bytes × Int) :=
  shownPairs (r.final.stdout.drop s.stdout.length)

theorem ListingRun.pairs_eq (hqsort : SortsEntries qsort) (r : ListingRun qsort flags target s) :
    r.pairs = shownPairs (directoryOutput s.view flags target (sortedEntries qsort s)).lines := by
  have hspec := (processDirectory_prints hqsort flags target s).spec _ _ _ r.runs r.undisturbed
  have hout : r.final.stdout =
      s.stdout ++ (directoryOutput s.view flags target (sortedEntries qsort s)).lines := by
    have hend := hspec.2 r.result rfl
    cases hresult : r.result with
    | error x =>
      rw [hresult] at hend
      exact Printed.stdout hend
    | ok res =>
      rw [hresult] at hend
      exact Printed.stdout hend
  rw [ListingRun.pairs, hout, List.drop_left]

/-- The line end behind the short form shows no name. -/
theorem shownPairs_directoryOutput (ds : List Dirent) :
    shownPairs (directoryOutput view flags target ds).lines =
      if view.opendir target then shownPairs (listing view flags target ds).lines else [] := by
  unfold directoryOutput
  split
  · rw [shownPairs_andThen]
    split
    · rfl
    · split <;> exact List.append_nil _
  · rfl

/-- **The flags.** Over the same directory, `-l` changes neither the names nor the colours,
and `-a` only adds the hidden names, just where the entries are uniform. -/
theorem flags_only_select_and_format_iff (hqsort : SortsEntries qsort) (target : CString)
    (s : State) (r : ∀ all long, ListingRun qsort (optionFlags all long) target s) :
    SelectAndFormat (fun all long => (r all long).pairs) ↔
      (s.view.opendir target → Uniform s.view target (sortedEntries qsort s)) := by
  have hpairs : (fun all long => (r all long).pairs) = fun all long =>
      if s.view.opendir target then
        listedPairs s.view target (sortedEntries qsort s) all long
      else [] := by
    funext all long
    rw [(r all long).pairs_eq hqsort, shownPairs_directoryOutput]
    rfl
  rw [hpairs]
  cases s.view.opendir target with
  | false => exact iff_of_true ⟨fun _ => rfl, fun _ => rfl⟩ nofun
  | true =>
    have hsorted : SortedBy entrySorter (sortedEntries qsort s) :=
      (InOrder.of_qsort hqsort (map_dirent_stored s)).sorted
    simpa using selectAndFormat_listing_iff hsorted

/-- What is found in a directory of files that all have the mode `mode`. -/
def uniformView (mode : Nat) : View where
  opendir := fun _ => true
  lstat := fun _ => some ((Stat.created 0).setMode mode)
  readlink := fun _ => none
  getpwuid := fun _ => none
  getgrgid := fun _ => none
  strftimeLocal := fun _ => some (ascii "Jan 01 00:00")

def dotA : Dirent := ⟨⟨[46, 97], by decide⟩⟩

theorem exists_listingRun {x : List (Bytes × Int)}
    (h : ((processDirectory insertionSortBy here (.ready flags)).run exec Undisturbed
      (fun _ => .ok) 100 s).map (fun r => shownPairs (r.1.stdout.drop s.stdout.length)) = some x) :
    ∃ r : ListingRun insertionSortBy flags here s, r.pairs = x := by
  obtain ⟨tr, s', res, hrun, htr, hx⟩ := exists_run_of_map h
  exact ⟨⟨tr, s', res, hrun, htr⟩, hx⟩

/-- A hidden file and another, both executable. -/
theorem flags_only_select_and_format_two :
    ∃ r : ∀ all long, ListingRun insertionSortBy (optionFlags all long) here
      (.boot (uniformView 0o100755) [lowerB, dotA]),
    SelectAndFormat fun all long => (r all long).pairs := by
  have hrun : ∀ all long, ∃ r : ListingRun insertionSortBy (optionFlags all long) here
      (.boot (uniformView 0o100755) [lowerB, dotA]),
      r.pairs = if all then [([46, 97], 32), ([98], 32)] else [([98], 32)] := by
    intro all long
    apply exists_listingRun
    revert all long
    decide +kernel
  choose r _ using hrun
  refine ⟨r, (flags_only_select_and_format_iff sortsEntries_insertionSortBy here _ r).mpr ?_⟩
  exact fun _ => ⟨by decide +kernel, .inl (by decide +kernel)⟩

/-- A pipe with an execute bit is green without `-l`, and has no colour with it. -/
theorem flags_only_select_and_format_pipe :
    SortsEntries insertionSortBy ∧
    ∃ r : ∀ all long, ListingRun insertionSortBy (optionFlags all long) here
      (.boot (uniformView 0o010755) [lowerA]),
    ¬ SelectAndFormat fun all long => (r all long).pairs := by
  have hrun : ∀ all long, ∃ r : ListingRun insertionSortBy (optionFlags all long) here
      (.boot (uniformView 0o010755) [lowerA]), r.pairs = [([97], if long then 39 else 32)] := by
    intro all long
    apply exists_listingRun
    revert all long
    decide +kernel
  choose r hr using hrun
  refine ⟨sortsEntries_insertionSortBy, r, fun h => ?_⟩
  have heq := h.1 false
  simp only [hr] at heq
  cases heq

end LabsOS.Ls
