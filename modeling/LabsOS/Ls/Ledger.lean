import LabsOS.Ls.Listing

/-!
# The ledger of entries

Which entries are freed along a run. `load_directory_entries` gives each entry of the
directory to `app.list`, and `display_entry` frees its entry while `app.list` still holds it.
A program that ends in the middle of the loop frees the whole of `app.list` in `cleanup_app`,
the entries that were displayed before once more.

`listDirectory_releases_once` says where no entry is freed twice: no `lstat` fails, and a
path that is too long is that of the first entry.
-/

namespace LabsOS.Ls

variable {E : Event Call Call.Resp Outcome → Prop} {app : AppData} {s s' s'' : State}
variable {L : List Entry} {flags : Flags} {location target : CString} {path : Bytes}
variable {ids ids' : List Nat} {e : Entry} {d : Dirent} {p q : Myls Unit}

/-- `lstat` finds a file. -/
def LstatOk : Event Call Call.Resp Outcome → Prop
  | ⟨.lstat _, _, none⟩ => False
  | _ => True

/-- The entries freed from `s` to `s'`; none is allocated. -/
structure Released (s s' : State) (ids : List Nat) : Prop where
  allocated : s'.allocated = s.allocated
  released : s'.released = s.released ++ ids

theorem Released.nil (hallocated : s'.allocated = s.allocated)
    (hreleased : s'.released = s.released) : Released s s' [] :=
  ⟨hallocated, by rw [hreleased, List.append_nil]⟩

theorem Released.refl (s : State) : Released s s [] := .nil rfl rfl

theorem Released.trans (h : Released s s' ids) (h' : Released s' s'' ids') :
    Released s s'' (ids ++ ids') :=
  ⟨h'.allocated.trans h.allocated, by rw [h'.released, h.released, List.append_assoc]⟩

theorem Quits.toReleased {x : Stop} (h : Quits s L x s') : Released s s' (L.map Entry.id) :=
  ⟨h.allocated, h.released⟩

-- ---------------------------------------------------------------------------
-- Parts that free nothing
-- ---------------------------------------------------------------------------

/-- The program leaves its variables and the entries alone; it may end in a step that is
undefined. -/
def Quiet (E : Event Call Call.Resp Outcome → Prop) (p : Myls Unit) : Prop :=
  ∀ app s, Act.Meets exec E (fun _ => True) app s p
    (fun _ app' s' => app' = app ∧ Released s s' [])
    (fun x s' => x = .undefined ∧ Released s s' [])

/-- The call does not allocate or free an entry. -/
def Call.Keeps (c : Call) : Prop := ∀ o s, Released s (exec o s c).1 []

theorem Quiet.pure : Quiet E (Pure.pure ()) :=
  fun _ s => Act.Meets.pure True.intro ⟨rfl, .refl s⟩

theorem Quiet.undefined : Quiet E undefined :=
  fun _ s => Act.Meets.stop True.intro ⟨rfl, .refl s⟩

theorem Quiet.ask {c : Call} {f : c.Resp → Myls Unit} (hc : c.Keeps) (hf : ∀ r, Quiet E (f r)) :
    Quiet E (issue c >>= f) := by
  intro app s
  apply Act.Meets.call_bind True.intro
  intro o _
  refine (hf _ app _).mono ?_ ?_
  · intro _ app' s' h
    exact ⟨h.1, (hc o s).trans h.2⟩
  · intro x s' h
    exact ⟨h.1, (hc o s).trans h.2⟩

theorem Quiet.printf (fmt : String) (args : List Arg) : Quiet E (printf fmt args) :=
  fun _ _ => Act.Meets.call True.intro fun _ _ => ⟨True.intro, rfl, .nil rfl rfl⟩

theorem Quiet.seq (hp : Quiet E p) (hq : Quiet E q) : Quiet E (do p; q) := by
  intro app s
  apply Act.Meets.bind (hp app s)
  intro _ app' s' h
  obtain ⟨rfl, hs⟩ := h
  refine (hq app' s').mono ?_ ?_
  · intro _ app'' s'' h
    exact ⟨h.1, hs.trans h.2⟩
  · intro x s'' h
    exact ⟨h.1, hs.trans h.2⟩

theorem putchar_quiet (c : UInt8) : Quiet E (putchar c) := Quiet.printf _ _

theorem printPerms_quiet (perms : Nat) (is : List Nat) : Quiet E (printPerms perms is) := by
  induction is with
  | nil => exact Quiet.pure
  | cons i is ih => exact (Quiet.printf _ _).seq ih

theorem printOwner_quiet (uid : Nat) : Quiet E (printOwner uid) := by
  apply Quiet.ask (fun _ _ => .nil rfl rfl)
  intro r
  cases r with
  | some name => exact Quiet.printf _ _
  | none => exact Quiet.printf _ _

theorem printGroup_quiet (gid : Nat) : Quiet E (printGroup gid) := by
  apply Quiet.ask (fun _ _ => .nil rfl rfl)
  intro r
  cases r with
  | some name => exact Quiet.printf _ _
  | none => exact Quiet.printf _ _

theorem printTime_quiet (time : Int) : Quiet E (printTime time) := by
  apply Quiet.ask (fun _ _ => .nil rfl rfl)
  intro r
  cases r with
  | some text => exact Quiet.printf _ _
  | none => exact Quiet.undefined

theorem printTarget_quiet (path : Bytes) (mode : Nat) : Quiet E (printTarget path mode) := by
  unfold printTarget
  split
  · apply Quiet.ask (fun _ _ => .nil rfl rfl)
    intro r
    cases r with
    | some target => exact Quiet.printf _ _
    | none => exact Quiet.pure
  · exact Quiet.pure

theorem displayLong_quiet (name : CString) (path : Bytes) (info : Stat) :
    Quiet E (displayLong name path info) := by
  have hlink := (printTarget_quiet (E := E) path info.stMode).seq (Quiet.printf "\n" [])
  have hname := (Quiet.printf "%s%dm%s%s" (nameArgs (longType info.stMode).2 name)).seq hlink
  have htime := (Quiet.printf "%8lld " [.int info.stSize]).seq
    ((printTime_quiet info.stMtime).seq hname)
  have howner := (printOwner_quiet info.stUid).seq ((printGroup_quiet info.stGid).seq htime)
  have hperms := (printPerms_quiet info.stMode (List.range 9)).seq
    ((putchar_quiet 32).seq ((Quiet.printf "%lu " [.int info.stNlink]).seq howner))
  exact (putchar_quiet _).seq hperms

-- ---------------------------------------------------------------------------
-- Displaying an entry
-- ---------------------------------------------------------------------------

/-- The path of an entry fits in the buffer. -/
def Fits (target : CString) (d : Dirent) : Prop :=
  (fullPath target d.dName).length < pathBufferSize

instance (target : CString) (d : Dirent) : Decidable (Fits target d) :=
  inferInstanceAs (Decidable (_ < _))

/-- A call of `lstat` can fail. -/
def LstatFails (E : Event Call Call.Resp Outcome → Prop) : Prop := ∃ ev, E ev ∧ ¬ LstatOk ev

/-- How the program ends while the entry `e` of `L` is displayed, and what it frees. -/
inductive EndsAt (E : Event Call Call.Resp Outcome → Prop) (flags : Flags) (target : CString)
    (L : List Entry) (s : State) (e : Entry) : Stop → State → Prop where
  | undefined {s' : State} : Released s s' [] → EndsAt E flags target L s e .undefined s'
  | path {s' : State} : shown flags e.dirent → ¬ Fits target e.dirent →
      Released s s' (L.map Entry.id) → EndsAt E flags target L s e (.exit 1) s'
  | lstat {s' : State} : LstatFails E →
      Released s s' (e.id :: L.map Entry.id) → EndsAt E flags target L s e (.exit 1) s'

theorem buildFullPath_releases (name : CString) (h : Showing flags location L app) :
    Act.Meets exec E (fun _ => True) app s (buildFullPath name)
      (fun _ app' s' => ShowingAt flags location L (fullPath location name) app' ∧ s' = s ∧
        (fullPath location name).length < pathBufferSize)
      (fun x s' => Quits s L x s' ∧ ¬ (fullPath location name).length < pathBufferSize) := by
  obtain ⟨buffer, loc, stream, count, list, fl⟩ := app
  obtain ⟨hlists, rfl, rfl, hbuffer⟩ := h
  obtain ⟨text, rfl⟩ := Option.isSome_iff_exists.mp hbuffer
  refine Act.Meets.modify_bind (Act.Meets.get_bind (Act.Meets.modify_bind ?_))
  show Act.Meets exec E (fun _ => True)
    (AppData.mk (some ((fullPath location name).take (pathBufferSize - 1))) (some location) stream
      count list fl) s (if pathBufferSize ≤ (fullPath location name).length then _ else _) _ _
  by_cases hlt : (fullPath location name).length < pathBufferSize
  · rw [if_neg (Nat.not_le.mpr hlt)]
    have htake : (fullPath location name).take (pathBufferSize - 1) = fullPath location name :=
      List.take_of_length_le (Nat.le_sub_one_of_lt hlt)
    exact Act.Meets.pure True.intro ⟨⟨⟨hlists, rfl, rfl, rfl⟩, congrArg some htake⟩, rfl, hlt⟩
  · rw [if_pos (Nat.not_lt.mp hlt)]
    apply Act.Meets.call_bind True.intro
    intro o _
    have howns : Owns (AppData.mk (some ((fullPath location name).take (pathBufferSize - 1)))
        (some location) stream count list fl) L := .inr hlists
    apply (quit_spec howns).mono (fun _ _ _ h => h)
    intro x s' hq
    exact ⟨⟨hq.exit, hq.released, hq.allocated, hq.stdout⟩, hlt⟩

theorem displayInfo_releases (h : ShowingAt flags location L path app) :
    Act.Meets exec E (fun _ => True) app s (displayInfo e)
      (fun _ app' s' => app' = app ∧ Released s s' [])
      (EndsAt E flags location L s e) := by
  refine Act.Meets.get_bind ?_
  simp only [h.path_eq]
  apply Act.Meets.call_bind True.intro
  intro o ho
  have hresp : (exec o s (.lstat path)).2 = o.answer (s.view.lstat path) := rfl
  have hstate : (exec o s (.lstat path)).1 = s := rfl
  rw [hstate]
  rw [hresp] at ho ⊢
  cases hinfo : o.answer (s.view.lstat path) with
  | none =>
    rw [hinfo] at ho
    have hfails : LstatFails E := ⟨_, ho, id⟩
    apply Act.Meets.call_bind True.intro
    intro o _
    apply (reportError_spec (.inr h.lists) 4).mono (fun _ _ _ h => h)
    intro x s' hq
    obtain rfl := hq.exit
    refine .lstat hfails ⟨hq.allocated, ?_⟩
    have hfree : (exec o s (.free (.entry e.id))).1.released = s.released ++ [e.id] := rfl
    rw [hq.released, hfree, List.append_assoc, List.singleton_append]
  | some info =>
    have hquiet : Quiet E (if app.hasFlag flagLong then displayLong e.dirent.dName path info
        else displayShort e.dirent.dName info) := by
      split
      · exact displayLong_quiet _ _ _
      · exact Quiet.printf _ _
    apply (hquiet app s).mono (fun _ _ _ h => h)
    intro x s' hx
    obtain ⟨rfl, hs⟩ := hx
    exact .undefined hs

/-- An entry that is displayed is freed. -/
theorem displayEntry_releases (h : Showing flags location L app) :
    Act.Meets exec E (fun _ => True) app s (displayEntry e)
      (fun _ app' s' => Showing flags location L app' ∧ Released s s' [e.id] ∧
        (shown flags e.dirent → Fits location e.dirent))
      (EndsAt E flags location L s e) := by
  refine Act.Meets.get_bind ?_
  have hshown : (startsWithDot e.dirent && !app.hasFlag flagAll) = !shown flags e.dirent := by
    unfold shown AppData.hasFlag
    rw [h.flags]
    cases startsWithDot e.dirent <;> rfl
  rw [hshown]
  cases hs : shown flags e.dirent with
  | false => exact Act.Meets.call True.intro fun _ _ => ⟨True.intro, h, ⟨rfl, rfl⟩, nofun⟩
  | true =>
    refine Act.Meets.bind ((buildFullPath_releases e.dirent.dName h).mono (fun _ _ _ h => h)
      fun x s' hx => ?_) fun _ app₁ s₁ h₁ => ?_
    · obtain ⟨hq, hlong⟩ := hx
      obtain rfl := hq.exit
      exact .path hs hlong hq.toReleased
    · obtain ⟨hat, rfl, hfits⟩ := h₁
      apply Act.Meets.bind (displayInfo_releases hat)
      intro _ app₂ s₂ h₂
      obtain ⟨rfl, hquiet⟩ := h₂
      refine Act.Meets.call True.intro fun o _ => ⟨True.intro, hat.toShowing, ?_, fun _ => hfits⟩
      exact hquiet.trans ⟨rfl, rfl⟩

-- ---------------------------------------------------------------------------
-- The loop
-- ---------------------------------------------------------------------------

/-- The program ends while an entry of `L` is displayed. Those in front of it were
displayed before. -/
def EndsDisplaying (E : Event Call Call.Resp Outcome → Prop) (flags : Flags) (target : CString)
    (L : List Entry) (s : State) (x : Stop) (s' : State) : Prop :=
  ∃ pre e post s₁, L = pre ++ e :: post ∧
    (∀ e' ∈ pre, shown flags e'.dirent → Fits target e'.dirent) ∧
    Released s s₁ (pre.map Entry.id) ∧ EndsAt E flags target L s₁ e x s'

/-- Each entry is freed in its round. -/
theorem displayEntries_releases (h : Showing flags location L app) :
    Act.Meets exec E (fun _ => True) app s displayEntries
      (fun _ app' s' => Showing flags location L app' ∧ Released s s' (L.map Entry.id))
      (EndsDisplaying E flags location L s) := by
  refine Act.Meets.loop (fun i app' s' => i ≤ L.length ∧ Showing flags location L app' ∧
      Released s s' ((L.take i).map Entry.id) ∧
      ∀ e' ∈ L.take i, shown flags e'.dirent → Fits location e'.dirent)
    (fun i _ _ => L.length - i) ?_ ⟨Nat.zero_le _, h, .refl s, nofun⟩
  rintro i app' s' ⟨hi, h', hreleased, hfits⟩
  have hcount : app'.count = L.length := by
    obtain ⟨rest, -, hcount⟩ := h'.lists
    exact hcount
  refine Act.Meets.get_bind ?_
  by_cases hlt : i < L.length
  · have hentry : app'.entry i = some L[i] := by
      rw [h'.lists.entry hlt, List.getElem?_eq_getElem hlt]
    have htake : L.take (i + 1) = L.take i ++ [L[i]] := List.take_succ_eq_append_getElem hlt
    rw [if_pos (hcount ▸ hlt)]
    simp only [hentry]
    refine Act.Meets.bind ((displayEntry_releases h').mono (fun _ _ _ h => h)
      fun x s'' hx => ?_) fun _ app'' s'' h'' => ?_
    · refine ⟨L.take i, L[i], L.drop (i + 1), s', ?_, hfits, hreleased, hx⟩
      rw [← List.drop_eq_getElem_cons hlt, List.take_append_drop]
    · obtain ⟨hshow, hone, hfit⟩ := h''
      refine Act.Meets.pure True.intro ⟨⟨hlt, hshow, ?_, ?_⟩, by omega⟩
      · rw [htake, List.map_append]
        exact hreleased.trans hone
      · intro e' he'
        rw [htake, List.mem_append, List.mem_singleton] at he'
        rcases he' with he' | rfl
        · exact hfits e' he'
        · exact hfit
  · rw [if_neg (hcount ▸ hlt)]
    have hall : L.take i = L := List.take_of_length_le (Nat.le_of_not_lt hlt)
    rw [hall] at hreleased
    exact Act.Meets.pure True.intro ⟨h', hreleased⟩

-- ---------------------------------------------------------------------------
-- The directory
-- ---------------------------------------------------------------------------

/-- Every entry that was allocated is freed, and none twice. -/
def ReleasedOnce (s : State) : Prop := s.released.Perm (List.range s.allocated)

variable {qsort : (Entry → Entry → Int) → List Entry → List Entry} {view : View}
variable {entries : List Dirent}

/-- How `listDirectory` ends: every entry has been freed once, or it ended while it
displayed the entries `L`. -/
def EndsListing (E : Event Call Call.Resp Outcome → Prop) (flags : Flags) (target : CString)
    (entries : List Dirent) (x : Stop) (s' : State) : Prop :=
  (∃ status, x = .exit status) ∧ ReleasedOnce s' ∨
    ∃ (L : List Entry) (s : State), InOrder entries (L.map Entry.dirent) ∧
      (L.map Entry.id).Perm (List.range s.allocated) ∧ s.released = [] ∧
      EndsDisplaying E flags target L s x s'

theorem releasedOnce_of_range' (hreleased : s.released = List.range' 0 s.allocated) :
    ReleasedOnce s := by
  unfold ReleasedOnce
  rw [hreleased, List.range_eq_range']

/-- `process_directory` behind the loop over its entries. -/
theorem displayEntries_end_releases (hshow : Showing flags target L app)
    (hids : (L.map Entry.id).Perm (List.range s.allocated)) (hs : s.released = []) :
    Act.Meets exec E (fun _ => True) app s
      (do
        displayEntries
        Act.modify fun app => { app with count := 0 }
        free .list
        Act.modify fun app => { app with list := none }
        let app ← Act.get
        if app.hasFlag flagLong then pure () else putchar 10)
      (fun _ app' s' => app'.list = none ∧ ReleasedOnce s')
      (EndsDisplaying E flags target L s) := by
  apply Act.Meets.bind (displayEntries_releases hshow)
  intro _ app₁ s₁ h₁
  have honce : ReleasedOnce s₁ := by
    unfold ReleasedOnce
    rw [h₁.2.released, h₁.2.allocated, hs, List.nil_append]
    exact hids
  refine Act.Meets.modify_bind (Act.Meets.call_bind True.intro fun o _ => ?_)
  refine Act.Meets.modify_bind (Act.Meets.get_bind ?_)
  split
  · exact Act.Meets.pure True.intro ⟨rfl, honce⟩
  · exact Act.Meets.call True.intro fun _ _ => ⟨True.intro, rfl, honce⟩

theorem processDirectory_releases (hqsort : SortsEntries qsort) (flags : Flags)
    (target : CString) :
    Act.Meets exec E (fun _ => True) (.ready flags) (.boot view entries)
      (processDirectory qsort target) (fun _ app' s' => app'.list = none ∧ ReleasedOnce s')
      (EndsListing E flags target entries) := by
  apply Act.Meets.call_bind True.intro
  intro o _
  cases (exec o (.boot view entries) (.opendir target)).2 with
  | false =>
    refine (reportError_spec (L := []) (.inl ⟨rfl, rfl⟩) 2).mono (fun _ _ _ h => h)
      fun x s' hq => ?_
    refine .inl ⟨⟨1, hq.exit⟩, ?_⟩
    unfold ReleasedOnce
    rw [hq.released, hq.allocated]
    exact List.Perm.refl _
  | true =>
    refine Act.Meets.modify_bind (Act.Meets.modify_bind ?_)
    refine Act.Meets.bind ((loadDirectoryEntries_spec E _ _).mono (fun _ _ _ h => h)
      fun x s' hfail => ?_) fun _ app' s' hload => ?_
    · refine .inl ⟨⟨1, hfail.exit⟩, releasedOnce_of_range' ?_⟩
      rw [hfail.released]
      rfl
    · obtain ⟨L, rest, rfl, hread, hids, rfl⟩ := hload
      obtain ⟨hperm, -⟩ := hqsort L
      have hidsq : ((qsort compareEntries L).map Entry.id).Perm (List.range (0 + L.length)) := by
        rw [Nat.zero_add, List.range_eq_range']
        exact (hperm.map Entry.id).trans (List.Perm.of_eq hids)
      refine Act.Meets.mono (displayEntries_end_releases
        ⟨⟨rest, rfl, hperm.length_eq.symm⟩, rfl, rfl, rfl⟩ hidsq rfl) (fun _ _ _ h => h)
        fun x s'' hend => ?_
      exact .inr ⟨_, _, InOrder.of_qsort hqsort hread, hidsq, rfl, hend⟩

/-- `listDirectory` ends by freeing every entry once, unless it ends in the middle of the
entries it displays. -/
theorem listDirectory_releases (hqsort : SortsEntries qsort) (flags : Flags) (target : CString) :
    Act.Meets exec E (fun _ => True) (.ready flags) (.boot view entries)
      (listDirectory qsort target) (fun _ _ _ => False)
      (EndsListing E flags target entries) := by
  apply Act.Meets.bind (processDirectory_releases hqsort flags target)
  intro _ app' s' h
  apply Act.Meets.bind (cleanupApp_spec (.inl ⟨h.1, rfl⟩))
  intro _ app'' s'' h'
  refine Act.Meets.stop True.intro (.inl ⟨⟨0, rfl⟩, ?_⟩)
  obtain ⟨-, rfl⟩ := h'
  unfold ReleasedOnce State.release
  rw [List.map_nil, List.append_nil]
  exact h.2

-- ---------------------------------------------------------------------------
-- Where nothing is freed twice
-- ---------------------------------------------------------------------------

/-- The paths of all entries that are shown fit in the buffer, or that of an entry that no
other stands in front of does not. -/
def PathsFit (flags : Flags) (target : CString) (entries : List Dirent) : Prop :=
  (∀ d ∈ entries, shown flags d → Fits target d) ∨
  ∃ d ∈ entries, (∀ d' ∈ entries, entrySorter d d' ≤ 0) ∧ shown flags d ∧ ¬ Fits target d

/-- Names that compare equal are both hidden or neither. -/
theorem startsWithDot_of_entrySorter {d d' : Dirent} (h : entrySorter d d' = 0) :
    startsWithDot d = startsWithDot d' := by
  unfold entrySorter at h
  cases hd : startsWithDot d <;> cases hd' : startsWithDot d' <;> simp [hd, hd'] at h ⊢

/-- Entries that compare equal are shown alike, and their paths are of one length. -/
theorem shown_fits_congr (flags : Flags) (target : CString) {d d' : Dirent} (h : entrySorter d d' = 0) :
    shown flags d = shown flags d' ∧ (Fits target d ↔ Fits target d') := by
  have hlen := congrArg List.length (map_tolower_of_entrySorter h)
  rw [List.length_map, List.length_map] at hlen
  constructor
  · rw [shown, shown, startsWithDot_of_entrySorter h]
  · simp only [Fits, fullPath, List.length_append, hlen]

/-- The entry at which the program ends is the first. -/
theorem PathsFit.eq_nil {pre post : List Entry} (h : PathsFit flags target entries)
    (horder : InOrder entries ((pre ++ e :: post).map Entry.dirent))
    (hpre : ∀ e' ∈ pre, shown flags e'.dirent → Fits target e'.dirent)
    (hshown : shown flags e.dirent) (hlong : ¬ Fits target e.dirent) : pre = [] := by
  have hmem : ∀ e' ∈ pre ++ e :: post, e'.dirent ∈ entries := fun e' he' =>
    horder.perm.mem_iff.mp (List.mem_map_of_mem he')
  rcases h with hall | ⟨d, hd, hfirst, hdshown, hdlong⟩
  · exact absurd (hall _ (hmem e (by simp)) hshown) hlong
  · cases pre with
    | nil => rfl
    | cons e₀ pre =>
      -- `d` compares equal to the entry in front
      have hle : entrySorter e₀.dirent d ≤ 0 := by
        have hmem' := horder.perm.mem_iff.mpr hd
        rw [List.cons_append, List.map_cons] at hmem'
        rcases List.mem_cons.mp hmem' with rfl | hmem'
        · exact (totalPreorder_entrySorter.refl _).le
        · exact List.rel_of_pairwise_cons horder.sorted hmem'
      have hge := hfirst _ (hmem e₀ (by simp))
      have hswap := totalPreorder_entrySorter.swap e₀.dirent d
      have heq : entrySorter e₀.dirent d = 0 := by
        rcases hle.lt_or_eq with hlt | heq
        · rw [Int.sign_eq_neg_one_of_neg hlt, neg_neg, Int.sign_eq_one_iff_pos] at hswap
          omega
        · exact heq
      obtain ⟨hsame, hfits⟩ := shown_fits_congr flags target heq
      exact absurd (hfits.mp (hpre e₀ (List.mem_cons_self ..) (hsame ▸ hdshown))) hdlong

theorem not_nodup_append {l l' : List Nat} {n : Nat} (h : n ∈ l) (h' : n ∈ l') :
    ¬ (l ++ l').Nodup := fun hnodup => List.disjoint_of_nodup_append hnodup h h'

/-- Every entry is freed once, or one is freed twice: where an `lstat` failed, or a path is
too long behind the first entry. -/
theorem EndsListing.once_or_twice {x : Stop} (h : EndsListing E flags target entries x s') :
    (s'.released.Nodup ∧ (x ≠ .undefined → ReleasedOnce s')) ∨
    (¬ s'.released.Nodup ∧ (LstatFails E ∨ ¬ PathsFit flags target entries)) := by
  have honce : ReleasedOnce s' → s'.released.Nodup := fun h => h.nodup_iff.mpr List.nodup_range
  rcases h with ⟨-, h⟩ | ⟨L, s, horder, hids, hs, pre, e, post, s₁, rfl, hpre, hrel, hend⟩
  · exact .inl ⟨honce h, fun _ => h⟩
  have hrel₁ : s₁.released = pre.map Entry.id := by rw [hrel.released, hs, List.nil_append]
  have hL : ((pre ++ e :: post).map Entry.id).Nodup := hids.nodup_iff.mpr List.nodup_range
  cases hend with
  | undefined hrel' =>
    refine .inl ⟨?_, fun hx => absurd rfl hx⟩
    rw [hrel'.released, hrel₁, List.append_nil]
    rw [List.map_append] at hL
    exact hL.of_append_left
  | path hshown hlong hrel' =>
    cases pre with
    | nil =>
      have h : ReleasedOnce s' := by
        unfold ReleasedOnce
        rw [hrel'.released, hrel₁, hrel'.allocated, hrel.allocated]
        exact hids
      exact .inl ⟨honce h, fun _ => h⟩
    | cons e₀ pre =>
      refine .inr ⟨?_, .inr ?_⟩
      · rw [hrel'.released, hrel₁]
        exact not_nodup_append (n := e₀.id) (by simp) (by simp)
      · intro hpaths
        cases hpaths.eq_nil horder hpre hshown hlong
  | lstat hfails hrel' =>
    refine .inr ⟨?_, .inl hfails⟩
    rw [hrel'.released, hrel₁, ← List.singleton_append, ← List.append_assoc]
    exact not_nodup_append (n := e.id) (by simp) (by simp)

/-- **The ledger.** In every run in which no `lstat` fails, where the paths fit or the first
does not, every entry that is allocated is freed once until the program exits. -/
theorem listDirectory_releases_once (hqsort : SortsEntries qsort) (flags : Flags)
    (target : CString) (view : View) (entries : List Dirent)
    (hpaths : PathsFit flags target entries) :
    Act.Meets exec LstatOk (fun _ => True) (.ready flags) (.boot view entries)
      (listDirectory qsort target) (fun _ _ _ => False)
      (fun x s' => s'.released.Nodup ∧ (x ≠ .undefined → ReleasedOnce s')) := by
  apply (listDirectory_releases hqsort flags target).mono (fun _ _ _ h => h)
  intro x s' h
  rcases h.once_or_twice with honce | ⟨-, ⟨ev, hev, hnot⟩ | hnot⟩
  · exact honce
  · exact absurd hev hnot
  · exact absurd hpaths hnot

/-- Two entries that can be looked at. -/
theorem listDirectory_releases_two :
    Act.Meets exec LstatOk (fun _ => True) (.ready 0)
      (.boot (flatDirectory []).view [upperA, lowerB]) (listDirectory insertionSortBy here)
      (fun _ _ _ => False)
      (fun x s' => s'.released.Nodup ∧ (x ≠ .undefined → ReleasedOnce s')) :=
  listDirectory_releases_once sortsEntries_insertionSortBy 0 here (flatDirectory []).view
    [upperA, lowerB] (.inl (by decide))

/-- What is found in a directory that may be read and not searched. -/
def unsearchable : View :=
  ⟨fun _ => true, fun _ => none, fun _ => none, fun _ => none, fun _ => none, fun _ => none⟩

theorem run_listDirectory (view : View) (entries : List Dirent) (x : Nat × List Nat)
    (h : ((listDirectory insertionSortBy here (.ready 0)).run exec (fun _ => True)
      (fun _ => .ok) 60 (.boot view entries)).map
        (fun r => (r.1.allocated, r.1.released)) = some x) :
    ∃ tr s' r, Runs exec (.boot view entries) (listDirectory insertionSortBy here (.ready 0))
      tr s' (.ret r) ∧ (s'.allocated, s'.released) = x := by
  obtain ⟨tr, s', r, hrun, -, hx⟩ := exists_run_of_map h
  exact ⟨tr, s', r, hrun, hx⟩

/-- There the `lstat` of the only entry fails, and the entry is freed twice. -/
theorem listDirectory_releases_twice : ∃ tr s' r,
    Runs exec (.boot unsearchable [lowerA]) (listDirectory insertionSortBy here (.ready 0))
      tr s' (.ret r) ∧ s'.allocated = 1 ∧ s'.released = [0, 0] := by
  obtain ⟨tr, s', r, hrun, hx⟩ := run_listDirectory unsearchable [lowerA] (1, [0, 0])
    (by decide +kernel)
  obtain ⟨hallocated, hreleased⟩ := Prod.mk.inj hx
  exact ⟨tr, s', r, hrun, hallocated, hreleased⟩

end LabsOS.Ls
