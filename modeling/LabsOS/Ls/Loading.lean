import LabsOS.Ls.Sorter

/-!
# Loading a directory

`load_directory_entries` ends with the entries of the directory in `app.list`, each copied
once, in the order of `entry_sorter`, or ends the program with status 1 because a call
failed. No cell is used that does not exist or was never written.
-/

namespace LabsOS.Ls

variable {E : Event Call Call.Resp Outcome → Prop} {app : AppData} {s : State} {L : List Entry}
variable {Z : Stop → State → Prop} {α : Type}

/-- The first `app.count` cells of `app.list` hold `L`. -/
def Lists (app : AppData) (L : List Entry) : Prop :=
  ∃ rest, app.list = some (L.map some ++ rest) ∧ app.count = L.length

/-- The entries `L` are freed. -/
def State.release (s : State) (L : List Entry) : State :=
  { s with released := s.released ++ L.map Entry.id }

theorem Lists.entry (h : Lists app L) {i : Nat} (hi : i < L.length) : app.entry i = L[i]? := by
  obtain ⟨rest, hlist, -⟩ := h
  have hcell : (L.map some ++ rest)[i]? = some L[i]? := by
    rw [List.getElem?_append_left (by simpa using hi), List.getElem?_map,
      List.getElem?_eq_getElem hi]
    rfl
  unfold AppData.entry
  rw [hlist]
  exact congrArg Option.join hcell

theorem State.release_take_succ (s : State) {i : Nat} (hi : i < L.length) :
    ((s.release (L.take i)).free (.entry L[i].id)) = s.release (L.take (i + 1)) := by
  unfold State.release State.free
  rw [List.take_succ_eq_append_getElem hi, List.map_append, ← List.append_assoc]
  rfl

-- ---------------------------------------------------------------------------
-- Cleaning up
-- ---------------------------------------------------------------------------

theorem freeEntries_spec (h : Lists app L) :
    Act.Meets exec E (fun _ => True) app s freeEntries
      (fun _ app' s' => app' = app ∧ s' = s.release L) Z := by
  obtain ⟨rest, hlist, hcount⟩ := id h
  refine Act.Meets.loop (fun i app' s' => app' = app ∧ i ≤ L.length ∧ s' = s.release (L.take i))
    (fun i _ _ => L.length - i) ?_ ⟨rfl, Nat.zero_le _, by simp [State.release]⟩
  rintro i app' s' ⟨happ, hi, rfl⟩
  rw [happ]
  refine Act.Meets.get_bind ?_
  by_cases hlt : i < L.length
  · have hentry : app.entry i = some L[i] := by rw [h.entry hlt, List.getElem?_eq_getElem hlt]
    rw [if_pos (hcount ▸ hlt)]
    simp only [hentry]
    refine Act.Meets.call_bind True.intro fun o _ => Act.Meets.pure True.intro ?_
    refine ⟨⟨rfl, hlt, s.release_take_succ hlt⟩, ?_⟩
    omega
  · rw [if_neg (hcount ▸ hlt)]
    refine Act.Meets.pure True.intro ⟨rfl, ?_⟩
    rw [List.take_of_length_le (by omega)]

theorem freeList_spec (h : Lists app L) :
    Act.Meets exec E (fun _ => True) app s freeList
      (fun _ app' s' => app' = { app with list := none } ∧ s' = s.release L) Z := by
  apply Act.Meets.bind (freeEntries_spec h)
  intro _ app' s' hfree
  obtain ⟨rfl, rfl⟩ := hfree
  exact Act.Meets.call_bind True.intro fun o _ => Act.Meets.modify True.intro ⟨rfl, rfl⟩

/-- The entries `app.list` is responsible for. -/
def Owns (app : AppData) (L : List Entry) : Prop := (app.list = none ∧ L = []) ∨ Lists app L

theorem cleanupBuffer_spec :
    Act.Meets exec E (fun _ => True) app s cleanupBuffer
      (fun _ app' s' => (app'.list = app.list ∧ app'.count = app.count) ∧ s' = s) Z := by
  refine Act.Meets.get_bind ?_
  split
  · exact Act.Meets.call_bind True.intro fun o _ =>
      Act.Meets.modify True.intro ⟨⟨rfl, rfl⟩, rfl⟩
  · exact Act.Meets.pure True.intro ⟨⟨rfl, rfl⟩, rfl⟩

theorem cleanupStream_spec :
    Act.Meets exec E (fun _ => True) app s cleanupStream
      (fun _ app' s' => (app'.list = app.list ∧ app'.count = app.count) ∧ s' = s) Z := by
  refine Act.Meets.get_bind ?_
  split
  · exact Act.Meets.call_bind True.intro fun o _ =>
      Act.Meets.modify True.intro ⟨⟨rfl, rfl⟩, rfl⟩
  · exact Act.Meets.pure True.intro ⟨⟨rfl, rfl⟩, rfl⟩

theorem Owns.congr {app' : AppData} (h : Owns app L)
    (happ : app'.list = app.list ∧ app'.count = app.count) : Owns app' L := by
  unfold Owns Lists
  rw [happ.1, happ.2]
  exact h

theorem cleanupApp_spec (h : Owns app L) :
    Act.Meets exec E (fun _ => True) app s cleanupApp
      (fun _ app' s' => app'.list = none ∧ s' = s.release L) Z := by
  apply Act.Meets.bind cleanupBuffer_spec
  intro _ app₁ s₁ h₁
  obtain ⟨happ₁, rfl⟩ := h₁
  apply Act.Meets.bind cleanupStream_spec
  intro _ app₂ s₂ h₂
  obtain ⟨happ₂, rfl⟩ := h₂
  refine Act.Meets.get_bind ?_
  rcases (h.congr happ₁).congr happ₂ with ⟨hnone, rfl⟩ | hlists
  · rw [if_neg (by rw [hnone]; exact Bool.false_ne_true)]
    refine Act.Meets.pure True.intro ⟨hnone, ?_⟩
    simp [State.release]
  · obtain ⟨rest, hlist, -⟩ := id hlists
    rw [if_pos (by rw [hlist]; rfl)]
    refine (freeList_spec hlists).mono (fun _ app' s' hfree => ?_) fun _ _ hz => hz
    exact ⟨congrArg AppData.list hfree.1, hfree.2⟩

/-- The program ends with status 1, having freed `L`. -/
structure Quits (s : State) (L : List Entry) (x : Stop) (s' : State) : Prop where
  exit : x = .exit 1
  released : s'.released = s.released ++ L.map Entry.id
  allocated : s'.allocated = s.allocated
  stdout : s'.stdout = s.stdout

theorem quit_spec (h : Owns app L) {Q : α → AppData → State → Prop} :
    Act.Meets exec E (fun _ => True) app s (quit : Myls α) Q (Quits s L) := by
  apply Act.Meets.bind (cleanupApp_spec h)
  intro _ app' s' hclean
  obtain ⟨-, rfl⟩ := hclean
  exact Act.Meets.stop True.intro ⟨rfl, rfl, rfl, rfl⟩

theorem reportError_spec (h : Owns app L) (code : Nat) {Q : α → AppData → State → Prop} :
    Act.Meets exec E (fun _ => True) app s (reportError code : Myls α) Q (Quits s L) :=
  Act.Meets.call_bind True.intro fun _ _ =>
    (quit_spec h).mono (fun _ _ _ hq => hq) fun _ _ hz =>
      ⟨hz.exit, hz.released, hz.allocated, hz.stdout⟩

/-- `for (..) free(app.list[i]); free(app.list); app.list = NULL; report_error(code);` -/
theorem freeList_reportError_spec (h : Lists app L) (code : Nat)
    {Q : α → AppData → State → Prop} :
    Act.Meets exec E (fun _ => True) app s (do freeList; reportError code : Myls α) Q
      (Quits s L) := by
  apply Act.Meets.bind (freeList_spec h)
  intro _ app' s' hfree
  obtain ⟨rfl, rfl⟩ := hfree
  apply (reportError_spec (.inl ⟨rfl, rfl⟩) code).mono (fun _ _ _ hq => hq)
  intro _ _ hz
  exact ⟨hz.exit, by simpa [State.release] using hz.released, hz.allocated, hz.stdout⟩

-- ---------------------------------------------------------------------------
-- The array
-- ---------------------------------------------------------------------------

/-- A call can fail. -/
def MayFail (E : Event Call Call.Resp Outcome → Prop) : Prop := ∃ ev, E ev ∧ ev.outcome = .fail

/-- `L` has been read from the directory and stored, and `k` cells are free. -/
structure Loading (app : AppData) (s : State) (L : List Entry) (k : Nat) (app' : AppData)
    (s' : State) : Prop where
  app_eq : app' = { app with
    list := some (L.map some ++ List.replicate k none), count := L.length }
  read : L.map Entry.dirent ++ s'.entries = s.entries
  ids : L.map Entry.id = List.range' s.allocated L.length
  state : s' = { s with entries := s'.entries, allocated := s.allocated + L.length }

/-- Loading ended the program: what was allocated is freed again, and a call had failed. -/
structure LoadFailed (E : Event Call Call.Resp Outcome → Prop) (s : State) (x : Stop)
    (s' : State) : Prop where
  exit : x = .exit 1
  released : s'.released =
    s.released ++ List.range' s.allocated (s'.allocated - s.allocated)
  stdout : s'.stdout = s.stdout
  failed : MayFail E

theorem Loading.lists {app' : AppData} {s' : State} {k : Nat} (h : Loading app s L k app' s') :
    Lists app' L := by
  rw [h.app_eq]
  exact ⟨_, rfl, rfl⟩

theorem Loading.failed {app' : AppData} {s' s'' : State} {k : Nat} {x : Stop}
    (h : Loading app s L k app' s') (hE : MayFail E) (hq : Quits s' L x s'') :
    LoadFailed E s x s'' := by
  refine ⟨hq.exit, ?_, ?_, hE⟩
  · rw [hq.released, hq.allocated, h.ids, h.state]
    simp
  · rw [hq.stdout, h.state]

theorem resize_replicate {capacity k : Nat} (hk : L.length + k ≤ capacity) :
    resize capacity (L.map some ++ List.replicate k none) =
      L.map some ++ List.replicate (capacity - L.length) none := by
  have hlen : (L.map some ++ List.replicate k none).length = L.length + k := by simp
  unfold resize
  rw [List.take_of_length_le (hlen.le.trans hk), hlen, List.append_assoc,
    List.replicate_append_replicate]
  congr 2
  omega

theorem growList_spec {app' : AppData} {s' : State} {k : Nat} (h : Loading app s L k app' s')
    (hpos : 0 < L.length + k) :
    Act.Meets exec E (fun _ => True) app' s' (growList (L.length + k))
      (fun capacity app'' s'' => ∃ k', capacity = L.length + (k' + 1) ∧
        Loading app s L (k' + 1) app'' s'' ∧ s''.entries = s'.entries)
      (LoadFailed E s) := by
  have hlists := h.lists
  have hcount : app'.count = L.length := by rw [h.app_eq]
  refine Act.Meets.get_bind ?_
  by_cases hfull : app'.count ≥ L.length + k
  · rw [if_pos hfull]
    apply Act.Meets.call_bind True.intro
    intro o ho
    cases o with
    | fail =>
      exact (freeList_reportError_spec hlists 3).mono (fun _ _ _ hq => hq) fun _ _ hz =>
        h.failed ⟨_, ho, rfl⟩ hz
    | ok =>
      refine Act.Meets.modify_bind (Act.Meets.pure True.intro ?_)
      have hroom : (L.length + k) * 2 - L.length = (L.length + k) * 2 - L.length - 1 + 1 := by omega
      refine ⟨(L.length + k) * 2 - L.length - 1, by omega, ⟨?_, h.read, h.ids, h.state⟩, rfl⟩
      rw [h.app_eq, Option.map_some, resize_replicate (by omega), ← hroom]
  · rw [if_neg hfull]
    refine Act.Meets.pure True.intro ⟨k - 1, by omega, ?_, rfl⟩
    rw [Nat.sub_add_cancel (by omega)]
    exact h

/-- The store goes to the first free cell. -/
theorem storeEntry_spec {app' : AppData} {s' : State} {k : Nat} {e : Entry}
    (hlist : app'.list = some (L.map some ++ List.replicate (k + 1) none))
    (hcount : app'.count = L.length) :
    Act.Meets exec E (fun _ => True) app' s' (storeEntry e)
      (fun _ app'' s'' => s'' = s' ∧ app'' = { app' with
        list := some ((L ++ [e]).map some ++ List.replicate k none),
        count := (L ++ [e]).length }) Z := by
  refine Act.Meets.get_bind ?_
  have hset : (L.map some ++ List.replicate (k + 1) none).set L.length (some e) =
      (L ++ [e]).map some ++ List.replicate k none := by
    rw [List.set_append_right _ _ (by simp)]
    simp [List.replicate_succ]
  simp only [hlist]
  rw [if_pos (by simp [hcount])]
  refine Act.Meets.modify True.intro ⟨rfl, ?_⟩
  rw [hcount, hset, List.length_append]
  rfl

/-- The entry that was read is stored in the cell that was made sure of. -/
theorem Loading.stored {app' app₂ : AppData} {s' s₂ : State} {k k' : Nat} {rest : List Dirent}
    (e : Entry) (h : Loading app s L k app' s') (hentries : s'.entries = e.dirent :: rest)
    (h₂ : Loading app { s with entries := L.map Entry.dirent ++ rest } L (k' + 1) app₂ s₂)
    (hrest : s₂.entries = rest) (he : e.id = s₂.allocated) :
    Loading app s (L ++ [e]) k'
      { app₂ with
        list := some ((L ++ [e]).map some ++ List.replicate k' none)
        count := (L ++ [e]).length }
      { s₂ with allocated := s₂.allocated + 1 } := by
  have hid : s₂.allocated = s.allocated + L.length := by rw [h₂.state]
  refine ⟨?_, ?_, ?_, ?_⟩
  · rw [h₂.app_eq]
  · show (L ++ [e]).map Entry.dirent ++ s₂.entries = s.entries
    rw [hrest, ← h.read, hentries]
    simp
  · rw [List.map_append, h₂.ids, List.length_append, List.length_singleton,
      List.range'_1_concat, ← hid, ← he]
    rfl
  · have hs := congrArg (fun t : State => { t with allocated := s₂.allocated + 1 }) h₂.state
    refine hs.trans ?_
    rw [hid, List.length_append, List.length_singleton, ← Nat.add_assoc]

/-- One round: the next entry is stored, or there is none, or the program ends. -/
theorem loadEntry_spec {app' : AppData} {s' : State} {k : Nat} (h : Loading app s L k app' s')
    (hpos : 0 < L.length + k) :
    Act.Meets exec E (fun _ => True) app' s' (loadEntry (L.length + k))
      (fun r app'' s'' => Sum.elim
        (fun capacity => ∃ L' k', capacity = L'.length + k' ∧ 0 < L'.length + k' ∧
          Loading app s L' k' app'' s'' ∧ s''.entries.length < s'.entries.length)
        (fun errno => Loading app s L k app'' s'' ∧
          if errno then MayFail E else s''.entries = []) r)
      (LoadFailed E s) := by
  apply Act.Meets.call_bind True.intro
  intro o ho
  cases o with
  | fail => exact Act.Meets.pure True.intro ⟨h, ⟨_, ho, rfl⟩⟩
  | ok =>
    cases hentries : s'.entries with
    | nil =>
      have hread : exec .ok s' .readdir = (s', some none) := by
        show s'.readdir .ok = _
        rw [State.readdir, hentries]
      simp only [hread]
      exact Act.Meets.pure True.intro ⟨h, hentries⟩
    | cons d rest =>
      have hread : exec .ok s' .readdir = ({ s' with entries := rest }, some (some d)) := by
        show s'.readdir .ok = _
        rw [State.readdir, hentries]
      -- `d` is read and not stored yet
      have hnext : Loading app { s with entries := L.map Entry.dirent ++ rest } L k app'
          { s' with entries := rest } :=
        ⟨h.app_eq, rfl, h.ids, by rw [h.state]⟩
      simp only [hread]
      refine Act.Meets.bind ((growList_spec hnext hpos).mono (fun _ _ _ hq => hq)
        fun x s'' hz => ⟨hz.exit, hz.released, hz.stdout, hz.failed⟩) ?_
      rintro capacity app₂ s₂ ⟨k', rfl, h₂, hrest⟩
      apply Act.Meets.call_bind True.intro
      intro o ho
      cases o with
      | fail =>
        exact (freeList_reportError_spec h₂.lists 3).mono (fun _ _ _ hq => hq) fun _ _ hz =>
          let hf := h₂.failed ⟨_, ho, rfl⟩ hz
          ⟨hf.exit, hf.released, hf.stdout, hf.failed⟩
      | ok =>
        have hlist : app₂.list = some (L.map some ++ List.replicate (k' + 1) none) := by
          rw [h₂.app_eq]
        have hcount : app₂.count = L.length := by rw [h₂.app_eq]
        apply Act.Meets.bind (storeEntry_spec hlist hcount)
        intro _ app₃ s₃ hstore
        obtain ⟨rfl, rfl⟩ := hstore
        refine Act.Meets.pure True.intro
          ⟨L ++ [⟨s₂.allocated, d⟩], k', ?_, ?_, h.stored _ hentries h₂ hrest rfl, ?_⟩
        · simp only [List.length_append, List.length_singleton]
          omega
        · simp only [List.length_append, List.length_singleton]
          omega
        · show s₂.entries.length < (d :: rest).length
          rw [hrest]
          exact Nat.lt_succ_self _

theorem allSome_map_some (L : List Entry) : allSome (L.map some) = some L := by
  induction L with
  | nil => rfl
  | cons e L ih => rw [List.map_cons, allSome, ih, Option.map_some]

variable {qsort : (Entry → Entry → Int) → List Entry → List Entry}

theorem sortList_spec {rest : List (Option Entry)} (hlist : app.list = some (L.map some ++ rest))
    (hcount : app.count = L.length) :
    Act.Meets exec E (fun _ => True) app s (sortList qsort)
      (fun _ app' s' => app' = { app with
        list := some ((qsort compareEntries L).map some ++ rest) } ∧ s' = s) Z := by
  have hlen : app.count = (L.map (some : Entry → Option Entry)).length := by
    rw [hcount, List.length_map]
  have htake : allSome ((L.map some ++ rest).take app.count) = some L := by
    rw [hlen, List.take_left, allSome_map_some]
  have hdrop : (L.map some ++ rest).drop app.count = rest := by
    rw [hlen, List.drop_left]
  refine Act.Meets.get_bind ?_
  simp only [hlist, htake]
  refine Act.Meets.modify True.intro ⟨?_, rfl⟩
  rw [hdrop]

/-- The loop that reads the directory, from an array of 32 free cells. -/
theorem loadLoop_spec (E : Event Call Call.Resp Outcome → Prop) (app : AppData) (s : State) :
    Act.Meets exec E (fun _ => True)
      { app with list := some (List.replicate 32 none), count := 0 } s (Act.while_ loadEntry 32)
      (fun errno app' s' => ∃ L k, Loading app s L k app' s' ∧
        if errno then MayFail E else s'.entries = [])
      (LoadFailed E s) := by
  refine Act.Meets.loop (fun capacity app' s' => ∃ L k, capacity = L.length + k ∧
    0 < L.length + k ∧ Loading app s L k app' s') (fun _ _ s' => s'.entries.length) ?_
    ⟨[], 32, rfl, by decide, rfl, rfl, rfl, rfl⟩
  rintro _ app' s' ⟨L, k, rfl, hpos, h⟩
  refine (loadEntry_spec h hpos).mono (fun r app'' s'' hr => ?_) fun _ _ hz => hz
  cases r with
  | inl capacity =>
    obtain ⟨L', k', hcap, hpos', h', hlt⟩ := hr
    exact ⟨⟨L', k', hcap, hpos', h'⟩, hlt⟩
  | inr errno => exact ⟨L, k, hr⟩

/-- What `load_directory_entries` does. -/
theorem loadDirectoryEntries_spec (E : Event Call Call.Resp Outcome → Prop) (app : AppData)
    (s : State) :
    Act.Meets exec E (fun _ => True) app s (loadDirectoryEntries qsort)
      (fun _ app' s' => ∃ L rest, app' = { app with
          list := some ((qsort compareEntries L).map some ++ rest), count := L.length } ∧
        L.map Entry.dirent = s.entries ∧ L.map Entry.id = List.range' s.allocated L.length ∧
        s' = { s with entries := [], allocated := s.allocated + L.length })
      (LoadFailed E s) := by
  apply Act.Meets.call_bind True.intro
  intro o ho
  cases o with
  | fail =>
    refine Act.Meets.modify_bind ((reportError_spec (.inl ⟨rfl, rfl⟩) 3).mono
      (fun _ _ _ hq => hq) fun _ s' hz => ⟨hz.exit, ?_, hz.stdout, _, ho, rfl⟩)
    rw [hz.released, hz.allocated]
    show _ = s.released ++ List.range' s.allocated (s.allocated - s.allocated)
    simp
    rfl
  | ok =>
    refine Act.Meets.modify_bind (Act.Meets.modify_bind ?_)
    apply Act.Meets.bind (loadLoop_spec E app s)
    intro errno app' s' hloop
    obtain ⟨L, k, h, herr⟩ := hloop
    cases errno with
    | true =>
      exact (freeList_reportError_spec h.lists 3).mono (fun _ _ _ hq => hq) fun _ _ hz =>
        h.failed herr hz
    | false =>
      have hlist : app'.list = some (L.map some ++ List.replicate k none) := by rw [h.app_eq]
      have hcount : app'.count = L.length := by rw [h.app_eq]
      refine (sortList_spec hlist hcount).mono (fun _ app'' s'' hsort => ?_) fun _ _ hz => hz
      obtain ⟨rfl, rfl⟩ := hsort
      have hentries : s''.entries = [] := herr
      refine ⟨L, List.replicate k none, ?_, ?_, h.ids, ?_⟩
      · rw [h.app_eq]
      · rw [← h.read, hentries, List.append_nil]
      · rw [← hentries]
        exact h.state

/-- What is documented of `qsort`: for a comparison that is a total preorder it returns its
array in the order of the comparison. -/
def Sorts (qsort : (Entry → Entry → Int) → List Entry → List Entry) : Prop :=
  ∀ cmp, TotalPreorder cmp → ∀ L, (qsort cmp L).Perm L ∧ SortedBy cmp (qsort cmp L)

theorem totalPreorder_compareEntries : TotalPreorder compareEntries :=
  totalPreorder_entrySorter.comap Entry.dirent

/-- **Loading.** `entry_sorter` is a total preorder, and loading ends with each entry of the
directory stored once, the names with a dot in front and sorted without regard to case, or
with status 1 after a failure; no store is outside the array (it would be `undefined`). -/
theorem loadDirectoryEntries_sorts (hqsort : Sorts qsort)
    (E : Event Call Call.Resp Outcome → Prop) (app : AppData) (s : State) :
    TotalPreorder entrySorter ∧
    Act.Meets exec E (fun _ => True) app s (loadDirectoryEntries qsort)
      (fun _ app' s' => s'.entries = [] ∧ ∃ (L : List Entry) (rest : List (Option Entry)),
        app'.list = some (L.map some ++ rest) ∧ app'.count = L.length ∧
        (L.map Entry.dirent).Perm s.entries ∧
        (L.map Entry.id).Perm (List.range' s.allocated s.entries.length) ∧
        L.Pairwise fun a b => (startsWithDot b.dirent → startsWithDot a.dirent) ∧
          (startsWithDot a.dirent = startsWithDot b.dirent →
            strcasecmp a.dirent.dName.bytes b.dirent.dName.bytes ≤ 0))
      (fun x _ => x = .exit 1 ∧ MayFail E) := by
  refine ⟨totalPreorder_entrySorter, (loadDirectoryEntries_spec E app s).mono
    (fun _ app' s' hload => ?_) fun _ _ hz => ⟨hz.exit, hz.failed⟩⟩
  obtain ⟨L, rest, rfl, hread, hids, rfl⟩ := hload
  obtain ⟨hperm, hsorted⟩ := hqsort compareEntries totalPreorder_compareEntries L
  refine ⟨rfl, qsort compareEntries L, rest, rfl, hperm.length_eq.symm, ?_, ?_, ?_⟩
  · exact hread ▸ hperm.map Entry.dirent
  · have hlen : L.length = s.entries.length := by rw [← hread, List.length_map]
    exact hlen ▸ hids ▸ hperm.map Entry.id
  · exact sortedBy_classFirst_iff.mp hsorted

theorem sorts_insertionSortBy : Sorts insertionSortBy := fun cmp h L =>
  ⟨insertionSortBy_perm cmp L, sortedBy_insertionSortBy h L⟩

/-- An open directory with three entries. -/
def threeEntries : State where
  view := ⟨fun _ => true, fun _ => none, fun _ => none, fun _ => none, fun _ => none, fun _ => none⟩
  entries := [⟨⟨ascii "b", by decide⟩⟩, ⟨⟨ascii ".x", by decide⟩⟩, ⟨⟨ascii "A", by decide⟩⟩]
  allocated := 0
  released := []
  stdout := []
  stderr := []

/-- They are loaded where no call fails. -/
theorem loadDirectoryEntries_three :
    Act.Meets exec (fun ev => ev.outcome = .ok) (fun _ => True) ⟨some [], none, true, 0, none, 0⟩
      threeEntries (loadDirectoryEntries insertionSortBy)
      (fun _ app' _ => app'.count = 3) (fun _ _ => False) :=
  (loadDirectoryEntries_sorts sorts_insertionSortBy (fun ev => ev.outcome = .ok)
    ⟨some [], none, true, 0, none, 0⟩ threeEntries).2.mono
    (fun _ app' _ h => by
      obtain ⟨-, L, rest, -, hcount, hperm, -⟩ := h
      have hlen := hperm.length_eq
      rw [List.length_map] at hlen
      rw [hcount, hlen]
      rfl)
    fun _ _ hz => by
      obtain ⟨-, ev, hok, hfail⟩ := hz
      rw [hok] at hfail
      cases hfail

end LabsOS.Ls
