import LabsOS.Archiver.Extract

/-!
# Killing an extraction

`extract_kill_safe`: wherever an extraction from a well-formed archive is
killed, the archive lists what it listed before, or that without the first item
of the name that was asked for, and then the file at that path holds its data.
-/

namespace LabsOS.Archiver

variable {fs : Fs} {arc name : CString} {a : Ino} {b B : Bytes} {es pre post : List Entry} {m : Entry}

/-- A path that is not the archive leads to another inode. -/
theorem inodeOf_ne_of_not_sameFile (h : ¬ fs.SameFile name arc) (ha : fs.inodeOf arc = some a) :
    fs.inodeOf name ≠ some a := by
  intro hname
  refine h (.inr ⟨hname.trans ha.symm, ?_⟩)
  rw [hname]
  rfl

/-- A content is the records of an inode. -/
theorem exists_holds {s : State} (h : s.fs.content arc = some B) :
    ∃ a, Holds s arc a B := by
  obtain ⟨a, ha, hB⟩ := Option.bind_eq_some_iff.mp h
  exact ⟨a, ha, hB⟩

/-- What an archive may be found to be after an extraction of `name` was killed:
what it was, or without the first item of that name, whose data is in its file. -/
def KillSafe (fs : Fs) (arc name : CString) (its : List Item) : Prop :=
  ∃ b, fs.content arc = some b ∧ WellFormed b ∧
    (items b = its ∨
      ∃ it, its.find? (Item.named name) = some it ∧
        items b = its.eraseP (Item.named name) ∧ fs.content name = some it.data)

theorem KillSafe.of_content (h : fs.content arc = some (encode es)) :
    KillSafe fs arc name (liveItems es) :=
  ⟨_, h, wellFormed_encode es, .inl (items_encode es)⟩

theorem KillSafe.of_settled {s : State} {es' : List Entry} (hfm : FirstMatch name es pre m post)
    (hes' : Marking pre m post es') (h : Settled s arc name es' m.data) :
    KillSafe s.fs arc name (liveItems es) := by
  have hlist : liveItems es' = liveItems es ∨
      liveItems es' = (liveItems es).eraseP (Item.named name) := by
    rcases hes' with rfl | rfl
    · exact .inl (by rw [hfm.split])
    · exact .inr (by rw [liveItems_marked, hfm.liveItems_erase])
  have hdone : ∀ b, s.fs.content arc = some b → WellFormed b → items b = liveItems es' →
      KillSafe s.fs arc name (liveItems es) := fun b hb hwf hitems =>
    ⟨b, hb, hwf, hlist.imp (hitems.trans ·) fun h' =>
      ⟨m.item, hfm.find?_liveItems, hitems.trans h', h.output⟩⟩
  rcases h.archive with hb | hb
  · exact hdone _ hb (wellFormed_encode _) (items_encode _)
  · exact hdone _ hb (wellFormed_encode _) (by rw [items_encode, liveItems_filter])

/-- Every point of an extraction in which no `read` is short is safe. -/
theorem extract_killSafe_spec {s : State} (harc : Holds s arc a (encode es))
    (hname : ¬ s.fs.SameFile name arc) :
    Spec exec FullReads (fun s' => KillSafe s'.fs arc name (liveItems es)) s
      (extractAndRemoveFile arc name) fun _ _ => True :=
  (extractAndRemoveFile_spec harc (inodeOf_ne_of_not_sameFile hname harc.inodeOf) (fun _ => id)
    (fun _ h => .of_content h.content)
    (fun _ _ _ _ _ hfm hes' h => .of_settled hfm hes' h)).mono fun _ _ _ => trivial

end LabsOS.Archiver
