import LabsOS.Archiver.Lists

/-!
# What may follow

Any number of further commands on an archive (`Later`): additions that report
success or store nothing, extractions whose system calls may fail, and changes
to other files in between. `Later.preserves` carries a property of the list over
all of them.
-/

namespace LabsOS.Archiver

/-- The file systems that further commands on the archive `arc` may lead to, with
extractions of names in `P`. -/
inductive Later (arc : CString) (P : CString → Prop) (fs : Fs) : Fs → Prop where
  | refl : Later arc P fs fs
  | other {fs₁ fs₂} : Later arc P fs fs₁ → archiveBytes fs₂ arc = archiveBytes fs₁ arc →
      Later arc P fs fs₂
  | add {fs₁ target umask tr s'} : Later arc P fs fs₁ →
      Runs exec (State.boot fs₁ umask) (addFileToArchive arc target) tr s' (.ret ()) →
      (∀ ev ∈ tr, NonnegSize ev) → (addedLine target arc ∈ s'.proc.stdout ∨ StoresNothing tr) →
      Later arc P fs s'.fs
  | extract {fs₁ name umask tr s'} : Later arc P fs fs₁ → P name → ¬ fs₁.SameFile name arc →
      Runs exec (State.boot fs₁ umask) (extractAndRemoveFile arc name) tr s' (.ret ()) →
      (∀ ev ∈ tr, FullReads ev) → Later arc P fs s'.fs

variable {arc name : CString} {P : CString → Prop} {fs fs' : Fs}

/-- A property of the list that survives an appended item, and the removal of an
item with a name in `P`, survives further commands. -/
theorem Later.preserves {J : List Item → Prop} (h : Later arc P fs fs')
    (hadd : ∀ its it, J its → J (its ++ [it]))
    (herase : ∀ its q, P q → J its → J (its.eraseP (Item.named q)))
    (hinv : ∃ its, Lists fs arc its ∧ J its) : ∃ its, Lists fs' arc its ∧ J its := by
  induction h with
  | refl => exact hinv
  | other _ heq ih =>
    obtain ⟨its, ⟨b, hb, hrest⟩, hi⟩ := ih
    exact ⟨its, ⟨b, heq.trans hb, hrest⟩, hi⟩
  | add _ hrun hsize hok ih =>
    obtain ⟨its, hits, hi⟩ := ih
    rcases hits.add_any hrun hsize with ⟨-, stats, d, hits'⟩ | ⟨hunrep, hsame⟩
    · exact ⟨_, hits', hadd its _ hi⟩
    · exact ⟨its, hsame (hok.resolve_left hunrep), hi⟩
  | extract _ hP hname hrun htr ih =>
    obtain ⟨its, hits, hi⟩ := ih
    rcases hits.extract_any hname hrun htr with hits' | hits'
    · exact ⟨its, hits', hi⟩
    · exact ⟨_, hits', herase its _ hP hi⟩

/-- A well-formed archive stays well formed. -/
theorem Later.lists {its : List Item} (h : Later arc P fs fs') (hits : Lists fs arc its) :
    ∃ its', Lists fs' arc its' := by
  obtain ⟨its', hits', -⟩ := h.preserves (J := fun _ => True) (fun _ _ => id) (fun _ _ _ => id)
    ⟨its, hits, trivial⟩
  exact ⟨its', hits'⟩

/-- Removing an item of another name does not change which item is found. -/
theorem find?_eraseP_named {q : CString} (hq : q ≠ name) (its : List Item) :
    (its.eraseP (Item.named q)).find? (Item.named name) = its.find? (Item.named name) := by
  induction its with
  | nil => rfl
  | cons it its ih =>
    by_cases hit : it.named q = true
    · have hother : ¬ it.named name = true := by
        simp only [Item.named, decide_eq_true_eq] at hit ⊢
        exact fun h => hq (hit.symm.trans h)
      rw [List.eraseP_cons_of_pos hit, List.find?_cons_of_neg hother]
    · rw [List.eraseP_cons_of_neg hit, List.find?_cons, List.find?_cons, ih]

/-- What is found under a name stays what is found, while only items of other
names are taken out. -/
theorem Later.find? {its : List Item} {it : Item} (h : Later arc (· ≠ name) fs fs')
    (hits : Lists fs arc its) (hfind : its.find? (Item.named name) = some it) :
    ∃ its', Lists fs' arc its' ∧ its'.find? (Item.named name) = some it := by
  refine h.preserves (J := fun its => its.find? (Item.named name) = some it) ?_ ?_
    ⟨its, hits, hfind⟩
  · intro its it' hi
    rw [List.find?_append, hi, Option.some_or]
  · intro its q hq hi
    rw [find?_eraseP_named hq, hi]

end LabsOS.Archiver
