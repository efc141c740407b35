import LabsOS.Archiver.Halting

/-!
# What a compaction drops

A compaction should drop the marked records of an archive and nothing else
(`dropMarked`). It also drops a header that is cut short at the end, which it
takes for the end of the archive: `compaction_faithful_iff`.
-/

namespace LabsOS.Archiver

variable {fs : Fs} {umask : Nat} {arc : CString} {b : Bytes}

/-- `b` without the header and data bytes of its marked records. -/
def dropMarked (b : Bytes) : Bytes :=
  match _h : scan b with
  | .short => b
  | .cut => b
  | .live record rest => record ++ dropMarked rest
  | .dead rest => dropMarked rest
  termination_by b.length
  decreasing_by
    · exact length_lt_of_scan (.inr ⟨_, _h⟩)
    · exact length_lt_of_scan (.inl _h)

/-- The records of `b` are followed by the beginning of a header. -/
inductive EndsTorn : Bytes → Prop where
  | torn {b : Bytes} : scan b = .short → b ≠ [] → EndsTorn b
  | live {b record rest : Bytes} : scan b = .live record rest → EndsTorn rest → EndsTorn b
  | dead {b rest : Bytes} : scan b = .dead rest → EndsTorn rest → EndsTorn b

/-- What a compaction keeps and what it leaves unread are what should be kept. -/
theorem dropMarked_of_compaction {kept tail : Bytes} (h : compaction b = some (kept, tail)) :
    dropMarked b = kept ++ tail := by
  fun_induction compaction b generalizing kept tail with
  | case1 b hs =>
    obtain ⟨rfl, rfl⟩ := Prod.mk.inj (Option.some.inj h)
    rw [dropMarked]
    split <;> simp_all
  | case2 b hs => cases h
  | case3 b record rest hs ih =>
    obtain ⟨⟨kept', tail'⟩, hrest, heq⟩ := Option.map_eq_some_iff.mp h
    obtain ⟨rfl, rfl⟩ := Prod.mk.inj heq
    rw [dropMarked]
    split <;> simp_all
  | case4 b rest hs ih =>
    rw [dropMarked]
    split <;> simp_all

/-- A compaction leaves something unread exactly of the archives that end in a torn header. -/
theorem endsTorn_iff : EndsTorn b ↔ ∃ kept tail, compaction b = some (kept, tail) ∧ tail ≠ [] := by
  constructor
  · intro h
    induction h with
    | torn hs hne => exact ⟨[], _, compaction_of_short hs, hne⟩
    | @live b record rest hs _ ih =>
      obtain ⟨kept, tail, hrest, hne⟩ := ih
      refine ⟨record ++ kept, tail, ?_, hne⟩
      rw [compaction_of_live hs, hrest]
      rfl
    | dead hs _ ih =>
      obtain ⟨kept, tail, hrest, hne⟩ := ih
      exact ⟨kept, tail, (compaction_of_dead hs).trans hrest, hne⟩
  · rintro ⟨kept, tail, h, hne⟩
    fun_induction compaction b generalizing kept tail with
    | case1 b hs =>
      obtain ⟨-, rfl⟩ := Prod.mk.inj (Option.some.inj h)
      exact .torn hs hne
    | case2 b hs => cases h
    | case3 b record rest hs ih =>
      obtain ⟨⟨kept', tail'⟩, hrest, heq⟩ := Option.map_eq_some_iff.mp h
      obtain ⟨-, rfl⟩ := Prod.mk.inj heq
      exact .live hs (ih kept' tail' hrest hne)
    | case4 b rest hs ih => exact .dead hs (ih kept tail h hne)

/-- What a compaction of an archive with content `b` should do, whichever system calls
fail: nothing and report it, or drop the marked records. -/
def CompactsFaithfully (fs : Fs) (umask : Nat) (arc : CString) (b : Bytes) : Prop :=
  ∀ tr s' ok, Runs exec (State.boot fs umask) (compressArchiveFile arc) tr s' (.ret ok) →
    (∀ ev ∈ tr, FullReads ev) →
    s'.fs.content arc = some (if ok then dropMarked b else b)

theorem compactsFaithfully_of_not_endsTorn (hb : fs.content arc = some b) (h : ¬ EndsTorn b) :
    CompactsFaithfully fs umask arc b := by
  obtain ⟨a, ha, hdata⟩ := Option.bind_eq_some_iff.mp hb
  intro tr s' ok hrun htr
  have hspec := compressArchiveFile_spec (s := State.boot fs umask) (E := FullReads)
    (I := fun _ => True) ha hdata (fun _ => id) (fun _ _ => trivial) (fun _ _ _ _ _ => trivial)
  obtain ⟨hdone, -⟩ := (hspec tr s' _ hrun htr).2 ok rfl
  cases ok with
  | false => exact (hdone.failed rfl).content
  | true =>
    obtain ⟨kept, tail, hcomp, hkeeps⟩ := hdone.replaced rfl
    have htail : tail = [] := by
      by_contra hne
      exact h (endsTorn_iff.mpr ⟨kept, tail, hcomp, hne⟩)
    rw [hkeeps.content, if_pos rfl, dropMarked_of_compaction hcomp, htail, List.append_nil]

/-- Where nothing interferes, a torn header at the end is dropped. -/
theorem not_compactsFaithfully (hb : fs.content arc = some b)
    (hfree : fs.TempFree "archiver_temp_XXXXXX") (h : EndsTorn b) :
    ¬ CompactsFaithfully fs umask arc b := by
  obtain ⟨a, ha, hdata⟩ := Option.bind_eq_some_iff.mp hb
  obtain ⟨kept, tail, hcomp, hne⟩ := endsTorn_iff.mp h
  intro hfaithful
  have hspec := compressArchiveFile_spec (s := State.boot fs umask) (E := OutcomeOk)
    (I := fun _ => True) ha hdata (Faultless.readsFully fun _ => id) (fun _ _ => trivial)
    (fun _ _ _ _ _ => trivial)
  obtain ⟨tr, s', ok, hrun, htr, hdone, hreach⟩ :=
    hspec.may (compressArchiveFile_total arc _) exists_outcomeOk
  obtain rfl := hreach (fun _ => id) hfree kept tail hcomp hne
  obtain ⟨kept', tail', hcomp', hkeeps⟩ := hdone.replaced rfl
  obtain ⟨rfl, rfl⟩ := Prod.mk.inj (Option.some.inj (hcomp.symm.trans hcomp'))
  have hcontent := hfaithful tr s' true hrun fun ev hev =>
    Faultless.readsFully (E := OutcomeOk) (fun _ => id) ev (htr ev hev)
  rw [hkeeps.content, if_pos rfl, dropMarked_of_compaction hcomp] at hcontent
  exact hne (List.self_eq_append_right.mp (Option.some.inj hcontent))

/-- **A compaction is faithful** to the archives with content `b`, wherever they are,
exactly when `b` does not end in a torn header. -/
theorem compaction_faithful_iff (b : Bytes) :
    (∀ fs umask arc, fs.content arc = some b → CompactsFaithfully fs umask arc b) ↔
      ¬ EndsTorn b := by
  refine ⟨fun h htorn => ?_, fun h fs umask arc hb => compactsFaithfully_of_not_endsTorn hb h⟩
  have hlost : ¬ CompactsFaithfully (Fs.flat [(nameA, Inode.file b)]) 0o22 nameA b :=
    not_compactsFaithfully rfl rfl htorn
  exact hlost (h _ 0o22 nameA rfl)

/-- The only byte of an archive that was just begun is lost. -/
theorem compaction_drops_torn_header :
    (Fs.flat [(nameA, Inode.file [1])]).content nameA = some [1] ∧
      ¬ CompactsFaithfully (Fs.flat [(nameA, Inode.file [1])]) 0o22 nameA [1] :=
  ⟨rfl, not_compactsFaithfully rfl rfl (.torn (scan_short (readHeader_eq_none.mpr (by decide)))
    (List.cons_ne_nil _ _))⟩

end LabsOS.Archiver
