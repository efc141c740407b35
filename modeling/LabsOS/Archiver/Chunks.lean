import LabsOS.Archiver.Halting

/-!
# Copying in chunks

`duplicate_content` under every schedule of reads and writes: it ends, and the destination
gains the next bytes of the source, all of them or a strict part (`duplicateContent_exact`).
The source may be any file. Where it is the destination itself it grows while it is copied,
but only behind what it held, so the bytes copied are still the next ones.
-/

namespace LabsOS.Archiver

variable {E : SysEvent → Prop} {s s' s'' : State} {src dst : Fd} {fi : OpenFile} {i : Ino}
variable {D D' O g v : Bytes} {r total : Nat}

/-- What follows a prefix makes it longer. -/
theorem append_prefix_of_prefix_drop {l : Bytes} (hg : g <+: l) (hv : v <+: l.drop g.length) :
    g ++ v <+: l := by
  obtain ⟨t, rfl⟩ := hg
  rw [List.drop_left] at hv
  exact (List.prefix_append_right_inj g).mpr hv

/-- `r` bytes were read through `src`, opened as `fi` on a file that held `D` and holds `D'`
now, and `g` of them were appended through `dst` to the file `i`, which held `O`. -/
structure Gained (s' : State) (src dst : Fd) (fi : OpenFile) (D : Bytes) (i : Ino) (O : Bytes)
    (r : Nat) (D' g : Bytes) : Prop where
  source : s'.fs.data fi.ino = some D'
  grown : D <+: D'
  unchanged : fi.ino ≠ i → D' = D
  srcFile : s'.file src = some { fi with pos := fi.pos + r }
  atEnd : WritesAtEnd s' dst i (O ++ g)
  next : g <+: D'.drop fi.pos

theorem Gained.refl (hsrc : s.file src = some fi) (hD : s.fs.data fi.ino = some D)
    (hdst : WritesAtEnd s dst i O) : Gained s src dst fi D i O 0 D [] := by
  refine ⟨hD, List.prefix_rfl, fun _ => rfl, hsrc, ?_, List.nil_prefix⟩
  rw [List.append_nil]
  exact hdst

theorem Gained.read (h : Gained s' src dst fi D i O r D' g) (hne : dst ≠ src) (buf : Bytes) :
    Gained (s'.afterRead src { fi with pos := fi.pos + r } buf) src dst fi D i O
      (r + buf.length) D' g := by
  obtain ⟨hd, f, hf, hrest⟩ := h.atEnd
  refine ⟨h.source, h.grown, h.unchanged, ?_, ?_, h.next⟩
  · rw [State.afterRead, State.file_setFile_self h.srcFile, Nat.add_assoc]
  · exact ⟨hd, f, (State.file_setFile_ne hne _).trans hf, hrest⟩

/-- Appending keeps what the source held. -/
theorem Gained.append (h : Gained s' src dst fi D i O r D' g) (hne : src ≠ dst)
    (ha : Appended s' s'' dst i (O ++ g) v) (hv : v <+: (D'.drop fi.pos).drop g.length) :
    ∃ D'', Gained s'' src dst fi D i O r D'' (g ++ v) := by
  have hfile := (ha.others src hne).trans h.srcFile
  have hend : WritesAtEnd s'' dst i (O ++ (g ++ v)) := by
    rw [← List.append_assoc]
    exact ha.atEnd
  have hnext := append_prefix_of_prefix_drop h.next hv
  by_cases hino : fi.ino = i
  · -- the file is its own source
    have hD' : D' = O ++ g := by
      have hdata := h.source
      rw [hino, h.atEnd.data] at hdata
      exact (Option.some.inj hdata).symm
    have hgrown : D' <+: O ++ g ++ v := by
      rw [hD']
      exact List.prefix_append _ _
    refine ⟨O ++ g ++ v, ?_, h.grown.trans hgrown, fun hcon => absurd hino hcon, hfile, hend,
      hnext.trans (hgrown.drop _)⟩
    rw [hino, ha.fs]
    exact Fs.data_setData_self h.atEnd.data
  · refine ⟨D', ?_, h.grown, h.unchanged, hfile, hend, hnext⟩
    rw [ha.fs, Fs.data_setData_ne hino]
    exact h.source

/-- Copying with any calls in `E`: what was gained is all, or falls short. -/
theorem duplicateContent_gains (hsrc : s.file src = some fi) (hread : fi.flags.read = true)
    (hD : s.fs.data fi.ino = some D) (hdst : WritesAtEnd s dst i O) (hfd : src ≠ dst) :
    Spec exec E (fun _ => True) s (duplicateContent src dst total) fun ok s' =>
      ∃ r D' g, Gained s' src dst fi D i O r D' g ∧
        if ok = true then r = total ∧ g.length = total else g.length < total := by
  -- at the head of the loop everything read has been written
  refine Spec.loop (fun rem s' => ∃ (r : Nat) (D' g : Bytes), rem = (total : Int) - r ∧
    r ≤ total ∧ g.length = r ∧ Gained s' src dst fi D i O r D' g) ?_
    ⟨0, D, [], by simp, Nat.zero_le _, rfl, Gained.refl hsrc hD hdst⟩
  rintro rem s' ⟨r, D', g, rfl, hr, hlen, h⟩
  split
  · next hdone =>
    have hall : r = total := by omega
    exact Spec.ret trivial (Spec.ret trivial ⟨r, D', g, h, hall, hlen.trans hall⟩)
  next hmore =>
  have hle := chunkSize_le (total - r)
  have hlt : r < total := by omega
  refine Spec.read trivial h.srcFile hread h.source (fun _ => ?_) ?_
  · exact Spec.ret trivial (Spec.ret trivial ⟨r, D', g, h, by simpa using hlen ▸ hlt⟩)
  intro n hn _
  have hbuf : OpenFile.available { fi with pos := fi.pos + r } D' n =
      ((D'.drop fi.pos).drop g.length).take n := by
    rw [OpenFile.available, List.drop_drop, hlen]
  have h₁ := h.read (Ne.symm hfd) (OpenFile.available { fi with pos := fi.pos + r } D' n)
  generalize OpenFile.available { fi with pos := fi.pos + r } D' n = buf at hbuf h₁ ⊢
  have hbound : buf.length ≤ total - r := by
    have htake := List.length_take_le n ((D'.drop fi.pos).drop g.length)
    rw [← hbuf] at htake
    omega
  have hnext : ∀ m, buf.take m <+: (D'.drop fi.pos).drop g.length := by
    intro m
    have hprefix : buf <+: (D'.drop fi.pos).drop g.length := by
      rw [hbuf]
      exact List.take_prefix ..
    exact (List.take_prefix m buf).trans hprefix
  cases buf with
  | nil => exact Spec.ret trivial (Spec.ret trivial ⟨_, D', g, h₁, by simpa using hlen ▸ hlt⟩)
  | cons b bs =>
    refine Spec.bind (p := completeWrite dst (b :: bs))
      (completeWrite_spec h₁.atEnd fun _ _ _ _ => trivial) ?_
    rintro ok s₂ ⟨m, hm, ha, hok, hbad⟩
    obtain ⟨D₂, h₂⟩ := h₁.append hfd ha (hnext m)
    have hlen₂ : (g ++ (b :: bs).take m).length = r + m := by
      rw [List.length_append, hlen, List.length_take_of_le hm]
    cases ok with
    | false =>
      have hshort := (hbad rfl).1
      refine Spec.ret trivial (Spec.ret trivial ⟨_, D₂, _, h₂, ?_⟩)
      rw [if_neg Bool.false_ne_true, hlen₂]
      omega
    | true =>
      obtain rfl := hok rfl
      exact Spec.ret trivial ⟨_, D₂, _, by push_cast; omega, by omega, hlen₂, h₂⟩

/-- **Copying is exact.** Under every schedule of reads and writes `duplicate_content` ends.
Where it returns 0 the destination has gained the next `total` bytes of the source, whose
offset has moved over them; where it returns -1 it has gained a strict part of them. The
source is what it was, or that with more behind it if it is the destination. -/
theorem duplicateContent_exact (hsrc : s.file src = some fi) (hread : fi.flags.read = true)
    (hD : s.fs.data fi.ino = some D) (hdst : WritesAtEnd s dst i O) (hfd : src ≠ dst)
    (total : Nat) :
    Halts exec (fun _ => True) s (duplicateContent src dst total) ∧
    Spec exec (fun _ => True) (fun _ => True) s (duplicateContent src dst total) fun ok s' =>
      ∃ D' gained, s'.fs.data fi.ino = some D' ∧ D <+: D' ∧ (fi.ino ≠ i → D' = D) ∧
        s'.fs.data i = some (O ++ gained) ∧
        if ok = true then
          gained = (D'.drop fi.pos).take total ∧ gained.length = total ∧
            s'.file src = some { fi with pos := fi.pos + total }
        else gained <+: (D'.drop fi.pos).take total ∧ gained.length < total := by
  refine ⟨duplicateContent_total src dst total s, ?_⟩
  apply (duplicateContent_gains hsrc hread hD hdst hfd).mono
  intro ok s' h
  obtain ⟨r, D', g, hg, hres⟩ := h
  refine ⟨D', g, hg.source, hg.grown, hg.unchanged, hg.atEnd.data, ?_⟩
  have htake : g = (D'.drop fi.pos).take g.length := List.prefix_iff_eq_take.mp hg.next
  split
  · next hok =>
    rw [if_pos hok] at hres
    obtain ⟨rfl, hlen⟩ := hres
    exact ⟨hlen ▸ htake, hlen, hg.srcFile⟩
  · next hok =>
    rw [if_neg hok] at hres
    exact ⟨List.prefix_take_iff.mpr ⟨hg.next, hres.le⟩, hres⟩

/-- A file of three bytes that is read from its second byte on, and one that is written. -/
def copying : State :=
  ((State.boot (.pair (.file [120, 121, 122]) (.file [48])) 0o22).addFile
    ⟨0, 1, { read := true }⟩).addFile ⟨1, 1, { write := true }⟩

theorem writesAtEnd_copying : WritesAtEnd copying 4 1 [48] :=
  ⟨by decide, ⟨1, 1, { write := true }⟩, rfl, rfl, rfl, by decide⟩

/-- Copying two bytes of it, with any reads and writes. -/
theorem duplicateContent_exact_two :
    Halts exec (fun _ => True) copying (duplicateContent 3 4 (2 : Nat)) ∧
    Spec exec (fun _ => True) (fun _ => True) copying (duplicateContent 3 4 (2 : Nat)) fun ok s' =>
      ok = true → s'.fs.data 1 = some [48, 121, 122] := by
  have hcopy := duplicateContent_exact (s := copying) (i := 1) (D := [120, 121, 122])
    (O := [48]) (show copying.file 3 = some ⟨0, 1, { read := true }⟩ from rfl) rfl (by decide)
    writesAtEnd_copying (by decide) 2
  refine ⟨hcopy.1, hcopy.2.mono fun ok s' h hok => ?_⟩
  obtain ⟨D', gained, -, -, hsame, hdst, hres⟩ := h
  rw [if_pos hok] at hres
  rw [hdst, hres.1, hsame (by decide)]
  decide

end LabsOS.Archiver
