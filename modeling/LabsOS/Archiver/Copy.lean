import LabsOS.Archiver.Archiver
import LabsOS.Kernel.Rules

/-!
# The copying functions

What `completeWrite`, `duplicateContent` and `skipBytes` do under any outcome
of their system calls: the state at every point is the initial one with some
bytes appended to the destination and the two offsets moved (`Appended`,
`Copied`), and the result tells whether all of them were.
-/

namespace LabsOS.Archiver

section Copy

variable {E : SysEvent → Prop} {I : State → Prop}

/-- `fd` is open for writing at the end of the file `i`, whose content is `d`. -/
structure WritesAtEnd (s : State) (fd : Fd) (i : Ino) (d : Bytes) : Prop where
  data : s.fs.data i = some d
  file : ∃ f, s.file fd = some f ∧ f.ino = i ∧ f.flags.write = true ∧ f.writePos d = d.length

/-- `s'` is `s` after `w` was appended through `fd` to the file `i` with content `d`. -/
structure Appended (s s' : State) (fd : Fd) (i : Ino) (d w : Bytes) : Prop where
  fs      : s'.fs = s.fs.setData i (d ++ w)
  atEnd   : WritesAtEnd s' fd i (d ++ w)
  others  : ∀ fd', fd' ≠ fd → s'.file fd' = s.file fd'
  stdout  : s'.proc.stdout = s.proc.stdout
  written : s'.proc.written = s.proc.written + w.length

theorem Appended.refl {s : State} {fd : Fd} {i : Ino} {d : Bytes} (h : WritesAtEnd s fd i d) :
    Appended s s fd i d [] := by
  refine ⟨?_, by simpa using h, fun _ _ => rfl, rfl, rfl⟩
  rw [List.append_nil, Fs.setData_same h.data]

theorem Appended.trans {s s' s'' : State} {fd : Fd} {i : Ino} {d w v : Bytes}
    (h : Appended s s' fd i d w) (h' : Appended s' s'' fd i (d ++ w) v) :
    Appended s s'' fd i d (w ++ v) := by
  refine ⟨?_, ?_, fun fd' hne => (h'.others fd' hne).trans (h.others fd' hne),
    h'.stdout.trans h.stdout, ?_⟩
  · rw [h'.fs, h.fs, Fs.setData_setData, List.append_assoc]
  · rw [← List.append_assoc]
    exact h'.atEnd
  · rw [h'.written, h.written, List.length_append, Nat.add_assoc]

/-- One `write` at the end of a file. -/
theorem Appended.write {s : State} {fd : Fd} {f : OpenFile} {d w : Bytes}
    (hd : s.fs.data f.ino = some d) (hf : s.file fd = some f) (hw : f.flags.write = true)
    (hpos : f.writePos d = d.length) :
    Appended s (s.afterWrite fd f d w) fd f.ino d w := by
  have hfile : (s.afterWrite fd f d w).file fd =
      some { f with pos := f.writePos d + w.length } := State.file_setFile_self (by simpa using hf) _
  have hfs : (s.afterWrite fd f d w).fs = s.fs.setData f.ino (d ++ w) := by
    simp [State.afterWrite, hpos, splice_end]
  refine ⟨hfs, ⟨?_, _, hfile, rfl, hw, ?_⟩, ?_, rfl, rfl⟩
  · rw [hfs]
    exact Fs.data_setData_self hd
  · simp only [OpenFile.writePos] at hpos ⊢
    split
    · rfl
    · next happ =>
      rw [if_neg happ] at hpos
      rw [hpos, List.length_append]
  · intro fd' hne
    exact State.file_setFile_ne hne _

/-- `completeWrite` appends all of `buf`, or a strict part of it when a `write`
fails or stores nothing. -/
theorem completeWrite_spec {s : State} {fd : Fd} {i : Ino} {d buf : Bytes}
    (h : WritesAtEnd s fd i d)
    (hI : ∀ s' n, n ≤ buf.length → Appended s s' fd i d (buf.take n) → I s') :
    Spec exec E I s (completeWrite fd buf) fun ok s' =>
      ∃ n ≤ buf.length, Appended s s' fd i d (buf.take n) ∧
        (ok = true → n = buf.length) ∧ (ok = false → n < buf.length ∧ ¬ Faultless E) := by
  -- the loop state is what is left to write
  refine Spec.loop (fun left s' => ∃ n ≤ buf.length, left = buf.drop n ∧
    Appended s s' fd i d (buf.take n)) ?_ ⟨0, Nat.zero_le _, rfl, by simpa using Appended.refl h⟩
  rintro left s' ⟨n, hn, rfl, happ⟩
  have hIs := hI s' n hn happ
  split
  · next hnil =>
    have hall : n = buf.length := by
      have := List.drop_eq_nil_iff.mp hnil
      omega
    exact Spec.ret hIs (Spec.ret hIs ⟨n, hn, happ, fun _ => hall, nofun⟩)
  · next hne =>
    have hlt : n < buf.length := by
      by_contra hge
      exact hne (List.drop_eq_nil_of_le (Nat.not_lt.mp hge))
    obtain ⟨hd, f, hf, rfl, hw, hpos⟩ := happ.atEnd
    refine Spec.write hIs hf hw hd (fun hev => ?_) ?_
    · exact Spec.ret hIs (Spec.ret hIs ⟨n, hn, happ, nofun,
        fun _ => ⟨hlt, fun hE => by cases hE _ hev⟩⟩)
    intro o m hm hfull _
    have hdrop : (buf.drop n).length = buf.length - n := List.length_drop
    have happ' := happ.trans (Appended.write (w := (buf.drop n).take m) hd hf hw hpos)
    rw [← List.take_add] at happ'
    have hI' := hI _ _ (by omega) happ'
    cases m with
    | zero =>
      refine Spec.ret hI' (Spec.ret hI' ⟨n, hn, happ', nofun, fun _ => ⟨hlt, ?_⟩⟩)
      intro hE
      have := hfull hE
      omega
    | succ m => exact Spec.ret hI' ⟨n + (m + 1), by omega, by simp, happ'⟩

-- ---------------------------------------------------------------------------
-- duplicate_content
-- ---------------------------------------------------------------------------

/-- `s'` is `s` after `r` bytes were read through `src`, opened as `fi` on a file
with content `D`, and the first `w` of them were appended through `dst` to the
file `i` with content `O`. -/
structure Copied (s s' : State) (src dst : Fd) (fi : OpenFile) (D : Bytes) (i : Ino) (O : Bytes)
    (r w : Nat) : Prop where
  fs      : s'.fs = s.fs.setData i (O ++ (D.drop fi.pos).take w)
  srcFile : s'.file src = some { fi with pos := fi.pos + r }
  atEnd   : WritesAtEnd s' dst i (O ++ (D.drop fi.pos).take w)
  others  : ∀ fd, fd ≠ src → fd ≠ dst → s'.file fd = s.file fd
  stdout  : s'.proc.stdout = s.proc.stdout
  written : s'.proc.written = s.proc.written + w

variable {s s' s'' : State} {src dst : Fd} {fi : OpenFile} {D O : Bytes} {i : Ino} {r w : Nat}

theorem Copied.refl (hsrc : s.file src = some fi) (hdst : WritesAtEnd s dst i O) :
    Copied s s src dst fi D i O 0 0 := by
  refine ⟨?_, hsrc, by simpa using hdst, fun _ _ _ => rfl, rfl, rfl⟩
  rw [List.take_zero, List.append_nil, Fs.setData_same hdst.data]

theorem Copied.read (h : Copied s s' src dst fi D i O r w) (hne : dst ≠ src) (buf : Bytes) :
    Copied s (s'.afterRead src { fi with pos := fi.pos + r } buf) src dst fi D i O
      (r + buf.length) w := by
  obtain ⟨hd, f, hf, hrest⟩ := h.atEnd
  refine ⟨h.fs, ?_, ⟨hd, f, (State.file_setFile_ne hne _).trans hf, hrest⟩, fun fd h₁ h₂ => ?_,
    h.stdout, h.written⟩
  · rw [State.afterRead, State.file_setFile_self h.srcFile, Nat.add_assoc]
  · exact (State.file_setFile_ne h₁ _).trans (h.others fd h₁ h₂)

theorem Copied.append {v : Bytes} (h : Copied s s' src dst fi D i O r w) (hne : src ≠ dst)
    (ha : Appended s' s'' dst i (O ++ (D.drop fi.pos).take w) v)
    (hv : (D.drop fi.pos).take (w + v.length) = (D.drop fi.pos).take w ++ v) :
    Copied s s'' src dst fi D i O r (w + v.length) := by
  refine ⟨?_, (ha.others src hne).trans h.srcFile, ?_,
    fun fd h₁ h₂ => (ha.others fd h₂).trans (h.others fd h₁ h₂), ha.stdout.trans h.stdout, ?_⟩
  · rw [ha.fs, h.fs, Fs.setData_setData, hv, List.append_assoc]
  · rw [hv, ← List.append_assoc]
    exact ha.atEnd
  · rw [ha.written, h.written, Nat.add_assoc]

/-- The source is only read. -/
theorem Copied.data_src (h : Copied s s' src dst fi D i O r w) (hne : fi.ino ≠ i)
    (hD : s.fs.data fi.ino = some D) : s'.fs.data fi.ino = some D := by
  rw [h.fs, Fs.data_setData_ne hne, hD]

theorem chunkSize_pos {n : Int} (h : ¬ n ≤ 0) : 0 < chunkSize n := by
  unfold chunkSize transferBufferSize
  split <;> omega

theorem chunkSize_le (n : Int) : chunkSize n ≤ n.toNat := by
  unfold chunkSize transferBufferSize
  split <;> omega

/-- `duplicateContent` between two different files: the destination gains what is
read, in order; on success that is exactly `total` bytes, on failure it is
fewer, and a world that does not interfere lets it fail only at the end of the
source. -/
theorem duplicateContent_spec {total : Int} (hsrc : s.file src = some fi)
    (hread : fi.flags.read = true) (hD : s.fs.data fi.ino = some D)
    (hdst : WritesAtEnd s dst i O) (hfd : src ≠ dst) (hino : fi.ino ≠ i)
    (hI : ∀ s' r w, w ≤ r → r ≤ total.toNat → r ≤ (D.drop fi.pos).length →
      Copied s s' src dst fi D i O r w → I s') :
    Spec exec E I s (duplicateContent src dst total) fun ok s' =>
      ∃ r w, w ≤ r ∧ r ≤ total.toNat ∧ r ≤ (D.drop fi.pos).length ∧
        Copied s s' src dst fi D i O r w ∧ (ok = true → w = total.toNat) ∧
        (ok = false → w < total.toNat ∧
          (Faultless E → (D.drop fi.pos).length < total.toNat)) := by
  -- at the head of the loop everything read has been written
  refine Spec.loop (fun rem s' => ∃ r : Nat, rem = total - r ∧ r ≤ total.toNat ∧
    r ≤ (D.drop fi.pos).length ∧ Copied s s' src dst fi D i O r r) ?_
    ⟨0, by simp, Nat.zero_le _, Nat.zero_le _, Copied.refl hsrc hdst⟩
  rintro rem s' ⟨r, rfl, hrT, hrS, hc⟩
  have hIs := hI s' r r le_rfl hrT hrS hc
  split
  · next hdone =>
    exact Spec.ret hIs (Spec.ret hIs ⟨r, r, le_rfl, hrT, hrS, hc, fun _ => by omega, nofun⟩)
  next hmore =>
  have hpos := chunkSize_pos hmore
  have hle := chunkSize_le (total - r)
  have hlt : r < total.toNat := by omega
  refine Spec.read hIs hc.srcFile hread (hc.data_src hino hD) (fun hev => ?_) ?_
  · exact Spec.ret hIs (Spec.ret hIs ⟨r, r, le_rfl, hrT, hrS, hc, nofun,
      fun _ => ⟨hlt, fun hE => by cases hE _ hev⟩⟩)
  intro n hn hfull
  -- what was read follows what was copied so far
  have hbuf : OpenFile.available { fi with pos := fi.pos + r } D n =
      ((D.drop fi.pos).drop r).take n := by
    rw [OpenFile.available, List.drop_drop]
  have hc₁ := hc.read (Ne.symm hfd) (OpenFile.available { fi with pos := fi.pos + r } D n)
  generalize OpenFile.available { fi with pos := fi.pos + r } D n = buf at hbuf hc₁ ⊢
  have hlen : buf.length = min n ((D.drop fi.pos).length - r) := by
    rw [hbuf, List.length_take, List.length_drop]
  have hv : ∀ m ≤ buf.length, (D.drop fi.pos).take (r + (buf.take m).length) =
      (D.drop fi.pos).take r ++ buf.take m := by
    intro m hm
    rw [List.length_take, min_eq_left hm, List.take_add, hbuf, List.take_take,
      min_eq_left (by omega)]
  cases buf with
  | nil =>
    refine Spec.ret (hI _ _ _ (by simp) (by simpa using hrT) (by simpa using hrS) hc₁) ?_
    refine Spec.ret (hI _ _ _ (by simp) (by simpa using hrT) (by simpa using hrS) hc₁)
      ⟨_, _, by simp, by simpa using hrT, by simpa using hrS, hc₁, nofun, fun _ => ⟨hlt, ?_⟩⟩
    intro hE
    have hchunk := hfull hE.readsFully
    simp only [List.length_nil] at hlen
    omega
  | cons b bs =>
    refine Spec.bind (p := completeWrite dst (b :: bs))
      (completeWrite_spec hc₁.atEnd fun s₂ m hm ha => ?_) ?_
    · exact hI s₂ _ _ (by rw [List.length_take]; omega) (by omega) (by omega)
        (hc₁.append hfd ha (hv m hm))
    · rintro ok s₂ ⟨m, hm, ha, hok, hbad⟩
      have hc₂ := hc₁.append hfd ha (hv m hm)
      have hI₂ := hI s₂ _ _ (by rw [List.length_take]; omega) (by omega) (by omega) hc₂
      cases ok with
      | false =>
        obtain ⟨hshort, hfault⟩ := hbad rfl
        refine Spec.ret hI₂ (Spec.ret hI₂ ⟨_, _, by rw [List.length_take]; omega, by omega,
          by omega, hc₂, nofun, fun _ => ⟨by rw [List.length_take]; omega,
            fun hE => absurd hE hfault⟩⟩)
      | true =>
        have hall := hok rfl
        rw [hall, List.take_length] at hc₂
        exact Spec.ret hI₂ ⟨_, by push_cast; omega, by omega, by omega, hc₂⟩

-- ---------------------------------------------------------------------------
-- skip_bytes
-- ---------------------------------------------------------------------------

/-- The state with the offset of `fd` moved to `pos`. -/
def seekState (s : State) (fd : Fd) (f : OpenFile) (pos : Nat) : State :=
  s.setFile fd (some { f with pos := pos })

theorem seekState_self {fd : Fd} {f : OpenFile} (h : s.file fd = some f) :
    seekState s fd f f.pos = s := State.setFile_same h

theorem seekState_file {fd : Fd} {f : OpenFile} (h : s.file fd = some f) (pos : Nat) :
    (seekState s fd f pos).file fd = some { f with pos := pos } := State.file_setFile_self h _

theorem seekState_seekState (fd : Fd) (f g : OpenFile) (pos pos' : Nat) :
    seekState (seekState s fd f pos) fd g pos' = seekState s fd g pos' := State.setFile_setFile _ _

theorem seekState_afterRead {fd : Fd} {f : OpenFile} (pos : Nat) (buf : Bytes) :
    (seekState s fd f pos).afterRead fd { f with pos := pos } buf =
      seekState s fd f (pos + buf.length) := State.setFile_setFile _ _

/-- `skipBytes` moves the offset and nothing else; on success by exactly `length`
(not at all for a negative `length`), and a world that does not interfere lets
it fail only where the file ends before the skipped bytes do. -/
theorem skipBytes_spec {fd : Fd} {f : OpenFile} {length : Int} (hf : s.file fd = some f)
    (hread : f.flags.read = true) (hD : s.fs.data f.ino = some D)
    (hI : ∀ pos, I (seekState s fd f pos)) :
    Spec exec E I s (skipBytes fd length) fun ok s' =>
      ∃ pos, s' = seekState s fd f pos ∧ (ok = true → pos = f.pos + length.toNat) ∧
        (ok = false → Faultless E → D.length < f.pos + length.toNat) := by
  have hs := seekState_self hf
  have hIs : I s := hs ▸ hI f.pos
  unfold skipBytes
  split
  · exact Spec.ret hIs ⟨f.pos, hs.symm, fun _ => by omega, nofun⟩
  next hpos =>
  refine Spec.lseek hIs hf ?_ ?_
  · intro o _ _
    -- the fallback reads the bytes it could not seek over
    refine Spec.loop (fun rem s' => ∃ r : Nat, rem = length - r ∧ r ≤ length.toNat ∧
      s' = seekState s fd f (f.pos + r)) ?_ ⟨0, by simp, Nat.zero_le _, hs.symm⟩
    rintro rem s' ⟨r, rfl, hr, rfl⟩
    have hIs' := hI (f.pos + r)
    split
    · exact Spec.ret hIs' (Spec.ret hIs' ⟨_, rfl, fun _ => by omega, nofun⟩)
    next hmore =>
    have hchunk := chunkSize_pos hmore
    have hle := chunkSize_le (length - r)
    refine Spec.read hIs' (seekState_file hf _) hread hD (fun hev => ?_) ?_
    · exact Spec.ret hIs' (Spec.ret hIs' ⟨_, rfl, nofun, fun _ hE => by cases hE _ hev⟩)
    intro n hn hfull
    have hlen : (OpenFile.available { f with pos := f.pos + r } D n).length =
        min n (D.length - (f.pos + r)) := by
      rw [OpenFile.available, List.length_take, List.length_drop]
    rw [seekState_afterRead]
    generalize OpenFile.available { f with pos := f.pos + r } D n = buf at hlen ⊢
    cases buf with
    | nil =>
      refine Spec.ret (hI _) (Spec.ret (hI _) ⟨_, rfl, nofun, fun _ hE => ?_⟩)
      have := hfull hE.readsFully
      simp only [List.length_nil] at hlen
      omega
    | cons b bs =>
      exact Spec.ret (hI _) ⟨r + (b :: bs).length, by push_cast; omega, by omega,
        by rw [Nat.add_assoc]⟩
  · intro _ _
    have hto : (f.seekTo length .cur).toNat = f.pos + length.toNat := by
      show ((f.pos : Int) + length).toNat = _
      omega
    rw [hto]
    exact Spec.ret (hI _) ⟨_, rfl, fun _ => rfl, nofun⟩

end Copy

end LabsOS.Archiver
