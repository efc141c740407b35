import LabsOS.Archiver.Archive
import LabsOS.Archiver.Copy
import LabsOS.Archiver.Format

/-!
# Compaction

`compaction b` is what `compress_archive_file` keeps of an archive with content
`b`, for any `b`, and the bytes it never looks at: an end too short for a header.

* `compaction_encode`        — of a well-formed archive the live records are kept.
* `compressLoop_spec`        — the loop writes what it keeps to the temporary file.
* `compressArchiveFile_spec` — the archive is replaced by what is kept, or is unchanged;
  no other file is touched, at any point of a run.
-/

namespace LabsOS.Archiver

-- ---------------------------------------------------------------------------
-- What is kept
-- ---------------------------------------------------------------------------

/-- The header at the head of a byte string and what follows it. -/
def readHeader (b : Bytes) : Option (ArchiveRecord × Bytes) :=
  (ArchiveRecord.ofBytes? (b.take recordSize)).map fun r => (r, b.drop recordSize)

theorem readHeader_eq_some {b rest : Bytes} {r : ArchiveRecord} :
    readHeader b = some (r, rest) ↔ b = r.bytes ++ rest := by
  rw [readHeader, Option.map_eq_some_iff]
  constructor
  · rintro ⟨r', hr', heq⟩
    obtain ⟨rfl, rfl⟩ := Prod.mk.inj heq
    rw [← ArchiveRecord.ofBytes?_eq_some.mp hr', List.take_append_drop]
  · rintro rfl
    refine ⟨r, ?_, ?_⟩
    · rw [r.take_bytes_append, ArchiveRecord.ofBytes?_bytes]
    · rw [r.drop_bytes_append]

theorem readHeader_eq_none {b : Bytes} : readHeader b = none ↔ b.length < recordSize := by
  rw [readHeader, Option.map_eq_none_iff, ArchiveRecord.ofBytes?_eq_none, List.length_take]
  omega

theorem ofBytes?_readHeader_none {b : Bytes} (h : readHeader b = none) :
    ArchiveRecord.ofBytes? (b.take recordSize) = none := by
  rwa [readHeader, Option.map_eq_none_iff] at h

theorem take_readHeader {b rest : Bytes} {r : ArchiveRecord}
    (h : readHeader b = some (r, rest)) : b.take recordSize = r.bytes := by
  rw [readHeader_eq_some.mp h, r.take_bytes_append]

theorem drop_readHeader {b rest : Bytes} {r : ArchiveRecord}
    (h : readHeader b = some (r, rest)) : b.drop recordSize = rest := by
  rw [readHeader_eq_some.mp h, r.drop_bytes_append]

/-- What a compaction finds at the head of a byte string: no complete header, a
record to keep whose data is cut short, or a record and what follows it. -/
inductive Scan where
  | short
  | cut
  | live (record rest : Bytes)
  | dead (rest : Bytes)

def scan (b : Bytes) : Scan :=
  match readHeader b with
  | none => .short
  | some (r, rest) =>
    if r.markedDeleted = 0 then
      if r.stSize.toNat ≤ rest.length then
        .live (r.bytes ++ rest.take r.stSize.toNat) (rest.drop r.stSize.toNat)
      else .cut
    else .dead (rest.drop r.stSize.toNat)

section Scan

variable {b rest : Bytes} {r : ArchiveRecord}

theorem scan_short (h : readHeader b = none) : scan b = .short := by simp only [scan, h]

theorem scan_dead (h : readHeader b = some (r, rest)) (hdead : r.markedDeleted ≠ 0) :
    scan b = .dead (rest.drop r.stSize.toNat) := by
  simp only [scan, h, if_neg hdead]

theorem scan_live (h : readHeader b = some (r, rest)) (hlive : r.markedDeleted = 0)
    (hfit : r.stSize.toNat ≤ rest.length) :
    scan b = .live (r.bytes ++ rest.take r.stSize.toNat) (rest.drop r.stSize.toNat) := by
  simp only [scan, h, if_pos hlive, if_pos hfit]

theorem scan_cut (h : readHeader b = some (r, rest)) (hlive : r.markedDeleted = 0)
    (hcut : ¬ r.stSize.toNat ≤ rest.length) : scan b = .cut := by
  simp only [scan, h, if_pos hlive, if_neg hcut]

theorem length_drop_lt (n : Nat) (h : readHeader b = some (r, rest)) :
    (rest.drop n).length < b.length := by
  have hpos := List.length_pos_iff.mpr r.bytes_ne_nil
  rw [readHeader_eq_some.mp h, List.length_append, List.length_drop]
  omega

theorem length_lt_of_scan (h : scan b = .dead rest ∨ ∃ rec, scan b = .live rec rest) :
    rest.length < b.length := by
  cases hr : readHeader b with
  | none =>
    rw [scan_short hr] at h
    rcases h with h | ⟨_, h⟩ <;> cases h
  | some p =>
    obtain ⟨r, rest'⟩ := p
    have hlt := length_drop_lt r.stSize.toNat hr
    by_cases hlive : r.markedDeleted = 0
    · by_cases hfit : r.stSize.toNat ≤ rest'.length
      · rw [scan_live hr hlive hfit] at h
        rcases h with h | ⟨_, h⟩
        · exact Scan.noConfusion h
        · rwa [← (Scan.live.inj h).2]
      · rw [scan_cut hr hlive hfit] at h
        rcases h with h | ⟨_, h⟩ <;> cases h
    · rw [scan_dead hr hlive] at h
      rcases h with h | ⟨_, h⟩
      · rwa [← Scan.dead.inj h]
      · exact Scan.noConfusion h

end Scan

/-- Put what was kept so far before what is kept of the rest. -/
def keepBefore (kept : Bytes) : Option (Bytes × Bytes) → Option (Bytes × Bytes) :=
  Option.map fun p => (kept ++ p.1, p.2)

@[simp] theorem keepBefore_nil (o : Option (Bytes × Bytes)) : keepBefore [] o = o := by
  cases o <;> rfl

theorem keepBefore_append (kept kept' : Bytes) (o : Option (Bytes × Bytes)) :
    keepBefore kept (keepBefore kept' o) = keepBefore (kept ++ kept') o := by
  cases o <;> simp [keepBefore]

/-- What a compaction keeps of `b`, and the end it leaves unread. `none` when the
data of a record to keep is cut short. -/
def compaction (b : Bytes) : Option (Bytes × Bytes) :=
  match _h : scan b with
  | .short => some ([], b)
  | .cut => none
  | .live record rest => keepBefore record (compaction rest)
  | .dead rest => compaction rest
  termination_by b.length
  decreasing_by
    · exact length_lt_of_scan (.inr ⟨_, _h⟩)
    · exact length_lt_of_scan (.inl _h)

section Compaction

variable {b rest : Bytes} {r : ArchiveRecord}

theorem compaction_of_short (h : scan b = .short) : compaction b = some ([], b) := by
  rw [compaction]
  split <;> simp_all

theorem compaction_of_cut (h : scan b = .cut) : compaction b = none := by
  rw [compaction]
  split <;> simp_all

theorem compaction_of_live {record : Bytes} (h : scan b = .live record rest) :
    compaction b = keepBefore record (compaction rest) := by
  rw [compaction]
  split <;> simp_all

theorem compaction_of_dead (h : scan b = .dead rest) : compaction b = compaction rest := by
  rw [compaction]
  split <;> simp_all

theorem compaction_short (h : readHeader b = none) : compaction b = some ([], b) :=
  compaction_of_short (scan_short h)

theorem compaction_dead (h : readHeader b = some (r, rest)) (hdead : r.markedDeleted ≠ 0) :
    compaction b = compaction (rest.drop r.stSize.toNat) :=
  compaction_of_dead (scan_dead h hdead)

theorem compaction_live (h : readHeader b = some (r, rest)) (hlive : r.markedDeleted = 0)
    (hfit : r.stSize.toNat ≤ rest.length) :
    compaction b = keepBefore (r.bytes ++ rest.take r.stSize.toNat)
      (compaction (rest.drop r.stSize.toNat)) :=
  compaction_of_live (scan_live h hlive hfit)

theorem compaction_cut (h : readHeader b = some (r, rest)) (hlive : r.markedDeleted = 0)
    (hcut : ¬ r.stSize.toNat ≤ rest.length) : compaction b = none :=
  compaction_of_cut (scan_cut h hlive hcut)

/-- Of a well-formed archive, a compaction keeps the live records. -/
theorem compaction_encode (es : List Entry) :
    compaction (encode es) = some (encode (es.filter (·.Live)), []) := by
  induction es with
  | nil => exact compaction_short (readHeader_eq_none.mpr (by decide))
  | cons e es ih =>
    have hhead : readHeader (encode (e :: es)) = some (e.header, e.data ++ encode es) :=
      readHeader_eq_some.mpr (encode_eq_header e es)
    have hnext : (e.data ++ encode es).drop e.header.stSize.toNat = encode es := by
      rw [e.toNat_stSize, List.drop_left]
    by_cases hlive : e.Live
    · have hfit : e.header.stSize.toNat ≤ (e.data ++ encode es).length := by
        rw [e.toNat_stSize, List.length_append]
        omega
      rw [compaction_live hhead hlive hfit, hnext, ih, e.toNat_stSize, List.take_left,
        List.filter_cons_of_pos (by simpa using hlive), encode_cons]
      rfl
    · rw [compaction_dead hhead hlive, hnext, ih, List.filter_cons_of_neg (by simpa using hlive)]

end Compaction

-- ---------------------------------------------------------------------------
-- The loop
-- ---------------------------------------------------------------------------

section Compress

variable {E : SysEvent → Prop} {I : State → Prop}
variable {s s' s'' : State} {input temp : Fd} {fi : OpenFile} {t : Ino} {pos : Nat}
variable {B kept v : Bytes}

/-- `s'` is `s` inside the loop: the archive has been read up to `pos` and the
temporary file `t` holds `kept`. -/
structure Compacting (s s' : State) (input temp : Fd) (fi : OpenFile) (t : Ino) (pos : Nat)
    (kept : Bytes) : Prop where
  fs     : s'.fs = s.fs.setData t kept
  input  : s'.file input = some { fi with pos := pos }
  temp   : WritesAtEnd s' temp t kept
  stdout : s'.proc.stdout = s.proc.stdout

theorem Compacting.data (h : Compacting s s' input temp fi t pos kept) (hne : fi.ino ≠ t)
    (hB : s.fs.data fi.ino = some B) : s'.fs.data fi.ino = some B := by
  rw [h.fs, Fs.data_setData_ne hne, hB]

theorem Compacting.warned (h : Compacting s s' input temp fi t pos kept) (l : Line) :
    Compacting s (s'.warned l) input temp fi t pos kept :=
  ⟨h.fs, h.input, ⟨h.temp.data, h.temp.file⟩, h.stdout⟩

theorem Compacting.seek (h : Compacting s s' input temp fi t pos kept) (hne : temp ≠ input)
    (pos' : Nat) :
    Compacting s (seekState s' input { fi with pos := pos } pos') input temp fi t pos' kept := by
  obtain ⟨hd, f, hf, hrest⟩ := h.temp
  exact ⟨h.fs, seekState_file h.input pos', ⟨hd, f, (State.file_setFile_ne hne _).trans hf, hrest⟩,
    h.stdout⟩

theorem Compacting.read (h : Compacting s s' input temp fi t pos kept) (hne : temp ≠ input)
    (buf : Bytes) :
    Compacting s (s'.afterRead input { fi with pos := pos } buf) input temp fi t
      (pos + buf.length) kept := by
  obtain ⟨hd, f, hf, hrest⟩ := h.temp
  exact ⟨h.fs, State.file_setFile_self h.input _,
    ⟨hd, f, (State.file_setFile_ne hne _).trans hf, hrest⟩, h.stdout⟩

theorem Compacting.append (h : Compacting s s' input temp fi t pos kept) (hne : input ≠ temp)
    (ha : Appended s' s'' temp t kept v) :
    Compacting s s'' input temp fi t pos (kept ++ v) :=
  ⟨by rw [ha.fs, h.fs, Fs.setData_setData], (ha.others input hne).trans h.input, ha.atEnd,
    ha.stdout.trans h.stdout⟩

theorem Compacting.copied {r w : Nat} (h : Compacting s s' input temp fi t pos kept)
    (hc : Copied s' s'' input temp { fi with pos := pos } B t kept r w) :
    Compacting s s'' input temp fi t (pos + r) (kept ++ (B.drop pos).take w) :=
  ⟨by rw [hc.fs, h.fs, Fs.setData_setData], hc.srcFile, hc.atEnd, hc.stdout.trans h.stdout⟩

/-- Between two rounds, at an offset from `start` on: what has been kept and what
`compaction` keeps of the unread rest is what it keeps of the whole. -/
def BetweenRounds (s : State) (input temp : Fd) (fi : OpenFile) (t : Ino) (B : Bytes)
    (start : Nat) (s' : State) : Prop :=
  ∃ pos kept, start ≤ pos ∧ Compacting s s' input temp fi t pos kept ∧
    compaction B = keepBefore kept (compaction (B.drop pos))

/-- After the loop. A world that does not interfere lets it get to an end of the
archive that is left unread. -/
def LoopDone (E : SysEvent → Prop) (s : State) (input temp : Fd) (fi : OpenFile) (t : Ino)
    (B : Bytes) (exit : CompressExit) (s' : State) : Prop :=
  ∃ pos kept, Compacting s s' input temp fi t pos kept ∧
    (exit = .headerNotRead false → ∃ tail, compaction B = some (kept, tail)) ∧
    (Faultless E → ∀ out tail, compaction B = some (out, tail) → tail ≠ [] →
      exit = .headerNotRead false)

variable {r : ArchiveRecord} {rest : Bytes}

theorem rest_of_readHeader (hr : readHeader (B.drop pos) = some (r, rest)) :
    rest = B.drop (pos + r.bytes.length) := by
  rw [← drop_readHeader hr, List.drop_drop, r.size_eq]

/-- What is kept of a record whose header is followed by `rest`. -/
def keptOf (r : ArchiveRecord) (rest : Bytes) : Bytes :=
  if r.markedDeleted = 0 then r.bytes ++ rest.take r.stSize.toNat else []

/-- A live record is copied with its data, a marked one is skipped with it. A world that
does not interfere lets that fail only where the archive ends before the data does. -/
theorem compressRecord_spec (hc : Compacting s s' input temp fi t pos kept)
    (hread : fi.flags.read = true) (hB : s.fs.data fi.ino = some B)
    (hfd : input ≠ temp) (hino : fi.ino ≠ t)
    (hI : ∀ s' pos kept, Compacting s s' input temp fi t pos kept → I s') :
    Spec exec E I s' (compressRecord input temp r)
      (Sum.elim
        (fun _ s'' => Compacting s s'' input temp fi t (pos + r.stSize.toNat)
            (kept ++ keptOf r (B.drop pos)) ∧
          (r.markedDeleted = 0 → r.stSize.toNat ≤ (B.drop pos).length))
        fun exit s'' => exit = .errorCleanup ∧
          (∃ pos kept, Compacting s s'' input temp fi t pos kept) ∧
          (Faultless E → B.length < pos + r.stSize.toNat)) := by
  rw [compressRecord, keptOf]
  split
  · next hlive =>
    refine Spec.bind (completeWrite_spec hc.temp fun s₁ n hn ha => hI _ _ _ (hc.append hfd ha)) ?_
    rintro ok s₁ ⟨n, hn, ha, hok, hbad⟩
    have hc₁ := hc.append hfd ha
    cases ok with
    | false =>
      exact Spec.fprintfErr (hI _ _ _ hc₁) (Spec.ret (hI _ _ _ (hc₁.warned _))
        ⟨rfl, ⟨_, _, hc₁.warned _⟩, fun hE => absurd hE (hbad rfl).2⟩)
    | true =>
      rw [hok rfl, List.take_length] at hc₁
      refine Spec.bind (duplicateContent_spec hc₁.input hread (hc₁.data hino hB) hc₁.temp hfd hino
        fun s₂ k w _ _ _ hcp => hI _ _ _ (hc₁.copied hcp)) ?_
      rintro ok s₂ ⟨k, w, hwk, hkt, hkl, hcp, hok, hbad⟩
      have hc₂ := hc₁.copied hcp
      cases ok with
      | false =>
        refine Spec.fprintfErr (hI _ _ _ hc₂) (Spec.ret (hI _ _ _ (hc₂.warned _))
          ⟨rfl, ⟨_, _, hc₂.warned _⟩, fun hE => ?_⟩)
        have hcut : (B.drop pos).length < r.stSize.toNat := (hbad rfl).2 hE
        rw [List.length_drop] at hcut
        omega
      | true =>
        have hw := hok rfl
        obtain rfl : k = w := by omega
        have hkept : k ≤ (B.drop pos).length := hkl
        refine Spec.ret (hI _ _ _ hc₂) ⟨?_, fun _ => hw ▸ hkept⟩
        rw [← hw, ← List.append_assoc]
        exact hc₂
  · next hdead =>
    refine Spec.bind (skipBytes_spec (f := { fi with pos := pos }) hc.input hread
      (hc.data hino hB) fun pos' => hI _ _ _ (hc.seek hfd.symm pos')) ?_
    rintro ok s₁ ⟨pos', rfl, hok, hbad⟩
    have hc₁ := hc.seek hfd.symm pos'
    cases ok with
    | false =>
      exact Spec.fprintfErr (hI _ _ _ hc₁) (Spec.ret (hI _ _ _ (hc₁.warned _))
        ⟨rfl, ⟨_, _, hc₁.warned _⟩, hbad rfl⟩)
    | true =>
      have hpos' : pos' = pos + r.stSize.toNat := hok rfl
      rw [List.append_nil, ← hpos']
      exact Spec.ret (hI _ _ _ hc₁) ⟨hc₁, fun hlive => absurd hlive hdead⟩

/-- What is kept of a record and of the rest is kept of both. -/
theorem compaction_record (hr : readHeader (B.drop pos) = some (r, rest))
    (hfit : r.markedDeleted = 0 → r.stSize.toNat ≤ rest.length) :
    compaction (B.drop pos) =
      keepBefore (keptOf r rest) (compaction (rest.drop r.stSize.toNat)) := by
  rw [keptOf]
  split
  · next hlive => exact compaction_live hr hlive (hfit hlive)
  · next hdead => rw [compaction_dead hr hdead, keepBefore_nil]

/-- One record in terms of `compaction`. -/
theorem compressRecord_between (hr : readHeader (B.drop pos) = some (r, rest))
    (hc : Compacting s s' input temp fi t (pos + r.bytes.length) kept)
    (heq : compaction B = keepBefore kept (compaction (B.drop pos)))
    (hread : fi.flags.read = true) (hB : s.fs.data fi.ino = some B)
    (hfd : input ≠ temp) (hino : fi.ino ≠ t)
    (hI : ∀ s' pos kept, Compacting s s' input temp fi t pos kept → I s') :
    Spec exec E I s' (compressRecord input temp r)
      (Sum.elim (fun _ => BetweenRounds s input temp fi t B (pos + r.bytes.length))
        (LoopDone E s input temp fi t B)) := by
  have hrest := rest_of_readHeader hr
  refine (compressRecord_spec hc hread hB hfd hino hI).mono ?_
  rintro (_ | exit) s₁ h
  · obtain ⟨hc₁, hfit⟩ := h
    rw [← hrest] at hc₁ hfit
    refine ⟨_, _, Nat.le_add_right .., hc₁, ?_⟩
    rw [heq, compaction_record hr hfit, keepBefore_append, hrest, List.drop_drop]
  · obtain ⟨rfl, ⟨pos', kept', hc'⟩, hbad⟩ := h
    refine ⟨pos', kept', hc', nofun, fun hE out tail hout htail => ?_⟩
    have hcut := hbad hE
    rw [heq] at hout
    by_cases hlive : r.markedDeleted = 0
    · -- the data of the record is cut short
      have hshort : ¬ r.stSize.toNat ≤ rest.length := by
        rw [hrest, List.length_drop]
        have hhead := congrArg List.length (readHeader_eq_some.mp hr)
        rw [List.length_drop, List.length_append] at hhead
        have hpos := List.length_pos_iff.mpr r.bytes_ne_nil
        omega
      rw [compaction_cut hr hlive hshort] at hout
      cases hout
    · -- what is skipped ends behind the end of the archive: nothing is left unread
      rw [compaction_dead hr hlive, hrest, List.drop_drop, List.drop_eq_nil_of_le (by omega),
        compaction_short (readHeader_eq_none.mpr (by decide))] at hout
      exact absurd (Prod.mk.inj (Option.some.inj hout)).2.symm htail

/-- One round, whatever is read: the offset moves over a header at least, or the
loop is left. -/
theorem compressRound_spec (hc : Compacting s s' input temp fi t pos kept)
    (heq : compaction B = keepBefore kept (compaction (B.drop pos)))
    (hread : fi.flags.read = true) (hB : s.fs.data fi.ino = some B)
    (hfd : input ≠ temp) (hino : fi.ino ≠ t)
    (hI : ∀ s' pos kept, Compacting s s' input temp fi t pos kept → I s') :
    Spec exec E I s' (compressRound input temp ())
      (Sum.elim
        (fun _ s'' => pos + recordSize ≤ B.length ∧
          BetweenRounds s input temp fi t B (pos + recordSize) s'')
        fun exit s'' => I s'' ∧ (ReadsFully E → LoopDone E s input temp fi t B exit s'')) := by
  have hIs := hI s' pos kept hc
  refine Spec.read hIs hc.input hread (hc.data hino hB) (fun hev => ?_) ?_
  · exact Spec.ret hIs ⟨hIs, fun _ => ⟨pos, kept, hc, nofun, fun hE => by cases hE _ hev⟩⟩
  intro n hn hfull
  have hbuf : OpenFile.available { fi with pos := pos } B n = (B.drop pos).take n := rfl
  simp only [Prog.ret_bind, hbuf]
  have hc₁ := hc.read hfd.symm ((B.drop pos).take n)
  have hI₁ := hI _ _ _ hc₁
  by_cases hshort : n < recordSize
  · -- a short read ends the loop
    have hnone : ArchiveRecord.ofBytes? ((B.drop pos).take n) = none := by
      rw [ArchiveRecord.ofBytes?_eq_none, List.length_take]
      omega
    rw [hnone]
    exact Spec.ret hI₁ ⟨hI₁, fun hE => absurd (hfull hE) hshort.ne⟩
  obtain rfl : n = recordSize := by omega
  cases hr : readHeader (B.drop pos) with
  | none =>
    rw [ofBytes?_readHeader_none hr]
    rw [compaction_short hr] at heq
    refine Spec.ret hI₁
      ⟨hI₁, fun _ => ⟨_, kept, hc₁, fun _ => ⟨B.drop pos, ?_⟩, fun _ _ _ _ _ => rfl⟩⟩
    simpa [keepBefore] using heq
  | some p =>
    obtain ⟨r, rest⟩ := p
    rw [take_readHeader hr] at hc₁ ⊢
    rw [ArchiveRecord.ofBytes?_bytes]
    refine (compressRecord_between hr hc₁ heq hread hB hfd hino hI).withInv.mono
      fun res s₁ hres => ?_
    cases res with
    | inl _ =>
      have hlen := congrArg List.length (readHeader_eq_some.mp hr)
      rw [List.length_drop, List.length_append, r.size_eq] at hlen
      have hpos : 0 < recordSize := by decide
      exact ⟨by omega, r.size_eq ▸ hres.2⟩
    | inr exit => exact ⟨hres.1, fun _ => hres.2⟩

theorem betweenRounds_start (hin : s.file input = some fi) (hpos : fi.pos = 0)
    (htemp : WritesAtEnd s temp t []) : BetweenRounds s input temp fi t B 0 s := by
  refine ⟨0, [], le_rfl, ⟨?_, ?_, htemp, rfl⟩, by simp⟩
  · rw [Fs.setData_same htemp.data]
  · rw [hin, ← hpos]

/-- **The loop of a compaction** writes what `compaction` keeps. -/
theorem compressLoop_spec (hin : s.file input = some fi) (hread : fi.flags.read = true)
    (hpos : fi.pos = 0) (hB : s.fs.data fi.ino = some B) (htemp : WritesAtEnd s temp t [])
    (hfd : input ≠ temp) (hino : fi.ino ≠ t) (hE : ReadsFully E)
    (hI : ∀ s' pos kept, Compacting s s' input temp fi t pos kept → I s') :
    Spec exec E I s (Prog.while_ (compressRound input temp) ())
      (LoopDone E s input temp fi t B) := by
  refine Spec.loop (fun _ => BetweenRounds s input temp fi t B 0) ?_
    (betweenRounds_start hin hpos htemp)
  rintro _ s' ⟨pos, kept, -, hc, heq⟩
  apply (compressRound_spec hc heq hread hB hfd hino hI).mono
  intro res s₁ hres
  cases res with
  | inl _ =>
    obtain ⟨-, pos', kept', -, hrest⟩ := hres
    exact ⟨pos', kept', Nat.zero_le _, hrest⟩
  | inr exit => exact Spec.ret hres.1 (hres.2 hE)

-- ---------------------------------------------------------------------------
-- Replacing the archive
-- ---------------------------------------------------------------------------

variable {arc : CString} {a : Ino}

/-- A compaction that is given up removes its temporary file and nothing else. -/
theorem compressCleanup_spec {tmp : CString} (ha : s.fs.inodeOf arc = some a)
    (hB : s.fs.data a = some B) (h : s.fs.Created s'.fs (s.fs.slotOf tmp) t kept)
    (hout : s'.proc.stdout = s.proc.stdout) (hI : ∀ s'', Keeps s s'' arc B → I s'') :
    Spec exec E I s' (compressCleanup input temp tmp) fun ok s'' =>
      ok = false ∧ Keeps s s'' arc B := by
  have hkeep := Keeps.created ha hB h hout
  have hgone := Keeps.unlinked ha hB h hout
  rw [← h.slotOf] at hgone
  have hclosed : Keeps s ((s'.setFile input none).setFile temp none) arc B := hkeep.congr rfl rfl
  refine Spec.close (hI _ hkeep) fun _ => Spec.close (hI _ (hkeep.congr rfl rfl)) ?_
  intro _
  refine Spec.unlink (hI _ hclosed) (fun _ => Spec.ret (hI _ hclosed) ⟨rfl, hclosed⟩) ?_
  exact Spec.ret (hI _ (hgone.congr rfl rfl)) ⟨rfl, hgone.congr rfl rfl⟩

/-- The end of a compaction: the archive is replaced by the temporary file or stays. -/
theorem compressFinish_spec {exit : CompressExit} {tmp : CString}
    (ha : s.fs.inodeOf arc = some a) (hB : s.fs.data a = some B)
    (h : s.fs.Created s'.fs (s.fs.slotOf tmp) t kept) (hout : s'.proc.stdout = s.proc.stdout)
    (hI : ∀ s'', Keeps s s'' arc B → I s'')
    (hI' : exit = .headerNotRead false → ∀ s'', Keeps s s'' arc kept → I s'') :
    Spec exec E I s' (compressFinish arc input temp tmp exit) fun ok s'' =>
      (ok = true → exit = .headerNotRead false ∧ Keeps s s'' arc kept) ∧
      (ok = false → Keeps s s'' arc B) ∧
      (Faultless E → exit = .headerNotRead false → ok = true) := by
  have hkeep := Keeps.created ha hB h hout
  cases exit with
  | errorCleanup =>
    apply (compressCleanup_spec ha hB h hout hI).mono
    intro ok s'' hok
    obtain ⟨rfl, hs''⟩ := hok
    exact ⟨nofun, fun _ => hs'', fun _ => nofun⟩
  | headerNotRead readFailed =>
    cases readFailed with
    | true =>
      refine Spec.fprintfErr (hI _ hkeep) ?_
      refine Spec.mono (compressCleanup_spec ha hB h hout hI) ?_
      intro ok s'' hok
      obtain ⟨rfl, hs''⟩ := hok
      exact ⟨nofun, fun _ => hs'', fun _ => nofun⟩
    | false =>
      refine Spec.fsync (hI _ hkeep) fun _ => Spec.close (hI _ hkeep) fun _ =>
        Spec.close (hI _ (hkeep.congr rfl rfl)) fun _ => ?_
      have hclosed : Keeps s ((s'.setFile temp none).setFile input none) arc B :=
        hkeep.congr rfl rfl
      have hslot : s'.fs.slotOf tmp = s.fs.slotOf tmp := by rw [h.slotOf]
      refine Spec.rename (hI _ hclosed) (t := t) ?_ h.data_self
        (Fs.holdsDirectory_slotOf (h.inodeOf ha) (h.data a B hB)) ?_ (fun hev => ?_) ?_
      · exact (congrArg s'.fs.dir hslot).trans h.dir_self
      · show ¬ State.sameEntry s'.fs (s'.fs.slotOf tmp) (s'.fs.slotOf arc)
        rw [hslot]
        exact (h.not_sameEntry ha (h.ne hB)).2
      · -- the rename failed
        have hgone := Keeps.unlinked ha hB h hout
        rw [← hslot] at hgone
        refine Spec.fprintfErr (hI _ hclosed) (Spec.unlink (hI _ (hclosed.congr rfl rfl))
          (fun _ => Spec.ret (hI _ (hclosed.congr rfl rfl)) ⟨nofun, fun _ => hclosed.congr rfl rfl,
            fun hE => by cases hE _ hev⟩) ?_)
        exact Spec.ret (hI _ (hgone.congr rfl rfl)) ⟨nofun, fun _ => hgone.congr rfl rfl,
          fun hE => by cases hE _ hev⟩
      · have hnew := Keeps.renamed ha hB h hout
        rw [← hslot] at hnew
        exact Spec.ret (hI' rfl _ (hnew.congr rfl rfl)) ⟨fun _ => ⟨rfl, hnew.congr rfl rfl⟩, nofun,
          fun _ _ => rfl⟩

/-- What a compaction of an archive with content `B` may come to. -/
structure CompressDone (s : State) (arc : CString) (B : Bytes) (ok : Bool) (s' : State) :
    Prop where
  replaced : ok = true → ∃ kept tail, compaction B = some (kept, tail) ∧ Keeps s s' arc kept
  failed   : ok = false → Keeps s s' arc B

/-- The loop and what follows it. -/
theorem compressReplace_spec {tmp : CString} (ha : s.fs.inodeOf arc = some a)
    (hB : s.fs.data a = some B) (h : s.fs.Created s'.fs (s.fs.slotOf tmp) t [])
    (hout : s'.proc.stdout = s.proc.stdout)
    (hin : s'.file input = some ⟨a, 0, { read := true }⟩) (htemp : WritesAtEnd s' temp t [])
    (hfd : input ≠ temp) (hE : ReadsFully E) (hI : ∀ s', Keeps s s' arc B → I s')
    (hI' : ∀ s' kept tail, compaction B = some (kept, tail) → Keeps s s' arc kept → I s') :
    Spec exec E I s' ((Prog.while_ (compressRound input temp) ()).bind
        (compressFinish arc input temp tmp)) fun ok s'' =>
      CompressDone s arc B ok s'' ∧ (Faultless E → ∀ out tail, compaction B = some (out, tail) →
        tail ≠ [] → ok = true) := by
  have hcreated : ∀ {s'' : State} {pos : Nat} {kept : Bytes},
      Compacting s' s'' input temp ⟨a, 0, { read := true }⟩ t pos kept →
      s.fs.Created s''.fs (s.fs.slotOf tmp) t kept := by
    intro s'' pos kept hc
    rw [hc.fs]
    exact h.setData kept
  refine Spec.bind (compressLoop_spec hin rfl rfl (h.data a B hB) htemp hfd (h.ne hB) hE
    fun s'' pos kept hc => hI _ (Keeps.created ha hB (hcreated hc) (hc.stdout.trans hout))) ?_
  rintro exit s₁ ⟨pos, kept, hc, hend, hreach⟩
  refine (compressFinish_spec ha hB (hcreated hc) (hc.stdout.trans hout) hI ?_).mono ?_
  · intro hexit s₂ hs₂
    obtain ⟨tail, htail⟩ := hend hexit
    exact hI' s₂ kept tail htail hs₂
  · rintro ok s₂ ⟨hok, hbad, hsucc⟩
    refine ⟨⟨fun hokt => ?_, hbad⟩, fun hE out tail hcomp htail =>
      hsucc hE (hreach hE out tail hcomp htail)⟩
    obtain ⟨hexit, hs₂⟩ := hok hokt
    obtain ⟨tail, htail⟩ := hend hexit
    exact ⟨kept, tail, htail, hs₂⟩

/-- A compaction whose end does as `Q` says, once both files are open, does as `Q` says
if `Q` allows that it is given up before. -/
theorem compressArchiveFile_of_replace {Q : Bool → State → Prop} (ha : s.fs.inodeOf arc = some a)
    (hB : s.fs.data a = some B) (hI : ∀ s', Keeps s s' arc B → I s')
    (hearly : ∀ s', Keeps s s' arc B → ¬ AllSucceed E →
      ¬ (Faultless E ∧ s.fs.TempFree "archiver_temp_XXXXXX") → Q false s')
    (hreplace : ∀ s' input temp tmp t, s.fs.Created s'.fs (s.fs.slotOf tmp) t [] →
      s'.proc.stdout = s.proc.stdout → s'.file input = some ⟨a, 0, { read := true }⟩ →
      WritesAtEnd s' temp t [] → input ≠ temp →
      Spec exec E I s' ((Prog.while_ (compressRound input temp) ()).bind
        (compressFinish arc input temp tmp)) Q) :
    Spec exec E I s (compressArchiveFile arc) Q := by
  have hkeep := Keeps.refl ha hB
  refine Spec.open_regular (hI _ hkeep) ha hB (fun hev => ?_) ?_
  · exact Spec.fprintfErr (hI _ hkeep) (Spec.ret (hI _ (hkeep.congr rfl rfl))
      (hearly _ (hkeep.congr rfl rfl) (fun hE => nomatch (hE _ hev).2)
        fun ⟨hE, _⟩ => nomatch hE _ hev))
  change Spec exec E I (s.addFile ⟨a, 0, { read := true }⟩) _ _
  set s₁ := s.addFile ⟨a, 0, { read := true }⟩
  have hin₁ : s₁.file s.proc.fds.length = some ⟨a, 0, { read := true }⟩ := State.file_addFile_self
  refine Spec.mkstemp (hI _ (hkeep.congr rfl rfl)) (fun o hev ho => ?_) fun fs' tmp t hnew => ?_
  · refine Spec.fprintfErr (hI _ (hkeep.congr rfl rfl)) (Spec.close (hI _ (hkeep.congr rfl rfl))
      fun _ => Spec.ret (hI _ (hkeep.congr rfl rfl)) (hearly _ (hkeep.congr rfl rfl)
        (fun hE => nomatch (hE _ hev).2) fun ⟨hE, hfree⟩ => ?_))
    rcases ho with rfl | hused
    · cases hE _ hev
    · exact absurd hfree hused
  set s₂ := (s₁.withFs fs').addFile ⟨t, 0, { read := true, write := true }⟩
  have hnew₂ : s.fs.Created s₂.fs (s.fs.slotOf tmp) t [] := hnew
  have hin₂ : s₂.file s.proc.fds.length = some ⟨a, 0, { read := true }⟩ :=
    State.file_addFile (s := s₁.withFs fs') hin₁
  have htemp₂ : WritesAtEnd s₂ s₁.proc.fds.length t [] :=
    ⟨hnew.data_self, _, State.file_addFile_self (s := s₁.withFs fs'), rfl, rfl, rfl⟩
  have hfd := State.fd_ne_new hin₁
  refine Spec.fstat (hI _ (Keeps.created ha hB hnew₂ rfl)) ?_ ?_
  · intro _ _ _
    exact hreplace _ _ _ _ _ hnew₂ rfl hin₂ htemp₂ hfd
  · intro _ nd _ _
    apply Spec.fchmod (hI _ (Keeps.created ha hB hnew₂ rfl))
    intro fs'' _ hsame
    have htemp₃ : WritesAtEnd (s₂.withFs fs'') s₁.proc.fds.length t [] :=
      ⟨(hsame.data t).trans htemp₂.data, htemp₂.file⟩
    exact hreplace _ _ _ _ _ (hnew₂.sameFiles hsame) rfl hin₂ htemp₃ hfd

/-- **Compaction.** Where no read is short, a run of `compress_archive_file` on
an archive with content `B` leaves it as it was or replaces it by what
`compaction` keeps of it, the latter exactly when it reports success, and at
every point of the run the archive is one of the two. -/
theorem compressArchiveFile_spec (ha : s.fs.inodeOf arc = some a) (hB : s.fs.data a = some B)
    (hE : ReadsFully E) (hI : ∀ s', Keeps s s' arc B → I s')
    (hI' : ∀ s' kept tail, compaction B = some (kept, tail) → Keeps s s' arc kept → I s') :
    Spec exec E I s (compressArchiveFile arc) fun ok s' =>
      CompressDone s arc B ok s' ∧ (Faultless E → s.fs.TempFree "archiver_temp_XXXXXX" →
        ∀ out tail, compaction B = some (out, tail) → tail ≠ [] → ok = true) := by
  refine compressArchiveFile_of_replace ha hB hI ?_ ?_
  · intro s' h _ hgiven
    exact ⟨⟨nofun, fun _ => h⟩, fun hE hfree => absurd ⟨hE, hfree⟩ hgiven⟩
  · intro s' input temp tmp t hnew hout hin htemp hfd
    refine (compressReplace_spec ha hB hnew hout hin htemp hfd hE hI hI').mono ?_
    rintro ok s₃ ⟨hdone, hreach⟩
    exact ⟨hdone, fun hE _ => hreach hE⟩

end Compress

end LabsOS.Archiver
