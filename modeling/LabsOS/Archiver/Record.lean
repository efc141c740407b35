import LabsOS.Kernel.State

/-!
# Archive records

`struct archive_record` of the archiver: a path of 1024 bytes, the
`struct stat` of the file and the mark of deletion, padded by the compiler to a
multiple of eight. A record is written and read as it lies in memory, so it is
modelled by its bytes; the fields are views of them.
-/

namespace LabsOS.Archiver

/-- `sizeof(record.path)`. -/
def pathSize : Nat := 1024

/-- `offsetof(struct archive_record, marked_deleted)`. -/
def markOffset : Nat := pathSize + statSize

/-- `sizeof(struct archive_record)`. -/
def recordSize : Nat := 1176

structure ArchiveRecord where
  bytes : Bytes
  size_eq : bytes.length = recordSize
  deriving DecidableEq, Repr

namespace ArchiveRecord

/-- `record.path` as the C string functions see it. -/
def path (r : ArchiveRecord) : CString := .ofBytes r.bytes

def fileStats (r : ArchiveRecord) : Stat where
  bytes := slice pathSize statSize r.bytes
  size_eq := by
    simp only [slice, List.length_take, List.length_drop, r.size_eq]
    decide

def stSize (r : ArchiveRecord) : Int := r.fileStats.stSize

def markedDeleted (r : ArchiveRecord) : UInt8 :=
  have : markOffset < r.bytes.length := by rw [r.size_eq]; decide
  r.bytes[markOffset]

/-- The record in a buffer that `read` has filled. -/
def ofBytes? (b : Bytes) : Option ArchiveRecord :=
  if h : b.length = recordSize then some ⟨b, h⟩ else none

/-- `record.marked_deleted = 1`. -/
def mark (r : ArchiveRecord) : ArchiveRecord where
  bytes := setSlice markOffset [1] r.bytes
  size_eq := by
    rw [length_setSlice (by rw [r.size_eq]; decide), r.size_eq]

/-- `memset(&new_record, 0, …)`, `strncpy` into the path, `fstat` into the stats. -/
def new (targetFile : CString) (stats : Stat) : ArchiveRecord where
  bytes :=
    let path := targetFile.bytes.take (pathSize - 1)
    path ++ List.replicate (pathSize - path.length) 0 ++ stats.bytes ++
      List.replicate (recordSize - markOffset) 0
  size_eq := by
    simp only [List.length_append, List.length_replicate, List.length_take, stats.size_eq]
    simp only [pathSize, markOffset, statSize, recordSize]
    omega

theorem ofBytes?_bytes (r : ArchiveRecord) : ofBytes? r.bytes = some r := by
  simp [ofBytes?, r.size_eq]

theorem ofBytes?_eq_some {b : Bytes} {r : ArchiveRecord} :
    ofBytes? b = some r ↔ b = r.bytes := by
  constructor
  · intro h
    unfold ofBytes? at h
    split at h
    · obtain rfl := Option.some.inj h
      rfl
    · cases h
  · rintro rfl
    exact ofBytes?_bytes r

theorem ofBytes?_eq_none {b : Bytes} : ofBytes? b = none ↔ b.length ≠ recordSize := by
  unfold ofBytes?
  split <;> simp [*]

theorem bytes_ne_nil (r : ArchiveRecord) : r.bytes ≠ [] := by
  intro h
  have := r.size_eq
  rw [h] at this
  exact absurd this (by decide)

theorem take_bytes_append (r : ArchiveRecord) (rest : Bytes) :
    (r.bytes ++ rest).take recordSize = r.bytes := by
  rw [← r.size_eq, List.take_left]

theorem drop_bytes_append (r : ArchiveRecord) (rest : Bytes) :
    (r.bytes ++ rest).drop recordSize = rest := by
  rw [← r.size_eq, List.drop_left]

-- ---------------------------------------------------------------------------
-- The fields of a new and of a marked record
-- ---------------------------------------------------------------------------

variable (r : ArchiveRecord)

/-- Marking changes one byte of the header. -/
theorem mark_bytes : r.mark.bytes =
    r.bytes.take markOffset ++ [1] ++ r.bytes.drop (markOffset + 1) := rfl

theorem markedDeleted_mark : r.mark.markedDeleted = 1 := by
  have hlen : (r.bytes.take markOffset).length = markOffset := by
    rw [List.length_take, r.size_eq]
    decide
  simp only [markedDeleted, mark_bytes]
  rw [List.getElem_append_left (by simp [hlen]), List.getElem_append_right (by omega)]
  simp [hlen]

theorem fileStats_mark : r.mark.fileStats = r.fileStats := by
  have hlen : (r.bytes.take markOffset).length = markOffset := by
    rw [List.length_take, r.size_eq]
    decide
  have hdrop : ((r.bytes.take markOffset).drop pathSize).length = statSize := by
    rw [List.length_drop, hlen]
    decide
  have hslice : slice pathSize statSize (r.bytes.take markOffset) =
      slice pathSize statSize r.bytes := by
    simp only [slice, List.drop_take, List.take_take, markOffset, Nat.add_sub_cancel_left,
      min_self]
  have hmark : slice pathSize statSize r.mark.bytes =
      slice pathSize statSize (r.bytes.take markOffset) := by
    rw [mark_bytes, List.append_assoc, slice, slice, List.drop_append_of_le_length (by
      rw [hlen]; decide), List.take_append_of_le_length hdrop.ge]
  simp only [fileStats, hmark, hslice]

theorem stSize_mark : r.mark.stSize = r.stSize := by
  rw [stSize, fileStats_mark, stSize]

/-- A mark of which only some bytes were written is no mark or a whole one. -/
theorem mark_torn (n : Nat) : r.mark.bytes.take n ++ r.bytes.drop n =
    if n ≤ markOffset then r.bytes else r.mark.bytes := by
  have hlen : (r.bytes.take markOffset).length = markOffset := by
    rw [List.length_take, r.size_eq]
    decide
  split
  · next hn =>
    rw [mark_bytes, List.append_assoc, List.take_append_of_le_length (by omega), List.take_take,
      min_eq_left hn, List.take_append_drop]
  · next hn =>
    have hhead : (r.bytes.take markOffset ++ [1]).length = markOffset + 1 := by
      rw [List.length_append, hlen]
      rfl
    obtain ⟨k, rfl⟩ : ∃ k, n = markOffset + 1 + k := ⟨n - (markOffset + 1), by omega⟩
    have hdrop : r.mark.bytes.drop (markOffset + 1 + k) = r.bytes.drop (markOffset + 1 + k) := by
      rw [mark_bytes, ← hhead, ← List.drop_drop, List.drop_left, hhead, List.drop_drop]
    rw [← hdrop, List.take_append_drop]

variable {targetFile : CString} (stats : Stat)

theorem fileStats_new : (new targetFile stats).fileStats = stats := by
  set path := targetFile.bytes.take (pathSize - 1) with hpath
  have hle : path.length ≤ pathSize := by
    rw [hpath, List.length_take]
    omega
  have hlen : (path ++ List.replicate (pathSize - path.length) 0).length = pathSize := by
    rw [List.length_append, List.length_replicate]
    omega
  have hbytes : (new targetFile stats).bytes =
      (path ++ List.replicate (pathSize - path.length) 0) ++
        (stats.bytes ++ List.replicate (recordSize - markOffset) 0) := by
    simp [new, hpath]
  have hslice : slice pathSize statSize (new targetFile stats).bytes = stats.bytes := by
    rw [hbytes, slice, List.drop_append_of_le_length hlen.ge, List.drop_eq_nil_of_le hlen.le,
      List.nil_append, ← stats.size_eq, List.take_left]
  simp only [fileStats, hslice]

theorem markedDeleted_new : (new targetFile stats).markedDeleted = 0 := by
  set path := targetFile.bytes.take (pathSize - 1) with hpath
  have hle : path.length ≤ pathSize := by
    rw [hpath, List.length_take]
    omega
  have hlen : (path ++ List.replicate (pathSize - path.length) 0 ++ stats.bytes).length =
      markOffset := by
    simp only [List.length_append, List.length_replicate, stats.size_eq, markOffset]
    omega
  have hbytes : (new targetFile stats).bytes =
      (path ++ List.replicate (pathSize - path.length) 0 ++ stats.bytes) ++
        List.replicate (recordSize - markOffset) 0 := by
    simp [new, hpath]
  simp only [markedDeleted, hbytes]
  rw [List.getElem_append_right (by omega)]
  simp

/-- A name shorter than the path field reads back from the header. -/
theorem path_new (h : targetFile.bytes.length < pathSize) :
    (new targetFile stats).path = targetFile := by
  have htake : targetFile.bytes.take (pathSize - 1) = targetFile.bytes :=
    List.take_of_length_le (by omega)
  obtain ⟨m, hm⟩ : ∃ m, pathSize - targetFile.bytes.length = m + 1 :=
    ⟨pathSize - targetFile.bytes.length - 1, by omega⟩
  have hbytes : (new targetFile stats).bytes =
      targetFile.bytes ++ 0 :: (List.replicate m 0 ++ stats.bytes ++
        List.replicate (recordSize - markOffset) 0) := by
    simp only [new, htake, hm, List.replicate_succ]
    simp
  rw [path, hbytes, CString.ofBytes_append_nul]

end ArchiveRecord

end LabsOS.Archiver
