import LabsOS.Archiver.Record
import LabsOS.Program.Framing

/-!
# The archive format

An archive is a sequence of records, each a header followed by the `st_size`
bytes it announces; nothing separates them. `format` reads such a sequence from
any byte string, and what users see of it are its live records in order
(`items`): the records whose header carries no mark of deletion.

* `format`      — the framing; `WellFormed` archives are its complete strings.
* `FirstMatch.liveItems_erase` — a marked or missing first match is the abstract removal.
* `splice_mark` — a mark of deletion torn by an interrupted write.
-/

namespace LabsOS.Archiver

/-- A record of a well-formed archive: exactly the data its header announces. -/
structure Entry where
  header : ArchiveRecord
  data   : Bytes
  framed : header.stSize = data.length
  deriving DecidableEq

/-- What an archive stores of a file. -/
structure Item where
  path : CString
  stat : Stat
  data : Bytes
  deriving DecidableEq

/-- The test for the name of a file. -/
def Item.named (name : CString) (it : Item) : Bool := it.path = name

namespace Entry

def bytes (e : Entry) : Bytes := e.header.bytes ++ e.data

def Live (e : Entry) : Prop := e.header.markedDeleted = 0

instance (e : Entry) : Decidable e.Live := inferInstanceAs (Decidable (_ = _))

/-- The record is the one looked for under `name`. -/
def Matches (name : CString) (e : Entry) : Prop := e.header.path = name ∧ e.Live

instance (name : CString) (e : Entry) : Decidable (e.Matches name) :=
  inferInstanceAs (Decidable (_ ∧ _))

/-- The record with its mark of deletion set. -/
def marked (e : Entry) : Entry := ⟨e.header.mark, e.data, by rw [e.header.stSize_mark, e.framed]⟩

def item (e : Entry) : Item := ⟨e.header.path, e.header.fileStats, e.data⟩

theorem length_bytes (e : Entry) : e.bytes.length = recordSize + e.data.length := by
  rw [bytes, List.length_append, e.header.size_eq]

theorem toNat_stSize (e : Entry) : e.header.stSize.toNat = e.data.length := by
  rw [e.framed, Int.toNat_natCast]

theorem not_live_marked (e : Entry) : ¬ e.marked.Live := by
  simp [Live, marked, e.header.markedDeleted_mark]

end Entry

-- ---------------------------------------------------------------------------
-- Reading
-- ---------------------------------------------------------------------------

/-- The record at the head of a byte string. -/
def readEntry (b : Bytes) : Option (Entry × Bytes) :=
  match ArchiveRecord.ofBytes? (b.take recordSize) with
  | none => none
  | some h =>
    if hs : 0 ≤ h.stSize ∧ h.stSize.toNat ≤ (b.drop recordSize).length then
      some (⟨h, (b.drop recordSize).take h.stSize.toNat, by
          rw [List.length_take, min_eq_left hs.2, Int.toNat_of_nonneg hs.1]⟩,
        (b.drop recordSize).drop h.stSize.toNat)
    else none

theorem readEntry_bytes (e : Entry) (rest : Bytes) :
    readEntry (e.bytes ++ rest) = some (e, rest) := by
  have htake : (e.bytes ++ rest).take recordSize = e.header.bytes := by
    rw [Entry.bytes, List.append_assoc, e.header.take_bytes_append]
  have hdrop : (e.bytes ++ rest).drop recordSize = e.data ++ rest := by
    rw [Entry.bytes, List.append_assoc, e.header.drop_bytes_append]
  have hsize := e.toNat_stSize
  have hs : 0 ≤ e.header.stSize ∧
      e.header.stSize.toNat ≤ ((e.bytes ++ rest).drop recordSize).length := by
    rw [hdrop, hsize, e.framed, List.length_append]
    omega
  simp only [readEntry, htake, ArchiveRecord.ofBytes?_bytes, dif_pos hs]
  simp [hdrop, hsize]

theorem eq_of_readEntry {b : Bytes} {e : Entry} {rest : Bytes}
    (h : readEntry b = some (e, rest)) : b = e.bytes ++ rest := by
  unfold readEntry at h
  split at h
  · cases h
  · next r hr =>
    split at h
    · next hs =>
      obtain ⟨rfl, rfl⟩ := Prod.mk.inj (Option.some.inj h)
      rw [Entry.bytes, List.append_assoc, List.take_append_drop,
        ← ArchiveRecord.ofBytes?_eq_some.mp hr, List.take_append_drop]
    · cases h

/-- The framing of archive records. -/
def format : Framing Entry UInt8 where
  enc := Entry.bytes
  dec := readEntry
  dec_enc := readEntry_bytes
  enc_dec _ _ _ := eq_of_readEntry
  enc_ne_nil e h := e.header.bytes_ne_nil (List.append_eq_nil_iff.mp h).1

/-- The bytes of an archive with these records. -/
def encode (es : List Entry) : Bytes := format.encodeAll es

/-- The records at the head of a byte string, in order. -/
def records (b : Bytes) : List Entry := (format.decodeAll b).1

/-- A sequence of complete records. -/
def WellFormed (b : Bytes) : Prop := format.Complete b

@[simp] theorem encode_nil : encode [] = [] := rfl

@[simp] theorem encode_cons (e : Entry) (es : List Entry) :
    encode (e :: es) = e.bytes ++ encode es := format.encodeAll_cons e es

theorem encode_eq_header (e : Entry) (es : List Entry) :
    encode (e :: es) = e.header.bytes ++ (e.data ++ encode es) := by
  rw [encode_cons, Entry.bytes, List.append_assoc]

@[simp] theorem encode_append (es es' : List Entry) :
    encode (es ++ es') = encode es ++ encode es' := format.encodeAll_append es es'

@[simp] theorem records_encode (es : List Entry) : records (encode es) = es :=
  congrArg Prod.fst (format.decodeAll_encodeAll es)

theorem encode_injective {es es' : List Entry} (h : encode es = encode es') : es = es' :=
  format.encodeAll_injective h

theorem wellFormed_encode (es : List Entry) : WellFormed (encode es) := format.complete_encodeAll es

theorem wellFormed_iff {b : Bytes} : WellFormed b ↔ ∃ es, b = encode es := format.complete_iff

/-- A header that is cut short starts no record. -/
theorem readEntry_short {b : Bytes} (h : b.length < recordSize) : readEntry b = none := by
  have hshort : ArchiveRecord.ofBytes? (b.take recordSize) = none := by
    rw [ArchiveRecord.ofBytes?_eq_none, List.length_take]
    omega
  simp [readEntry, hshort]

/-- A header whose data is cut short starts no record. -/
theorem readEntry_cut {h : ArchiveRecord} {d : Bytes} (hd : (d.length : Int) < h.stSize) :
    readEntry (h.bytes ++ d) = none := by
  have hs : ¬ (0 ≤ h.stSize ∧ h.stSize.toNat ≤ ((h.bytes ++ d).drop recordSize).length) := by
    rw [h.drop_bytes_append]
    omega
  simp only [readEntry, h.take_bytes_append, ArchiveRecord.ofBytes?_bytes, dif_neg hs]

-- ---------------------------------------------------------------------------
-- Live records
-- ---------------------------------------------------------------------------

def liveItems (es : List Entry) : List Item := (es.filter (·.Live)).map Entry.item

/-- The live records of an archive, as its users see them. -/
def items (b : Bytes) : List Item := liveItems (records b)

@[simp] theorem items_encode (es : List Entry) : items (encode es) = liveItems es := by
  rw [items, records_encode]

theorem items_encode_append (es : List Entry) (b : Bytes) :
    items (encode es ++ b) = liveItems es ++ items b := by
  rw [items, records, encode, format.decodeAll_encodeAll_append, liveItems, List.filter_append,
    List.map_append]
  rfl

@[simp] theorem liveItems_nil : liveItems [] = [] := rfl

@[simp] theorem liveItems_append (es es' : List Entry) :
    liveItems (es ++ es') = liveItems es ++ liveItems es' := by simp [liveItems]

theorem liveItems_cons_live {e : Entry} (h : e.Live) (es : List Entry) :
    liveItems (e :: es) = e.item :: liveItems es := by simp [liveItems, h]

theorem liveItems_cons_dead {e : Entry} (h : ¬ e.Live) (es : List Entry) :
    liveItems (e :: es) = liveItems es := by simp [liveItems, h]

@[simp] theorem liveItems_filter (es : List Entry) :
    liveItems (es.filter (·.Live)) = liveItems es := by simp [liveItems]

/-- `m` is the first live record named `name`, between `pre` and `post`. -/
structure FirstMatch (name : CString) (es pre : List Entry) (m : Entry) (post : List Entry) :
    Prop where
  split   : es = pre ++ m :: post
  before  : ∀ e ∈ pre, ¬ e.Matches name
  found : m.Matches name

variable {name : CString} {pre post es : List Entry} {m : Entry}

theorem liveItems_marked : liveItems (pre ++ m.marked :: post) = liveItems (pre ++ post) := by
  simp [liveItems_cons_dead m.not_live_marked]

/-- Records that are not looked for are not found under that name. -/
theorem not_named_of_not_matches (h : ∀ e ∈ es, ¬ e.Matches name) :
    ∀ it ∈ liveItems es, it.named name = false := by
  intro it hit
  obtain ⟨e, he, rfl⟩ := List.mem_map.mp hit
  obtain ⟨hmem, hlive⟩ := List.mem_filter.mp he
  have hne : e.header.path ≠ name := fun hp => h e hmem ⟨hp, by simpa using hlive⟩
  exact decide_eq_false hne

theorem find?_liveItems_none (h : ∀ e ∈ es, ¬ e.Matches name) :
    (liveItems es).find? (Item.named name) = none := by
  rw [List.find?_eq_none]
  intro it hit
  simp [not_named_of_not_matches h it hit]

namespace FirstMatch

variable (h : FirstMatch name es pre m post)
include h

theorem ne_nil : es ≠ [] := by
  rw [h.split]
  simp

theorem named : m.item.named name = true := decide_eq_true h.found.1

theorem liveItems_eq : liveItems es = liveItems pre ++ m.item :: liveItems post := by
  rw [h.split, liveItems_append, liveItems_cons_live h.found.2]

/-- The first record that is looked for is the one found by name. -/
theorem find?_liveItems : (liveItems es).find? (Item.named name) = some m.item := by
  rw [h.liveItems_eq, List.find?_append, find?_liveItems_none h.before,
    List.find?_cons_of_pos h.named]
  rfl

/-- Without its first match, the archive lists what removing that name leaves. -/
theorem liveItems_erase : liveItems (pre ++ post) = (liveItems es).eraseP (Item.named name) := by
  have hnone : ∀ it ∈ liveItems pre, ¬ it.named name = true := fun it hit => by
    simp [not_named_of_not_matches h.before it hit]
  rw [h.liveItems_eq, List.eraseP_append_right _ hnone, List.eraseP_cons_of_pos h.named,
    liveItems_append]

end FirstMatch

/-- An item that is found by name is in the first record that is looked for. -/
theorem exists_firstMatch {it : Item} (h : (liveItems es).find? (Item.named name) = some it) :
    ∃ pre m post, FirstMatch name es pre m post ∧ m.item = it := by
  cases hm : es.find? (fun e => decide (e.Matches name)) with
  | none =>
    have hnone : ∀ e ∈ es, ¬ e.Matches name := by simpa using List.find?_eq_none.mp hm
    rw [find?_liveItems_none hnone] at h
    cases h
  | some m =>
    obtain ⟨hfound, pre, post, hsplit, hbefore⟩ := List.find?_eq_some_iff_append.mp hm
    have hfm : FirstMatch name es pre m post :=
      ⟨hsplit, by simpa using hbefore, by simpa using hfound⟩
    exact ⟨pre, m, post, hfm, Option.some.inj (hfm.find?_liveItems.symm.trans h)⟩

-- ---------------------------------------------------------------------------
-- The mark of deletion
-- ---------------------------------------------------------------------------

/-- The archive after `n` bytes of the marked header were written over its record:
it is unchanged or carries the whole mark. -/
theorem splice_mark (n : Nat) :
    splice (encode (pre ++ m :: post)) (encode pre).length (m.header.mark.bytes.take n) =
      if n ≤ markOffset then encode (pre ++ m :: post) else encode (pre ++ m.marked :: post) := by
  have hlen : (m.header.mark.bytes.take n).length ≤ m.header.bytes.length := by
    rw [List.length_take, m.header.mark.size_eq, m.header.size_eq]
    exact min_le_right ..
  have hdrop : m.header.bytes.drop (m.header.mark.bytes.take n).length = m.header.bytes.drop n := by
    rw [List.length_take, m.header.mark.size_eq, ← m.header.size_eq]
    rcases Nat.le_total n m.header.bytes.length with hn | hn
    · rw [min_eq_left hn]
    · rw [min_eq_right hn, List.drop_length, List.drop_eq_nil_of_le hn]
  have hsplit : ∀ e : Entry, encode (pre ++ e :: post) =
      encode pre ++ e.header.bytes ++ (e.data ++ encode post) := by
    intro e
    simp [Entry.bytes]
  rw [hsplit m, splice_middle _ _ _ _ hlen, hdrop, m.header.mark_torn]
  split
  · rfl
  · exact (hsplit m.marked).symm

end LabsOS.Archiver
