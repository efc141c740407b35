import LabsOS.Archiver.Reported
import LabsOS.Program.Observed

/-!
# Listing and extraction agree

The loops of `display_archive_contents` and `extract_and_remove_file` are written apart, with
conditions and error paths of their own. On every content on which a listing ends, well-formed
or not, they visit the same headers at the same offsets (`displayLoop_shows`,
`search_leads`), and an extraction selects the first record of its name that a listing has a
line for: `listing_extraction_agree`.
-/

namespace LabsOS.Archiver

-- ---------------------------------------------------------------------------
-- What a run on an archive shows
-- ---------------------------------------------------------------------------

/-- A header that is read, with its offset; a line that is printed; a file that is opened
for output. -/
inductive Seen where
  | header (pos : Nat) (record : ArchiveRecord)
  | line (l : Line)
  | output (path : CString)
  deriving DecidableEq

/-- What a call shows. A header is seen at the offset of the descriptor it is read from. -/
def seen (fd : Fd) (s : State) : SysEvent → Option Seen
  | ⟨.read fd' count, _, some buf⟩ =>
    if fd' = fd ∧ count = recordSize then
      (s.file fd).bind fun f => (ArchiveRecord.ofBytes? buf).map (.header f.pos)
    else none
  | ⟨.printf fmt args, _, _⟩ => some (.line ⟨fmt, args⟩)
  | ⟨.openFile path flags _, _, _⟩ => if flags.creat then some (.output path) else none
  | _ => none

def Seen.ofHeader (x : Nat × ArchiveRecord) : Seen := .header x.1 x.2

def Seen.header? : Seen → Option (Nat × ArchiveRecord)
  | .header pos record => some (pos, record)
  | _ => none

def Seen.line? : Seen → Option Line
  | .line l => some l
  | _ => none

/-- The headers a listing reads whose records are live: it prints a line for each. -/
def displayed (fd : Fd) (s : State) (tr : List SysEvent) : List (Nat × ArchiveRecord) :=
  ((observe exec (seen fd) s tr).filterMap Seen.header?).filter fun x => x.2.markedDeleted = 0

/-- What an extraction shows first of a record that it has found. -/
def chosen (name : CString) (record : ArchiveRecord) : Seen :=
  if record.stSize > maxAllowedSize then
    .line ⟨"Предупреждение: файл '%s' слишком большой (размер: %lld байт)\n",
      [.str name.bytes, .int record.stSize]⟩
  else .output record.path

/-- The record that an extraction selects: it goes on with it right after it has read the
header. -/
def selected (name : CString) : List Seen → Option (Nat × ArchiveRecord)
  | .header pos record :: x :: l =>
    if x = chosen name record then some (pos, record) else selected name (x :: l)
  | _ :: l => selected name l
  | [] => none

/-- The calls that move the offset of the descriptor. -/
def MovesOffset (fd : Fd) : Sys → Prop
  | .read fd' _ => fd' = fd
  | .lseek fd' _ _ => fd' = fd
  | _ => False

/-- The archive can be opened, read and searched; all other calls of an extraction
may fail. -/
def SearchOk (arc : CString) (fd : Fd) (ev : SysEvent) : Prop :=
  ev.call = .openFile arc { read := true, write := true } 0 ∨ MovesOffset fd ev.call → OutcomeOk ev

/-- The line of a listing for a record. -/
def recordLine (fs : Fs) (record : ArchiveRecord) : Line :=
  displayLine record (fs.strftimeLocal record.fileStats.stMtime)

/-- What a listing shows at an offset: the header that is there, and the line of a live
record. -/
def shownAt (fs : Fs) (b : Bytes) (pos : Nat) : List Seen :=
  match headerAt b pos with
  | none => []
  | some record => .header pos record ::
      if record.markedDeleted = 0 then [.line (recordLine fs record)] else []

/-- The headers at these offsets. -/
def headersAt (b : Bytes) (l : List Nat) : List (Nat × ArchiveRecord) :=
  l.filterMap fun pos => (headerAt b pos).map (Prod.mk pos)

theorem headersAt_cons {pos : Nat} {record : ArchiveRecord} {b : Bytes} (l : List Nat)
    (h : headerAt b pos = some record) :
    headersAt b (pos :: l) = (pos, record) :: headersAt b l := by
  simp [headersAt, h]

/-- A record that an extraction of `name` looks for. -/
def wanted (name : CString) (x : Nat × ArchiveRecord) : Bool :=
  x.2.path = name ∧ x.2.markedDeleted = 0

/-- How a round ends that was to go on to this offset. -/
def roundEnd {β : Type} (exit : β) : Option Nat → Unit ⊕ β
  | none => .inr exit
  | some _ => .inl ()

variable {E : SysEvent → Prop} {s s' : State} {fd : Fd} {b : Bytes} {pos next : Nat}
variable {arc name : CString} {record : ArchiveRecord} {α : Type} {fs : Fs}

-- ---------------------------------------------------------------------------
-- Reading a header and going on to the next
-- ---------------------------------------------------------------------------

theorem perror_leads (msg : String) (k : Unit → Posix α) :
    Leads exec E (seen fd) s (.call (.fprintfErr msg []) k) [] (s.warned ⟨msg, []⟩) (k ()) :=
  Leads.call none fun _ _ => ⟨rfl, rfl⟩

theorem printf_leads (fmt : String) (args : List Arg) (k : Unit → Posix α) :
    Leads exec E (seen fd) s (.call (.printf fmt args) k) [.line ⟨fmt, args⟩]
      (s.printed ⟨fmt, args⟩) (k ()) :=
  Leads.call (some _) fun _ _ => ⟨rfl, rfl⟩

/-- Printing the line of a record. -/
theorem displayLine_leads (record : ArchiveRecord) (rest : Posix α) :
    Leads exec E (seen fd) s
      (do let timeText ← Posix.strftimeLocal record.fileStats.stMtime
          Posix.printf (displayLine record timeText).fmt (displayLine record timeText).args
          rest)
      [.line (recordLine s.fs record)] (s.printed (recordLine s.fs record)) rest := by
  have htime : ∀ k : Option Bytes → Posix α, Leads exec E (seen fd) s
      (.call (.strftimeLocal record.fileStats.stMtime) k) [] s
      (k (s.fs.strftimeLocal record.fileStats.stMtime)) := fun k =>
    Leads.call none fun _ _ => ⟨rfl, rfl⟩
  exact (htime _).of_silent (printf_leads _ _ fun _ => rest)

section Steps

variable (hE : ∀ ev, E ev → MovesOffset fd ev.call → OutcomeOk ev)
include hE

/-- Reading a header shows it. -/
theorem readHeader_leads (h : ReadsAt s fd b pos) :
    ∃ s₁, s₁.fs = s.fs ∧
      (∀ record, headerAt b pos = some record → ReadsAt s₁ fd b (pos + recordSize)) ∧
      ∀ {α : Type} (k : Option Bytes → Posix α), Leads exec E (seen fd) s
        (.call (.read fd recordSize) k)
        ((headerAt b pos).map (Seen.header pos)).toList s₁
        (k (some ((b.drop pos).take recordSize))) := by
  obtain ⟨f, hf, rfl, hread, hb⟩ := h
  refine ⟨s.afterRead fd f (f.available b recordSize), rfl, fun record hrecord => ?_,
    fun k => ?_⟩
  · have hlen := congrArg List.length (ArchiveRecord.ofBytes?_eq_some.mp hrecord)
    rw [record.size_eq] at hlen
    refine ⟨_, State.file_setFile_self hf _, ?_, hread, hb⟩
    show f.pos + (f.available b recordSize).length = _
    rw [OpenFile.available, hlen]
  · apply Leads.call _
    intro o ho
    obtain rfl : o = .ok := hE _ ho rfl
    refine ⟨State.sysRead_regular hf hread hb rfl, ?_⟩
    show ite _ _ _ = _
    rw [if_pos ⟨rfl, rfl⟩, hf]
    rfl

/-- Seeking behind a header to where its size leads shows nothing. -/
theorem lseekHeader_leads (record : ArchiveRecord) (h : ReadsAt s fd b (pos + recordSize)) :
    ∃ s₁, s₁.fs = s.fs ∧
      (∀ next, nextOffset pos record = some next → ReadsAt s₁ fd b next) ∧
      ∀ {α : Type} (k : Option Nat → Posix α), Leads exec E (seen fd) s
        (.call (.lseek fd record.stSize .cur) k) [] s₁ (k (nextOffset pos record)) := by
  obtain ⟨f, hf, hpos, hread, hb⟩ := h
  have hseek : f.seekTo record.stSize .cur = (pos + recordSize : Nat) + record.stSize := by
    rw [OpenFile.seekTo, hpos]
  by_cases hrange : 0 ≤ ((pos + recordSize : Nat) + record.stSize : Int) ∧
      ((pos + recordSize : Nat) + record.stSize : Int) ≤ offMax
  · have hnext : nextOffset pos record =
        some ((pos + recordSize : Nat) + record.stSize : Int).toNat := by
      simp only [nextOffset, if_pos hrange]
    refine ⟨s.setFile fd (some { f with pos := (f.seekTo record.stSize .cur).toNat }), rfl,
      fun next hn => ?_, fun k => Leads.call none fun o ho => ?_⟩
    · refine ⟨_, State.file_setFile_self hf _, ?_, hread, hb⟩
      rw [hnext] at hn
      rw [← Option.some.inj hn, ← hseek]
    · obtain rfl : o = .ok := hE _ ho rfl
      refine ⟨?_, rfl⟩
      rw [hnext, ← hseek]
      exact State.sysLseek_inRange hf (by decide) (by rw [hseek]; exact hrange)
  · have hnext : nextOffset pos record = none := by
      simp only [nextOffset, if_neg hrange]
    have hnot : ∀ next, nextOffset pos record ≠ some next := by simp [hnext]
    refine ⟨s, rfl, fun next hn => absurd hn (hnot next),
      fun k => Leads.call none fun o ho => ?_⟩
    obtain rfl : o = .ok := hE _ ho rfl
    refine ⟨?_, rfl⟩
    rw [hnext]
    show s.sysLseek .ok fd record.stSize .cur = (s, none)
    rw [← hseek] at hrange
    simp only [State.sysLseek, hf, if_neg hrange]
    rfl

/-- The end of a round that goes on to the next header, or complains and leaves the loop. -/
theorem seek_leads {β : Type} (msg : String) (record : ArchiveRecord) (exit : β)
    (h : ReadsAt s fd b (pos + recordSize)) :
    ∃ s₁, s₁.fs = s.fs ∧
      (∀ next, nextOffset pos record = some next → ReadsAt s₁ fd b next) ∧
      Leads exec E (seen fd) s
        (do match ← Posix.lseek fd record.stSize .cur with
            | none =>
              Posix.perror msg
              pure (.inr exit)
            | some _ => pure (.inl ()) : Posix (Unit ⊕ β)) [] s₁
        (.ret (roundEnd exit (nextOffset pos record))) := by
  obtain ⟨s₁, hfs, hat, hseek⟩ := lseekHeader_leads hE record h
  cases hnext : nextOffset pos record with
  | none =>
    rw [hnext] at hseek
    exact ⟨s₁.warned ⟨msg, []⟩, hfs, by simp, (hseek _).of_silent (perror_leads msg _)⟩
  | some next =>
    rw [hnext] at hseek hat
    exact ⟨s₁, hfs, hat, hseek _⟩

-- ---------------------------------------------------------------------------
-- The loop of a listing
-- ---------------------------------------------------------------------------

/-- Behind the last header the listing ends. -/
theorem displayRound_end (h : ReadsAt s fd b pos) (hnone : headerAt b pos = none) :
    ∃ s₁, s₁.fs = s.fs ∧
      Leads exec E (seen fd) s (displayRound fd ()) [] s₁ (.ret (.inr ())) := by
  obtain ⟨s₁, hfs, -, hread⟩ := readHeader_leads hE h
  rw [hnone] at hread
  rw [headerAt] at hnone
  cases hbuf : (b.drop pos).take recordSize with
  | nil =>
    rw [hbuf] at hread
    exact ⟨s₁, hfs, hread _⟩
  | cons x xs =>
    rw [hbuf] at hread hnone
    refine ⟨s₁.warned ⟨"Ошибка: чтение заголовка при просмотре архива не удалось", []⟩, hfs,
      (hread _).of_silent ?_⟩
    simp only [Prog.ret_bind, hnone]
    exact perror_leads _ _

/-- A round shows what is at its offset, and goes on if the walk does. -/
theorem displayRound_leads (h : ReadsAt s fd b pos) :
    ∃ s₁, s₁.fs = s.fs ∧ (∀ next, nextHeader b pos = some next → ReadsAt s₁ fd b next) ∧
      Leads exec E (seen fd) s (displayRound fd ()) (shownAt s.fs b pos) s₁
        (.ret (roundEnd () (nextHeader b pos))) := by
  cases hrecord : headerAt b pos with
  | none =>
    have hend : nextHeader b pos = none := by rw [nextHeader, hrecord, Option.bind_none]
    obtain ⟨s₁, hfs, hround⟩ := displayRound_end hE h hrecord
    rw [hend, shownAt, hrecord]
    exact ⟨s₁, hfs, by simp, hround⟩
  | some record =>
    have hnext : nextHeader b pos = nextOffset pos record := by
      rw [nextHeader, hrecord, Option.bind_some]
    obtain ⟨s₁, hfs₁, hat₁, hread⟩ := readHeader_leads hE h
    have hofBytes := record.ofBytes?_bytes
    obtain ⟨x, xs, hx⟩ := List.exists_cons_of_ne_nil record.bytes_ne_nil
    rw [hrecord, ArchiveRecord.ofBytes?_eq_some.mp hrecord, hx] at hread
    rw [hx] at hofBytes
    rw [hnext, shownAt, hrecord]
    dsimp only
    split
    · next hlive =>
      rw [← hfs₁]
      obtain ⟨s₂, hfs₂, hat₂, hseek⟩ := seek_leads hE (s := s₁.printed (recordLine s₁.fs record))
        "Ошибка: позиционирование в архиве при просмотре не удалось" record ()
        (hat₁ record hrecord)
      refine ⟨s₂, hfs₂, hat₂, (hread _).trans ?_⟩
      simp only [Prog.ret_bind, hofBytes, if_pos hlive]
      exact Leads.then_silent (displayLine_leads (s := s₁) record _) hseek
    · next hdead =>
      obtain ⟨s₂, hfs₂, hat₂, hseek⟩ := seek_leads hE
        "Ошибка: позиционирование в архиве при просмотре не удалось" record ()
        (hat₁ record hrecord)
      refine ⟨s₂, hfs₂.trans hfs₁, hat₂, (hread _).then_silent ?_⟩
      simp only [Prog.ret_bind, hofBytes, if_neg hdead]
      exact hseek

/-- **The loop of a listing** that comes to its end visits the headers of a walk that ends,
and shows what is at each. -/
theorem displayLoop_shows {k : Unit → Posix α} {r : α} {tr : List SysEvent}
    (h : ReadsAt s fd b pos)
    (hrun : Runs exec s (.loop (displayRound fd) () k) tr s' (.ret r)) (htr : ∀ ev ∈ tr, E ev) :
    ∃ l tr₁ tr₂, Walk.Trail (nextHeader b) pos l ∧ tr = tr₁ ++ tr₂ ∧
      observe exec (seen fd) s tr₁ = l.flatMap (shownAt s.fs b) ∧
      Runs exec (replay exec s tr₁) (k ()) tr₂ s' (.ret r) := by
  -- on the length of the run: a round that goes on has read a header
  induction hn : tr.length using Nat.strong_induction_on generalizing tr s pos with
  | _ n ih =>
    subst hn
    obtain ⟨s₁, hfs, hat, hround⟩ := displayRound_leads hE h
    obtain ⟨tr₁, tr', rfl, hobs, rfl, hrest⟩ := hround.round tr s' r hrun htr
    cases hnext : nextHeader b pos with
    | none =>
      rw [hnext] at hrest
      exact ⟨[pos], tr₁, tr', .last hnext, rfl, by rw [hobs, List.flatMap_singleton], hrest⟩
    | some next =>
      rw [hnext] at hrest
      have hpos : 0 < tr₁.length := by
        obtain ⟨record, hrecord, -⟩ := Option.bind_eq_some_iff.mp hnext
        refine List.length_pos_iff.mpr ?_
        rintro rfl
        rw [shownAt, hrecord] at hobs
        cases hobs
      obtain ⟨l, tr₂, tr₃, htrail, rfl, hobs', hrest'⟩ := ih tr'.length
        (by rw [List.length_append]; omega) (hat next hnext) hrest
        (fun ev hev => htr ev (List.mem_append_right _ hev)) rfl
      refine ⟨pos :: l, tr₁ ++ tr₂, tr₃, .next hnext htrail, (List.append_assoc ..).symm, ?_, ?_⟩
      · rw [observe_append, hobs, hobs', List.flatMap_cons, hfs]
      · rw [replay_append]
        exact hrest'

-- ---------------------------------------------------------------------------
-- The loop of a search
-- ---------------------------------------------------------------------------

/-- A search asks for its offset. -/
theorem tell_leads (h : ReadsAt s fd b pos) (hpos : (pos : Int) ≤ offMax) :
    ∃ s₁, ReadsAt s₁ fd b pos ∧ ∀ {α : Type} (k : Option Nat → Posix α),
      Leads exec E (seen fd) s (.call (.lseek fd 0 .cur) k) [] s₁ (k (some pos)) := by
  obtain ⟨f, hf, rfl, hread, hb⟩ := h
  have hcur : f.seekTo 0 .cur = f.pos := Int.add_zero _
  have hnat : (f.seekTo 0 .cur).toNat = f.pos := by rw [hcur, Int.toNat_natCast]
  refine ⟨s.setFile fd (some { f with pos := (f.seekTo 0 .cur).toNat }),
    ⟨_, State.file_setFile_self hf _, hnat, hread, hb⟩, fun k => Leads.call none fun o ho => ?_⟩
  obtain rfl : o = .ok := hE _ ho rfl
  refine ⟨?_, rfl⟩
  rw [← hnat]
  refine State.sysLseek_inRange hf (by decide) ?_
  rw [hcur]
  omega

/-- Behind the last header the search ends. -/
theorem extractRound_end (name : CString) (h : ReadsAt s fd b pos) (hpos : (pos : Int) ≤ offMax)
    (hnone : headerAt b pos = none) :
    ∃ s₁, Leads exec E (seen fd) s (extractRound fd name ()) [] s₁
      (.ret (.inr (.broke false))) := by
  obtain ⟨s₀, hat, htell⟩ := tell_leads hE h hpos
  obtain ⟨s₁, -, -, hread⟩ := readHeader_leads hE hat
  rw [hnone] at hread
  rw [headerAt] at hnone
  cases hbuf : (b.drop pos).take recordSize with
  | nil =>
    rw [hbuf] at hread
    exact ⟨s₁, (htell _).of_silent (hread _)⟩
  | cons x xs =>
    rw [hbuf] at hread hnone
    refine ⟨s₁.warned ⟨"Ошибка: чтение заголовка из архива не удалось", []⟩,
      (htell _).of_silent ((hread _).of_silent ?_)⟩
    simp only [Prog.ret_bind, Option.bind_some, hnone]
    exact perror_leads _ _

theorem extractRound_header (name : CString) (h : ReadsAt s fd b pos) (hpos : (pos : Int) ≤ offMax)
    (hrecord : headerAt b pos = some record) :
    ∃ s₁, ReadsAt s₁ fd b (pos + recordSize) ∧
      Leads exec E (seen fd) s (extractRound fd name ()) [.header pos record] s₁
        (extractOrSkip fd name pos record) := by
  obtain ⟨s₀, hat₀, htell⟩ := tell_leads hE h hpos
  obtain ⟨s₁, -, hat₁, hread⟩ := readHeader_leads hE hat₀
  have hofBytes := record.ofBytes?_bytes
  obtain ⟨x, xs, hx⟩ := List.exists_cons_of_ne_nil record.bytes_ne_nil
  rw [hrecord, ArchiveRecord.ofBytes?_eq_some.mp hrecord, hx] at hread
  rw [hx] at hofBytes
  refine ⟨s₁, hat₁ record hrecord, (htell _).of_silent ((hread _).then_silent ?_)⟩
  simp only [Prog.ret_bind, Option.bind_some, hofBytes]
  exact .refl _ _

/-- A record that is not asked for is passed. -/
theorem extractOrSkip_leads (h : ReadsAt s fd b (pos + recordSize))
    (hm : ¬ (record.path = name ∧ record.markedDeleted = 0)) :
    ∃ s₁, (∀ next, nextOffset pos record = some next → ReadsAt s₁ fd b next) ∧
      Leads exec E (seen fd) s (extractOrSkip fd name pos record) [] s₁
        (.ret (roundEnd (.broke false) (nextOffset pos record))) := by
  obtain ⟨s₁, -, hat, hseek⟩ := seek_leads hE
    "Ошибка: позиционирование в архиве при пропуске записи не удалось" record
    (ExtractExit.broke false) h
  rw [extractOrSkip, if_neg hm]
  exact ⟨s₁, hat, hseek⟩

/-- The round that finds the record leaves the loop with it. -/
theorem search_finds {k : ExtractExit → Posix α} (h : ReadsAt s fd b pos)
    (hpos : (pos : Int) ≤ offMax) (hrecord : headerAt b pos = some record)
    (hm : record.path = name ∧ record.markedDeleted = 0) :
    ∃ s₁, Leads exec E (seen fd) s (.loop (extractRound fd name) () k) [.header pos record] s₁
      ((extractRecord fd name pos record).bind k) := by
  obtain ⟨s₁, -, hround⟩ := extractRound_header hE name h hpos hrecord
  refine ⟨s₁, ?_⟩
  rw [extractOrSkip, if_pos hm] at hround
  rw [← Prog.map_inr_bind_again]
  exact hround.round

/-- Any other round that reads a header passes it. -/
theorem search_passes {k : ExtractExit → Posix α} (h : ReadsAt s fd b pos)
    (hpos : (pos : Int) ≤ offMax) (hrecord : headerAt b pos = some record)
    (hm : ¬ (record.path = name ∧ record.markedDeleted = 0)) :
    ∃ s₁, (∀ next, nextHeader b pos = some next → ReadsAt s₁ fd b next) ∧
      Leads exec E (seen fd) s (.loop (extractRound fd name) () k) [.header pos record] s₁
        ((Prog.ret (roundEnd (.broke false) (nextHeader b pos))).bind
          (Prog.again (extractRound fd name) k)) := by
  obtain ⟨s₁, hat₁, hround⟩ := extractRound_header hE name h hpos hrecord
  obtain ⟨s₂, hat₂, hskip⟩ := extractOrSkip_leads hE hat₁ hm
  have hnext : nextHeader b pos = nextOffset pos record := by
    rw [nextHeader, hrecord, Option.bind_some]
  rw [hnext]
  exact ⟨s₂, hat₂, (hround.then_silent hskip).round⟩

/-- **The loop of a search** visits the headers of a walk that ends up to the first live
record of the name. -/
theorem search_leads {k : ExtractExit → Posix α} {l : List Nat} (name : CString)
    (htrail : Walk.Trail (nextHeader b) pos l) (h : ReadsAt s fd b pos)
    (hpos : (pos : Int) ≤ offMax) :
    ((headersAt b l).find? (wanted name) = none ∧ ∃ s₁,
      Leads exec E (seen fd) s (.loop (extractRound fd name) () k)
        ((headersAt b l).map Seen.ofHeader) s₁ (k (.broke false))) ∨
    ∃ x, (headersAt b l).find? (wanted name) = some x ∧
      ∃ (hs : List (Nat × ArchiveRecord)) (s₁ : State),
        Leads exec E (seen fd) s (.loop (extractRound fd name) () k)
          ((hs ++ [x]).map Seen.ofHeader) s₁
          ((extractRecord fd name x.1 x.2).bind k) := by
  induction htrail generalizing s with
  | @last pos hlast =>
    cases hrecord : headerAt b pos with
    | none =>
      obtain ⟨s₁, hround⟩ := extractRound_end hE name h hpos hrecord
      have hnil : headersAt b [pos] = [] := by simp [headersAt, hrecord]
      rw [hnil]
      exact .inl ⟨rfl, s₁, hround.round⟩
    | some record =>
      have hcons := headersAt_cons [] hrecord
      by_cases hm : record.path = name ∧ record.markedDeleted = 0
      · obtain ⟨s₁, hfound⟩ := search_finds hE h hpos hrecord hm (k := k)
        refine .inr ⟨(pos, record), ?_, [], s₁, hfound⟩
        rw [hcons]
        exact List.find?_cons_of_pos (decide_eq_true hm)
      · obtain ⟨s₁, -, hpass⟩ := search_passes hE h hpos hrecord hm (k := k)
        rw [hlast] at hpass
        rw [hcons]
        exact .inl ⟨List.find?_cons_of_neg (by simpa [wanted] using hm), s₁, hpass⟩
  | @next pos next l hnext _ ih =>
    obtain ⟨record, hrecord, hoff⟩ := Option.bind_eq_some_iff.mp hnext
    rw [headersAt_cons l hrecord]
    by_cases hm : record.path = name ∧ record.markedDeleted = 0
    · obtain ⟨s₁, hfound⟩ := search_finds hE h hpos hrecord hm (k := k)
      refine .inr ⟨(pos, record), ?_, [], s₁, hfound⟩
      exact List.find?_cons_of_pos (decide_eq_true hm)
    · obtain ⟨s₁, hat, hpass⟩ := search_passes hE h hpos hrecord hm (k := k)
      rw [hnext] at hpass
      rw [List.find?_cons_of_neg (by simpa [wanted] using hm)]
      rcases ih (hat next hnext) (nextOffset_le hoff) with
        ⟨hnone, s₂, hrest⟩ | ⟨x, hx, hs, s₂, hrest⟩
      · exact .inl ⟨hnone, s₂, hpass.trans hrest⟩
      · exact .inr ⟨x, hx, (pos, record) :: hs, s₂, hpass.trans hrest⟩

end Steps

-- ---------------------------------------------------------------------------
-- What is shown and what is printed
-- ---------------------------------------------------------------------------

theorem line?_seen (s : State) (ev : SysEvent) :
    (seen fd s ev).toList.filterMap Seen.line? = printedLines ev.call := by
  obtain ⟨c, o, r⟩ := ev
  cases c with
  | read fd' count =>
    cases r with
    | none => rfl
    | some buf =>
      show (ite _ _ _ : Option Seen).toList.filterMap Seen.line? = []
      split
      · cases s.file fd with
        | none => rfl
        | some f =>
          rw [Option.bind_some]
          cases ArchiveRecord.ofBytes? buf <;> rfl
      · rfl
  | openFile path flags mode =>
    show (ite _ _ _ : Option Seen).toList.filterMap Seen.line? = []
    split <;> rfl
  | _ => rfl

/-- The lines that a run shows are what it prints. -/
theorem stdout_shown {p p' : Posix α} {tr : List SysEvent} (fd : Fd) (h : Runs exec s p tr s' p') :
    s'.proc.stdout = s.proc.stdout ++
      (observe exec (seen fd) s tr).filterMap Seen.line? := by
  have hlines : ∀ (tr : List SysEvent) (s : State),
      (observe exec (seen fd) s tr).filterMap Seen.line? =
        tr.flatMap fun ev => printedLines ev.call := by
    intro tr
    induction tr with
    | nil => exact fun _ => rfl
    | cons ev tr ih =>
      intro s
      show ((seen fd s ev).toList ++ observe exec (seen fd) _ tr).filterMap Seen.line? = _
      rw [List.filterMap_append, ih, line?_seen, List.flatMap_cons]
  rw [hlines, (emits_runs h).stdout]

theorem line?_headers (hs : List (Nat × ArchiveRecord)) :
    (hs.map Seen.ofHeader).filterMap Seen.line? = [] := by
  induction hs with
  | nil => rfl
  | cons x hs ih => exact ih

theorem header?_lines (ls : List Line) :
    (ls.map Seen.line).filterMap Seen.header? = [] := by
  induction ls with
  | nil => rfl
  | cons l ls ih => exact ih

theorem line?_lines (ls : List Line) : (ls.map Seen.line).filterMap Seen.line? = ls := by
  induction ls with
  | nil => rfl
  | cons l ls ih => exact congrArg (List.cons l) ih

theorem header?_shown (fs : Fs) (b : Bytes) (l : List Nat) :
    (l.flatMap (shownAt fs b)).filterMap Seen.header? = headersAt b l := by
  induction l with
  | nil => rfl
  | cons pos l ih =>
    rw [List.flatMap_cons, List.filterMap_append, ih, shownAt]
    cases hrecord : headerAt b pos with
    | none => simp [headersAt, hrecord]
    | some record =>
      rw [headersAt_cons l hrecord]
      dsimp only
      split <;> rfl

theorem line?_shown (fs : Fs) (b : Bytes) (l : List Nat) :
    (l.flatMap (shownAt fs b)).filterMap Seen.line? =
      ((headersAt b l).filter fun x => x.2.markedDeleted = 0).map fun x => recordLine fs x.2 := by
  induction l with
  | nil => rfl
  | cons pos l ih =>
    rw [List.flatMap_cons, List.filterMap_append, ih, shownAt]
    cases hrecord : headerAt b pos with
    | none => simp [headersAt, hrecord]
    | some record =>
      rw [headersAt_cons l hrecord]
      dsimp only
      split
      · next hlive =>
        rw [List.filter_cons_of_pos (by simpa using hlive)]
        rfl
      · next hdead =>
        rw [List.filter_cons_of_neg (by simpa using hdead)]
        rfl

-- ---------------------------------------------------------------------------
-- What an extraction selects
-- ---------------------------------------------------------------------------

theorem chosen_ne_header (name : CString) (record : ArchiveRecord) (x : Nat × ArchiveRecord) :
    Seen.ofHeader x ≠ chosen name record := by
  unfold chosen
  split <;> nofun

theorem chosen_ne_notFound (name : CString) (record : ArchiveRecord) :
    Seen.line (notFoundLine name) ≠ chosen name record := by
  unfold chosen
  split <;> simp [notFoundLine]

theorem selected_skip {x : Seen} {y : Nat × ArchiveRecord} (h : x ≠ chosen name y.2)
    (l : List Seen) : selected name (.ofHeader y :: x :: l) = selected name (x :: l) := by
  rw [Seen.ofHeader, selected, if_neg h]

theorem selected_found (name : CString) (hs : List (Nat × ArchiveRecord)) (x : Nat × ArchiveRecord)
    (l : List Seen) :
    selected name ((hs ++ [x]).map .ofHeader ++ chosen name x.2 :: l) = some x := by
  induction hs with
  | nil =>
    show selected name (.header x.1 x.2 :: chosen name x.2 :: l) = some x
    rw [selected, if_pos rfl]
  | cons y hs ih =>
    cases hs with
    | nil => exact (selected_skip (chosen_ne_header name y.2 x) _).trans ih
    | cons z hs => exact (selected_skip (chosen_ne_header name y.2 z) _).trans ih

theorem selected_notFound (name : CString) (hs : List (Nat × ArchiveRecord)) :
    selected name (hs.map .ofHeader ++ [.line (notFoundLine name)]) = none := by
  induction hs with
  | nil => rfl
  | cons y hs ih =>
    cases hs with
    | nil => exact (selected_skip (chosen_ne_notFound name y.2) _).trans ih
    | cons z hs => exact (selected_skip (chosen_ne_header name y.2 z) _).trans ih

-- ---------------------------------------------------------------------------
-- The whole functions
-- ---------------------------------------------------------------------------

variable {umask : Nat} {tr : List SysEvent} {l : List Nat}

/-- Opening the archive shows nothing. -/
theorem open_leads (umask : Nat) (flags : OpenFlags) (hb : fs.content arc = some b)
    (hread : flags.read = true) (hcreat : flags.creat = false) (htrunc : flags.trunc = false)
    (hE : ∀ ev, E ev → ev.call = .openFile arc flags 0 → OutcomeOk ev) :
    ∃ s₁, s₁.fs = fs ∧ ReadsAt s₁ archiveFd b 0 ∧ ∀ {α : Type} (k : Option Fd → Posix α),
      Leads exec E (seen archiveFd) (.boot fs umask) (.call (.openFile arc flags 0) k) [] s₁
        (k (some archiveFd)) := by
  obtain ⟨a, ha, hdata⟩ := Option.bind_eq_some_iff.mp hb
  refine ⟨(State.boot fs umask).addFile ⟨a, 0, flags⟩, rfl,
    ⟨_, State.file_addFile_self, rfl, hread, hdata⟩, fun k => Leads.call none fun o ho => ⟨?_, ?_⟩⟩
  · obtain rfl : o = .ok := hE _ ho rfl
    show (State.boot fs umask).sysOpen .ok arc flags 0 = _
    rw [State.sysOpen_regular (s := .boot fs umask) (by decide) ha hdata, htrunc]
    rfl
  · show ite _ _ _ = none
    rw [hcreat]
    rfl

theorem printLines_leads (ls : List Line) (h : ReadsAt s fd b pos) :
    ∃ s₁, s₁.fs = s.fs ∧ ReadsAt s₁ fd b pos ∧
      Leads exec E (seen fd) s (printLines ls) (ls.map Seen.line) s₁ (.ret ()) := by
  induction ls generalizing s with
  | nil => exact ⟨s, rfl, h, .refl _ _⟩
  | cons l ls ih =>
    obtain ⟨s₁, hfs, hat, hrest⟩ := ih (s := s.printed l) h
    exact ⟨s₁, hfs, hat, (printf_leads l.fmt l.args fun _ => printLines ls).trans hrest⟩

theorem close_shows {fd' : Fd}
    (hrun : Runs exec s (discard (Posix.close fd')) tr s' (.ret ())) :
    observe exec (seen fd) s tr = [] := by
  obtain ⟨o, tr', rfl, hrest⟩ := runs_call hrun
  obtain ⟨rfl, -, -⟩ := runs_ret hrest
  rfl

/-- **A listing** that comes to its end shows the heading and the headers of a walk that
ends. -/
theorem display_shows (hb : fs.content arc = some b)
    (hrun : Runs exec (.boot fs umask) (displayArchiveContents arc) tr s' (.ret ()))
    (htr : ∀ ev ∈ tr, OutcomeOk ev) :
    ∃ l, Walk.Trail (nextHeader b) 0 l ∧ observe exec (seen archiveFd) (.boot fs umask) tr =
      (displayHeading arc).map .line ++ l.flatMap (shownAt fs b) := by
  obtain ⟨s₁, hfs₁, hat₁, hopen⟩ := open_leads (E := OutcomeOk) umask
    { read := true } hb rfl rfl rfl fun _ h _ => h
  obtain ⟨s₂, hfs₂, hat₂, hheading⟩ := printLines_leads (E := OutcomeOk) (displayHeading arc) hat₁
  have hstart : Leads exec OutcomeOk (seen archiveFd) (.boot fs umask)
      (displayArchiveContents arc) ((displayHeading arc).map .line) s₂
      (.loop (displayRound archiveFd) () fun _ => discard (Posix.close archiveFd)) :=
    (hopen _).of_silent (hheading.bind _)
  obtain ⟨tr₁, tr', rfl, hobs₁, hs₂, hrest⟩ := hstart tr s' () hrun htr
  obtain ⟨l, tr₂, tr₃, htrail, rfl, hobs₂, hend⟩ := displayLoop_shows (E := OutcomeOk)
    (fun _ h _ => h) hat₂ hrest fun ev hev => htr ev (List.mem_append_right _ hev)
  refine ⟨l, htrail, ?_⟩
  rw [observe_append, hs₂, observe_append, hobs₁, hobs₂, close_shows hend, List.append_nil, hfs₂,
    hfs₁]

/-- The record that is found is seen to be chosen. -/
theorem extractRecord_shows {pos : Nat} {record : ArchiveRecord} {f : ExtractExit → Posix α}
    {fd' : Fd} {r : α} (fd : Fd)
    (hrun : Runs exec s ((extractRecord fd' name pos record).bind f) tr s' (.ret r)) :
    ∃ l, observe exec (seen fd) s tr = chosen name record :: l := by
  rw [extractRecord] at hrun
  rw [chosen]
  split at hrun
  · next hbig =>
    obtain ⟨o, tr', rfl, -⟩ := runs_call hrun
    exact ⟨_, by rw [if_pos hbig]; rfl⟩
  · next hsize =>
    obtain ⟨o, tr', rfl, -⟩ := runs_call hrun
    exact ⟨_, by rw [if_neg hsize]; rfl⟩

/-- What follows a record that is found does not report it as missing. -/
theorem found_not_missing {pos : Nat} {record : ArchiveRecord} {fd' : Fd}
    (hrun : Runs exec s ((extractRecord fd' name pos record).bind (extractAfterLoop fd' arc name))
      tr s' (.ret ())) :
    notFoundLine name ∉ (observe exec (seen fd) s tr).filterMap Seen.line? := by
  have hspec : Spec exec AnyOutcome (fun _ => True) s
      ((extractRecord fd' name pos record).bind (extractAfterLoop fd' arc name))
      fun _ s' => Unreported (notFoundLine name) s s' := by
    refine Spec.bind (extractRecord_found_spec fd' pos record) ?_
    rintro exit s₁ ⟨hne, hun⟩
    exact (extractAfterLoop_found_spec _ arc hne).mono fun _ s₂ h => hun.trans h
  obtain ⟨ls, hls, hnot⟩ := (hspec tr s' _ hrun fun _ _ => trivial).2 () rfl
  rw [stdout_shown fd hrun] at hls
  rwa [List.append_cancel_left hls]

/-- **An extraction** that is not hindered in its search shows the headers of the walk and
that no record is found, or the headers up to the first record of the name and then what it
does with that. -/
theorem extract_shows (hb : fs.content arc = some b) (htrail : Walk.Trail (nextHeader b) 0 l)
    (hrun : Runs exec (.boot fs umask) (extractAndRemoveFile arc name) tr s' (.ret ()))
    (htr : ∀ ev ∈ tr, SearchOk arc archiveFd ev) :
    ((headersAt b l).find? (wanted name) = none ∧
      observe exec (seen archiveFd) (.boot fs umask) tr =
        (headersAt b l).map .ofHeader ++ [.line (notFoundLine name)]) ∨
    ∃ x hs rest, (headersAt b l).find? (wanted name) = some x ∧
      observe exec (seen archiveFd) (.boot fs umask) tr =
        List.map .ofHeader (hs ++ [x]) ++ chosen name x.2 :: rest ∧
      notFoundLine name ∉ (chosen name x.2 :: rest).filterMap Seen.line? := by
  obtain ⟨s₁, -, hat, hopen⟩ := open_leads (E := SearchOk arc archiveFd) umask
    { read := true, write := true } hb rfl rfl rfl fun _ h hcall => h (.inl hcall)
  rcases search_leads (E := SearchOk arc archiveFd) (k := extractAfterLoop archiveFd arc name)
    (fun _ h hcall => h (.inr hcall)) name htrail hat (by decide) with
    ⟨hnone, s₂, hsearch⟩ | ⟨x, hx, hs, s₂, hsearch⟩
  · have hfull : Leads exec (SearchOk arc archiveFd) (seen archiveFd) (.boot fs umask)
        (extractAndRemoveFile arc name) ((headersAt b l).map Seen.ofHeader ++
          [.line (notFoundLine name)]) _ (discard (Posix.close archiveFd)) :=
      ((hopen _).of_silent hsearch).trans (printf_leads _ _ _)
    obtain ⟨tr₁, tr₂, rfl, hobs, hreplay, hend⟩ := hfull tr s' () hrun htr
    refine .inl ⟨hnone, ?_⟩
    rw [observe_append, hobs, hreplay, close_shows hend, List.append_nil]
  · obtain ⟨tr₁, tr₂, rfl, hobs, hreplay, hend⟩ := (hopen _).of_silent hsearch tr s' () hrun htr
    obtain ⟨rest, hrest⟩ := extractRecord_shows archiveFd hend
    refine .inr ⟨x, hs, rest, hx, ?_, ?_⟩
    · rw [observe_append, hobs, hreplay, hrest]
    · rw [← hrest]
      exact found_not_missing hend

/-- What a listing prints, in terms of the walk. -/
theorem display_prints (hb : fs.content arc = some b)
    (hrun : Runs exec (.boot fs umask) (displayArchiveContents arc) tr s' (.ret ()))
    (htr : ∀ ev ∈ tr, OutcomeOk ev) :
    ∃ l, Walk.Trail (nextHeader b) 0 l ∧
      displayed archiveFd (.boot fs umask) tr =
        ((headersAt b l).filter fun x => x.2.markedDeleted = 0) ∧
      s'.proc.stdout = displayHeading arc ++
        (displayed archiveFd (.boot fs umask) tr).map fun x => recordLine fs x.2 := by
  obtain ⟨l, htrail, hshown⟩ := display_shows hb hrun htr
  have hdisplayed : displayed archiveFd (.boot fs umask) tr =
      (headersAt b l).filter fun x => x.2.markedDeleted = 0 := by
    rw [displayed, hshown, List.filterMap_append, header?_lines, header?_shown, List.nil_append]
  refine ⟨l, htrail, hdisplayed, ?_⟩
  rw [stdout_shown archiveFd hrun, hshown, List.filterMap_append, line?_lines, line?_shown,
    State.stdout_boot, List.nil_append, hdisplayed]

/-- What an extraction selects and reports, in terms of the walk. -/
theorem extract_selects (hb : fs.content arc = some b) (htrail : Walk.Trail (nextHeader b) 0 l)
    (hrun : Runs exec (.boot fs umask) (extractAndRemoveFile arc name) tr s' (.ret ()))
    (htr : ∀ ev ∈ tr, SearchOk arc archiveFd ev) :
    selected name (observe exec (seen archiveFd) (.boot fs umask) tr) =
        (headersAt b l).find? (wanted name) ∧
      (notFoundLine name ∈ s'.proc.stdout ↔ (headersAt b l).find? (wanted name) = none) := by
  have hstdout := stdout_shown archiveFd hrun
  rw [State.stdout_boot, List.nil_append] at hstdout
  rw [hstdout]
  rcases extract_shows hb htrail hrun htr with ⟨hfind, hobs⟩ | ⟨x, hs, rest, hfind, hobs, hnot⟩
  · rw [hobs, hfind]
    refine ⟨selected_notFound name _, fun _ => rfl, fun _ => ?_⟩
    rw [List.filterMap_append]
    exact List.mem_append_right _ (List.mem_singleton_self _)
  · rw [hobs, hfind]
    refine ⟨selected_found name hs x rest, fun hmem => absurd hmem ?_, fun h => nomatch h⟩
    rw [List.filterMap_append, line?_headers, List.nil_append]
    exact hnot

theorem find?_displayed (hs : List (Nat × ArchiveRecord)) :
    (hs.filter fun x => x.2.markedDeleted = 0).find? (fun x => x.2.path = name) =
      hs.find? (wanted name) := by
  rw [List.find?_filter]
  refine congrArg (List.find? · hs) (funext fun x => ?_)
  rw [wanted, decide_eq_decide, decide_eq_true_eq, decide_eq_true_eq]
  exact and_comm

theorem forall_displayed_iff (hs : List (Nat × ArchiveRecord)) :
    (∀ x ∈ hs.filter (fun x => x.2.markedDeleted = 0), x.2.path ≠ name) ↔
      hs.find? (wanted name) = none := by
  rw [← find?_displayed, List.find?_eq_none]
  simp

/-- **Listing and extraction agree** on every content on which a listing comes to its end. It
prints one line for each live record whose header it reads. For every name an extraction ends
as well; if it is not hindered in its search, it selects the record of the first such line with
the path, at the same offset, and reports that there is none exactly when no line has the
path. -/
theorem listing_extraction_agree {tr₀ : List SysEvent} {s₀ : State}
    (hb : fs.content arc = some b)
    (hlist : Runs exec (.boot fs umask) (displayArchiveContents arc) tr₀ s₀ (.ret ()))
    (hok : ∀ ev ∈ tr₀, OutcomeOk ev) :
    s₀.proc.stdout = displayHeading arc ++
        (displayed archiveFd (.boot fs umask) tr₀).map (fun x => recordLine fs x.2) ∧
      ∀ name umask', Halts exec AnyOutcome (.boot fs umask') (extractAndRemoveFile arc name) ∧
        ∀ tr s', Runs exec (.boot fs umask') (extractAndRemoveFile arc name) tr s' (.ret ()) →
          (∀ ev ∈ tr, SearchOk arc archiveFd ev) →
          selected name (observe exec (seen archiveFd) (.boot fs umask') tr) =
              (displayed archiveFd (.boot fs umask) tr₀).find? (fun x => x.2.path = name) ∧
            (notFoundLine name ∈ s'.proc.stdout ↔
              ∀ x ∈ displayed archiveFd (.boot fs umask) tr₀, x.2.path ≠ name) := by
  obtain ⟨l, htrail, hdisplayed, hout⟩ := display_prints hb hlist hok
  refine ⟨hout, fun name umask' => ⟨?_, ?_⟩⟩
  · obtain ⟨a, ha, hdata⟩ := Option.bind_eq_some_iff.mp hb
    exact (extract_halts_iff (s := State.boot fs umask') ha hdata).mpr
      (htrail.ends.restrict nextHeader_of_nextSearched).not_returns
  · intro tr s' hrun htr
    rw [hdisplayed, find?_displayed, forall_displayed_iff]
    exact extract_selects hb htrail hrun htr

/-- An archive with a record and the first byte of a header behind it. -/
def tornArchive : Fs := .flat [(nameA, .file (oneRecord ++ [0]))]

/-- The record of the torn archive is listed and found. -/
theorem listing_extraction_agree_torn : ∃ tr₀ s₀ tr s',
    Runs exec (.boot tornArchive 0o22) (displayArchiveContents nameA) tr₀ s₀ (.ret ()) ∧
    Runs exec (.boot tornArchive 0o22) (extractAndRemoveFile nameA nameB) tr s' (.ret ()) ∧
    selected nameB (observe exec (seen archiveFd) (.boot tornArchive 0o22) tr) =
      (displayed archiveFd (.boot tornArchive 0o22) tr₀).find? (fun x => x.2.path = nameB) ∧
    ∃ x ∈ displayed archiveFd (.boot tornArchive 0o22) tr₀, x.2.path = nameB := by
  have hlist : ((displayArchiveContents nameA).run exec OutcomeOk (fun _ => .ok) 60
      (.boot tornArchive 0o22)).map (fun _ => ()) = some () := by decide +kernel
  have hextract : ((extractAndRemoveFile nameA nameB).run exec OutcomeOk (fun _ => .ok) 60
      (.boot tornArchive 0o22)).map (fun p => decide (notFoundLine nameB ∈ p.1.proc.stdout)) =
      some false := by decide +kernel
  obtain ⟨tr₀, s₀, _, hlisted, hok, -⟩ := exists_run_of_map hlist
  obtain ⟨tr, s', _, hextracted, htr, hfound⟩ := exists_run_of_map hextract
  obtain ⟨-, hagree⟩ := listing_extraction_agree rfl hlisted hok
  obtain ⟨hsel, hmissing⟩ := (hagree nameB 0o22).2 tr s' hextracted fun ev hev _ => htr ev hev
  refine ⟨tr₀, s₀, tr, s', hlisted, hextracted, hsel, ?_⟩
  by_contra hnone
  push Not at hnone
  exact of_decide_eq_false hfound (hmissing.mpr hnone)

end LabsOS.Archiver
