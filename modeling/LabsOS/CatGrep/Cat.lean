import LabsOS.CatGrep.Streams

/-!
# What mycat prints

The text of a line under a set of options, the text of a row of lines numbered from some
counter on, and that the functions of the program print it.
-/

namespace LabsOS.CatGrep

-- ---------------------------------------------------------------------------
-- The text of a line
-- ---------------------------------------------------------------------------

/-- The line gets a number. -/
def Numbered (optionsSet : Word) (line : Bytes) : Prop :=
  (hasFlag optionsSet nonblankNumFlag ∧ line.head? ≠ some newline) ∨
    (hasFlag optionsSet lineNumFlag ∧ ¬ hasFlag optionsSet nonblankNumFlag)

instance (optionsSet : Word) (line : Bytes) : Decidable (Numbered optionsSet line) :=
  inferInstanceAs (Decidable (_ ∨ _))

/-- The line behind its number. -/
def shown (optionsSet : Word) (line : Bytes) : Bytes :=
  if hasFlag optionsSet endMarkerFlag then cstr (body newline line) ++ ascii "$\n" else cstr line

def nextCounter (optionsSet counter : Word) (line : Bytes) : Word :=
  if Numbered optionsSet line then counter + 1 else counter

def lineText (optionsSet counter : Word) (line : Bytes) : Bytes :=
  (if Numbered optionsSet line then numberField counter else []) ++ shown optionsSet line

/-- A row of lines, numbered from `counter` on. -/
def numberedText (optionsSet : Word) : Word → List Bytes → Bytes
  | _, [] => []
  | counter, line :: rest =>
    lineText optionsSet counter line ++
      numberedText optionsSet (nextCounter optionsSet counter line) rest

variable {optionsSet counter : Word} {line : Bytes} {io : Console}

/-- The number in front of a line. -/
theorem displayNumber (hline : line ≠ []) :
    (if hasFlag optionsSet nonblankNumFlag ∧
        ¬ ((lineBuffer line).head? = some newline ∨ line.length = 0) then
      (counter + 1, io.printf (numberField counter))
    else if hasFlag optionsSet lineNumFlag ∧ ¬ hasFlag optionsSet nonblankNumFlag then
      (counter + 1, io.printf (numberField counter))
    else (counter, io)) =
    if Numbered optionsSet line then (counter + 1, io.printf (numberField counter))
    else (counter, io) := by
  have hhead : (lineBuffer line).head? = line.head? := List.head?_append_of_ne_nil _ hline
  have hlen : line.length ≠ 0 := fun h => hline (List.length_eq_zero_iff.mp h)
  rw [hhead]
  cases hb : hasFlag optionsSet nonblankNumFlag with
  | false => simp [Numbered, hb]
  | true => simp [Numbered, hb, hlen]

theorem cstr_cutNewline (b : Bytes) :
    cstr ((lineBuffer (b ++ [newline])).set ((b ++ [newline]).length - 1) 0) = cstr b := by
  have hset :
      (lineBuffer (b ++ [newline])).set ((b ++ [newline]).length - 1) 0 = b ++ 0 :: [0] := by
    simp [lineBuffer]
  rw [hset, cstr_append_nul]

/-- `display_text_line` prints the text of its line, and counts it if it is numbered. -/
theorem displayTextLine_spec (optionsSet counter : Word) (io : Console)
    (hline : IsLine newline line) :
    (displayTextLine (lineBuffer line) line.length optionsSet counter io).1 =
        nextCounter optionsSet counter line ∧
      (displayTextLine (lineBuffer line) line.length optionsSet counter io).2.text =
        io.text ++ lineText optionsSet counter line := by
  have hlen : 0 < line.length := List.length_pos_of_ne_nil hline.ne_nil
  unfold displayTextLine
  simp only [displayNumber hline.ne_nil]
  cases hE : hasFlag optionsSet endMarkerFlag with
  | false =>
    by_cases hnum : Numbered optionsSet line
    · simp [hE, hnum, nextCounter, lineText, shown, cstr_lineBuffer]
    · simp [hE, hnum, nextCounter, lineText, shown, cstr_lineBuffer]
  | true =>
    rcases hline with ⟨b, -, rfl⟩ | hu
    · have hlast : (lineBuffer (b ++ [newline]))[(b ++ [newline]).length - 1]? = some newline := by
        simp [lineBuffer]
      have hcut := cstr_cutNewline b
      by_cases hnum : Numbered optionsSet (b ++ [newline])
      · simp only [hE, hnum, hlast, hcut, hlen, nextCounter, lineText, shown, body_concat, if_true,
          and_self, text_printf, List.append_assoc]
      · simp only [hE, hnum, hlast, hcut, hlen, nextCounter, lineText, shown, body_concat, if_true,
          if_false, and_self, text_printf, List.nil_append]
    · have hlast : (lineBuffer line)[line.length - 1]? ≠ some newline := by
        rw [lineBuffer, List.getElem?_append_left (by omega)]
        exact fun h => hu.2 (List.mem_of_getElem? h)
      by_cases hnum : Numbered optionsSet line
      · simp [hE, hnum, hlast, nextCounter, lineText, shown, body_unterminated hu,
          cstr_lineBuffer]
      · simp [hE, hnum, hlast, nextCounter, lineText, shown, body_unterminated hu,
          cstr_lineBuffer]

-- ---------------------------------------------------------------------------
-- The text of a stream
-- ---------------------------------------------------------------------------

/-- The loop prints the lines, numbered from the counter it starts with. -/
theorem foldl_displayTextLine {L : List Bytes} (hL : ∀ c ∈ L, IsLine newline c) :
    (L.foldl (fun (st : Word × Console) line =>
      displayTextLine (lineBuffer line) line.length optionsSet st.1 st.2) (counter, io)).2.text =
      io.text ++ numberedText optionsSet counter L := by
  induction L generalizing counter io with
  | nil => simp [numberedText]
  | cons c L ih =>
    rw [List.forall_mem_cons] at hL
    obtain ⟨hcounter, htext⟩ := displayTextLine_spec optionsSet counter io hL.1
    rw [List.foldl_cons, ih hL.2, hcounter, htext, numberedText, List.append_assoc]

theorem streamTextDisplay_text (inputStream : Bytes) :
    (streamTextDisplay inputStream optionsSet io).text =
      io.text ++ numberedText optionsSet 1 (lines newline inputStream) := by
  unfold streamTextDisplay
  rw [whileGetline_eq]
  exact foldl_displayTextLine fun c hc => isLine_of_mem_lines hc

-- ---------------------------------------------------------------------------
-- Without numbers
-- ---------------------------------------------------------------------------

/-- The stream with a `$` in front of each newline. -/
def markEnds (input : Bytes) : Bytes :=
  input.flatMap fun b => if b = newline then ascii "$\n" else [b]

theorem markEnds_of_notMem {b : Bytes} (h : newline ∉ b) : markEnds b = b := by
  have hall : ∀ x ∈ b, (if x = newline then ascii "$\n" else [x]) = [x] := by
    intro x hx
    exact if_neg fun hxn : x = newline => h (hxn ▸ hx)
  rw [markEnds, List.flatMap_congr hall, List.flatMap_singleton']

theorem markEnds_append (b c : Bytes) : markEnds (b ++ c) = markEnds b ++ markEnds c :=
  List.flatMap_append

theorem mem_markEnds {b : Bytes} {x : UInt8} (h : x ∈ b) : x ∈ markEnds b := by
  refine List.mem_flatMap.mpr ⟨x, h, ?_⟩
  split
  · next hx => exact hx ▸ (by decide : newline ∈ ascii "$\n")
  · exact List.mem_singleton_self x

theorem numberedText_unnumbered {L : List Bytes} (h : ∀ c, ¬ Numbered optionsSet c) :
    numberedText optionsSet counter L = L.flatMap (shown optionsSet) := by
  induction L generalizing counter with
  | nil => rfl
  | cons c L ih => rw [numberedText, lineText, if_neg (h c), ih, List.flatMap_cons, List.nil_append]

theorem text_no_option (L : List Bytes) : numberedText 0 counter L = L.flatMap cstr :=
  numberedText_unnumbered (by simp [Numbered, hasFlag])

theorem not_numbered_endMarker (c : Bytes) : ¬ Numbered endMarkerFlag c := by
  rintro (⟨hb, -⟩ | ⟨hn, -⟩)
  · exact absurd hb (by decide)
  · exact absurd hn (by decide)

theorem text_show_ends (L : List Bytes) :
    numberedText endMarkerFlag counter L =
      L.flatMap fun c => cstr (body newline c) ++ ascii "$\n" :=
  numberedText_unnumbered not_numbered_endMarker

/-- Without options the output is the input exactly when it contains no NUL. -/
theorem flatMap_cstr_lines_iff (input : Bytes) :
    (lines newline input).flatMap cstr = input ↔ (0 : UInt8) ∉ input := by
  constructor
  · intro h h0
    rw [← h, List.mem_flatMap] at h0
    obtain ⟨c, -, hc⟩ := h0
    exact zero_notMem_cstr c hc
  · intro h
    have hall : ∀ c ∈ lines newline input, cstr c = c := by
      intro c hc
      exact cstr_of_noNul (noNul_of_mem_lines h hc)
    rw [List.flatMap_congr hall, List.flatMap_id', flatten_lines]

theorem flatMap_marked_lines_iff {input : Bytes} (h : (0 : UInt8) ∉ input) :
    ((lines newline input).flatMap fun c => cstr (body newline c) ++ ascii "$\n") = markEnds input ↔
      ∀ c ∈ lines newline input, Terminated newline c := by
  induction input using line_induction newline with
  | nil => simp [markEnds]
  | last c hc =>
    rw [lines_unterminated hc, List.flatMap_singleton, body_unterminated hc, cstr_of_noNul h,
      markEnds_of_notMem hc.2, List.forall_mem_singleton]
    constructor
    · intro hlen
      have := congrArg List.length hlen
      simp [ascii] at this
    · intro ht
      exact absurd hc ht.not_unterminated
  | line c r hc ih =>
    obtain ⟨hc0, hr0⟩ := not_or.mp (mt List.mem_append.mpr h)
    obtain ⟨b, hb, hcb⟩ := id hc
    have hb0 : (0 : UInt8) ∉ b := fun hm => hc0 (hcb ▸ List.mem_append_left _ hm)
    have hmark : markEnds c = b ++ ascii "$\n" := by
      rw [hcb, markEnds_append, markEnds_of_notMem hb]
      rfl
    rw [lines_terminated hc, List.flatMap_cons, markEnds_append, hmark, hcb, body_concat, ← hcb,
      cstr_of_noNul hb0, List.append_cancel_left_eq, ih hr0, List.forall_mem_cons]
    exact (and_iff_right hc).symm

/-- **Transparency.** Without options the output is the input exactly when the input has
no NUL; with `-E` it is the input with its ends marked exactly when, besides, the last
line is not without its newline. -/
theorem streamTextDisplay_transparent_iff (input : Bytes) (io : Console) :
    ((streamTextDisplay input 0 io).text = io.text ++ input ↔ (0 : UInt8) ∉ input) ∧
    ((streamTextDisplay input endMarkerFlag io).text = io.text ++ markEnds input ↔
      (0 : UInt8) ∉ input ∧ (input = [] ∨ input.getLast? = some newline)) := by
  rw [streamTextDisplay_text, streamTextDisplay_text, List.append_cancel_left_eq,
    List.append_cancel_left_eq, text_no_option, text_show_ends]
  refine ⟨flatMap_cstr_lines_iff input, ?_⟩
  rw [← forall_terminated_lines_iff]
  constructor
  · intro h
    have h0 : (0 : UInt8) ∉ input := by
      intro hm
      have hmarked := mem_markEnds hm
      rw [← h, List.mem_flatMap] at hmarked
      obtain ⟨c, -, hc⟩ := hmarked
      rcases List.mem_append.mp hc with hc | hc
      · exact zero_notMem_cstr _ hc
      · exact absurd hc (by decide)
    exact ⟨h0, (flatMap_marked_lines_iff h0).mp h⟩
  · intro h
    exact (flatMap_marked_lines_iff h.1).mpr h.2

/-- A NUL hides the rest of its line, and `-E` adds a newline to a last line without. -/
theorem streamTextDisplay_not_transparent :
    (streamTextDisplay [97, 0, 98, 10] 0 ⟨[], []⟩).text ≠ [97, 0, 98, 10] ∧
    (streamTextDisplay [97] endMarkerFlag ⟨[], []⟩).text ≠ markEnds [97] := by
  rw [streamTextDisplay_text, streamTextDisplay_text]
  decide

end LabsOS.CatGrep
