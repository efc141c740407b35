import LabsOS.CatGrep.Streams

/-!
# What mygrep prints

`mygrep` hands each line to the matcher with its newline, prints what is selected as it
was read, and combines the results of the files by `|`. So its output is the selected
lines, and the exit status that of a search in which every file had one.

* `searchStreamPattern_eq`              — the lines that are printed, and the status.
* `searchStreamPattern_by_content_iff`  — when lines are selected by their content.
* `patternSearcherMain_status_iff`      — when the status tells whether a line was printed.
* `patternSearcherMain_items_iff`       — when the output can be read line by line.
-/

namespace LabsOS.CatGrep

variable {re : Ere UInt8} {input : Bytes} {sourceName : Option CString} {multiSource : Bool}
variable {io : Console} {env : Env} {argv0 pattern : CString} {files : List CString}
variable {regcomp : CString → Option (Ere UInt8)} {content : CString → Bytes}

/-- The line is selected: the matcher sees it up to its first NUL, newline included. -/
def Selected (re : Ere UInt8) (line : Bytes) : Prop := regexec re (cstr line) = true

instance (re : Ere UInt8) (line : Bytes) : Decidable (Selected re line) :=
  inferInstanceAs (Decidable (_ = _))

/-- The selected lines of a stream. -/
def selectedLines (re : Ere UInt8) (input : Bytes) : List Bytes :=
  (lines newline input).filter (Selected re ·)

/-- What stands in front of a selected line. -/
def sourcePrefix (sourceName : Option CString) (multiSource : Bool) : Bytes :=
  match multiSource, sourceName with
  | true, some name => name.bytes ++ ascii ":"
  | _, _ => []

-- ---------------------------------------------------------------------------
-- One stream
-- ---------------------------------------------------------------------------

/-- A line is printed and remembered if it is selected. -/
theorem searchLine_eq (found : Bool) (io : Console) (c : Bytes) :
    searchLine re sourceName multiSource found io (lineBuffer c) =
      if Selected re c then (true, io.printf (sourcePrefix sourceName multiSource ++ cstr c))
      else (found, io) := by
  unfold searchLine sourcePrefix
  rw [cstr_lineBuffer]
  cases multiSource <;> cases sourceName <;> rfl

theorem foldl_searchLine (L : List Bytes) (found : Bool) (io : Console) :
    L.foldl (fun (st : Bool × Console) line =>
      searchLine re sourceName multiSource st.1 st.2 (lineBuffer line)) (found, io) =
    (found || L.any (Selected re ·),
      { io with stdout := io.stdout ++ (L.filter (Selected re ·)).map fun c =>
          sourcePrefix sourceName multiSource ++ cstr c }) := by
  induction L generalizing found io with
  | nil => simp
  | cons c L ih =>
    rw [List.foldl_cons, searchLine_eq]
    by_cases hc : Selected re c
    · rw [if_pos hc, ih]
      simp [Console.printf, hc]
    · rw [if_neg hc, ih]
      simp [hc]

/-- `search_stream_pattern` prints the selected lines, and returns 0 if there is one. -/
theorem searchStreamPattern_eq (re : Ere UInt8) (input : Bytes) (sourceName : Option CString)
    (multiSource : Bool) (io : Console) :
    searchStreamPattern re input sourceName multiSource io =
      (if selectedLines re input = [] then 1 else 0,
        { io with stdout := io.stdout ++ (selectedLines re input).map fun c =>
            sourcePrefix sourceName multiSource ++ cstr c }) := by
  unfold searchStreamPattern
  rw [whileGetline_eq, foldl_searchLine, Bool.false_or]
  by_cases h : selectedLines re input = []
  · have hany : (lines newline input).any (Selected re ·) = false := by
      rw [selectedLines, List.filter_eq_nil_iff] at h
      rw [List.any_eq_false]
      exact h
    simp only [hany, h, if_true, Bool.false_eq_true, if_false]
    rw [← h]
    rfl
  · have hany : (lines newline input).any (Selected re ·) = true := by
      obtain ⟨c, hc⟩ := List.exists_mem_of_ne_nil _ h
      exact List.any_eq_true.mpr ⟨c, (List.mem_filter.mp hc).1, (List.mem_filter.mp hc).2⟩
    simp only [hany, if_true, if_neg h]
    rfl

theorem text_append_prints (io : Console) (L : List Bytes) :
    ({ io with stdout := io.stdout ++ L } : Console).text = io.text ++ L.flatten :=
  List.flatten_append

theorem map_printed {L : List Bytes} (h : ∀ c ∈ L, (0 : UInt8) ∉ c) (pre : Bytes) :
    (L.map fun c => pre ++ cstr c) = L.map (pre ++ ·) := by
  apply List.map_congr_left
  intro c hc
  rw [cstr_of_noNul (h c hc)]

-- ---------------------------------------------------------------------------
-- Selection by content
-- ---------------------------------------------------------------------------

/-- The lines whose content the expression matches. -/
def matchingLines (re : Ere UInt8) (input : Bytes) : List Bytes :=
  (lines newline input).filter fun c => Ere.Found (body newline c) re

/-- The expression gives the line with its newline another answer than its content only
if no match in the line is clear of its end, and the content and the line with the
newline differ in having a match that goes up to the end. -/
theorem selected_iff_found {b : Bytes} (h0 : (0 : UInt8) ∉ b ++ [newline]) :
    (Selected re (b ++ [newline]) ↔ Ere.Found b re) ↔
      (¬ Ere.Found b re.withoutEol →
        (Ere.ReachesEnd b re ↔ Ere.ReachesEnd (b ++ [newline]) re)) := by
  have hcontent := Ere.found_iff (s := b) (e := re)
  have hline := Ere.found_concat (e := re) b newline
  rw [Selected, cstr_of_noNul h0, regexec, Ere.search_iff]
  tauto

/-- `a$`. -/
def endsInA : Ere UInt8 := .cat (.item (· = 97)) .eol

/-- What `pattern_searcher_main` prints for a file. -/
def printedLines (re : Ere UInt8) (multiSource : Bool) (f : CString) (input : Bytes) :
    List Bytes :=
  (selectedLines re input).map fun c => sourcePrefix (some f) multiSource ++ cstr c

theorem searchFilePattern_eq (hcomp : regcomp pattern = some re) {f : CString}
    (hf : env.fopen f = .ok (content f)) :
    searchFilePattern env regcomp pattern f multiSource io =
      (if selectedLines re (content f) = [] then 1 else 0,
        { io with stdout := io.stdout ++ printedLines re multiSource f (content f) }) := by
  unfold searchFilePattern
  rw [hf, hcomp]
  exact searchStreamPattern_eq re (content f) (some f) multiSource io

/-- The loop over the files: the lines of each, and 0 only if each had one. -/
theorem foldl_searchFilePattern (hcomp : regcomp pattern = some re)
    (hfiles : ∀ f ∈ files, env.fopen f = .ok (content f)) (status : Word) (io : Console) :
    files.foldl
      (fun (st : Word × Console) filename =>
        let (status, io) := searchFilePattern env regcomp pattern filename multiSource st.2
        (st.1 ||| status, io)) (status, io) =
    (files.foldl (fun st f => st ||| if selectedLines re (content f) = [] then 1 else 0) status,
      { io with stdout :=
          io.stdout ++ files.flatMap fun f => printedLines re multiSource f (content f) }) := by
  induction files generalizing status io with
  | nil => simp
  | cons f files ih =>
    rw [List.forall_mem_cons] at hfiles
    rw [List.foldl_cons, searchFilePattern_eq hcomp hfiles.1, ih hfiles.2, List.foldl_cons]
    simp

/-- The results are combined to 0 exactly when all of them are. -/
theorem foldl_or_eq_zero {α : Type} (l : List α) (p : α → Prop) [DecidablePred p] (status : Word) :
    l.foldl (fun st x => st ||| if p x then 1 else 0) status = 0 ↔ status = 0 ∧ ∀ x ∈ l, ¬ p x := by
  induction l generalizing status with
  | nil => simp
  | cons x l ih =>
    have hor : (status ||| if p x then 1 else 0) = 0 ↔ status = 0 ∧ ¬ p x := by
      by_cases hp : p x
      · simp [hp]
      · simp [hp]
    rw [List.foldl_cons, ih, hor, List.forall_mem_cons, and_assoc]

theorem patternSearcherMain_stdin (hcomp : regcomp pattern = some re) :
    patternSearcherMain env regcomp argv0 [pattern] io =
      (0, { io with stdout := io.stdout ++ (selectedLines re env.stdin).map cstr }) := by
  unfold patternSearcherMain searchInputPattern
  simp only [hcomp, if_true, searchStreamPattern_eq]
  rfl

theorem patternSearcherMain_files (content : CString → Bytes) (hcomp : regcomp pattern = some re)
    (hfiles : ∀ f ∈ files, env.fopen f = .ok (content f)) (hne : files ≠ []) :
    patternSearcherMain env regcomp argv0 (pattern :: files) io =
    (files.foldl (fun st f => st ||| if selectedLines re (content f) = [] then 1 else 0) 0,
      { io with stdout := io.stdout ++
          files.flatMap fun f => printedLines re (decide (2 ≤ files.length)) f (content f) }) := by
  have hmulti : decide ((pattern :: files).length + 1 > 3) = decide (2 ≤ files.length) :=
    decide_eq_decide.mpr (by simp only [List.length_cons]; omega)
  unfold patternSearcherMain
  simp only [if_neg hne, hmulti]
  exact foldl_searchFilePattern hcomp hfiles 0 io

/-- **Exit status.** It tells whether a line was printed exactly when the standard input has
a selected line, or every file has one, or no file. A file is searched with the same
status as the same bytes on the standard input exactly when they have a selected line. -/
theorem patternSearcherMain_status_iff (env : Env) (regcomp : CString → Option (Ere UInt8))
    (argv0 : CString) (io : Console) (content : CString → Bytes) (hcomp : regcomp pattern = some re)
    (hfiles : ∀ f ∈ files, env.fopen f = .ok (content f)) :
    (((patternSearcherMain env regcomp argv0 (pattern :: files) io).1 = 0 ↔
        (patternSearcherMain env regcomp argv0 (pattern :: files) io).2.stdout ≠ io.stdout) ↔
      (files = [] ∧ selectedLines re env.stdin ≠ []) ∨
      (files ≠ [] ∧ ((∀ f ∈ files, selectedLines re (content f) ≠ []) ∨
        ∀ f ∈ files, selectedLines re (content f) = []))) ∧
    ∀ f ∈ files, ((patternSearcherMain env regcomp argv0 [pattern, f] io).1 =
        (patternSearcherMain { env with stdin := content f } regcomp argv0 [pattern] io).1 ↔
      selectedLines re (content f) ≠ []) := by
  refine ⟨?_, ?_⟩
  · by_cases hne : files = []
    · subst hne
      rw [patternSearcherMain_stdin hcomp]
      simp
    · have hprinted : io.stdout ++ (files.flatMap fun f =>
          printedLines re (decide (2 ≤ files.length)) f (content f)) ≠ io.stdout ↔
          ¬ ∀ f ∈ files, selectedLines re (content f) = [] := by
        simp [printedLines]
      rw [patternSearcherMain_files content hcomp hfiles hne, foldl_or_eq_zero, hprinted]
      obtain ⟨f, hf⟩ := List.exists_mem_of_ne_nil _ hne
      constructor
      · intro h
        by_cases hall : ∀ f ∈ files, selectedLines re (content f) = []
        · exact .inr ⟨hne, .inr hall⟩
        · exact .inr ⟨hne, .inl (h.mpr hall).2⟩
      · rintro (⟨hnil, -⟩ | ⟨-, hall | hnone⟩)
        · exact absurd hnil hne
        · exact iff_of_true ⟨rfl, hall⟩ fun hnone => hall f hf (hnone f hf)
        · exact iff_of_false (fun hall => hall.2 f hf (hnone f hf)) fun h => h hnone
  · intro f hf
    rw [patternSearcherMain_stdin hcomp,
      patternSearcherMain_files content hcomp (by simpa using hfiles f hf) (List.cons_ne_nil _ _)]
    by_cases h : selectedLines re (content f) = []
    · simp [h]
    · simp [h]

/-- The pattern `x`. -/
def compileX (p : CString) : Option (Ere UInt8) :=
  if p.bytes = ascii "x" then some (.item (· = 120)) else none

/-- The files `a`, without a newline at the end, `b` and others. -/
def sampleContent (f : CString) : Bytes :=
  if f.bytes = ascii "a" then ascii "x"
  else if f.bytes = ascii "b" then ascii "x\n"
  else ascii "y\n"

def sampleFiles : Env := ⟨fun f => .ok (sampleContent f), ascii "y\n"⟩

/-- A line of `b` is printed and the status is 1; nothing is found on the standard input and
the status is 0. -/
theorem patternSearcherMain_status_wrong :
    ¬ ((patternSearcherMain sampleFiles compileX ⟨[], by decide⟩
          [⟨ascii "x", by decide⟩, ⟨ascii "b", by decide⟩, ⟨ascii "c", by decide⟩] ⟨[], []⟩).1 = 0 ↔
        (patternSearcherMain sampleFiles compileX ⟨[], by decide⟩
          [⟨ascii "x", by decide⟩, ⟨ascii "b", by decide⟩, ⟨ascii "c", by decide⟩]
          ⟨[], []⟩).2.stdout ≠ []) ∧
    ¬ ((patternSearcherMain sampleFiles compileX ⟨[], by decide⟩
          [⟨ascii "x", by decide⟩] ⟨[], []⟩).1 = 0 ↔
        (patternSearcherMain sampleFiles compileX ⟨[], by decide⟩
          [⟨ascii "x", by decide⟩] ⟨[], []⟩).2.stdout ≠ []) := by
  rw [patternSearcherMain_files sampleContent rfl (fun _ _ => rfl) (by decide),
    patternSearcherMain_stdin rfl]
  decide

/-- Both files have a selected line. -/
theorem patternSearcherMain_status_both :
    (patternSearcherMain sampleFiles compileX ⟨[], by decide⟩
        [⟨ascii "x", by decide⟩, ⟨ascii "a", by decide⟩, ⟨ascii "b", by decide⟩] ⟨[], []⟩).1 = 0 ↔
      (patternSearcherMain sampleFiles compileX ⟨[], by decide⟩
        [⟨ascii "x", by decide⟩, ⟨ascii "a", by decide⟩, ⟨ascii "b", by decide⟩]
        ⟨[], []⟩).2.stdout ≠ [] :=
  (patternSearcherMain_status_iff sampleFiles compileX _ _ sampleContent rfl
    (fun _ _ => rfl)).1.mpr (.inr ⟨by decide, .inl (by decide)⟩)

-- ---------------------------------------------------------------------------
-- Items
-- ---------------------------------------------------------------------------

theorem isLine_append {pre c : Bytes} (hpre : newline ∉ pre) (hc : IsLine newline c) :
    IsLine newline (pre ++ c) := by
  rcases hc with ⟨b, hb, rfl⟩ | hc
  · refine .inl ⟨pre ++ b, ?_, (List.append_assoc ..).symm⟩
    simpa using ⟨hpre, hb⟩
  · exact .inr ⟨List.append_ne_nil_of_right_ne_nil pre hc.1, by simpa using ⟨hpre, hc.2⟩⟩

theorem terminated_append_iff {pre c : Bytes} (hpre : newline ∉ pre) (hc : IsLine newline c) :
    Terminated newline (pre ++ c) ↔ Terminated newline c := by
  rcases hc with ⟨b, hb, rfl⟩ | hc
  · refine iff_of_true ⟨pre ++ b, ?_, (List.append_assoc ..).symm⟩ ⟨b, hb, rfl⟩
    simpa using ⟨hpre, hb⟩
  · refine iff_of_false (fun h => ?_) fun h => h.not_unterminated hc
    exact h.not_unterminated ⟨List.append_ne_nil_of_right_ne_nil pre hc.1, by
      simpa using ⟨hpre, hc.2⟩⟩

theorem body_append {pre c : Bytes} (hc : IsLine newline c) :
    body newline (pre ++ c) = pre ++ body newline c := by
  have hlast : (pre ++ c).getLast? = c.getLast? := List.getLast?_append_of_ne_nil _ hc.ne_nil
  unfold body
  rw [hlast, List.dropLast_append_of_ne_nil hc.ne_nil]
  split <;> rfl

/-- The items a user expects: `name:content` for each selected line of each file. -/
def expectedItems (re : Ere UInt8) (content : CString → Bytes) (files : List CString) :
    List Bytes :=
  files.flatMap fun f => (selectedLines re (content f)).map fun c =>
    f.bytes ++ ascii ":" ++ body newline c

/-- The selected lines of a file with its name in front. -/
def itemLines (re : Ere UInt8) (content : CString → Bytes) (f : CString) : List Bytes :=
  (selectedLines re (content f)).map (f.bytes ++ ascii ":" ++ ·)

/-- The last line of the stream has no newline, and is selected. -/
def OpenEnded (re : Ere UInt8) (input : Bytes) : Prop :=
  ∃ c ∈ selectedLines re input, Unterminated newline c

section ItemLines

variable {f g : CString} {c : Bytes}

theorem isLine_of_mem_selectedLines (hc : c ∈ selectedLines re input) : IsLine newline c :=
  isLine_of_mem_lines (List.mem_filter.mp hc).1

theorem newline_notMem_named (hname : newline ∉ f.bytes) : newline ∉ f.bytes ++ ascii ":" := by
  intro hm
  rcases List.mem_append.mp hm with hm | hm
  · exact hname hm
  · exact absurd hm (by decide)

theorem isLine_of_mem_itemLines (hname : newline ∉ f.bytes) (hc : c ∈ itemLines re content f) :
    IsLine newline c := by
  obtain ⟨d, hd, rfl⟩ := List.mem_map.mp hc
  exact isLine_append (newline_notMem_named hname) (isLine_of_mem_selectedLines hd)

theorem expectedItems_eq (re : Ere UInt8) (content : CString → Bytes) (files : List CString) :
    expectedItems re content files =
      (files.flatMap (itemLines re content)).map (body newline) := by
  rw [List.map_flatMap]
  apply List.flatMap_congr
  intro f _
  rw [itemLines, List.map_map]
  apply List.map_congr_left
  intro c hc
  exact (body_append (isLine_of_mem_selectedLines hc)).symm

/-- Within a file only the last line can be without newline. -/
theorem pairwise_itemLines (hname : newline ∉ f.bytes) :
    (itemLines re content f).Pairwise fun c _ => Terminated newline c := by
  refine List.pairwise_map.mpr (((pairwise_terminated_lines (content f)).filter _).imp_of_mem ?_)
  intro c d hc _ h
  exact (terminated_append_iff (newline_notMem_named hname)
    (isLine_of_mem_selectedLines hc)).mpr h

/-- The lines of `f` are terminated where a line of `g` follows. -/
theorem terminated_itemLines_iff (hname : newline ∉ f.bytes) :
    (∀ x ∈ itemLines re content f, ∀ y ∈ itemLines re content g, Terminated newline x) ↔
      (OpenEnded re (content f) → selectedLines re (content g) = []) := by
  have hpre := newline_notMem_named hname
  constructor
  · rintro h ⟨c, hc, hopen⟩
    by_contra hsome
    obtain ⟨d, hd⟩ := List.exists_mem_of_ne_nil _ hsome
    have hterm := h _ (List.mem_map_of_mem hc) _ (List.mem_map_of_mem hd)
    exact ((terminated_append_iff hpre (isLine_of_mem_selectedLines hc)).mp
      hterm).not_unterminated hopen
  · intro h x hx y hy
    obtain ⟨c, hc, rfl⟩ := List.mem_map.mp hx
    rw [terminated_append_iff hpre (isLine_of_mem_selectedLines hc)]
    apply (isLine_of_mem_selectedLines hc).resolve_right
    intro hopen
    rw [itemLines, h ⟨c, hc, hopen⟩] at hy
    cases hy

end ItemLines

/-- **Items.** The output over several files can be read line by line exactly when no file
that ends with a selected line without newline stands in front of one with a selected
line. -/
theorem patternSearcherMain_items_iff (env : Env) (regcomp : CString → Option (Ere UInt8))
    (argv0 : CString) (content : CString → Bytes) (hcomp : regcomp pattern = some re)
    (hfiles : ∀ f ∈ files, env.fopen f = .ok (content f)) (hmany : 2 ≤ files.length)
    (hnames : ∀ f ∈ files, newline ∉ f.bytes) (hnul : ∀ f ∈ files, (0 : UInt8) ∉ content f) :
    (lines newline (patternSearcherMain env regcomp argv0 (pattern :: files) ⟨[], []⟩).2.text).map
        (body newline) = expectedItems re content files ↔
      files.Pairwise fun f g => OpenEnded re (content f) → selectedLines re (content g) = [] := by
  have hne : files ≠ [] := by
    rintro rfl
    simp at hmany
  have hprinted : ∀ f ∈ files, printedLines re (decide (2 ≤ files.length)) f (content f) =
      itemLines re content f := by
    intro f hf
    rw [decide_eq_true hmany]
    exact map_printed (fun c hc => noNul_of_mem_lines (hnul f hf) (List.mem_filter.mp hc).1) _
  have htext : (patternSearcherMain env regcomp argv0 (pattern :: files) ⟨[], []⟩).2.text =
      (files.flatMap (itemLines re content)).flatten := by
    rw [patternSearcherMain_files content hcomp hfiles hne, text_append_prints,
      List.flatMap_congr hprinted]
    rfl
  have hitems : ∀ c ∈ files.flatMap (itemLines re content), IsLine newline c := by
    intro c hc
    obtain ⟨f, hf, hc⟩ := List.mem_flatMap.mp hc
    exact isLine_of_mem_itemLines (hnames f hf) hc
  rw [htext, expectedItems_eq, map_body_lines_flatten hitems, List.pairwise_flatMap,
    and_iff_right fun f hf => pairwise_itemLines (hnames f hf)]
  exact List.Pairwise.iff_of_mem fun {f g} hf _ => terminated_itemLines_iff (hnames f hf)

/-- The line of `a` and the line of `b` come out as one. -/
theorem patternSearcherMain_items_run_together :
    (lines newline (patternSearcherMain sampleFiles compileX ⟨[], by decide⟩
        [⟨ascii "x", by decide⟩, ⟨ascii "a", by decide⟩, ⟨ascii "b", by decide⟩]
        ⟨[], []⟩).2.text).map (body newline) ≠
      expectedItems (.item (· = 120)) sampleContent
        [⟨ascii "a", by decide⟩, ⟨ascii "b", by decide⟩] := by
  rw [patternSearcherMain_files sampleContent rfl (fun _ _ => rfl) (by decide)]
  decide

/-- In the other order they do not. -/
theorem patternSearcherMain_items_in_order :
    (lines newline (patternSearcherMain sampleFiles compileX ⟨[], by decide⟩
        [⟨ascii "x", by decide⟩, ⟨ascii "b", by decide⟩, ⟨ascii "a", by decide⟩]
        ⟨[], []⟩).2.text).map (body newline) =
      expectedItems (.item (· = 120)) sampleContent
        [⟨ascii "b", by decide⟩, ⟨ascii "a", by decide⟩] :=
  (patternSearcherMain_items_iff sampleFiles compileX _ sampleContent rfl (fun _ _ => rfl)
    (by decide) (by decide) (by decide)).mpr <| by
    apply List.pairwise_pair.mpr
    intro h
    obtain ⟨c, hc, hopen⟩ := h
    have hb : selectedLines (.item (· = 120)) (ascii "x\n") = [ascii "x\n"] := by decide
    have hcb : c = ascii "x\n" := List.mem_singleton.mp (hb ▸ hc)
    exact absurd (hcb ▸ hopen.2 : newline ∉ ascii "x\n") (by decide)

end LabsOS.CatGrep
