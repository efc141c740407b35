import LabsOS.CatGrep.Cat

/-!
# Numbered lines

`mycat` numbers the lines of each file from 1 on. Within one stream the numbers run
without gap and the lines can be recovered from what is printed; over a list of files
they start again at every file, so the list is displayed like the concatenation of its
files only where the numbers would start again anyway.

* `textProcessorMain_text`       — what the program prints for a list of files.
* `textProcessorMain_numbering`  — the numbers of one stream.
* `textProcessorMain_concat_iff` — when a list of files is displayed like one file.
-/

namespace LabsOS.CatGrep

variable {env : Env} {argv0 : CString} {args args' operands : List CString}
variable {optionsSet counter : Word} {io : Console}

-- ---------------------------------------------------------------------------
-- The arguments
-- ---------------------------------------------------------------------------

/-- The arguments are well formed and ask for these options and operands. -/
def Asks (args : List CString) (optionsSet : Word) (operands : List CString) : Prop :=
  selectOptions (getoptLong catShortOpts catLongOpts args).1 0 = some optionsSet ∧
    (getoptLong catShortOpts catLongOpts args).2 = operands

/-- An option is among the arguments, in its short or its long form. -/
def Given (args : List CString) (letter : UInt8) : Prop :=
  some letter ∈ (getoptLong catShortOpts catLongOpts args).1

instance (letter : UInt8) : Decidable (Given args letter) := inferInstanceAs (Decidable (_ ∈ _))

theorem hasFlag_or (o f g : Word) : hasFlag (o ||| f) g = (hasFlag o g || hasFlag f g) := by
  have hor : (o ||| f) &&& g = 0 ↔ o &&& g = 0 ∧ f &&& g = 0 := by
    rw [BitVec.and_or_distrib_right]
    exact BitVec.or_eq_zero_iff
  rw [Bool.eq_iff_iff]
  simp only [hasFlag, bne_iff_ne, Bool.or_eq_true, ne_eq, hor]
  tauto

/-- The options select the flags they stand for, and no others. -/
theorem selectOptions_flags {options : List (Option UInt8)} {start : Word}
    (h : selectOptions options start = some optionsSet) :
    (hasFlag optionsSet lineNumFlag ↔ hasFlag start lineNumFlag ∨ some 110 ∈ options) ∧
    (hasFlag optionsSet nonblankNumFlag ↔ hasFlag start nonblankNumFlag ∨ some 98 ∈ options) ∧
    (hasFlag optionsSet endMarkerFlag ↔ hasFlag start endMarkerFlag ∨ some 69 ∈ options) := by
  fun_induction selectOptions options start with
  | case1 start =>
    obtain rfl := Option.some.inj h
    simp
  | case2 start options ih => simpa +decide [hasFlag_or] using ih h
  | case3 start options ih => simpa +decide [hasFlag_or] using ih h
  | case4 start options ih => simpa +decide [hasFlag_or] using ih h
  | case5 => cases h

theorem Asks.flags (h : Asks args optionsSet operands) :
    (hasFlag optionsSet lineNumFlag ↔ Given args 110) ∧
    (hasFlag optionsSet nonblankNumFlag ↔ Given args 98) ∧
    (hasFlag optionsSet endMarkerFlag ↔ Given args 69) := by
  have hflags := selectOptions_flags h.1
  have hzero : ∀ f, hasFlag 0 f = false := by simp [hasFlag]
  simp only [hzero, Bool.false_eq_true, false_or] at hflags
  exact hflags

-- ---------------------------------------------------------------------------
-- What the program prints
-- ---------------------------------------------------------------------------

/-- What is read from a file. -/
def Env.content (env : Env) (filename : CString) : Bytes :=
  match env.fopen filename with
  | .ok b => b
  | .error _ => []

theorem content_of_fopen {f : CString} {b : Bytes} (h : env.fopen f = .ok b) :
    env.content f = b := by
  rw [Env.content, h]

theorem processTextFile_text (f : CString) :
    (processTextFile env f optionsSet io).2.text =
      io.text ++ numberedText optionsSet 1 (lines newline (env.content f)) := by
  unfold processTextFile Env.content
  cases env.fopen f with
  | error reason => simp [numberedText]
  | ok b => exact streamTextDisplay_text b

theorem foldl_processTextFile_text (files : List CString) (status : Word) :
    (files.foldl
      (fun (st : Word × Console) filename =>
        let (status, io) := processTextFile env filename optionsSet st.2
        (st.1 ||| status, io)) (status, io)).2.text =
      io.text ++
        files.flatMap fun f => numberedText optionsSet 1 (lines newline (env.content f)) := by
  induction files generalizing io status with
  | nil => simp
  | cons f files ih =>
    rw [List.foldl_cons, ih, processTextFile_text, List.flatMap_cons, List.append_assoc]

/-- The program displays one file after the other, each numbered on its own. -/
theorem textProcessorMain_text (h : Asks args optionsSet operands) (hne : operands ≠ []) :
    (textProcessorMain env argv0 args io).2.text =
      io.text ++
        operands.flatMap fun f => numberedText optionsSet 1 (lines newline (env.content f)) := by
  obtain ⟨hoptions, rfl⟩ := h
  unfold textProcessorMain
  simp only [hoptions, if_neg hne]
  exact foldl_processTextFile_text _ _

/-- Without operands it displays the standard input. -/
theorem textProcessorMain_stdin (h : Asks args optionsSet []) :
    (textProcessorMain env argv0 args io).2.text =
      io.text ++ numberedText optionsSet 1 (lines newline env.stdin) := by
  obtain ⟨hoptions, hoperands⟩ := h
  unfold textProcessorMain
  simp only [hoptions, hoperands, if_true]
  exact streamTextDisplay_text _

-- ---------------------------------------------------------------------------
-- Number fields
-- ---------------------------------------------------------------------------

theorem notMem_padLeft {width : Nat} {text : Bytes} {x : UInt8} (hx : x ≠ 32) (h : x ∉ text) :
    x ∉ padLeft width text := by
  intro hm
  rcases List.mem_append.mp hm with hm | hm
  · exact hx (List.eq_of_mem_replicate hm)
  · exact h hm

theorem notMem_signedDecimal {z : Int} {x : UInt8} (h : x < 45) : x ∉ signedDecimal z := by
  intro hm
  rcases mem_signedDecimal hm with rfl | hx
  · exact absurd h (by decide)
  · exact UInt8.lt_irrefl x (UInt8.lt_of_lt_of_le (UInt8.lt_of_lt_of_le h (by decide)) hx.1)

/-- A number field ends at its tab. -/
theorem terminated_numberField (k : Word) : Terminated 9 (numberField k) :=
  ⟨_, notMem_padLeft (by decide) (notMem_signedDecimal (by decide)), rfl⟩

/-- Only the number 1 is printed as such. -/
theorem numberField_eq_one {k : Word} (h : numberField k = numberField 1) : k = 1 := by
  have hpad : padLeft 6 (signedDecimal k.toInt) = padLeft 6 [49] := List.append_cancel_right h
  have hspace : (32 : UInt8) ∉ signedDecimal k.toInt := notMem_signedDecimal (by decide)
  have hfilter : (signedDecimal k.toInt).filter (· ≠ 32) = [49] := by
    have := congrArg (List.filter (· ≠ 32)) hpad
    simpa [padLeft] using this
  have hself : (signedDecimal k.toInt).filter (· ≠ 32) = signedDecimal k.toInt := by
    rw [List.filter_eq_self]
    intro x hx
    exact decide_eq_true fun hx32 => hspace (hx32 ▸ hx)
  have hone : k.toInt = 1 := signedDecimal_eq_one (hself ▸ hfilter)
  exact BitVec.eq_of_toInt_eq hone

-- ---------------------------------------------------------------------------
-- One stream
-- ---------------------------------------------------------------------------

/-- A line as it is displayed. -/
structure ShownLine where
  number : Option Nat
  body : Bytes
  marker : Bool
  deriving DecidableEq, Repr

/-- A number in a field of six columns, and a tab. -/
def field (n : Nat) : Bytes := padLeft 6 (decimal n) ++ [9]

namespace ShownLine

/-- The displayed line without its newline. -/
def content (d : ShownLine) : Bytes :=
  (match d.number with
    | some n => field n
    | none => []) ++ d.body ++ if d.marker then [36] else []

def render (d : ShownLine) : Bytes := d.content ++ [newline]

end ShownLine

/-- The lines of a stream as they are displayed, numbered from `n` on. -/
def decorate (optionsSet : Word) : Nat → List Bytes → List ShownLine
  | _, [] => []
  | n, c :: L =>
    if Numbered optionsSet c then
      ⟨some n, body newline c, hasFlag optionsSet endMarkerFlag⟩ :: decorate optionsSet (n + 1) L
    else ⟨none, body newline c, hasFlag optionsSet endMarkerFlag⟩ :: decorate optionsSet n L

/-- A displayed line without its marker and its number. -/
def strip (numbers ends : Bool) (l : Bytes) : Bytes :=
  let l := if ends then l.dropLast else l
  if numbers && !l.isEmpty then (l.dropWhile (· ≠ 9)).drop 1 else l

/-- The displayed text without markers and numbers. -/
def undecorate (numbers ends : Bool) (text : Bytes) : Bytes :=
  (lines newline text).flatMap fun c => strip numbers ends (body newline c) ++ [newline]

variable {n : Nat} {L : List Bytes}

theorem numberField_ofNat (hn : n < 2 ^ 31) : numberField (BitVec.ofNat 32 n) = field n := by
  have htoNat : (BitVec.ofNat 32 n).toNat = n := by
    rw [BitVec.toNat_ofNat]
    omega
  have htoInt : (BitVec.ofNat 32 n).toInt = n := by
    rw [BitVec.toInt_eq_toNat_of_lt (by omega), htoNat]
  have hpos : ¬ (n : Int) < 0 := by omega
  rw [numberField, htoInt, signedDecimal, if_neg hpos, Int.toNat_natCast, field]

theorem body_append_newline {c : Bytes} (hc : Terminated newline c) :
    body newline c ++ [newline] = c := by
  obtain ⟨b, -, rfl⟩ := hc
  rw [body_concat]

theorem shown_eq {c : Bytes} (hc : Terminated newline c) (h0 : (0 : UInt8) ∉ c) :
    shown optionsSet c =
      body newline c ++ (if hasFlag optionsSet endMarkerFlag then [36] else []) ++ [newline] := by
  have hb0 : (0 : UInt8) ∉ body newline c := by
    intro hm
    exact h0 (body_append_newline hc ▸ List.mem_append_left _ hm)
  unfold shown
  cases hasFlag optionsSet endMarkerFlag with
  | false => simpa [cstr_of_noNul h0] using (body_append_newline hc).symm
  | true =>
    rw [if_pos rfl, if_pos rfl, cstr_of_noNul hb0, List.append_assoc]
    rfl

/-- What is printed is the displayed lines in a row. -/
theorem numberedText_eq_render (hL : ∀ c ∈ L, Terminated newline c)
    (h0 : ∀ c ∈ L, (0 : UInt8) ∉ c) (hn : n + L.length ≤ 2 ^ 31) :
    numberedText optionsSet (BitVec.ofNat 32 n) L =
      (decorate optionsSet n L).flatMap ShownLine.render := by
  induction L generalizing n with
  | nil => rfl
  | cons c L ih =>
    rw [List.forall_mem_cons] at hL h0
    rw [List.length_cons] at hn
    have hnext : BitVec.ofNat 32 n + 1 = BitVec.ofNat 32 (n + 1) := (BitVec.ofNat_add n 1).symm
    unfold numberedText lineText nextCounter decorate
    by_cases hc : Numbered optionsSet c
    · rw [if_pos hc, if_pos hc, if_pos hc, hnext, ih hL.2 h0.2 (by omega),
        numberField_ofNat (by omega), shown_eq hL.1 h0.1]
      simp [ShownLine.render, ShownLine.content]
    · rw [if_neg hc, if_neg hc, if_neg hc, ih hL.2 h0.2 (by omega), shown_eq hL.1 h0.1]
      simp [ShownLine.render, ShownLine.content]

theorem map_body_decorate (hL : ∀ c ∈ L, Terminated newline c) :
    (decorate optionsSet n L).map (fun d => d.body ++ [newline]) = L := by
  induction L generalizing n with
  | nil => rfl
  | cons c L ih =>
    rw [List.forall_mem_cons] at hL
    unfold decorate
    split
    · rw [List.map_cons, ih hL.2, body_append_newline hL.1]
    · rw [List.map_cons, ih hL.2, body_append_newline hL.1]

/-- The numbers run without gap. -/
theorem numbers_decorate : ∃ k, (decorate optionsSet n L).filterMap ShownLine.number =
    List.range' n k := by
  induction L generalizing n with
  | nil => exact ⟨0, rfl⟩
  | cons c L ih =>
    unfold decorate
    split
    · obtain ⟨k, hk⟩ := ih (n := n + 1)
      refine ⟨k + 1, ?_⟩
      rw [List.filterMap_cons, hk]
      rfl
    · obtain ⟨k, hk⟩ := ih (n := n)
      refine ⟨k, ?_⟩
      rw [List.filterMap_cons, hk]

/-- Each displayed line is one of the stream, numbered if that one is. -/
theorem mem_decorate {d : ShownLine} (hL : ∀ c ∈ L, Terminated newline c)
    (h : d ∈ decorate optionsSet n L) :
    (d.number.isSome ↔ (hasFlag optionsSet nonblankNumFlag ∧ d.body ≠ []) ∨
      (hasFlag optionsSet lineNumFlag ∧ ¬ hasFlag optionsSet nonblankNumFlag)) ∧
    d.marker = hasFlag optionsSet endMarkerFlag ∧ newline ∉ d.body := by
  induction L generalizing n with
  | nil => simp [decorate] at h
  | cons c L ih =>
    rw [List.forall_mem_cons] at hL
    obtain ⟨⟨b, hb, rfl⟩, hrest⟩ := hL
    have hblank : (b ++ [newline]).head? ≠ some newline ↔ b ≠ [] := by
      cases b with
      | nil => simp
      | cons x b =>
        have hx : x ≠ newline := fun hxn => hb (hxn ▸ List.mem_cons_self ..)
        simp [hx]
    unfold decorate at h
    split at h
    · next hc =>
      rcases List.mem_cons.mp h with rfl | h
      · refine ⟨?_, rfl, by rwa [body_concat]⟩
        rw [body_concat, ← hblank]
        exact iff_of_true rfl hc
      · exact ih hrest h
    · next hc =>
      rcases List.mem_cons.mp h with rfl | h
      · refine ⟨?_, rfl, by rwa [body_concat]⟩
        rw [body_concat, ← hblank]
        exact iff_of_false Bool.false_ne_true hc
      · exact ih hrest h

/-- Stripping a displayed line leaves its body. -/
theorem strip_content {d : ShownLine} {numbers : Bool} (hsome : d.number.isSome → numbers = true)
    (hnone : d.number = none → numbers = true → d.body = []) :
    strip numbers d.marker d.content = d.body := by
  have hends : (if d.marker then d.content.dropLast else d.content) =
      (match d.number with
        | some n => field n
        | none => []) ++ d.body := by
    unfold ShownLine.content
    cases d.marker with
    | false => simp
    | true => simp [List.dropLast_append_of_ne_nil]
  unfold strip
  rw [hends]
  cases hnum : d.number with
  | none =>
    cases numbers with
    | false => rfl
    | true => simp [hnone hnum rfl]
  | some n =>
    rw [hsome (by rw [hnum]; rfl)]
    have hall : ∀ x ∈ padLeft 6 (decimal n), decide (x ≠ 9) = true := by
      intro x hx
      have hdec : (9 : UInt8) ∉ decimal n := fun hm => absurd (mem_decimal hm).1 (by decide)
      exact decide_eq_true fun hx9 => notMem_padLeft (by decide) hdec (hx9 ▸ hx)
    have hdrop : (field n ++ d.body).dropWhile (· ≠ 9) = 9 :: d.body := by
      rw [field, List.append_assoc, List.dropWhile_append_of_pos hall]
      simp
    have hne : (field n ++ d.body).isEmpty = false := by simp [field]
    simp only [hne, Bool.not_false, Bool.and_self, if_true, hdrop, List.drop_succ_cons,
      List.drop_zero]

theorem terminated_render {d : ShownLine} (hbody : newline ∉ d.body) :
    Terminated newline d.render := by
  refine ⟨d.content, ?_, rfl⟩
  have hfield : ∀ n, newline ∉ field n := by
    intro n hm
    rcases List.mem_append.mp hm with hm | hm
    · have hdec : newline ∉ decimal n := fun hm => absurd (mem_decimal hm).1 (by decide)
      exact notMem_padLeft (by decide) hdec hm
    · exact absurd hm (by decide)
  intro hm
  rcases List.mem_append.mp hm with hm | hm
  · rcases List.mem_append.mp hm with hm | hm
    · cases hn : d.number with
      | none => simp [hn] at hm
      | some n => exact hfield n (by simpa [hn] using hm)
    · exact hbody hm
  · split at hm
    · exact absurd hm (by decide)
    · simp at hm

/-- What is displayed can be read back. -/
theorem undecorate_render (hL : ∀ c ∈ L, Terminated newline c) :
    undecorate (hasFlag optionsSet lineNumFlag || hasFlag optionsSet nonblankNumFlag)
        (hasFlag optionsSet endMarkerFlag)
        ((decorate optionsSet n L).flatMap ShownLine.render) = L.flatten := by
  have hmem := fun d (hd : d ∈ decorate optionsSet n L) => mem_decorate hL hd
  have hterm : ∀ c ∈ (decorate optionsSet n L).map ShownLine.render, Terminated newline c := by
    intro c hc
    obtain ⟨d, hd, rfl⟩ := List.mem_map.mp hc
    exact terminated_render (hmem d hd).2.2
  have hlines : lines newline ((decorate optionsSet n L).flatMap ShownLine.render) =
      (decorate optionsSet n L).map ShownLine.render := by
    rw [List.flatMap_def]
    exact lines_flatten (fun c hc => .inl (hterm c hc))
      (List.pairwise_of_forall_mem_list fun c hc _ _ => hterm c hc)
  have hstrip : ∀ d ∈ decorate optionsSet n L,
      strip (hasFlag optionsSet lineNumFlag || hasFlag optionsSet nonblankNumFlag)
        (hasFlag optionsSet endMarkerFlag) (body newline d.render) ++ [newline] =
        d.body ++ [newline] := by
    intro d hd
    obtain ⟨hnumber, hmarker, -⟩ := hmem d hd
    rw [ShownLine.render, body_concat, ← hmarker, strip_content]
    · intro hsome
      rcases hnumber.mp hsome with h | h
      · simp [h.1]
      · simp [h.1]
    · intro hnone hnumbers
      rw [hnone] at hnumber
      have hnot := mt hnumber.mpr Bool.false_ne_true
      cases hb : hasFlag optionsSet nonblankNumFlag with
      | false => simp_all
      | true => simp_all
  unfold undecorate
  rw [hlines, List.flatMap_map, List.flatMap_congr hstrip, List.flatMap_def, map_body_decorate hL]

/-- **Numbering.** A stream whose lines all have their newline is displayed line by line,
with its numbers running from 1 on, and can be read back from what is displayed. -/
theorem textProcessorMain_numbering (env : Env) (argv0 : CString) (io : Console)
    {stream : Bytes} (hargs : Asks args optionsSet operands)
    (hstream : operands = [] ∧ env.stdin = stream ∨
      ∃ f, operands = [f] ∧ env.fopen f = .ok stream)
    (hnul : (0 : UInt8) ∉ stream) (hend : stream = [] ∨ stream.getLast? = some newline)
    (hlen : (lines newline stream).length < 2 ^ 31) :
    ∃ displayed : List ShownLine,
      (textProcessorMain env argv0 args io).2.text =
        io.text ++ displayed.flatMap ShownLine.render ∧
      displayed.map (fun d => d.body ++ [newline]) = lines newline stream ∧
      (∀ d ∈ displayed, d.number.isSome ↔
        (Given args 98 ∧ d.body ≠ []) ∨ (Given args 110 ∧ ¬ Given args 98)) ∧
      (∃ k, displayed.filterMap ShownLine.number = List.range' 1 k) ∧
      (∀ d ∈ displayed, d.marker ↔ Given args 69) ∧
      undecorate (decide (Given args 110 ∨ Given args 98)) (decide (Given args 69))
        (displayed.flatMap ShownLine.render) = stream := by
  obtain ⟨hn, hb, hE⟩ := hargs.flags
  have hterm := forall_terminated_lines_iff.mpr hend
  have hmem := fun d (hd : d ∈ decorate optionsSet 1 (lines newline stream)) =>
    mem_decorate hterm hd
  have htext : (textProcessorMain env argv0 args io).2.text =
      io.text ++ numberedText optionsSet 1 (lines newline stream) := by
    rcases hstream with ⟨rfl, rfl⟩ | ⟨f, rfl, hf⟩
    · exact textProcessorMain_stdin hargs
    · rw [textProcessorMain_text hargs (List.cons_ne_nil _ _), List.flatMap_singleton,
        content_of_fopen hf]
  refine ⟨decorate optionsSet 1 (lines newline stream), ?_, map_body_decorate hterm, ?_,
    numbers_decorate, ?_, ?_⟩
  · rw [htext, ← numberedText_eq_render hterm (fun c hc => noNul_of_mem_lines hnul hc) (by omega)]
    rfl
  · intro d hd
    rw [← hb, ← hn]
    exact (hmem d hd).1
  · intro d hd
    rw [(hmem d hd).2.1, hE]
  · have hnumbers : decide (Given args 110 ∨ Given args 98) =
        (hasFlag optionsSet lineNumFlag || hasFlag optionsSet nonblankNumFlag) := by
      rw [Bool.eq_iff_iff, decide_eq_true_eq, Bool.or_eq_true, hn, hb]
    have hends : decide (Given args 69) = hasFlag optionsSet endMarkerFlag := by
      rw [Bool.eq_iff_iff, decide_eq_true_eq, hE]
    rw [hnumbers, hends, undecorate_render hterm, flatten_lines]

/-- Three lines on the standard input, the second of them blank. -/
def threeLines : Env where
  fopen _ := .error []
  stdin := ascii "a\n\nb\n"

/-- They are displayed by `-bn --show`. -/
theorem textProcessorMain_numbering_nonblank :
    ∃ displayed : List ShownLine,
      (textProcessorMain threeLines ⟨[], by decide⟩
        [⟨ascii "-bn", by decide⟩, ⟨ascii "--show", by decide⟩] ⟨[], []⟩).2.text =
        displayed.flatMap ShownLine.render ∧
      displayed.map (fun d => d.body ++ [newline]) = [ascii "a\n", ascii "\n", ascii "b\n"] ∧
      ∃ k, displayed.filterMap ShownLine.number = List.range' 1 k := by
  have hargs : Asks [⟨ascii "-bn", by decide⟩, ⟨ascii "--show", by decide⟩] 7 [] := ⟨rfl, rfl⟩
  obtain ⟨displayed, htext, hbodies, -, hnumbers, -⟩ :=
    textProcessorMain_numbering threeLines ⟨[], by decide⟩ ⟨[], []⟩ hargs (.inl ⟨rfl, rfl⟩)
      (by decide) (by decide) (by decide)
  exact ⟨displayed, htext, hbodies, hnumbers⟩

-- ---------------------------------------------------------------------------
-- A list of files
-- ---------------------------------------------------------------------------

/-- The counter behind a row of lines. -/
def counterAfter (optionsSet : Word) (counter : Word) (L : List Bytes) : Word :=
  L.foldl (nextCounter optionsSet) counter

/-- How many lines of a stream get a number. -/
def numberedCount (optionsSet : Word) (b : Bytes) : Nat :=
  (lines newline b).countP (Numbered optionsSet ·)

theorem numberedCount_endMarker (b : Bytes) : numberedCount endMarkerFlag b = 0 := by
  apply List.countP_eq_zero.mpr
  intro c _
  simpa using not_numbered_endMarker c

theorem counterAfter_eq (L : List Bytes) :
    counterAfter optionsSet counter L =
      counter + BitVec.ofNat 32 (L.countP (Numbered optionsSet ·)) := by
  induction L generalizing counter with
  | nil => simp [counterAfter]
  | cons c L ih =>
    show counterAfter optionsSet (nextCounter optionsSet counter c) L = _
    rw [ih, List.countP_cons, nextCounter]
    by_cases hc : Numbered optionsSet c
    · simp only [hc, if_true, decide_true, BitVec.ofNat_add, BitVec.add_assoc]
      rw [BitVec.add_comm 1]
      rfl
    · simp [hc]

theorem numberedText_append (L L' : List Bytes) :
    numberedText optionsSet counter (L ++ L') =
      numberedText optionsSet counter L ++
        numberedText optionsSet (counterAfter optionsSet counter L) L' := by
  induction L generalizing counter with
  | nil => rfl
  | cons c L ih =>
    rw [List.cons_append, numberedText, ih, numberedText, List.append_assoc]
    rfl

/-- Two texts that number the same lines from 1 and from `counter` on are the same only
if there is no line to number or the counters are. -/
theorem numberedText_append_inj (L : List Bytes) (A B : Bytes) :
    numberedText optionsSet 1 L ++ A = numberedText optionsSet counter L ++ B ↔
      (L.countP (Numbered optionsSet ·) ≠ 0 → counter = 1) ∧ A = B := by
  induction L with
  | nil => simp [numberedText]
  | cons c L ih =>
    by_cases hc : Numbered optionsSet c
    · have hpos : (c :: L).countP (Numbered optionsSet ·) ≠ 0 := by
        simp [hc]
      constructor
      · intro h
        simp only [numberedText, lineText, if_pos hc, List.append_assoc] at h
        obtain ⟨hfield, -⟩ :=
          terminated_prefix_unique (terminated_numberField 1) (terminated_numberField counter) h
        obtain rfl := numberField_eq_one hfield.symm
        exact ⟨fun _ => rfl, by simpa using h⟩
      · intro h
        rw [h.1 hpos, h.2]
    · have hcount : (c :: L).countP (Numbered optionsSet ·) =
          L.countP (Numbered optionsSet ·) := by
        simp [hc]
      rw [hcount, ← ih]
      simp only [numberedText, lineText, nextCounter, if_neg hc, List.nil_append, List.append_assoc,
        List.append_cancel_left_eq]

/-- A list of files against their lines in a row. -/
theorem flatMap_numberedText_iff {α : Type} (files : List α) (lns : α → List Bytes) :
    (files.flatMap fun f => numberedText optionsSet 1 (lns f)) =
        numberedText optionsSet counter (files.flatMap lns) ↔
      ∀ pre f post, files = pre ++ f :: post → (lns f).countP (Numbered optionsSet ·) ≠ 0 →
        counterAfter optionsSet counter (pre.flatMap lns) = 1 := by
  induction files generalizing counter with
  | nil => simp [numberedText]
  | cons f files ih =>
    rw [List.flatMap_cons, List.flatMap_cons, numberedText_append, numberedText_append_inj, ih]
    constructor
    · rintro ⟨hf, hrest⟩ pre g post heq hg
      cases pre with
      | nil =>
        obtain ⟨rfl, -⟩ := List.cons.inj heq
        exact hf hg
      | cons g' pre =>
        obtain ⟨rfl, hfiles⟩ := List.cons.inj heq
        have h := hrest pre g post hfiles hg
        rw [List.flatMap_cons, counterAfter, List.foldl_append]
        exact h
    · intro h
      refine ⟨h [] f files rfl, fun pre g post heq hg => ?_⟩
      have h' := h (f :: pre) g post (by rw [heq, List.cons_append]) hg
      rw [List.flatMap_cons, counterAfter, List.foldl_append] at h'
      exact h'

theorem lines_flatMap {α : Type} (files : List α) (b : α → Bytes)
    (h : ∀ f ∈ files, b f = [] ∨ (b f).getLast? = some newline) :
    lines newline (files.flatMap b) = files.flatMap fun f => lines newline (b f) := by
  induction files with
  | nil => rfl
  | cons f files ih =>
    rw [List.forall_mem_cons] at h
    rw [List.flatMap_cons, List.flatMap_cons, lines_append (forall_terminated_lines_iff.mpr h.1),
      ih h.2]

theorem counterAfter_eq_one_iff (files : List CString) (b : CString → Bytes) :
    counterAfter optionsSet 1 (files.flatMap fun f => lines newline (b f)) = 1 ↔
      2 ^ 32 ∣ (files.map fun f => numberedCount optionsSet (b f)).sum := by
  have hsum : (files.flatMap fun f => lines newline (b f)).countP (Numbered optionsSet ·) =
      (files.map fun f => numberedCount optionsSet (b f)).sum := List.countP_flatMap
  rw [counterAfter_eq, hsum, BitVec.add_right_eq_self, ← BitVec.toNat_inj, BitVec.toNat_ofNat]
  exact Nat.dvd_iff_mod_eq_zero.symm

/-- **A list of files and their concatenation.** They are displayed alike exactly when
each file with a line to number stands behind a number of them that the counter does not
tell from 0. -/
theorem textProcessorMain_concat_iff (env : Env) (argv0 : CString) (io : Console)
    {first whole : CString} {rest : List CString} (content : CString → Bytes)
    (hargs : Asks args optionsSet (first :: rest))
    (hargs' : Asks args' optionsSet [whole])
    (hfiles : ∀ f ∈ first :: rest, env.fopen f = .ok (content f))
    (hwhole : env.fopen whole = .ok ((first :: rest).flatMap content))
    (hend : ∀ f ∈ first :: rest, content f = [] ∨ (content f).getLast? = some newline) :
    (textProcessorMain env argv0 args io).2.text =
        (textProcessorMain env argv0 args' io).2.text ↔
      ∀ pre f post, first :: rest = pre ++ f :: post → numberedCount optionsSet (content f) ≠ 0 →
        2 ^ 32 ∣ (pre.map fun g => numberedCount optionsSet (content g)).sum := by
  have hcontent : ∀ f ∈ first :: rest, numberedText optionsSet 1 (lines newline (env.content f)) =
      numberedText optionsSet 1 (lines newline (content f)) := by
    intro f hf
    rw [content_of_fopen (hfiles f hf)]
  rw [textProcessorMain_text hargs (List.cons_ne_nil _ _),
    textProcessorMain_text hargs' (List.cons_ne_nil _ _), List.append_cancel_left_eq,
    List.flatMap_singleton, content_of_fopen hwhole, List.flatMap_congr hcontent,
    lines_flatMap _ _ hend, flatMap_numberedText_iff]
  simp only [counterAfter_eq_one_iff]
  rfl

/-- The files `a`, `b`, and `c`, which holds the content of the two. -/
def threeFiles : Env where
  fopen f :=
    if f.bytes = ascii "a" then .ok (ascii "x\n")
    else if f.bytes = ascii "b" then .ok (ascii "y\n")
    else if f.bytes = ascii "c" then .ok (ascii "x\ny\n")
    else .error []
  stdin := []

/-- With `-n` the second file is numbered from 1 on, its part of the concatenation is not. -/
theorem textProcessorMain_concat_numbered :
    (textProcessorMain threeFiles ⟨[], by decide⟩
        [⟨ascii "-n", by decide⟩, ⟨ascii "a", by decide⟩, ⟨ascii "b", by decide⟩] ⟨[], []⟩).2.text ≠
      (textProcessorMain threeFiles ⟨[], by decide⟩
        [⟨ascii "-n", by decide⟩, ⟨ascii "c", by decide⟩] ⟨[], []⟩).2.text := by
  rw [textProcessorMain_text ⟨rfl, rfl⟩ (by decide), textProcessorMain_text ⟨rfl, rfl⟩ (by decide)]
  decide

/-- With `-E` the two are displayed alike. -/
theorem textProcessorMain_concat_marked :
    (textProcessorMain threeFiles ⟨[], by decide⟩
        [⟨ascii "-E", by decide⟩, ⟨ascii "a", by decide⟩, ⟨ascii "b", by decide⟩] ⟨[], []⟩).2.text =
      (textProcessorMain threeFiles ⟨[], by decide⟩
        [⟨ascii "-E", by decide⟩, ⟨ascii "c", by decide⟩] ⟨[], []⟩).2.text :=
  (textProcessorMain_concat_iff threeFiles _ _
      (fun f => if f.bytes = ascii "a" then ascii "x\n" else ascii "y\n")
      ⟨rfl, rfl⟩ ⟨rfl, rfl⟩ (by decide) (by decide) (by decide)).mpr <| by
    intro pre f post _ hf
    exact absurd (numberedCount_endMarker _) hf

end LabsOS.CatGrep
