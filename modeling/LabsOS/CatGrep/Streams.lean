import LabsOS.CatGrep.CatGrep

/-!
# Streams read by the line

A loop over `getline` is a fold over the lines of its stream, and what `printf` makes of
the buffer is the line up to its first NUL.
-/

namespace LabsOS.CatGrep

variable {σ : Type} {c r b : Bytes}

-- ---------------------------------------------------------------------------
-- getline
-- ---------------------------------------------------------------------------

theorem getline_terminated (h : Terminated newline c) (r : Bytes) :
    getline (c ++ r) = some (c, r) := by
  obtain ⟨b, hb, rfl⟩ := h
  have hall : ∀ x ∈ b, decide (x ≠ newline) = true := by
    intro x hx
    exact decide_eq_true fun hxn => hb (hxn ▸ hx)
  have hdrop : (b ++ [newline] ++ r).dropWhile (· ≠ newline) = newline :: r := by
    rw [List.append_assoc, List.dropWhile_append_of_pos hall]
    simp
  have htake : (b ++ [newline] ++ r).takeWhile (· ≠ newline) = b := by
    rw [List.append_assoc, List.takeWhile_append_of_pos hall]
    simp
  unfold getline
  rw [if_neg (by simp), hdrop, htake]

theorem getline_unterminated (h : Unterminated newline c) : getline c = some (c, []) := by
  have hdrop : c.dropWhile (· ≠ newline) = [] := by
    rw [List.dropWhile_eq_nil_iff]
    intro x hx
    exact decide_eq_true fun hxn => h.2 (hxn ▸ hx)
  unfold getline
  rw [if_neg h.1, hdrop]

/-- A loop over `getline` is a fold over the lines. -/
theorem whileGetline_eq (body : σ → Bytes → σ) (st : σ) (stream : Bytes) :
    whileGetline body st stream = (lines newline stream).foldl body st := by
  induction stream using line_induction newline generalizing st with
  | nil =>
    unfold whileGetline
    rfl
  | last c hc =>
    unfold whileGetline
    split
    · next h =>
      rw [getline_unterminated hc] at h
      cases h
    · next h =>
      rw [getline_unterminated hc] at h
      obtain ⟨rfl, rfl⟩ := Prod.mk.inj (Option.some.inj h)
      rw [lines_unterminated hc]
      unfold whileGetline
      rfl
  | line c r hc ih =>
    unfold whileGetline
    split
    · next h =>
      rw [getline_terminated hc] at h
      cases h
    · next h =>
      rw [getline_terminated hc] at h
      obtain ⟨rfl, rfl⟩ := Prod.mk.inj (Option.some.inj h)
      rw [lines_terminated hc, List.foldl_cons, ih]

-- ---------------------------------------------------------------------------
-- Buffers
-- ---------------------------------------------------------------------------

/-- Nothing behind the first NUL is seen. -/
theorem cstr_append_nul (b r : Bytes) : cstr (b ++ 0 :: r) = cstr b := by
  show List.takeWhile _ _ = List.takeWhile _ _
  induction b with
  | nil => simp
  | cons x b ih =>
    rw [List.cons_append, List.takeWhile_cons, List.takeWhile_cons, ih]

theorem cstr_of_noNul (h : (0 : UInt8) ∉ b) : cstr b = b := by
  show List.takeWhile _ _ = _
  rw [List.takeWhile_eq_self_iff]
  intro x hx
  exact decide_eq_true fun hx0 => h (hx0 ▸ hx)

theorem zero_notMem_cstr (b : Bytes) : (0 : UInt8) ∉ cstr b := (CString.ofBytes b).noNul

theorem cstr_lineBuffer (line : Bytes) : cstr (lineBuffer line) = cstr line :=
  cstr_append_nul line []

/-- A stream without NUL has lines without. -/
theorem noNul_of_mem_lines (hb : (0 : UInt8) ∉ b) (hc : c ∈ lines newline b) :
    (0 : UInt8) ∉ c := by
  intro h
  have hmem : (0 : UInt8) ∈ (lines newline b).flatten := List.mem_flatten.mpr ⟨c, hc, h⟩
  rw [flatten_lines] at hmem
  exact hb hmem

@[simp] theorem text_printf (io : Console) (t : Bytes) : (io.printf t).text = io.text ++ t := by
  simp [Console.printf, Console.text]

@[simp] theorem text_error (io : Console) (m : Message) : (io.error m).text = io.text := rfl

end LabsOS.CatGrep
