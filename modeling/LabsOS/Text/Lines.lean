import Mathlib.Data.List.Basic

/-!
# Lines of a sequence

A sequence is cut into lines behind each separator; a line keeps its separator, so
only the last one may be without. Nothing is lost: the lines in a row are the sequence.
The converse, cutting a row of lines gives these lines back, holds exactly when no line
but the last lacks its separator.

* `lines_flatten`             — the lines of a row of lines.
* `map_body_lines_flatten`    — when the bodies of a row of lines can be read off it.
* `flatten_prefixed_inj`      — a row of lines with a prefix each determines the lines.
-/

namespace LabsOS

variable {α : Type} {sep : α}

/-- A line with its separator. -/
def Terminated (sep : α) (c : List α) : Prop := ∃ b, sep ∉ b ∧ c = b ++ [sep]

/-- A last line, which has none. -/
def Unterminated (sep : α) (c : List α) : Prop := c ≠ [] ∧ sep ∉ c

def IsLine (sep : α) (c : List α) : Prop := Terminated sep c ∨ Unterminated sep c

theorem Terminated.mem {c : List α} (h : Terminated sep c) : sep ∈ c := by
  obtain ⟨b, -, rfl⟩ := h
  simp

theorem Terminated.not_unterminated {c : List α} (h : Terminated sep c) :
    ¬ Unterminated sep c := fun hu => hu.2 h.mem

theorem IsLine.ne_nil {c : List α} (h : IsLine sep c) : c ≠ [] := by
  rcases h with ⟨b, -, rfl⟩ | h
  · simp
  · exact h.1

/-- A line that is terminated if anything follows it, and is not, is the last. -/
theorem Unterminated.eq_nil {c : List α} {L : List (List α)} (hc : Unterminated sep c)
    (h : ∀ d ∈ L, Terminated sep c) : L = [] := by
  cases L with
  | nil => rfl
  | cons d L => exact absurd hc (h d (List.mem_cons_self ..)).not_unterminated

/-- A line without separator and its successor are one line. -/
theorem Unterminated.append_line {c d : List α} (hc : Unterminated sep c) (hd : IsLine sep d) :
    IsLine sep (c ++ d) := by
  rcases hd with ⟨b, hb, rfl⟩ | hd
  · refine .inl ⟨c ++ b, ?_, (List.append_assoc c b [sep]).symm⟩
    simpa using ⟨hc.2, hb⟩
  · exact .inr ⟨List.append_ne_nil_of_left_ne_nil hc.1 d, by simpa using ⟨hc.2, hd.2⟩⟩

/-- The first separator of a sequence ends its first line. -/
theorem terminated_prefix_unique {c d r r' : List α} (hc : Terminated sep c)
    (hd : Terminated sep d) (h : c ++ r = d ++ r') : c = d ∧ r = r' := by
  obtain ⟨b, hb, rfl⟩ := hc
  obtain ⟨e, he, rfl⟩ := hd
  induction b generalizing e with
  | nil =>
    cases e with
    | nil => simpa using h
    | cons x e =>
      obtain ⟨rfl, -⟩ := List.cons.inj h
      exact absurd (List.mem_cons_self ..) he
  | cons x b ih =>
    cases e with
    | nil =>
      obtain ⟨rfl, -⟩ := List.cons.inj h
      exact absurd (List.mem_cons_self ..) hb
    | cons y e =>
      obtain ⟨rfl, ht⟩ := List.cons.inj h
      obtain ⟨hbe, hr⟩ := ih (fun hm => hb (List.mem_cons_of_mem _ hm)) e
        (fun hm => he (List.mem_cons_of_mem _ hm)) ht
      refine ⟨?_, hr⟩
      rw [List.cons_append, List.cons_append, hbe]

/-- A row of lines with a prefix in front of each determines the lines. -/
theorem flatten_prefixed_inj (pre : List α) {A B : List (List α)}
    (hA : ∀ c ∈ A, IsLine sep c) (hB : ∀ c ∈ B, IsLine sep c)
    (hpA : A.Pairwise fun c _ => Terminated sep c) (hpB : B.Pairwise fun c _ => Terminated sep c)
    (h : (A.map (pre ++ ·)).flatten = (B.map (pre ++ ·)).flatten) : A = B := by
  induction A generalizing B with
  | nil =>
    cases B with
    | nil => rfl
    | cons d B =>
      have hd := (hB d (List.mem_cons_self ..)).ne_nil
      simp [hd] at h
  | cons c A ih =>
    rw [List.forall_mem_cons] at hA
    rw [List.pairwise_cons] at hpA
    cases B with
    | nil =>
      have hc := hA.1.ne_nil
      simp [hc] at h
    | cons d B =>
      rw [List.forall_mem_cons] at hB
      rw [List.pairwise_cons] at hpB
      simp only [List.map_cons, List.flatten_cons, List.append_assoc, List.append_cancel_left_eq]
        at h
      rcases hA.1 with hc | hc <;> rcases hB.1 with hd | hd
      · obtain ⟨rfl, hrest⟩ := terminated_prefix_unique hc hd h
        rw [ih hA.2 hB.2 hpA.2 hpB.2 hrest]
      · obtain rfl := hd.eq_nil hpB.1
        rw [List.map_nil, List.flatten_nil, List.append_nil] at h
        exact absurd (h ▸ List.mem_append_left _ hc.mem) hd.2
      · obtain rfl := hc.eq_nil hpA.1
        rw [List.map_nil, List.flatten_nil, List.append_nil] at h
        exact absurd (h ▸ List.mem_append_left _ hd.mem) hc.2
      · obtain rfl := hc.eq_nil hpA.1
        obtain rfl := hd.eq_nil hpB.1
        simpa using h

section Cut

variable [DecidableEq α]

/-- The lines of a sequence, each with its separator. -/
def lines (sep : α) : List α → List (List α)
  | [] => []
  | a :: l =>
    if a = sep then [a] :: lines sep l
    else match lines sep l with
      | [] => [[a]]
      | c :: cs => (a :: c) :: cs

/-- A line without its separator. -/
def body (sep : α) (c : List α) : List α := if c.getLast? = some sep then c.dropLast else c

@[simp] theorem lines_nil : lines sep [] = [] := rfl

theorem lines_terminated {c : List α} (h : Terminated sep c) (r : List α) :
    lines sep (c ++ r) = c :: lines sep r := by
  obtain ⟨b, hb, rfl⟩ := h
  induction b with
  | nil => simp [lines]
  | cons x b ih =>
    have hx : x ≠ sep := fun hxs => hb (hxs ▸ List.mem_cons_self ..)
    have hrest := ih fun hm => hb (List.mem_cons_of_mem _ hm)
    rw [List.cons_append, List.cons_append, lines, if_neg hx, hrest]

theorem lines_unterminated {c : List α} (h : Unterminated sep c) : lines sep c = [c] := by
  obtain ⟨hne, hsep⟩ := h
  induction c with
  | nil => exact absurd rfl hne
  | cons x c ih =>
    have hx : x ≠ sep := fun hxs => hsep (hxs ▸ List.mem_cons_self ..)
    cases c with
    | nil => simp [lines, hx]
    | cons y c =>
      have hrest := ih (by simp) fun hm => hsep (List.mem_cons_of_mem _ hm)
      rw [lines, if_neg hx, hrest]

theorem body_concat (b : List α) : body sep (b ++ [sep]) = b := by
  simp [body]

theorem body_unterminated {c : List α} (h : Unterminated sep c) : body sep c = c := by
  have hlast : c.getLast? ≠ some sep := fun hc => h.2 (List.mem_of_getLast? hc)
  rw [body, if_neg hlast]

/-- A sequence is empty, a last line, or a line and what follows it. -/
theorem line_cases (sep : α) (l : List α) :
    l = [] ∨ Unterminated sep l ∨ ∃ c r, Terminated sep c ∧ l = c ++ r := by
  by_cases hl : l = []
  · exact .inl hl
  by_cases hs : sep ∈ l
  · obtain ⟨b, r, rfl, hb⟩ := List.eq_append_cons_of_mem hs
    exact .inr (.inr ⟨b ++ [sep], r, ⟨b, hb, rfl⟩, by simp⟩)
  · exact .inr (.inl ⟨hl, hs⟩)

/-- Induction along the lines of a sequence. -/
theorem line_induction (sep : α) {P : List α → Prop} (nil : P [])
    (last : ∀ c, Unterminated sep c → P c)
    (line : ∀ c r, Terminated sep c → P r → P (c ++ r)) (l : List α) : P l := by
  induction hn : l.length using Nat.strongRecOn generalizing l with
  | _ n ih =>
    rcases line_cases sep l with rfl | h | ⟨c, r, hc, rfl⟩
    · exact nil
    · exact last l h
    · have hpos : 0 < c.length := List.length_pos_of_mem hc.mem
      rw [List.length_append] at hn
      exact line c r hc (ih r.length (by omega) r rfl)

theorem flatten_lines (l : List α) : (lines sep l).flatten = l := by
  induction l using line_induction sep with
  | nil => rfl
  | last c hc => simp [lines_unterminated hc]
  | line c r hc ih => rw [lines_terminated hc, List.flatten_cons, ih]

theorem isLine_of_mem_lines {l c : List α} (h : c ∈ lines sep l) : IsLine sep c := by
  induction l using line_induction sep with
  | nil => simp at h
  | last d hd =>
    rw [lines_unterminated hd, List.mem_singleton] at h
    exact h ▸ .inr hd
  | line d r hd ih =>
    rw [lines_terminated hd, List.mem_cons] at h
    rcases h with rfl | h
    · exact .inl hd
    · exact ih h

/-- A line in front of another has its separator. -/
theorem pairwise_terminated_lines (l : List α) :
    (lines sep l).Pairwise fun c _ => Terminated sep c := by
  induction l using line_induction sep with
  | nil => exact .nil
  | last d hd =>
    rw [lines_unterminated hd]
    exact List.pairwise_singleton _ _
  | line d r hd ih =>
    rw [lines_terminated hd]
    exact .cons (fun _ _ => hd) ih

/-- All lines have their separator: the sequence is empty or ends with one. -/
theorem forall_terminated_lines_iff {l : List α} :
    (∀ c ∈ lines sep l, Terminated sep c) ↔ l = [] ∨ l.getLast? = some sep := by
  induction l using line_induction sep with
  | nil => simp
  | last c hc =>
    rw [lines_unterminated hc]
    constructor
    · intro h
      exact absurd hc (h c (List.mem_singleton_self c)).not_unterminated
    · intro h
      rcases h with h | h
      · exact absurd h hc.1
      · exact absurd (List.mem_of_getLast? h) hc.2
  | line c r hc ih =>
    rw [lines_terminated hc, List.forall_mem_cons, ih]
    obtain ⟨b, hb, rfl⟩ := hc
    by_cases hr : r = []
    · subst hr
      simpa using ⟨b, hb, rfl⟩
    · have hlast : (b ++ [sep] ++ r).getLast? = r.getLast? :=
        List.getLast?_append_of_ne_nil _ hr
      rw [hlast]
      constructor
      · intro h
        exact .inr (h.2.resolve_left hr)
      · intro h
        exact ⟨⟨b, hb, rfl⟩, .inr (h.resolve_left (by simp))⟩

theorem lines_append {l : List α} (h : ∀ c ∈ lines sep l, Terminated sep c) (r : List α) :
    lines sep (l ++ r) = lines sep l ++ lines sep r := by
  induction l using line_induction sep with
  | nil => rfl
  | last c hc =>
    rw [lines_unterminated hc] at h
    exact absurd hc (h c (List.mem_singleton_self c)).not_unterminated
  | line c d hc ih =>
    rw [lines_terminated hc, List.forall_mem_cons] at h
    rw [List.append_assoc, lines_terminated hc, lines_terminated hc, ih h.2, List.cons_append]

-- ---------------------------------------------------------------------------
-- A row of lines
-- ---------------------------------------------------------------------------

/-- Cutting a row of lines in which only the last may lack its separator. -/
theorem lines_flatten {L : List (List α)} (hL : ∀ c ∈ L, IsLine sep c)
    (hp : L.Pairwise fun c _ => Terminated sep c) : lines sep L.flatten = L := by
  induction L with
  | nil => rfl
  | cons c L ih =>
    rw [List.forall_mem_cons] at hL
    rw [List.pairwise_cons] at hp
    rw [List.flatten_cons]
    rcases hL.1 with hc | hc
    · rw [lines_terminated hc, ih hL.2 hp.2]
    · cases L with
      | nil => rw [List.flatten_nil, List.append_nil, lines_unterminated hc]
      | cons d L => exact absurd hc (hp.1 d (List.mem_cons_self ..)).not_unterminated

/-- Lines run together at worst: no more come out than went in. -/
theorem length_lines_flatten_le {L : List (List α)} (hL : ∀ c ∈ L, IsLine sep c) :
    (lines sep L.flatten).length ≤ L.length := by
  induction hn : L.length using Nat.strongRecOn generalizing L with
  | _ n ih =>
    cases L with
    | nil => simp
    | cons c L =>
      rw [List.forall_mem_cons] at hL
      rw [List.length_cons] at hn
      rcases hL.1 with hc | hc
      · have hrest := ih L.length (by omega) hL.2 rfl
        rw [List.flatten_cons, lines_terminated hc, List.length_cons]
        omega
      · cases L with
        | nil =>
          rw [List.flatten_cons, List.flatten_nil, List.append_nil, lines_unterminated hc]
          simp [← hn]
        | cons d L =>
          rw [List.forall_mem_cons] at hL
          have hcd := hc.append_line hL.2.1
          have hlt : ((c ++ d) :: L).length < n := by
            rw [← hn]
            simp
          have hrest := ih _ hlt
            (List.forall_mem_cons.mpr ⟨hcd, hL.2.2⟩) rfl
          rw [List.flatten_cons, List.append_assoc] at hrest
          rw [List.flatten_cons, List.flatten_cons]
          simp only [List.length_cons] at hrest hn
          omega

/-- The bodies of a row of lines can be read off it exactly when no line runs into the
next. -/
theorem map_body_lines_flatten {L : List (List α)} (hL : ∀ c ∈ L, IsLine sep c) :
    (lines sep L.flatten).map (body sep) = L.map (body sep) ↔
      L.Pairwise fun c _ => Terminated sep c := by
  constructor
  · intro h
    have hlen : (lines sep L.flatten).length = L.length := by
      simpa using congrArg List.length h
    clear h
    induction L with
    | nil => exact .nil
    | cons c L ih =>
      rw [List.forall_mem_cons] at hL
      rw [List.flatten_cons] at hlen
      rcases hL.1 with hc | hc
      · rw [lines_terminated hc, List.length_cons, List.length_cons] at hlen
        exact .cons (fun _ _ => hc) (ih hL.2 (by omega))
      · cases L with
        | nil => exact List.pairwise_singleton _ _
        | cons d L =>
          rw [List.forall_mem_cons] at hL
          have hle := length_lines_flatten_le (L := (c ++ d) :: L)
            (List.forall_mem_cons.mpr ⟨hc.append_line hL.2.1, hL.2.2⟩)
          rw [List.flatten_cons, List.append_assoc] at hle
          rw [List.flatten_cons] at hlen
          simp only [List.length_cons] at hle hlen
          omega
  · intro h
    rw [lines_flatten hL h]

end Cut

end LabsOS
