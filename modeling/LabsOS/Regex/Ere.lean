import Mathlib.Data.List.Basic
import Mathlib.Logic.Relation
import Mathlib.Order.Basic
import Mathlib.Algebra.Order.Group.Nat

/-!
# Extended regular expressions

The meaning of an extended regular expression as a relation between positions of the
subject, so that the anchors `^` and `$` are ordinary expressions. `+`, `?` and the
intervals are abbreviations and need no constructor of their own.

* `search_iff`      — the relation decided by computing ends of matches.
* `matches_congr`   — a match that ends in front of the end of the subject sees neither
  what follows it nor the end.
* `found_iff`, `found_concat` — the same for a whole search.
-/

namespace LabsOS

/-- An extended regular expression over the characters `α`. An item is a single
character, a bracket expression or the dot. -/
inductive Ere (α : Type) where
  | empty
  | item (accepts : α → Bool)
  | bol
  | eol
  | cat (e f : Ere α)
  | alt (e f : Ere α)
  | star (e : Ere α)

namespace Ere

variable {α : Type} {s t : List α} {e f : Ere α} {i j n : Nat}

/-- The expression matches the characters of `s` from position `i` up to position `j`. -/
def Matches (s : List α) : Ere α → Nat → Nat → Prop
  | .empty, i, j => j = i
  | .item accepts, i, j => j = i + 1 ∧ s[i]?.any accepts = true
  | .bol, i, j => j = i ∧ i = 0
  | .eol, i, j => j = i ∧ i = s.length
  | .cat e f, i, j => ∃ k, Matches s e i k ∧ Matches s f k j
  | .alt e f, i, j => Matches s e i j ∨ Matches s f i j
  | .star e, i, j => Relation.ReflTransGen (Matches s e) i j

/-- The expression matches somewhere in `s`. -/
def Found (s : List α) (e : Ere α) : Prop := ∃ i j, i ≤ s.length ∧ Matches s e i j

/-- The expression has a match that goes up to the end of `s`. -/
def ReachesEnd (s : List α) (e : Ere α) : Prop := ∃ i, i ≤ s.length ∧ Matches s e i s.length

theorem Matches.bounds (h : Matches s e i j) : i ≤ j ∧ (i ≤ s.length → j ≤ s.length) := by
  induction e generalizing i j with
  | empty =>
    obtain rfl : j = i := h
    exact ⟨le_refl _, id⟩
  | item accepts =>
    obtain ⟨rfl, hany⟩ := h
    have hlt : i < s.length := by
      by_contra hge
      rw [List.getElem?_eq_none (by omega)] at hany
      cases hany
    exact ⟨by omega, fun _ => hlt⟩
  | bol =>
    obtain ⟨rfl, -⟩ := h
    exact ⟨le_refl _, id⟩
  | eol =>
    obtain ⟨rfl, -⟩ := h
    exact ⟨le_refl _, id⟩
  | cat e f ihe ihf =>
    obtain ⟨k, he, hf⟩ := h
    have hek := ihe he
    have hfk := ihf hf
    exact ⟨hek.1.trans hfk.1, fun hi => hfk.2 (hek.2 hi)⟩
  | alt e f ihe ihf =>
    rcases h with h | h
    · exact ihe h
    · exact ihf h
  | star e ih =>
    induction h with
    | refl => exact ⟨le_refl _, id⟩
    | tail _ hstep ihs => exact ⟨ihs.1.trans (ih hstep).1, fun hi => (ih hstep).2 (ihs.2 hi)⟩

-- ---------------------------------------------------------------------------
-- Deciding a search
-- ---------------------------------------------------------------------------

/-- What is reached from `i` by at most `fuel` steps that go on. -/
def closure (step : Nat → List Nat) : Nat → Nat → List Nat
  | 0, i => [i]
  | fuel + 1, i => i :: ((step i).filter (i < ·)).flatMap (closure step fuel)

/-- The ends of the matches that start at `i`. -/
def ends (s : List α) : Ere α → Nat → List Nat
  | .empty, i => [i]
  | .item accepts, i => if s[i]?.any accepts then [i + 1] else []
  | .bol, i => if i = 0 then [i] else []
  | .eol, i => if i = s.length then [i] else []
  | .cat e f, i => (ends s e i).flatMap (ends s f)
  | .alt e f, i => ends s e i ++ ends s f i
  | .star e, i => closure (ends s e) s.length i

/-- The search, as a computation. -/
def search (e : Ere α) (s : List α) : Bool :=
  (List.range (s.length + 1)).any fun i => !(ends s e i).isEmpty

/-- Steps that stay where they are can be left out, and the others are at most `n`. -/
theorem mem_closure {step : Nat → List Nat} {r : Nat → Nat → Prop}
    (hstep : ∀ i ≤ n, ∀ j, j ∈ step i ↔ r i j) (hr : ∀ i j, r i j → i ≤ j ∧ (i ≤ n → j ≤ n))
    {fuel : Nat} (hi : i ≤ n) (hfuel : n ≤ fuel + i) :
    j ∈ closure step fuel i ↔ Relation.ReflTransGen r i j := by
  constructor
  · intro h
    clear hfuel
    induction fuel generalizing i with
    | zero =>
      obtain rfl := List.mem_singleton.mp h
      exact .refl
    | succ fuel ih =>
      rw [closure, List.mem_cons, List.mem_flatMap] at h
      rcases h with rfl | ⟨k, hk, hj⟩
      · exact .refl
      · have hik := (hstep i hi k).mp (List.mem_filter.mp hk).1
        exact .head hik (ih ((hr i k hik).2 hi) hj)
  · intro h
    induction h using Relation.ReflTransGen.head_induction_on generalizing fuel with
    | refl => cases fuel <;> simp [closure]
    | @head i k hik _ ih =>
      have hle := hr i k hik
      by_cases heq : k = i
      · exact heq ▸ ih (hle.2 hi) (heq ▸ hfuel)
      · cases fuel with
        | zero =>
          have hkn := hle.2 hi
          omega
        | succ fuel =>
          rw [closure, List.mem_cons, List.mem_flatMap]
          refine .inr ⟨k, List.mem_filter.mpr ⟨(hstep i hi k).mpr hik, ?_⟩, ih (hle.2 hi) ?_⟩
          · exact decide_eq_true (by omega)
          · omega

theorem mem_ends (hi : i ≤ s.length) : j ∈ ends s e i ↔ Matches s e i j := by
  induction e generalizing i j with
  | empty => exact List.mem_singleton
  | item accepts =>
    rw [ends, Matches]
    split
    · next h => simp [h]
    · next h => simp [h]
  | bol =>
    rw [ends, Matches]
    split
    · next h => simp [h]
    · next h => simp [h]
  | eol =>
    rw [ends, Matches]
    split
    · next h => simp [h]
    · next h => simp [h]
  | cat e f ihe ihf =>
    rw [ends, List.mem_flatMap]
    constructor
    · rintro ⟨k, hk, hj⟩
      have he := (ihe hi).mp hk
      exact ⟨k, he, (ihf (he.bounds.2 hi)).mp hj⟩
    · rintro ⟨k, he, hf⟩
      exact ⟨k, (ihe hi).mpr he, (ihf (he.bounds.2 hi)).mpr hf⟩
  | alt e f ihe ihf => rw [ends, List.mem_append, ihe hi, ihf hi, Matches]
  | star e ih =>
    exact mem_closure (fun i hi j => ih hi) (fun i j h => h.bounds) hi (by omega)

/-- The computation decides the search. -/
theorem search_iff : search e s = true ↔ Found s e := by
  simp only [search, List.any_eq_true, List.mem_range, Bool.not_eq_true', List.isEmpty_eq_false_iff]
  constructor
  · rintro ⟨i, hi, hne⟩
    obtain ⟨j, hj⟩ := List.exists_mem_of_ne_nil _ hne
    exact ⟨i, j, by omega, (mem_ends (by omega)).mp hj⟩
  · rintro ⟨i, j, hi, h⟩
    exact ⟨i, by omega, List.ne_nil_of_mem ((mem_ends hi).mpr h)⟩

instance : Decidable (Found s e) := decidable_of_iff _ search_iff

-- ---------------------------------------------------------------------------
-- The end of the subject
-- ---------------------------------------------------------------------------

/-- The expression with a `$` that never matches. -/
def withoutEol : Ere α → Ere α
  | .empty => .empty
  | .item accepts => .item accepts
  | .bol => .bol
  | .eol => .item fun _ => false
  | .cat e f => .cat e.withoutEol f.withoutEol
  | .alt e f => .alt e.withoutEol f.withoutEol
  | .star e => .star e.withoutEol

/-- Paths to a point up to `n` along two relations that agree there and only ascend. -/
theorem reflTransGen_upTo {r r' : Nat → Nat → Prop} (hr : ∀ i j, r i j → i ≤ j)
    (hrr : ∀ i j, j ≤ n → r i j → r' i j) (hj : j ≤ n) (h : Relation.ReflTransGen r i j) :
    Relation.ReflTransGen r' i j := by
  induction h with
  | refl => exact .refl
  | tail _ hstep ih => exact (ih ((hr _ _ hstep).trans hj)).tail (hrr _ _ hj hstep)

/-- A match that ends in front of the end of `s` is one in every subject with the same
characters up to there, and uses no `$`. -/
theorem matches_congr (hs : n < s.length) (hst : ∀ k < n, s[k]? = t[k]?) (hj : j ≤ n) :
    Matches s e i j ↔ Matches t e.withoutEol i j := by
  induction e generalizing i j with
  | empty => exact Iff.rfl
  | item accepts =>
    rw [withoutEol, Matches, Matches]
    apply and_congr_right
    intro hij
    rw [hst i (by omega)]
  | bol => exact Iff.rfl
  | eol =>
    rw [withoutEol, Matches, Matches]
    constructor
    · intro h
      omega
    · intro h
      simp at h
  | cat e f ihe ihf =>
    rw [withoutEol, Matches, Matches]
    apply exists_congr
    intro k
    constructor
    · intro h
      exact ⟨(ihe (h.2.bounds.1.trans hj)).mp h.1, (ihf hj).mp h.2⟩
    · intro h
      exact ⟨(ihe (h.2.bounds.1.trans hj)).mpr h.1, (ihf hj).mpr h.2⟩
  | alt e f ihe ihf => rw [withoutEol, Matches, Matches, ihe hj, ihf hj]
  | star e ih =>
    rw [withoutEol, Matches, Matches]
    constructor
    · exact reflTransGen_upTo (fun _ _ h => h.bounds.1) (fun _ _ hj h => (ih hj).mp h) hj
    · exact reflTransGen_upTo (fun _ _ h => h.bounds.1) (fun _ _ hj h => (ih hj).mpr h) hj

theorem Matches.of_withoutEol (h : Matches s e.withoutEol i j) : Matches s e i j := by
  induction e generalizing i j with
  | empty => exact h
  | item accepts => exact h
  | bol => exact h
  | eol => simp [withoutEol, Matches] at h
  | cat e f ihe ihf =>
    obtain ⟨k, he, hf⟩ := h
    exact ⟨k, ihe he, ihf hf⟩
  | alt e f ihe ihf =>
    rcases h with h | h
    · exact .inl (ihe h)
    · exact .inr (ihf h)
  | star e ih => exact Relation.ReflTransGen.mono (fun _ _ => ih) _ _ h

/-- A match uses no `$` or goes up to the end. -/
theorem found_iff : Found s e ↔ Found s e.withoutEol ∨ ReachesEnd s e := by
  constructor
  · rintro ⟨i, j, hi, h⟩
    rcases Nat.lt_or_ge j s.length with hj | hj
    · exact .inl ⟨i, j, hi, (matches_congr hj (fun _ _ => rfl) (le_refl j)).mp h⟩
    · obtain rfl : j = s.length := le_antisymm (h.bounds.2 hi) hj
      exact .inr ⟨i, hi, h⟩
  · rintro (⟨i, j, hi, h⟩ | ⟨i, hi, h⟩)
    · exact ⟨i, j, hi, h.of_withoutEol⟩
    · exact ⟨i, s.length, hi, h⟩

/-- A search in a subject with one more character. -/
theorem found_concat (b : List α) (a : α) :
    Found (b ++ [a]) e ↔ Found b e.withoutEol ∨ ReachesEnd (b ++ [a]) e := by
  have hlen : b.length < (b ++ [a]).length := by simp
  have hget : ∀ k < b.length, (b ++ [a])[k]? = b[k]? := fun k hk => List.getElem?_append_left hk
  constructor
  · rintro ⟨i, j, hi, h⟩
    rcases Nat.lt_or_ge j (b ++ [a]).length with hj | hj
    · have hjc : j ≤ b.length := by
        simp only [List.length_append, List.length_singleton] at hj
        omega
      exact .inl ⟨i, j, h.bounds.1.trans hjc, (matches_congr hlen hget hjc).mp h⟩
    · obtain rfl : j = (b ++ [a]).length := le_antisymm (h.bounds.2 hi) hj
      exact .inr ⟨i, hi, h⟩
  · rintro (⟨i, j, hi, h⟩ | ⟨i, hi, h⟩)
    · exact ⟨i, j, hi.trans hlen.le, (matches_congr hlen hget (h.bounds.2 hi)).mpr h⟩
    · exact ⟨i, _, hi, h⟩

end Ere

end LabsOS
