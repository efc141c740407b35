import LabsOS.Program.Prog

/-!
# What a run shows

`observe` reads a list off the calls of a run, each call together with the state it was issued
in. Where the environment has no choice that matters, what a program shows up to some point,
and where it is then, does not depend on the run.

* `Leads`       — every full run shows these items, and goes on from this point.
* `Leads.trans` — one part of a program after the other.
-/

namespace LabsOS

section Observed

variable {C : Type} {R : C → Type} {S O X α β σ : Type}
variable (exec : O → S → (c : C) → S × R c) (E : Event C R O → Prop)
variable (g : S → Event C R O → Option X)

/-- The state after these calls. -/
def replay : S → List (Event C R O) → S
  | s, [] => s
  | s, ev :: tr => replay (exec ev.outcome s ev.call).1 tr

/-- What `g` reads off these calls, which start from `s`. -/
def observe : S → List (Event C R O) → List X
  | _, [] => []
  | s, ev :: tr => (g s ev).toList ++ observe (exec ev.outcome s ev.call).1 tr

/-- Every full run of `p` from `s` with calls in `E` shows `l` until it is at `q` in the
state `s'`, and goes on from there. -/
def Leads (s : S) (p : Prog C R α) (l : List X) (s' : S) (q : Prog C R α) : Prop :=
  ∀ tr s'' a, Runs exec s p tr s'' (.ret a) → (∀ ev ∈ tr, E ev) →
    ∃ tr₁ tr₂, tr = tr₁ ++ tr₂ ∧ observe exec g s tr₁ = l ∧ replay exec s tr₁ = s' ∧
      Runs exec s' q tr₂ s'' (.ret a)

variable {exec E g} {s s₁ s₂ : S} {p p₁ p₂ : Prog C R α} {l l' : List X} {c : C}

theorem replay_append (s : S) (tr₁ tr₂ : List (Event C R O)) :
    replay exec s (tr₁ ++ tr₂) = replay exec (replay exec s tr₁) tr₂ := by
  induction tr₁ generalizing s with
  | nil => rfl
  | cons ev tr ih => exact ih _

theorem observe_append (s : S) (tr₁ tr₂ : List (Event C R O)) :
    observe exec g s (tr₁ ++ tr₂) =
      observe exec g s tr₁ ++ observe exec g (replay exec s tr₁) tr₂ := by
  induction tr₁ generalizing s with
  | nil => rfl
  | cons ev tr ih =>
    show (g s ev).toList ++ observe exec g _ (tr ++ tr₂) = _
    rw [ih, ← List.append_assoc]
    rfl

theorem Leads.refl (s : S) (p : Prog C R α) : Leads exec E g s p [] s p := by
  intro tr s'' a hrun _
  exact ⟨[], tr, rfl, rfl, rfl, hrun⟩

theorem Leads.trans (h : Leads exec E g s p l s₁ p₁) (h' : Leads exec E g s₁ p₁ l' s₂ p₂) :
    Leads exec E g s p (l ++ l') s₂ p₂ := by
  intro tr s'' a hrun htr
  obtain ⟨tr₁, tr', rfl, rfl, rfl, hrun₁⟩ := h tr s'' a hrun htr
  obtain ⟨tr₂, tr₃, rfl, rfl, rfl, hrun₂⟩ :=
    h' tr' s'' a hrun₁ fun ev hev => htr ev (List.mem_append_right _ hev)
  exact ⟨tr₁ ++ tr₂, tr₃, (List.append_assoc ..).symm, observe_append .., replay_append ..,
    hrun₂⟩

/-- The part before shows nothing. -/
theorem Leads.of_silent (h : Leads exec E g s p [] s₁ p₁) (h' : Leads exec E g s₁ p₁ l s₂ p₂) :
    Leads exec E g s p l s₂ p₂ := h.trans h'

/-- The part behind shows nothing. -/
theorem Leads.then_silent (h : Leads exec E g s p l s₁ p₁)
    (h' : Leads exec E g s₁ p₁ [] s₂ p₂) : Leads exec E g s p l s₂ p₂ := by
  have := h.trans h'
  rwa [List.append_nil] at this

/-- A call whose effect and response are the same whatever the environment chooses. -/
theorem Leads.call {k : R c → Prog C R α} {r : R c} (x : Option X)
    (hc : ∀ o, E ⟨c, o, (exec o s c).2⟩ → exec o s c = (s₁, r) ∧ g s ⟨c, o, r⟩ = x) :
    Leads exec E g s (.call c k) x.toList s₁ (k r) := by
  intro tr s'' a hrun htr
  obtain ⟨o, tr', rfl, hrun'⟩ := runs_call hrun
  obtain ⟨hexec, rfl⟩ := hc o (htr _ (List.mem_cons_self ..))
  rw [hexec] at hrun' ⊢
  refine ⟨[⟨c, o, r⟩], tr', rfl, List.append_nil _, ?_, hrun'⟩
  show (exec o s c).1 = s₁
  rw [hexec]

theorem Leads.bind (h : Leads exec E g s p l s₁ p₁) (f : α → Prog C R β) :
    Leads exec E g s (p.bind f) l s₁ (p₁.bind f) := by
  intro tr s'' b hrun htr
  obtain ⟨t₁, t₂, s', a, rfl, hp, hf⟩ := runs_bind_ret hrun
  obtain ⟨tr₁, tr₂, rfl, hl, hs, hp₁⟩ :=
    h t₁ s' a hp fun ev hev => htr ev (List.mem_append_left _ hev)
  exact ⟨tr₁, tr₂ ++ t₂, List.append_assoc .., hl, hs, (hp₁.bind f).trans hf⟩

/-- A round of a loop and what follows it. -/
theorem Leads.round {body : σ → Prog C R (σ ⊕ β)} {st : σ} {k : β → Prog C R α}
    {q : Prog C R (σ ⊕ β)} (h : Leads exec E g s (body st) l s₁ q) :
    Leads exec E g s (.loop body st k) l s₁ (q.bind (Prog.again body k)) := by
  intro tr s'' a hrun htr
  cases hrun with
  | unfold hrun => exact h.bind _ tr s'' a hrun htr

end Observed

end LabsOS
