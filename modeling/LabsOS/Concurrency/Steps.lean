import Mathlib.Data.Option.Basic
import Mathlib.Tactic.TypeStar

/-!
# Transition systems

`step a s` is the state the action `a` leads to from `s`, or `none` where `a`
is not enabled. What holds of a state and is preserved by every action holds of
every state it `Reaches`. `ReachesWhen C` is the runs whose actions are all taken
where `C` holds.
-/

namespace LabsOS

variable {A : Type} {S X : Type*} {step : A → S → Option S} {I : S → Prop} {s s' s'' : S}
variable {C D : A → S → Prop}

/-- `s'` is reached from `s`. -/
inductive Reaches (step : A → S → Option S) (s : S) : S → Prop where
  | refl : Reaches step s s
  | step {s' s'' : S} (a : A) : Reaches step s s' → step a s' = some s'' → Reaches step s s''

/-- **Induction over runs.** -/
theorem Reaches.invariant (h : Reaches step s s') (hs : I s)
    (hstep : ∀ a s s', I s → step a s = some s' → I s') : I s' := by
  induction h with
  | refl => exact hs
  | step a _ ha ih => exact hstep a _ _ ih ha

theorem Reaches.trans (h : Reaches step s s') (h' : Reaches step s' s'') : Reaches step s s'' := by
  induction h' with
  | refl => exact h
  | step a _ ha ih => exact .step a ih ha

/-- `s'` is reached from `s` by actions that are taken where `C` holds. -/
inductive ReachesWhen (C : A → S → Prop) (step : A → S → Option S) (s : S) : S → Prop where
  | refl : ReachesWhen C step s s
  | step {s' s'' : S} (a : A) :
      ReachesWhen C step s s' → C a s' → step a s' = some s'' → ReachesWhen C step s s''

theorem ReachesWhen.invariant (h : ReachesWhen C step s s') (hs : I s)
    (hstep : ∀ a s s', I s → C a s → step a s = some s' → I s') : I s' := by
  induction h with
  | refl => exact hs
  | step a _ hC ha ih => exact hstep a _ _ ih hC ha

theorem ReachesWhen.reaches (h : ReachesWhen C step s s') : Reaches step s s' := by
  induction h with
  | refl => exact .refl
  | step a _ _ ha ih => exact .step a ih ha

theorem ReachesWhen.mono (h : ReachesWhen C step s s') (hCD : ∀ a s, C a s → D a s) :
    ReachesWhen D step s s' := by
  induction h with
  | refl => exact .refl
  | step a _ hC ha ih => exact .step a ih (hCD a _ hC) ha

theorem Reaches.when (h : Reaches step s s') (hC : ∀ a s, C a s) : ReachesWhen C step s s' := by
  induction h with
  | refl => exact .refl
  | step a _ ha ih => exact .step a ih (hC a _) ha

/-- The state a list of actions leads to. -/
def steps (step : A → S → Option S) : List A → S → Option S
  | [], s => some s
  | a :: as, s => (step a s).bind (steps step as)

theorem Reaches.steps {as : List A} (h : Reaches step s s') (has : LabsOS.steps step as s' = some s'') :
    Reaches step s s'' := by
  induction as generalizing s' with
  | nil => exact Option.some.inj has ▸ h
  | cons a as ih =>
    obtain ⟨t, ht, hrest⟩ := Option.bind_eq_some_iff.mp has
    exact ih (h.step a ht) hrest

theorem ReachesWhen.of_steps {as : List A} (h : ReachesWhen C step s s')
    (hC : ∀ a ∈ as, ∀ s, C a s) (has : LabsOS.steps step as s' = some s'') :
    ReachesWhen C step s s'' := by
  induction as generalizing s' with
  | nil => exact Option.some.inj has ▸ h
  | cons a as ih =>
    obtain ⟨t, ht, hrest⟩ := Option.bind_eq_some_iff.mp has
    exact ih (h.step a (hC a (List.mem_cons_self ..) _) ht)
      (fun a ha => hC a (List.mem_cons_of_mem _ ha)) hrest

/-- A list of actions that can be taken reaches a state with what is observed of it. -/
theorem exists_reaches_of_map {as : List A} {f : S → X} {x : X}
    (h : (LabsOS.steps step as s).map f = some x) : ∃ s', Reaches step s s' ∧ f s' = x := by
  obtain ⟨s', hs', hx⟩ := Option.map_eq_some_iff.mp h
  exact ⟨s', Reaches.refl.steps hs', hx⟩

/-- A list of actions that can be taken where `C` holds. -/
theorem exists_reachesWhen_of_map [∀ a s, Decidable (C a s)] {as : List A} {f : S → X} {x : X}
    (h : (LabsOS.steps (fun a s => if C a s then step a s else none) as s).map f = some x) :
    ∃ s', ReachesWhen C step s s' ∧ f s' = x := by
  obtain ⟨s', hs', hx⟩ := exists_reaches_of_map h
  refine ⟨s', ?_, hx⟩
  clear hx h
  induction hs' with
  | refl => exact .refl
  | step a _ ha ih =>
    split at ha
    · next hC => exact .step a ih hC ha
    · cases ha

end LabsOS
