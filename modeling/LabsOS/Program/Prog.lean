import Mathlib.Logic.Function.Basic

/-!
# Programs over a set of calls

A sequential program is a tree of calls into its environment: it returns, it
issues a call and continues with the response, or it enters a loop whose body
either asks for another round or leaves with a value. `Prog.loop` is the
`while` of the source, so a program needs no fuel and a program that never
ends is one of them.

The environment is a function `exec` from an outcome (what the environment
chooses to do with the call), a state and a call to the next state and the
response. `Runs` is the finite runs of a program in it, each with the list of
its calls; a run may stop anywhere, so a statement about every run is a
statement about every point between two calls.
-/

namespace LabsOS

/-- A program that issues calls `c : C`, is answered in `R c` and returns an `α`. -/
inductive Prog (C : Type) (R : C → Type) : Type → Type 1 where
  | ret {α : Type} (a : α) : Prog C R α
  | call {α : Type} (c : C) (k : R c → Prog C R α) : Prog C R α
  | loop {α β σ : Type} (body : σ → Prog C R (σ ⊕ β)) (st : σ) (k : β → Prog C R α) :
      Prog C R α

namespace Prog

variable {C : Type} {R : C → Type} {α β γ σ : Type}

/-- Sequencing. -/
def bind {α β : Type} : Prog C R α → (α → Prog C R β) → Prog C R β
  | .ret a, f => f a
  | .call c k, f => .call c fun r => bind (k r) f
  | .loop body st k, f => .loop body st fun b => bind (k b) f

instance : Monad (Prog C R) where
  pure := .ret
  bind := bind

/-- What a loop does with the result of one round of its body. -/
def again (body : σ → Prog C R (σ ⊕ β)) (k : β → Prog C R α) : σ ⊕ β → Prog C R α
  | .inl st => .loop body st k
  | .inr b => k b

/-- The program that issues one call and returns its response. -/
def issue (c : C) : Prog C R (R c) := .call c .ret

/-- `while (1) body`, left by `Sum.inr`. -/
def while_ (body : σ → Prog C R (σ ⊕ β)) (st : σ) : Prog C R β := .loop body st .ret

@[simp] theorem pure_eq (a : α) : (pure a : Prog C R α) = .ret a := rfl

@[simp] theorem bind_eq (p : Prog C R α) (f : α → Prog C R β) : p >>= f = p.bind f := rfl

@[simp] theorem ret_bind (a : α) (f : α → Prog C R β) : (Prog.ret a).bind f = f a := rfl

@[simp] theorem call_bind (c : C) (k : R c → Prog C R α) (f : α → Prog C R β) :
    (Prog.call c k).bind f = .call c fun r => (k r).bind f := rfl

@[simp] theorem loop_bind (body : σ → Prog C R (σ ⊕ γ)) (st : σ) (k : γ → Prog C R α)
    (f : α → Prog C R β) :
    (Prog.loop body st k).bind f = .loop body st fun b => (k b).bind f := rfl

@[simp] theorem issue_bind (c : C) (f : R c → Prog C R β) : (issue c).bind f = .call c f := rfl

@[simp] theorem while_bind (body : σ → Prog C R (σ ⊕ α)) (st : σ) (f : α → Prog C R β) :
    (while_ body st).bind f = .loop body st f := rfl

@[simp] theorem again_inl (body : σ → Prog C R (σ ⊕ β)) (k : β → Prog C R α) (st : σ) :
    again body k (.inl st) = .loop body st k := rfl

@[simp] theorem again_inr (body : σ → Prog C R (σ ⊕ β)) (k : β → Prog C R α) (b : β) :
    again body k (.inr b) = k b := rfl

theorem bind_assoc (p : Prog C R α) (f : α → Prog C R β) (g : β → Prog C R γ) :
    (p.bind f).bind g = p.bind fun a => (f a).bind g := by
  induction p with
  | ret a => rfl
  | call c k ih => simp [ih]
  | loop body st k _ ih => simp [ih]

/-- Sequencing after a loop is sequencing after its last round. -/
theorem again_bind (body : σ → Prog C R (σ ⊕ γ)) (k : γ → Prog C R α) (f : α → Prog C R β) :
    (fun r => (again body k r).bind f) = again body fun b => (k b).bind f := by
  funext r
  cases r <;> rfl

@[simp] theorem bind_again_bind (p : Prog C R (σ ⊕ γ)) (body : σ → Prog C R (σ ⊕ γ))
    (k : γ → Prog C R α) (f : α → Prog C R β) :
    (p.bind (again body k)).bind f = p.bind (again body fun b => (k b).bind f) := by
  rw [bind_assoc, again_bind]

/-- A round that leaves the loop with the result of `p`. -/
theorem map_inr_bind_again (p : Prog C R β) (body : σ → Prog C R (σ ⊕ β)) (k : β → Prog C R α) :
    (Sum.inr <$> p : Prog C R (σ ⊕ β)).bind (again body k) = p.bind k := bind_assoc p _ _

end Prog

-- ---------------------------------------------------------------------------
-- Runs
-- ---------------------------------------------------------------------------

/-- One call of a run: what was asked, what the environment chose, what it answered. -/
structure Event (C : Type) (R : C → Type) (O : Type) where
  call    : C
  outcome : O
  resp    : R call

section Runs

variable {C : Type} {R : C → Type} {S O α β γ σ : Type}
variable (exec : O → S → (c : C) → S × R c)

/-- The finite runs of a program, with the calls they made. -/
inductive Runs {α : Type} :
    S → Prog C R α → List (Event C R O) → S → Prog C R α → Prop where
  | refl (s : S) (p : Prog C R α) : Runs s p [] s p
  | call {s s' : S} {c : C} {k : R c → Prog C R α} {p' : Prog C R α} {tr} (o : O) :
      Runs (exec o s c).1 (k (exec o s c).2) tr s' p' →
      Runs s (.call c k) (⟨c, o, (exec o s c).2⟩ :: tr) s' p'
  | unfold {β σ : Type} {s s' : S} {body : σ → Prog C R (σ ⊕ β)} {st : σ}
      {k : β → Prog C R α} {p' : Prog C R α} {tr} :
      Runs s ((body st).bind (Prog.again body k)) tr s' p' →
      Runs s (.loop body st k) tr s' p'

variable {exec}

theorem Runs.trans {s₁ s₂ s₃ : S} {p₁ p₂ p₃ : Prog C R α} {tr₁ tr₂}
    (h₁ : Runs exec s₁ p₁ tr₁ s₂ p₂) (h₂ : Runs exec s₂ p₂ tr₂ s₃ p₃) :
    Runs exec s₁ p₁ (tr₁ ++ tr₂) s₃ p₃ := by
  induction h₁ with
  | refl => exact h₂
  | call o _ ih => exact .call o (ih h₂)
  | unfold _ ih => exact .unfold (ih h₂)

theorem Runs.bind {s s' : S} {p p' : Prog C R α} {tr} (h : Runs exec s p tr s' p')
    (f : α → Prog C R β) : Runs exec s (p.bind f) tr s' (p'.bind f) := by
  induction h with
  | refl => exact .refl _ _
  | call o _ ih => exact .call o ih
  | unfold _ ih => exact .unfold (by simpa using ih)

/-- A run of a returned program makes no call. -/
theorem runs_ret {s s' : S} {a : α} {p' : Prog C R α} {tr}
    (h : Runs exec s (.ret a) tr s' p') : tr = [] ∧ s' = s ∧ p' = .ret a := by
  cases h
  exact ⟨rfl, rfl, rfl⟩

/-- A run of a sequence is a run of its first part, or a full run of the first
part followed by a run of the second. -/
theorem runs_bind {s s' : S} {p : Prog C R α} {f : α → Prog C R β} {q : Prog C R β} {tr}
    (h : Runs exec s (p.bind f) tr s' q) :
    (∃ p', Runs exec s p tr s' p' ∧ q = p'.bind f) ∨
    (∃ tr₁ tr₂ s₁ a, tr = tr₁ ++ tr₂ ∧ Runs exec s p tr₁ s₁ (.ret a) ∧
      Runs exec s₁ (f a) tr₂ s' q) := by
  generalize hP : p.bind f = P at h
  induction h generalizing p with
  | refl s P => exact .inl ⟨p, .refl s p, hP.symm⟩
  | @call s s' c k p' tr o hrun ih =>
    cases p with
    | ret a => exact .inr ⟨[], _, s, a, rfl, .refl _ _, (show f a = _ from hP) ▸ .call o hrun⟩
    | call c' k' =>
      obtain ⟨rfl, hk⟩ := Prog.call.inj hP
      obtain rfl := eq_of_heq hk
      rcases ih rfl with ⟨p'', hr, hq⟩ | ⟨tr₁, tr₂, s₁, a, rfl, hr, hf⟩
      · exact .inl ⟨p'', .call o hr, hq⟩
      · exact .inr ⟨_ :: tr₁, tr₂, s₁, a, rfl, .call o hr, hf⟩
    | loop body st k' => cases hP
  | @unfold β' σ s s' body st k p' tr hrun ih =>
    cases p with
    | ret a => exact .inr ⟨[], _, s, a, rfl, .refl _ _, (show f a = _ from hP) ▸ .unfold hrun⟩
    | call c' k' => cases hP
    | loop body' st' k' =>
      cases hP
      rcases ih (Prog.bind_again_bind _ _ _ _) with
        ⟨p'', hr, hq⟩ | ⟨tr₁, tr₂, s₁, a, rfl, hr, hf⟩
      · exact .inl ⟨p'', .unfold hr, hq⟩
      · exact .inr ⟨tr₁, tr₂, s₁, a, rfl, .unfold hr, hf⟩

/-- A full run of a call is the call and a full run of what follows it. -/
theorem runs_call {s s' : S} {c : C} {k : R c → Prog C R α} {a : α} {tr}
    (h : Runs exec s (.call c k) tr s' (.ret a)) :
    ∃ o tr', tr = ⟨c, o, (exec o s c).2⟩ :: tr' ∧
      Runs exec (exec o s c).1 (k (exec o s c).2) tr' s' (.ret a) := by
  cases h with
  | call o h => exact ⟨o, _, rfl, h⟩

/-- A full run of a sequence is a full run of each part. -/
theorem runs_bind_ret {s s' : S} {p : Prog C R α} {f : α → Prog C R β} {b : β} {tr}
    (h : Runs exec s (p.bind f) tr s' (.ret b)) :
    ∃ tr₁ tr₂ s₁ a, tr = tr₁ ++ tr₂ ∧ Runs exec s p tr₁ s₁ (.ret a) ∧
      Runs exec s₁ (f a) tr₂ s' (.ret b) := by
  rcases runs_bind h with ⟨p', hr, hp'⟩ | h
  · cases p' with
    | ret a =>
      have hfa : f a = .ret b := hp'.symm
      exact ⟨tr, [], s', a, (List.append_nil tr).symm, hr, hfa ▸ .refl _ _⟩
    | call c k => cases hp'
    | loop body st k => cases hp'
  · exact h

-- ---------------------------------------------------------------------------
-- Running a program
-- ---------------------------------------------------------------------------

/-- The run in which the environment chooses `pick c` for the call `c`, if it ends
within `fuel` steps and its calls satisfy `E`. -/
def Prog.run (exec : O → S → (c : C) → S × R c) (E : Event C R O → Prop) [DecidablePred E]
    (pick : C → O) : Nat → S → Prog C R α → Option (S × α)
  | 0, _, _ => none
  | _ + 1, s, .ret a => some (s, a)
  | fuel + 1, s, .call c k =>
    if E ⟨c, pick c, (exec (pick c) s c).2⟩ then
      Prog.run exec E pick fuel (exec (pick c) s c).1 (k (exec (pick c) s c).2)
    else none
  | fuel + 1, s, .loop body st k =>
    Prog.run exec E pick fuel s ((body st).bind (Prog.again body k))

theorem runs_of_run {E : Event C R O → Prop} [DecidablePred E] {pick : C → O} {fuel : Nat}
    {s s' : S} {p : Prog C R α} {a : α} (h : p.run exec E pick fuel s = some (s', a)) :
    ∃ tr, Runs exec s p tr s' (.ret a) ∧ ∀ ev ∈ tr, E ev := by
  induction fuel generalizing s p with
  | zero => cases h
  | succ fuel ih =>
    cases p with
    | ret b =>
      obtain ⟨rfl, rfl⟩ := Prod.mk.inj (Option.some.inj h)
      exact ⟨[], .refl _ _, by simp⟩
    | call c k =>
      rw [Prog.run] at h
      split at h
      · next hE =>
        obtain ⟨tr, hrun, htr⟩ := ih h
        refine ⟨_ :: tr, .call (pick c) hrun, fun ev hev => ?_⟩
        rcases List.mem_cons.mp hev with rfl | hev
        · exact hE
        · exact htr ev hev
      · cases h
    | loop body st k =>
      obtain ⟨tr, hrun, htr⟩ := ih h
      exact ⟨tr, .unfold hrun, htr⟩

/-- A run that ends in a state with a property that can be read off it. -/
theorem exists_run_of_map {E : Event C R O → Prop} [DecidablePred E] {pick : C → O} {fuel : Nat}
    {s : S} {p : Prog C R α} {g : S × α → γ} {x : γ}
    (h : (p.run exec E pick fuel s).map g = some x) :
    ∃ tr s' a, Runs exec s p tr s' (.ret a) ∧ (∀ ev ∈ tr, E ev) ∧ g (s', a) = x := by
  obtain ⟨⟨s', a⟩, hrun, hx⟩ := Option.map_eq_some_iff.mp h
  obtain ⟨tr, hruns, htr⟩ := runs_of_run hrun
  exact ⟨tr, s', a, hruns, htr, hx⟩

-- ---------------------------------------------------------------------------
-- The calls a program can make
-- ---------------------------------------------------------------------------

/-- Every call in the program satisfies `P`, whatever it is answered. -/
def Prog.Calls (P : C → Prop) {α : Type} : Prog C R α → Prop
  | .ret _ => True
  | .call c k => P c ∧ ∀ r, (k r).Calls P
  | .loop body _ k => (∀ st, (body st).Calls P) ∧ ∀ b, (k b).Calls P

variable {P : C → Prop}

theorem Prog.Calls.bind {p : Prog C R α} (hp : p.Calls P) {f : α → Prog C R β}
    (hf : ∀ a, (f a).Calls P) : (p.bind f).Calls P := by
  induction p with
  | ret a => exact hf a
  | call c k ih => exact ⟨hp.1, fun r => ih r (hp.2 r) hf⟩
  | loop body st k _ ih => exact ⟨hp.1, fun b => ih b (hp.2 b) hf⟩

theorem Prog.Calls.unfold {body : σ → Prog C R (σ ⊕ β)} {st : σ} {k : β → Prog C R α}
    (h : (Prog.loop body st k).Calls P) : ((body st).bind (Prog.again body k)).Calls P := by
  apply (h.1 st).bind
  intro r
  cases r with
  | inl st => exact h
  | inr b => exact h.2 b

/-- The calls of a run are calls of its program. -/
theorem Runs.calls {s s' : S} {p p' : Prog C R α} {tr} (h : Runs exec s p tr s' p')
    (hp : p.Calls P) : ∀ ev ∈ tr, P ev.call := by
  induction h with
  | refl => simp
  | call o _ ih =>
    intro ev hev
    rcases List.mem_cons.mp hev with rfl | hev
    · exact hp.1
    · exact ih (hp.2 _) ev hev
  | unfold _ ih => exact ih hp.unfold

end Runs

end LabsOS
