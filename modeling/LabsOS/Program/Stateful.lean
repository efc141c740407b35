import LabsOS.Program.Logic

/-!
# Programs with variables

A program that keeps variables `T` of its own between its calls, and that may end before
its time with an `X` (a call of `exit`, or a step whose behaviour is not defined). The rules
are those of `LabsOS.Program.Logic` with the variables carried along, and a second
postcondition for the early ends.

* `Act.Meets` — what holds along the runs of a program from given variables and state.
* `Act.Stops` — no run goes on for ever.
-/

namespace LabsOS

/-- A program with variables `T` that may end early with an `X`. -/
def Act (C : Type) (R : C → Type) (T X α : Type) : Type 1 := T → Prog C R (Except X (α × T))

namespace Act

variable {C : Type} {R : C → Type} {T X α β σ : Type}

/-- What follows a part of a program: nothing, if it ended early. -/
def after (f : α → Act C R T X β) : Except X (α × T) → Prog C R (Except X (β × T))
  | .error x => .ret (.error x)
  | .ok r => f r.1 r.2

instance : Monad (Act C R T X) where
  pure a t := .ret (.ok (a, t))
  bind p f t := (p t).bind (after f)

def call (c : C) : Act C R T X (R c) := fun t => .call c fun r => .ret (.ok (r, t))

/-- The variables. -/
def get : Act C R T X T := fun t => .ret (.ok (t, t))

def modify (f : T → T) : Act C R T X Unit := fun t => .ret (.ok ((), f t))

/-- End the program. -/
def stop (x : X) : Act C R T X α := fun _ => .ret (.error x)

/-- How a round of a loop ends. -/
def round : Except X ((σ ⊕ β) × T) → (σ × T) ⊕ Except X (β × T)
  | .error x => .inr (.error x)
  | .ok (.inl st, t) => .inl (st, t)
  | .ok (.inr b, t) => .inr (.ok (b, t))

/-- `while (1) body`, left by `Sum.inr`. -/
def while_ (body : σ → Act C R T X (σ ⊕ β)) (st : σ) : Act C R T X β := fun t =>
  .loop (fun v : σ × T => (body v.1 v.2).bind fun r => .ret (round r)) (st, t) .ret

-- ---------------------------------------------------------------------------
-- Rules
-- ---------------------------------------------------------------------------

variable {S O : Type} {exec : O → S → (c : C) → S × R c} {E : Event C R O → Prop} {I : S → Prop}

/-- `Q` of a program that returns, `Z` of one that ends early. -/
def Ends (Q : α → T → S → Prop) (Z : X → S → Prop) : Except X (α × T) → S → Prop
  | .error x, s => Z x s
  | .ok r, s => Q r.1 r.2 s

/-- **Total correctness.** Along every run of `p` from the variables `t` and the state `s`
with calls in `E` the state satisfies `I`; no such run goes on for ever; `Q` holds if it
returns, and `Z` if it ends early. -/
structure Meets (exec : O → S → (c : C) → S × R c) (E : Event C R O → Prop) (I : S → Prop) (t : T)
    (s : S) (p : Act C R T X α) (Q : α → T → S → Prop) (Z : X → S → Prop) : Prop where
  spec : Spec exec E I s (p t) (Ends Q Z)
  halts : Halts exec E s (p t)

variable {t : T} {s : S} {p : Act C R T X α} {f : α → Act C R T X β}
variable {Q Q' : α → T → S → Prop} {P : β → T → S → Prop} {Z Z' : X → S → Prop}

theorem Meets.pure {a : α} (hI : I s) (h : Q a t s) :
    Meets exec E I t s (Pure.pure a) Q Z := ⟨Spec.ret hI h, .ret _ _⟩

theorem Meets.stop {x : X} (hI : I s) (h : Z x s) :
    Meets exec E I t s (Act.stop x) Q Z := ⟨Spec.ret hI h, .ret _ _⟩

theorem Meets.mono (h : Meets exec E I t s p Q Z) (hQ : ∀ a t' s', Q a t' s' → Q' a t' s')
    (hZ : ∀ x s', Z x s' → Z' x s') : Meets exec E I t s p Q' Z' := by
  refine ⟨Spec.mono h.spec fun r s' hr => ?_, h.halts⟩
  cases r with
  | error x => exact hZ x s' hr
  | ok r => exact hQ r.1 r.2 s' hr

theorem Meets.and {I' : S → Prop} (h : Meets exec E I t s p Q Z)
    (h' : Meets exec E I' t s p Q' Z') :
    Meets exec E I t s p (fun a t' s' => Q a t' s' ∧ Q' a t' s')
      (fun x s' => Z x s' ∧ Z' x s') := by
  have hspec := (h.spec.and h'.spec).weaken (fun _ => id) fun _ hI => hI.1
  refine ⟨hspec.mono fun r s' hr => ?_, h.halts⟩
  cases r with
  | error x => exact hr
  | ok r => exact hr

theorem Meets.bind (h : Meets exec E I t s p Q Z)
    (hf : ∀ a t' s', Q a t' s' → Meets exec E I t' s' (f a) P Z) :
    Meets exec E I t s (p >>= f) P Z := by
  constructor
  · apply Spec.bind (Spec.withInv h.spec)
    intro r s' hr
    cases r with
    | error x => exact Spec.ret hr.1 hr.2
    | ok r => exact (hf r.1 r.2 s' hr.2).spec
  · apply Halts.bind h.halts h.spec
    intro r s' hr
    cases r with
    | error x => exact .ret _ _
    | ok r => exact (hf r.1 r.2 s' hr).halts

theorem Meets.call {c : C} {P : R c → T → S → Prop} (hI : I s)
    (h : ∀ o, E ⟨c, o, (exec o s c).2⟩ →
      I (exec o s c).1 ∧ P (exec o s c).2 t (exec o s c).1) :
    Meets exec E I t s (Act.call c) P Z :=
  ⟨Spec.call hI fun o ho => Spec.ret (h o ho).1 (h o ho).2, .call fun _ _ => .ret _ _⟩

/-- A call and what follows it. -/
theorem Meets.call_bind {c : C} {f : R c → Act C R T X β} (hI : I s)
    (h : ∀ o, E ⟨c, o, (exec o s c).2⟩ →
      Meets exec E I t (exec o s c).1 (f (exec o s c).2) P Z) :
    Meets exec E I t s (Act.call c >>= f) P Z :=
  ⟨Spec.call hI fun o ho => (h o ho).spec, .call fun o ho => (h o ho).halts⟩

theorem Meets.get_bind {f : T → Act C R T X β} (h : Meets exec E I t s (f t) P Z) :
    Meets exec E I t s (Act.get >>= f) P Z := ⟨h.spec, h.halts⟩

theorem Meets.modify {g : T → T} {P : Unit → T → S → Prop} (hI : I s) (h : P () (g t) s) :
    Meets exec E I t s (Act.modify g) P Z := ⟨Spec.ret hI h, .ret _ _⟩

theorem Meets.modify_bind {g : T → T} {f : Unit → Act C R T X β}
    (h : Meets exec E I (g t) s (f ()) P Z) :
    Meets exec E I t s (Act.modify g >>= f) P Z := ⟨h.spec, h.halts⟩

/-- **Loop rule.** A round establishes the invariant again and makes the measure smaller,
or meets what is asked of the loop. -/
theorem Meets.loop {body : σ → Act C R T X (σ ⊕ β)} (Inv : σ → T → S → Prop)
    (rank : σ → T → S → Nat)
    (hbody : ∀ st t s, Inv st t s → Meets exec E I t s (body st)
      (fun r t' s' => Sum.elim (fun st' => Inv st' t' s' ∧ rank st' t' s' < rank st t s)
        (fun b => P b t' s') r) Z)
    {st : σ} (h : Inv st t s) : Meets exec E I t s (while_ body st) P Z := by
  constructor
  · refine Spec.loop (fun v s => Inv v.1 v.2 s) (fun v s hv => ?_) h
    refine Spec.bind (Spec.withInv (hbody v.1 v.2 s hv).spec) fun r s' hr => Spec.ret hr.1 ?_
    obtain ⟨hI, hr⟩ := hr
    match r, hr with
    | .error x, hr => exact Spec.ret hI hr
    | .ok (.inl st', t'), hr => exact hr.1
    | .ok (.inr b, t'), hr => exact Spec.ret hI hr
  · refine Halts.loop_rank (fun v s => Inv v.1 v.2 s) (fun v s => rank v.1 v.2 s)
      (fun v s hv => ?_) h
    obtain ⟨hspec, hhalts⟩ := hbody v.1 v.2 s hv
    have hround : Spec exec E (fun _ => True) s (body v.1 v.2) _ :=
      hspec.weaken (fun _ h => h) fun _ _ => True.intro
    refine ⟨hhalts.bind hround fun r s' _ => .ret _ _, hround.bind fun r s' hr => ?_⟩
    refine Spec.ret True.intro ?_
    match r, hr with
    | .error x, _ => exact .ret _ _
    | .ok (.inl st', t'), hr => exact hr
    | .ok (.inr b, t'), _ => exact .ret _ _

end Act

end LabsOS
