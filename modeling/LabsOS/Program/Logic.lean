import LabsOS.Program.Prog

/-!
# Rules for runs of a program

`Spec exec E I s p Q` speaks about every run of `p` from `s` whose calls all
satisfy `E` (what the environment is assumed to do): the state satisfies `I`
at every point of the run, and `Q` holds of the result and the final state
whenever the run returns. `I` is what makes the rules usable for a process
that may be killed: it is asked for between any two calls.

`Halts exec E s p` says that no such run goes on for ever. The two are kept
apart because the loops of interest return correct results on every input but
do not end on every input.

* `Spec.coind`       — the induction over runs, done once.
* `Spec.bind`, `Spec.loop` — sequencing and the loop invariant rule.
* `Halts.bind`, `Halts.loop_acc` — the same with a walk that ends.
* `not_halts_loop`           — a loop that can always go on.
* `Halts.exists_run` — a program that halts has a run to its end.
-/

namespace LabsOS

section Logic

variable {C : Type} {R : C → Type} {S O α β γ σ : Type}
variable {exec : O → S → (c : C) → S × R c}
variable {E E' : Event C R O → Prop} {I I' : S → Prop}

-- ---------------------------------------------------------------------------
-- Partial correctness with an invariant
-- ---------------------------------------------------------------------------

/-- Along every run of `p` from `s` with calls in `E` the state satisfies `I`,
and a returned result satisfies `Q`. -/
def Spec (exec : O → S → (c : C) → S × R c) (E : Event C R O → Prop) (I : S → Prop)
    (s : S) (p : Prog C R α) (Q : α → S → Prop) : Prop :=
  ∀ tr s' p', Runs exec s p tr s' p' → (∀ ev ∈ tr, E ev) →
    I s' ∧ ∀ a, p' = .ret a → Q a s'

/-- What one node of the program tree asks of a predicate closed under runs. -/
def Closed (exec : O → S → (c : C) → S × R c) (E : Event C R O → Prop)
    (X : S → Prog C R α → Prop) (Q : α → S → Prop) (s : S) : Prog C R α → Prop
  | .ret a => Q a s
  | .call c k => ∀ o, E ⟨c, o, (exec o s c).2⟩ → X (exec o s c).1 (k (exec o s c).2)
  | .loop body st k => X s ((body st).bind (Prog.again body k))

/-- Coinduction: a predicate that implies `I` and is closed under every step
holds along every run. -/
theorem Spec.coind {X : S → Prog C R α → Prop} {Q : α → S → Prop}
    (hI : ∀ s p, X s p → I s) (hX : ∀ s p, X s p → Closed exec E X Q s p)
    {s : S} {p : Prog C R α} (h : X s p) : Spec exec E I s p Q := by
  intro tr s' p' hrun hE
  induction hrun with
  | refl s p =>
    refine ⟨hI s p h, fun a ha => ?_⟩
    subst ha
    exact hX s _ h
  | call o _ ih =>
    exact ih (hX _ _ h o (hE _ (List.mem_cons_self ..)))
      fun ev hev => hE ev (List.mem_cons_of_mem _ hev)
  | unfold _ ih => exact ih (hX _ _ h) hE

theorem Spec.inv {s : S} {p : Prog C R α} {Q : α → S → Prop}
    (h : Spec exec E I s p Q) : I s :=
  (h [] s p (.refl s p) (by simp)).1

theorem Spec.ret {s : S} {a : α} {Q : α → S → Prop} (hI : I s) (hQ : Q a s) :
    Spec exec E I s (.ret a) Q := by
  intro tr s' p' hrun _
  obtain ⟨-, rfl, rfl⟩ := runs_ret hrun
  refine ⟨hI, fun b hb => ?_⟩
  obtain rfl := Prog.ret.inj hb
  exact hQ

theorem Spec.post {s : S} {a : α} {Q : α → S → Prop}
    (h : Spec exec E I s (.ret a) Q) : Q a s :=
  (h [] s _ (.refl s _) (by simp)).2 a rfl

theorem Spec.call {s : S} {c : C} {k : R c → Prog C R α} {Q : α → S → Prop} (hI : I s)
    (h : ∀ o, E ⟨c, o, (exec o s c).2⟩ →
      Spec exec E I (exec o s c).1 (k (exec o s c).2) Q) :
    Spec exec E I s (.call c k) Q := by
  intro tr s' p' hrun hE
  cases hrun with
  | refl => exact ⟨hI, fun a ha => by cases ha⟩
  | call o hrun =>
    exact h o (hE _ (List.mem_cons_self ..)) _ _ _ hrun
      fun ev hev => hE ev (List.mem_cons_of_mem _ hev)

/-- A specification holds again after any call. -/
theorem Spec.step {s : S} {c : C} {k : R c → Prog C R α} {Q : α → S → Prop}
    (h : Spec exec E I s (.call c k) Q) (o : O) (ho : E ⟨c, o, (exec o s c).2⟩) :
    Spec exec E I (exec o s c).1 (k (exec o s c).2) Q := by
  intro tr s' p' hrun hE
  apply h _ _ _ (.call o hrun)
  intro ev hev
  rcases List.mem_cons.mp hev with rfl | hev
  · exact ho
  · exact hE ev hev

theorem Spec.unfold {s : S} {body : σ → Prog C R (σ ⊕ β)} {st : σ} {k : β → Prog C R α}
    {Q : α → S → Prop} (h : Spec exec E I s (.loop body st k) Q) :
    Spec exec E I s ((body st).bind (Prog.again body k)) Q :=
  fun tr s' p' hrun hE => h tr s' p' (.unfold hrun) hE

theorem Spec.mono {s : S} {p : Prog C R α} {Q Q' : α → S → Prop}
    (h : Spec exec E I s p Q) (hQ : ∀ a s', Q a s' → Q' a s') : Spec exec E I s p Q' :=
  fun tr s' p' hrun hE => ⟨(h tr s' p' hrun hE).1, fun a ha =>
    hQ a s' ((h tr s' p' hrun hE).2 a ha)⟩

/-- The invariant holds of the final state too. -/
theorem Spec.withInv {s : S} {p : Prog C R α} {Q : α → S → Prop}
    (h : Spec exec E I s p Q) : Spec exec E I s p fun a s' => I s' ∧ Q a s' :=
  fun tr s' p' hrun hE =>
    have := h tr s' p' hrun hE
    ⟨this.1, fun a ha => ⟨this.1, this.2 a ha⟩⟩

/-- Weaker assumptions on the environment or a stronger invariant give more. -/
theorem Spec.weaken {s : S} {p : Prog C R α} {Q : α → S → Prop}
    (h : Spec exec E I s p Q) (hE : ∀ ev, E' ev → E ev) (hI : ∀ s, I s → I' s) :
    Spec exec E' I' s p Q :=
  fun tr s' p' hrun hE' =>
    have := h tr s' p' hrun fun ev hev => hE ev (hE' ev hev)
    ⟨hI s' this.1, this.2⟩

theorem Spec.and {s : S} {p : Prog C R α} {Q Q' : α → S → Prop}
    (h : Spec exec E I s p Q) (h' : Spec exec E I' s p Q') :
    Spec exec E (fun s => I s ∧ I' s) s p (fun a s => Q a s ∧ Q' a s) :=
  fun tr s' p' hrun hE =>
    have h₁ := h tr s' p' hrun hE
    have h₂ := h' tr s' p' hrun hE
    ⟨⟨h₁.1, h₂.1⟩, fun a ha => ⟨h₁.2 a ha, h₂.2 a ha⟩⟩

theorem Spec.bind {s : S} {p : Prog C R α} {f : α → Prog C R β} {Q : α → S → Prop}
    {Q' : β → S → Prop} (h : Spec exec E I s p Q)
    (hf : ∀ a s', Q a s' → Spec exec E I s' (f a) Q') :
    Spec exec E I s (p.bind f) Q' := by
  intro tr s' q hrun hE
  rcases runs_bind hrun with ⟨p', hr, rfl⟩ | ⟨tr₁, tr₂, s₁, a, rfl, hr, hr'⟩
  · refine ⟨(h _ _ _ hr hE).1, fun b hb => ?_⟩
    cases p' with
    | ret a => exact ((hf a s' ((h _ _ _ hr hE).2 a rfl)) [] s' _ (.refl _ _) (by simp)).2 b hb
    | call c k => cases hb
    | loop body st k => cases hb
  · have hQ := (h _ _ _ hr fun ev hev => hE ev (List.mem_append_left _ hev)).2 a rfl
    exact hf a s₁ hQ _ _ _ hr' fun ev hev => hE ev (List.mem_append_right _ hev)

/-- A response is handed to what follows its call. -/
theorem Spec.ret_bind {s : S} {a : α} {f : α → Prog C R β} {Q : β → S → Prop}
    (h : Spec exec E I s (f a) Q) : Spec exec E I s ((Prog.ret a).bind f) Q := h

/-- **Loop rule.** `Inv` holds of the loop state at every entry of the body;
a round either establishes it again or meets what follows the loop. -/
theorem Spec.loop {body : σ → Prog C R (σ ⊕ β)} {k : β → Prog C R α} {Q : α → S → Prop}
    (Inv : σ → S → Prop)
    (hbody : ∀ st s, Inv st s → Spec exec E I s (body st)
      (Sum.elim Inv fun b s' => Spec exec E I s' (k b) Q))
    {st : σ} {s : S} (h : Inv st s) : Spec exec E I s (.loop body st k) Q := by
  let X : S → Prog C R α → Prop := fun s P =>
    (∃ st, P = .loop body st k ∧ Inv st s) ∨
    (∃ p, P = p.bind (Prog.again body k) ∧
      Spec exec E I s p (Sum.elim Inv fun b s' => Spec exec E I s' (k b) Q)) ∨
    Spec exec E I s P Q
  refine Spec.coind (X := X) ?_ ?_ (.inl ⟨st, rfl, h⟩)
  · rintro s P (⟨st, rfl, hs⟩ | ⟨p, rfl, hp⟩ | hP)
    · exact (hbody st s hs).inv
    · exact hp.inv
    · exact hP.inv
  · rintro s P (⟨st, rfl, hs⟩ | ⟨p, rfl, hp⟩ | hP)
    · exact .inr (.inl ⟨body st, rfl, hbody st s hs⟩)
    · cases p with
      | ret r =>
        cases r with
        | inl st => exact .inr (.inl ⟨body st, rfl, hbody st s hp.post⟩)
        | inr b =>
          have hk : Spec exec E I s (k b) Q := hp.post
          show Closed exec E X Q s (k b)
          cases hb : k b with
          | ret a => exact (hb ▸ hk).post
          | call c k' => exact fun o ho => .inr (.inr ((hb ▸ hk).step o ho))
          | loop body' st' k' => exact .inr (.inr (hb ▸ hk).unfold)
      | call c k' => exact fun o ho => .inr (.inl ⟨_, rfl, hp.step o ho⟩)
      | loop body' st' k' => exact .inr (.inl ⟨_, by simp, hp.unfold⟩)
    · cases P with
      | ret a => exact hP.post
      | call c k' => exact fun o ho => .inr (.inr (hP.step o ho))
      | loop body' st' k' => exact .inr (.inr hP.unfold)

-- ---------------------------------------------------------------------------
-- Termination
-- ---------------------------------------------------------------------------

/-- No run of `p` from `s` with calls in `E` goes on for ever. -/
inductive Halts (exec : O → S → (c : C) → S × R c) (E : Event C R O → Prop) {α : Type} :
    S → Prog C R α → Prop where
  | ret (s : S) (a : α) : Halts exec E s (.ret a)
  | call {s : S} {c : C} {k : R c → Prog C R α} :
      (∀ o, E ⟨c, o, (exec o s c).2⟩ → Halts exec E (exec o s c).1 (k (exec o s c).2)) →
      Halts exec E s (.call c k)
  | loop {β σ : Type} {s : S} {body : σ → Prog C R (σ ⊕ β)} {st : σ} {k : β → Prog C R α} :
      Halts exec E s ((body st).bind (Prog.again body k)) →
      Halts exec E s (.loop body st k)

theorem Halts.step {s : S} {c : C} {k : R c → Prog C R α}
    (h : Halts exec E s (.call c k)) (o : O) (ho : E ⟨c, o, (exec o s c).2⟩) :
    Halts exec E (exec o s c).1 (k (exec o s c).2) := by
  cases h with
  | call h => exact h o ho

theorem Halts.unfold {s : S} {body : σ → Prog C R (σ ⊕ β)} {st : σ} {k : β → Prog C R α}
    (h : Halts exec E s (.loop body st k)) :
    Halts exec E s ((body st).bind (Prog.again body k)) := by
  cases h with
  | loop h => exact h

/-- A program that halts halts from every point of its runs. -/
theorem Halts.runs {s s' : S} {p p' : Prog C R α} {tr} (h : Halts exec E s p)
    (hrun : Runs exec s p tr s' p') (hE : ∀ ev ∈ tr, E ev) : Halts exec E s' p' := by
  induction hrun with
  | refl => exact h
  | call o _ ih =>
    exact ih (h.step o (hE _ (List.mem_cons_self ..)))
      fun ev hev => hE ev (List.mem_cons_of_mem _ hev)
  | unfold _ ih => exact ih h.unfold hE

theorem Halts.bind {s : S} {p : Prog C R α} {f : α → Prog C R β} {Q : α → S → Prop}
    (h : Halts exec E s p) (hp : Spec exec E I s p Q)
    (hf : ∀ a s', Q a s' → Halts exec E s' (f a)) : Halts exec E s (p.bind f) := by
  induction h with
  | ret s a => exact hf a s hp.post
  | call _ ih => exact .call fun o ho => ih o ho (hp.step o ho)
  | loop _ ih =>
    refine .loop ?_
    rw [← Prog.bind_again_bind]
    exact ih hp.unfold

/-- **Loop rule for termination.** Every round halts and goes to a point `w'` before
the point `w` it started from; there is no way down from `w` for ever. -/
theorem Halts.loop_acc {body : σ → Prog C R (σ ⊕ β)} {k : β → Prog C R α}
    {W : Type} {r : W → W → Prop} (Inv : W → σ → S → Prop)
    (hbody : ∀ w st s, Inv w st s → Halts exec E s (body st) ∧
      Spec exec E (fun _ => True) s (body st) (Sum.elim
        (fun st' s' => ∃ w', r w' w ∧ Inv w' st' s')
        fun b s' => Halts exec E s' (k b)))
    {w : W} (hw : Acc r w) {st : σ} {s : S} (h : Inv w st s) :
    Halts exec E s (.loop body st k) := by
  induction hw generalizing st s with
  | intro w _ ih =>
    obtain ⟨hh, hs⟩ := hbody w st s h
    refine .loop (hh.bind hs ?_)
    rintro (st' | b) s' hr
    · obtain ⟨w', hw', h'⟩ := hr
      exact ih w' hw' h'
    · exact hr

/-- The same with a measure. -/
theorem Halts.loop_rank {body : σ → Prog C R (σ ⊕ β)} {k : β → Prog C R α}
    (Inv : σ → S → Prop) (rank : σ → S → Nat)
    (hbody : ∀ st s, Inv st s → Halts exec E s (body st) ∧
      Spec exec E (fun _ => True) s (body st) (Sum.elim
        (fun st' s' => Inv st' s' ∧ rank st' s' < rank st s)
        fun b s' => Halts exec E s' (k b)))
    {st : σ} {s : S} (h : Inv st s) : Halts exec E s (.loop body st k) := by
  refine Halts.loop_acc (r := (· < ·)) (fun n st s => Inv st s ∧ rank st s = n) ?_
    (Nat.lt_wfRel.wf.apply (rank st s)) ⟨h, rfl⟩
  rintro _ st s ⟨hst, rfl⟩
  obtain ⟨hh, hs⟩ := hbody st s hst
  refine ⟨hh, hs.mono ?_⟩
  rintro (st' | b) s' hr
  · exact ⟨_, hr.2, hr.1, rfl⟩
  · exact hr

/-- **Loop rule for non-termination.** Every round can get to another one. -/
theorem not_halts_loop {body : σ → Prog C R (σ ⊕ β)} {k : β → Prog C R α} (X : σ → S → Prop)
    (hbody : ∀ st s, X st s → ∃ tr s' st', Runs exec s (body st) tr s' (.ret (.inl st')) ∧
      (∀ ev ∈ tr, E ev) ∧ X st' s')
    {st : σ} {s : S} (h : X st s) : ¬ Halts exec E s (.loop body st k) := by
  -- every program halts from which a run leads back to the head of the loop
  have hmain : ∀ {s : S} {p : Prog C R α}, Halts exec E s p → ∀ tr s' st',
      Runs exec s p tr s' (.loop body st' k) → (∀ ev ∈ tr, E ev) → ¬ X st' s' := by
    intro s p hp
    induction hp with
    | ret s a =>
      intro tr s' st' hrun _ _
      cases (runs_ret hrun).2.2
    | call _ ih =>
      intro tr s' st' hrun hE hX
      cases hrun with
      | call o hrun =>
        exact ih o (hE _ (List.mem_cons_self ..)) _ _ _ hrun
          (fun ev hev => hE ev (List.mem_cons_of_mem _ hev)) hX
    | loop _ ih =>
      intro tr s' st' hrun hE hX
      cases hrun with
      | refl =>
        obtain ⟨tr', s'', st'', hround, hE', hX'⟩ := hbody _ _ hX
        exact ih tr' s'' st'' (hround.bind _) hE' hX'
      | unfold hrun => exact ih _ _ _ hrun hE hX
  exact fun hh => hmain hh [] s st (.refl _ _) (by simp) h

/-- If the environment always has a move in `E`, a program that halts has a
run to its end. -/
theorem Halts.exists_run {s : S} {p : Prog C R α} (h : Halts exec E s p)
    (hE : ∀ s c, ∃ o, E ⟨c, o, (exec o s c).2⟩) :
    ∃ tr s' a, Runs exec s p tr s' (.ret a) ∧ ∀ ev ∈ tr, E ev := by
  induction h with
  | ret s a => exact ⟨[], s, a, .refl _ _, by simp⟩
  | @call s c k _ ih =>
    obtain ⟨o, ho⟩ := hE s c
    obtain ⟨tr, s', a, hrun, htr⟩ := ih o ho
    refine ⟨_ :: tr, s', a, .call o hrun, fun ev hev => ?_⟩
    rcases List.mem_cons.mp hev with rfl | hev
    · exact ho
    · exact htr ev hev
  | loop _ ih =>
    obtain ⟨tr, s', a, hrun, htr⟩ := ih
    exact ⟨tr, s', a, .unfold hrun, htr⟩

/-- What follows a part of a program that halts, halts. -/
theorem Halts.of_bind {s s' : S} {p : Prog C R α} {f : α → Prog C R β} {a : α} {tr}
    (h : Halts exec E s (p.bind f)) (hrun : Runs exec s p tr s' (.ret a)) (hE : ∀ ev ∈ tr, E ev) :
    Halts exec E s' (f a) := h.runs (hrun.bind f) hE

/-- A call halts if what follows each of its responses does. -/
theorem Halts.of_issue {s : S} {c : C} {k : R c → Prog C R α}
    (h : Spec exec E (fun _ => True) s (Prog.issue c) fun r s' => Halts exec E s' (k r)) :
    Halts exec E s (.call c k) :=
  .call fun o ho => (h.step o ho).post

/-- What every call of a program keeps holds along its runs. -/
theorem Spec.of_calls {P : C → Prop} (hkeep : ∀ o s c, P c → I s → I (exec o s c).1) {s : S}
    {p : Prog C R α} (hp : p.Calls P) (hs : I s) : Spec exec E I s p fun _ => I := by
  rintro tr s' p' hrun -
  have hI : I s' := by
    induction hrun with
    | refl => exact hs
    | call o _ ih => exact ih (hp.2 _) (hkeep o _ _ hp.1 hs)
    | unfold _ ih => exact ih hp.unfold hs
  exact ⟨hI, fun _ _ => hI⟩

theorem Spec.trivial {s : S} {p : Prog C R α} :
    Spec exec E (fun _ => True) s p fun _ _ => True :=
  fun _ _ _ _ _ => ⟨True.intro, fun _ _ => True.intro⟩

-- ---------------------------------------------------------------------------
-- Possible runs
-- ---------------------------------------------------------------------------

/-- A run of `p` from `s` is possible in which all calls are in `E` and whose end
satisfies `Q`. -/
def May (exec : O → S → (c : C) → S × R c) (E : Event C R O → Prop) (s : S)
    (p : Prog C R α) (Q : α → S → Prop) : Prop :=
  ∃ tr s' a, Runs exec s p tr s' (.ret a) ∧ (∀ ev ∈ tr, E ev) ∧ Q a s'

theorem May.ret {s : S} {a : α} {Q : α → S → Prop} (h : Q a s) : May exec E s (.ret a) Q :=
  ⟨[], s, a, .refl _ _, by simp, h⟩

/-- The environment chooses `o`, which leads to `s'` and the response `r`. -/
theorem May.call {s s' : S} {c : C} {r : R c} {k : R c → Prog C R α} {Q : α → S → Prop} (o : O)
    (hexec : exec o s c = (s', r)) (hE : E ⟨c, o, r⟩) (h : May exec E s' (k r) Q) :
    May exec E s (.call c k) Q := by
  obtain ⟨tr, s'', a, hrun, htr, hQ⟩ := h
  refine ⟨⟨c, o, (exec o s c).2⟩ :: tr, s'', a, .call o (by rwa [hexec]), fun ev hev => ?_, hQ⟩
  rcases List.mem_cons.mp hev with rfl | hev
  · rwa [hexec]
  · exact htr ev hev

theorem May.unfold {s : S} {body : σ → Prog C R (σ ⊕ β)} {st : σ} {k : β → Prog C R α}
    {Q : α → S → Prop} (h : May exec E s ((body st).bind (Prog.again body k)) Q) :
    May exec E s (.loop body st k) Q := by
  obtain ⟨tr, s', a, hrun, htr, hQ⟩ := h
  exact ⟨tr, s', a, .unfold hrun, htr, hQ⟩

theorem May.bind {s : S} {p : Prog C R α} {f : α → Prog C R β} {Q : α → S → Prop}
    {Q' : β → S → Prop} (h : May exec E s p Q) (hf : ∀ a s', Q a s' → May exec E s' (f a) Q') :
    May exec E s (p.bind f) Q' := by
  obtain ⟨tr, s', a, hrun, htr, hQ⟩ := h
  obtain ⟨tr', s'', b, hrun', htr', hQ'⟩ := hf a s' hQ
  refine ⟨tr ++ tr', s'', b, (hrun.bind f).trans hrun', fun ev hev => ?_, hQ'⟩
  rcases List.mem_append.mp hev with hev | hev
  · exact htr ev hev
  · exact htr' ev hev

/-- A program that halts and has a specification has a run to an end it allows. -/
theorem Spec.may {s : S} {p : Prog C R α} {Q : α → S → Prop} (hp : Spec exec E I s p Q)
    (h : Halts exec E s p) (hE : ∀ s c, ∃ o, E ⟨c, o, (exec o s c).2⟩) : May exec E s p Q := by
  obtain ⟨tr, s', a, hrun, htr⟩ := h.exists_run hE
  exact ⟨tr, s', a, hrun, htr, (hp tr s' _ hrun htr).2 a rfl⟩

-- ---------------------------------------------------------------------------
-- Programs that halt from every state
-- ---------------------------------------------------------------------------

/-- The program halts from every state. -/
def Total (exec : O → S → (c : C) → S × R c) (E : Event C R O → Prop) (p : Prog C R α) : Prop :=
  ∀ s, Halts exec E s p

theorem Total.ret (a : α) : Total exec E (.ret a : Prog C R α) := fun s => .ret s a

theorem Total.call {c : C} {k : R c → Prog C R α} (h : ∀ r, Total exec E (k r)) :
    Total exec E (.call c k) := fun _ => .call fun _ _ => h _ _

theorem Total.bind {p : Prog C R α} {f : α → Prog C R β} (hp : Total exec E p)
    (hf : ∀ a, Total exec E (f a)) : Total exec E (p.bind f) :=
  fun s => (hp s).bind Spec.trivial fun a s' _ => hf a s'

theorem Total.ret_bind {a : α} {f : α → Prog C R β} (h : Total exec E (f a)) :
    Total exec E ((Prog.ret a).bind f) := h

/-- A loop halts from every state whose rounds make its own state smaller. -/
theorem Total.loop {body : σ → Prog C R (σ ⊕ β)} {k : β → Prog C R α} (rank : σ → Nat)
    (hbody : ∀ st, Total exec E (body st))
    (hrank : ∀ st s, Spec exec E (fun _ => True) s (body st)
      (Sum.elim (fun st' _ => rank st' < rank st) fun _ _ => True))
    (hk : ∀ b, Total exec E (k b)) {st : σ} : Total exec E (.loop body st k) := by
  refine fun s => Halts.loop_rank (fun _ _ => True) (fun st _ => rank st) ?_ True.intro
  refine fun st s _ => ⟨hbody st s, (hrank st s).mono ?_⟩
  rintro (st' | b) s' hr
  · exact ⟨True.intro, hr⟩
  · exact hk b s'

end Logic

end LabsOS
