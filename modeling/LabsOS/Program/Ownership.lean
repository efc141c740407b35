import LabsOS.Program.Logic
import Mathlib.Data.Finset.Basic

/-!
# Resources that a program owns

Some calls hand out a resource, some need resources that they are given, and some take one back.
`Prog.Owned` checks a program against this without running it: whatever its calls are answered, it
uses only resources that it owns, and owns what its postcondition says when it returns.

`Prog.Owned.preserved` is what the check is good for: along every run there is a set of resources
that the program owns, which the state `Tracks`, and the rest of the program still passes the
check for it.
-/

namespace LabsOS

/-- What calls do with resources: `needs` they must be given, `gives` they take back from the
program, and `takes` they hand out. -/
structure Resources (C : Type) (R : C → Type) (X : Type) where
  needs : C → List X
  gives : (c : C) → R c → Option X
  takes : (c : C) → R c → Option X

variable {C : Type} {R : C → Type} {X S O α β σ : Type} [DecidableEq X]

/-- What is owned behind a call. -/
def Resources.after (w : Resources C R X) (F : Finset X) (c : C) (r : R c) : Finset X :=
  (w.takes c r).elim ((w.gives c r).elim F F.erase)
    fun x => insert x ((w.gives c r).elim F F.erase)

variable (w : Resources C R X)

/-- A program that owns `F`, and `Q` when it returns. What a call hands out is not owned already.
A loop has an invariant. -/
def Prog.Owned {α : Type} : Finset X → Prog C R α → (α → Finset X → Prop) → Prop
  | F, .ret a, Q => Q a F
  | F, .call c k, Q => (∀ x ∈ w.needs c, x ∈ F) ∧
    ∀ r, (∀ x, w.takes c r = some x → x ∉ F) → Prog.Owned (w.after F c r) (k r) Q
  | F, .loop body st k, Q => ∃ Inv : _ → Finset X → Prop, Inv st F ∧
    ∀ st F, Inv st F →
      Prog.Owned F (body st) (Sum.elim Inv fun b F' => Prog.Owned F' (k b) Q)

/-- A program that owns in the end what it has owned at first. -/
def Prog.Balanced (F : Finset X) (p : Prog C R α) : Prop := p.Owned w F fun _ F' => F' = F

variable {E : Event C R O → Prop} {exec : O → S → (c : C) → S × R c}

/-- The state keeps track of what is owned: a call that is given what it needs hands out nothing
that is owned already. -/
structure Resources.Tracks (w : Resources C R X) (exec : O → S → (c : C) → S × R c)
    (E : Event C R O → Prop) (T : Finset X → S → Prop) : Prop where
  fresh : ∀ o s c F, T F s → (∀ x ∈ w.needs c, x ∈ F) → E ⟨c, o, (exec o s c).2⟩ →
    ∀ x, w.takes c (exec o s c).2 = some x → x ∉ F
  step : ∀ o s c F, T F s → (∀ x ∈ w.needs c, x ∈ F) → E ⟨c, o, (exec o s c).2⟩ →
    T (w.after F c (exec o s c).2) (exec o s c).1

variable {w} {F F' : Finset X} {p : Prog C R α} {Q Q' : α → Finset X → Prop}

namespace Prog.Owned

theorem mono (h : p.Owned w F Q) (hQ : ∀ a F, Q a F → Q' a F) : p.Owned w F Q' := by
  induction p generalizing F with
  | ret a => exact hQ a F h
  | call c k ih => exact ⟨h.1, fun r hr => ih r (h.2 r hr) hQ⟩
  | loop body st k ihbody ih =>
    obtain ⟨Inv, hst, hbody⟩ := h
    refine ⟨Inv, hst, fun st F hF => ihbody st (hbody st F hF) ?_⟩
    rintro (st' | b) F' hF'
    · exact hF'
    · exact ih b hF' hQ

theorem bind {f : α → Prog C R β} {P : β → Finset X → Prop} (h : p.Owned w F Q)
    (hf : ∀ a F, Q a F → (f a).Owned w F P) : (p.bind f).Owned w F P := by
  induction p generalizing F with
  | ret a => exact hf a F h
  | call c k ih => exact ⟨h.1, fun r hr => ih r (h.2 r hr) hf⟩
  | loop body st k ihbody ih =>
    obtain ⟨Inv, hst, hbody⟩ := h
    refine ⟨Inv, hst, fun st F hF => (hbody st F hF).mono ?_⟩
    rintro (st' | b) F' hF'
    · exact hF'
    · exact ih b hF' hf

theorem of_balanced {f : α → Prog C R β} {P : β → Finset X → Prop} (h : p.Balanced w F)
    (hf : ∀ a, (f a).Owned w F P) : (p.bind f).Owned w F P := by
  refine h.bind ?_
  rintro a F' rfl
  exact hf a

/-- A call that takes back what the program owns, and hands nothing out. -/
theorem release {c : C} {k : R c → Prog C R α} {x : X} (hneeds : ∀ y ∈ w.needs c, y ∈ F)
    (hgives : ∀ r, w.gives c r = some x) (htakes : ∀ r, w.takes c r = none)
    (h : ∀ r, (k r).Owned w (F.erase x) Q) : (Prog.call c k).Owned w F Q := by
  refine ⟨hneeds, fun r _ => ?_⟩
  rw [Resources.after, hgives, htakes]
  exact h r

/-- A call that hands out what its response says. -/
theorem acquire {c : C} {k : R c → Prog C R α} (hneeds : ∀ x ∈ w.needs c, x ∈ F)
    (hgives : ∀ r, w.gives c r = none) (hnone : ∀ r, w.takes c r = none → (k r).Owned w F Q)
    (hsome : ∀ r x, w.takes c r = some x → x ∉ F → (k r).Owned w (insert x F) Q) :
    (Prog.call c k).Owned w F Q := by
  refine ⟨hneeds, fun r hr => ?_⟩
  rw [Resources.after, hgives]
  cases htakes : w.takes c r with
  | none => exact hnone r htakes
  | some x => exact hsome r x htakes (hr x htakes)

/-- A loop each round of which owns in the end what it has owned at first. -/
theorem while_ {body : σ → Prog C R (σ ⊕ β)} {st : σ} {Q : β → Finset X → Prop}
    (hbody : ∀ st, (body st).Owned w F (Sum.elim (fun _ F' => F' = F) Q)) :
    (Prog.while_ body st).Owned w F Q := by
  refine ⟨fun _ F' => F' = F, rfl, fun st F' hF' => ?_⟩
  subst hF'
  exact hbody st

theorem while_balanced {body : σ → Prog C R (σ ⊕ β)} {st : σ}
    (hbody : ∀ st, (body st).Balanced w F) : (Prog.while_ body st).Balanced w F := by
  refine while_ fun st => (hbody st).mono ?_
  rintro (st' | b) F' rfl <;> rfl

/-- **What is checked stays true.** -/
theorem preserved {T : Finset X → S → Prop} (hT : w.Tracks exec E T) {s s' : S} {p' : Prog C R α}
    {tr : List (Event C R O)} (hp : p.Owned w F Q) (hs : T F s)
    (hrun : Runs exec s p tr s' p') (hE : ∀ ev ∈ tr, E ev) :
    ∃ F', T F' s' ∧ p'.Owned w F' Q := by
  induction hrun generalizing F with
  | refl => exact ⟨F, hs, hp⟩
  | @call s s' c k p' tr o _ ih =>
    have ho : E ⟨c, o, (exec o s c).2⟩ := hE _ (List.mem_cons_self ..)
    exact ih (hp.2 _ (hT.fresh o s c F hs hp.1 ho)) (hT.step o s c F hs hp.1 ho)
      fun ev hev => hE ev (List.mem_cons_of_mem _ hev)
  | @unfold β σ s s' body st k p' tr _ ih =>
    obtain ⟨Inv, hst, hbody⟩ := hp
    apply ih _ hs hE
    apply (hbody st F hst).bind
    rintro (st' | b) F' hF'
    · exact ⟨Inv, hF', hbody⟩
    · exact hF'

end Prog.Owned

end LabsOS
