import LabsOS.Concurrency.Steps
import Mathlib.Logic.Function.Basic

/-!
# Programs that handle signals

A program of one thread whose signal handler, once entered, ends in `exit`. A signal may be
delivered at any point: it ends the process if no handler is installed for it, and enters the
handler otherwise, with the signal itself blocked from then on. A handler can so be interrupted
by another signal, and `exit` too.

`Program.Keeps.asserts_of_reaches` is the rule of invariants: it asks of an assertion at each
point that the next statement and a signal keep it.
-/

namespace LabsOS.Signals

inductive Signal where
  | int
  | term
  deriving DecidableEq, Repr

/-- Where the process is: at a statement of `main` or of the handler, in `exit`, or at an
end. -/
inductive Control (M H : Type) where
  | main (pc : M)
  | handler (pc : H)
  | exiting (status : Nat)
  | exited (status : Nat)
  | killed
  deriving DecidableEq, Repr

variable {A X M H : Type}

/-- A program over the variables `X`; the rest of the world answers its statements with an
`A`. -/
structure Program (A X M H : Type) where
  main : A → X → M → X × Control M H
  handler : A → X → H → X × Control M H
  entry : H
  installed : X → Signal → Bool

structure Process (X M H : Type) where
  vars : X
  blocked : Signal → Bool
  control : Control M H

inductive Action (A : Type) where
  | run (a : A)
  | signal (sig : Signal)
  deriving DecidableEq, Repr

namespace Program

/-- The next statement. -/
def run (p : Program A X M H) (a : A) (s : Process X M H) : Option (Process X M H) :=
  match s.control with
  | .main pc => some ⟨(p.main a s.vars pc).1, s.blocked, (p.main a s.vars pc).2⟩
  | .handler pc => some ⟨(p.handler a s.vars pc).1, s.blocked, (p.handler a s.vars pc).2⟩
  | .exiting status => some { s with control := .exited status }
  | .exited _ | .killed => none

/-- The process has not ended. -/
def Alive : Control M H → Prop
  | .exited _ | .killed => False
  | _ => True

instance : (c : Control M H) → Decidable (Alive c)
  | .main _ | .handler _ | .exiting _ => .isTrue trivial
  | .exited _ | .killed => .isFalse id

/-- A signal is delivered. -/
def deliver (p : Program A X M H) (sig : Signal) (s : Process X M H) : Option (Process X M H) :=
  if Alive s.control ∧ s.blocked sig = false then
    if p.installed s.vars sig then
      some ⟨s.vars, Function.update s.blocked sig true, .handler p.entry⟩
    else some { s with control := .killed }
  else none

def step (p : Program A X M H) : Action A → Process X M H → Option (Process X M H)
  | .run a => p.run a
  | .signal sig => p.deliver sig

def boot (x : X) (pc : M) : Process X M H := ⟨x, fun _ => false, .main pc⟩

-- ---------------------------------------------------------------------------
-- Assertions
-- ---------------------------------------------------------------------------

variable {p : Program A X M H} {s s' : Process X M H} {Assert : X → Control M H → Prop}

/-- The statements and the signals keep an assertion. -/
structure Keeps (p : Program A X M H) (Assert : X → Control M H → Prop) : Prop where
  main : ∀ a x pc, Assert x (.main pc) → Assert (p.main a x pc).1 (p.main a x pc).2
  handler : ∀ a x pc, Assert x (.handler pc) → Assert (p.handler a x pc).1 (p.handler a x pc).2
  exit : ∀ x status, Assert x (.exiting status) → Assert x (.exited status)
  enter : ∀ x c sig, p.installed x sig = true → Assert x c → Assert x (.handler p.entry)
  kill : ∀ x c, Assert x c → Assert x .killed

theorem Keeps.step (h : p.Keeps Assert) {act : Action A} (hs : Assert s.vars s.control)
    (hstep : p.step act s = some s') : Assert s'.vars s'.control := by
  obtain ⟨x, blocked, c⟩ := s
  cases act with
  | run a =>
    cases c with
    | main pc => exact Option.some.inj hstep ▸ h.main a x pc hs
    | handler pc => exact Option.some.inj hstep ▸ h.handler a x pc hs
    | exiting status => exact Option.some.inj hstep ▸ h.exit x status hs
    | exited status => cases hstep
    | killed => cases hstep
  | signal sig =>
    rw [Program.step, deliver] at hstep
    split at hstep
    · split at hstep
      · next hinstalled => exact Option.some.inj hstep ▸ h.enter x c sig hinstalled hs
      · exact Option.some.inj hstep ▸ h.kill x c hs
    · cases hstep

/-- **The rule of invariants.** -/
theorem Keeps.asserts_of_reaches (h : p.Keeps Assert) (hreach : Reaches p.step s s')
    (hs : Assert s.vars s.control) : Assert s'.vars s'.control :=
  hreach.invariant (I := fun s => Assert s.vars s.control) hs fun _ _ _ hs ha => h.step hs ha

-- ---------------------------------------------------------------------------
-- Ends
-- ---------------------------------------------------------------------------

variable {x : X} {pc : M} {status n : Nat}

/-- The process has taken no step but to exit with `status`, or to be killed. -/
def RefusedAt (x : X) (pc : M) (status : Nat) (x' : X) (c : Control M H) : Prop :=
  x' = x ∧ (c = .main pc ∨ c = .exiting status ∨ c = .exited status ∨ c = .killed)

/-- A process that exits at its first statement, before it installs a handler. -/
theorem refusedAt_of_reaches (hfirst : ∀ a, p.main a x pc = (x, .exiting status))
    (hinstalled : ∀ sig, p.installed x sig = false) (h : Reaches p.step (boot x pc) s) :
    RefusedAt x pc status s.vars s.control := by
  have hkeeps : p.Keeps (RefusedAt x pc status) :=
    { main := by
        rintro a x' pc' ⟨rfl, hpc⟩
        obtain rfl : pc' = pc := by simpa using hpc
        rw [hfirst a]
        exact ⟨rfl, .inr (.inl rfl)⟩
      handler := by
        rintro a x' pc' ⟨-, hpc⟩
        simp at hpc
      exit := by
        rintro x' status' ⟨rfl, hpc⟩
        obtain rfl : status' = status := by simpa using hpc
        exact ⟨rfl, .inr (.inr (.inl rfl))⟩
      enter := by
        rintro x' c sig hsig ⟨rfl, -⟩
        cases (hinstalled sig).symm.trans hsig
      kill := by
        rintro x' c ⟨rfl, -⟩
        exact ⟨rfl, .inr (.inr (.inr rfl))⟩ }
  exact hkeeps.asserts_of_reaches h ⟨rfl, .inl rfl⟩

/-- A handler, once entered, ends in `exit(n)`. -/
def HandlerExits (p : Program A X M H) (n : Nat) : Prop :=
  ∀ a x pc, (∃ pc', (p.handler a x pc).2 = .handler pc') ∨ (p.handler a x pc).2 = .exiting n

/-- The process is in `main`, or was interrupted and will exit with `n`. -/
def MainOr (P : X → Prop) (n : Nat) (x : X) (c : Control M H) : Prop :=
  P x ∨ (∃ pc, c = .handler pc) ∨ c = .exiting n ∨ c = .exited n ∨ c = .killed

/-- What the statements of `main` keep holds when the process exits with another status than
that of the handler. -/
theorem HandlerExits.of_exited {P : X → Prop} (h : p.HandlerExits n)
    (hmain : ∀ a x pc, P x → P (p.main a x pc).1) (hs : P s.vars)
    (hreach : Reaches p.step s s') (hexit : s'.control = .exited status) (hne : status ≠ n) :
    P s'.vars := by
  have hkeeps : p.Keeps (MainOr P n) :=
    { main := by
        intro a x pc hx
        exact .inl (hmain a x pc (by simpa [MainOr] using hx))
      handler := fun a x pc _ => .inr ((h a x pc).imp_right .inl)
      exit := by
        intro x status hx
        rcases hx with hx | hx
        · exact .inl hx
        · obtain rfl : status = n := by simpa using hx
          exact .inr (.inr (.inr (.inl rfl)))
      enter := fun _ _ _ _ _ => .inr (.inl ⟨_, rfl⟩)
      kill := fun _ _ _ => .inr (.inr (.inr (.inr rfl))) }
  have hend := hkeeps.asserts_of_reaches hreach (.inl hs)
  rw [hexit] at hend
  rcases hend with hend | hend
  · exact hend
  · exact absurd (by simpa using hend) hne

/-- The process takes the statement `pc` and later exits with `status`, in the state `s`. -/
def ExitsBehind (p : Program A X M H) (s₀ : Process X M H) (pc : M) (status : Nat)
    (s : Process X M H) : Prop :=
  ∃ s₁, Reaches p.step s₀ s₁ ∧ s₁.control = .main pc ∧ Reaches p.step s₁ s ∧
    s.control = .exited status

theorem exitsBehind_of_steps (as bs : List (Action A)) {s₁ : Process X M H}
    (hfirst : steps p.step as s = some s₁) (hpc : s₁.control = .main pc)
    (hrest : steps p.step bs s₁ = some s') (hexit : s'.control = .exited status) :
    p.ExitsBehind s pc status s' :=
  ⟨s₁, Reaches.refl.steps hfirst, hpc, Reaches.refl.steps hrest, hexit⟩

/-- The statement `pc'` comes behind the first statement `pc` only, and nothing goes back to
that. -/
structure Behind (p : Program A X M H) (pc pc' : M) : Prop where
  ne : pc' ≠ pc
  first : ∀ a x, (p.main a x pc).2 ≠ .main pc
  rest : ∀ a x pc₁, pc₁ ≠ pc →
    (p.main a x pc₁).2 ≠ .main pc ∧ (p.main a x pc₁).2 ≠ .main pc'

/-- A process that is at `pc'` has taken the first statement. -/
theorem Behind.of_reaches {pc' : M} (h : p.Behind pc pc') (hexits : p.HandlerExits n)
    (hreach : Reaches p.step (boot x pc) s) (hs : s.control = .main pc') :
    ∃ a, p.main a x pc = (s.vars, .main pc') := by
  have hhandler : ∀ a x' pc₁ pc₂, (p.handler a x' pc₁).2 ≠ .main pc₂ := by
    intro a x' pc₁ pc₂ heq
    rcases hexits a x' pc₁ with ⟨pc₃, hc⟩ | hc
    · cases hc.symm.trans heq
    · cases hc.symm.trans heq
  have hkeeps : p.Keeps fun x' c => (c = .main pc → x' = x) ∧
      (c = .main pc' → ∃ a, p.main a x pc = (x', .main pc')) :=
    { main := by
        intro a x' pc₁ hx
        by_cases hpc : pc₁ = pc
        · subst hpc
          obtain rfl := hx.1 rfl
          exact ⟨fun heq => absurd heq (h.first a x'), fun heq => ⟨a, by rw [← heq]⟩⟩
        · obtain ⟨hfirst, hsecond⟩ := h.rest a x' pc₁ hpc
          exact ⟨fun heq => absurd heq hfirst, fun heq => absurd heq hsecond⟩
      handler := fun a x' pc₁ _ =>
        ⟨fun heq => absurd heq (hhandler a x' pc₁ _), fun heq => absurd heq (hhandler a x' pc₁ _)⟩
      exit := fun _ _ _ => ⟨nofun, nofun⟩
      enter := fun _ _ _ _ _ => ⟨nofun, nofun⟩
      kill := fun _ _ _ => ⟨nofun, nofun⟩ }
  have hstart : Control.main (H := H) pc = .main pc' → ∃ a, p.main a x pc = (x, .main pc') :=
    fun heq => absurd (Control.main.inj heq).symm h.ne
  exact (hkeeps.asserts_of_reaches hreach ⟨fun _ => rfl, hstart⟩).2 hs

/-- What the first statement establishes and `main` keeps holds where the process exits with
another status than that of the handler. -/
theorem ExitsBehind.of_first {P : X → Prop} {pc' : M}
    (h : p.ExitsBehind (boot x pc) pc' status s) (hbehind : p.Behind pc pc')
    (hexits : p.HandlerExits n) (hne : status ≠ n)
    (hfirst : ∀ a x', p.main a x pc = (x', .main pc') → P x')
    (hmain : ∀ a x pc, P x → P (p.main a x pc).1) : P s.vars := by
  obtain ⟨s₁, hreach, hpc', hrest, hexit⟩ := h
  obtain ⟨a, ha⟩ := hbehind.of_reaches hexits hreach hpc'
  exact hexits.of_exited hmain (hfirst a _ ha) hrest hexit hne

end Program

end LabsOS.Signals
