import LabsOS.Concurrency.Signals
import LabsOS.Concurrency.Team

/-!
# Processes that exclude each other

A crew is any number of processes that run one program and share a part of its variables, so
that each of them works on what the others have left there.

`Guards` is the rule for a lock that is found in the shared part: a process that takes it only
where nobody has it, and leaves everything alone while it does not own it, is the only owner
(`Guards.holds_of_reachesWhen`); and what the owner keeps and gives back is `Free` again.
-/

namespace LabsOS.Signals

variable {A T X Y M H : Type}

/-- The part `Y` of the variables `X` that the processes share. -/
structure Shares (X Y : Type) where
  get : X → Y
  set : Y → X → X
  get_set : ∀ y x, get (set y x) = y
  set_get : ∀ x, set (get x) x = x

namespace Program

variable (p : Program A X M H) (v : Shares X Y)

/-- A step of one of the processes, on the variables as it finds them. -/
def crewNext (a : T × Action A) (y : Y) (s : Process X M H) : Option (Y × Process X M H) :=
  (p.step a.2 { s with vars := v.set y s.vars }).map fun s' => (v.get s'.vars, s')

abbrev Crew (T X Y M H : Type) := Team (T := T) Y fun _ => Process X M H

def crewStep [DecidableEq T] : T × Action A → Crew T X Y M H → Option (Crew T X Y M H) :=
  Team.step Prod.fst (p.crewNext v)

/-- All processes are at the statement `pc`. -/
def crewBoot (T : Type) (x : X) (pc : M) : Crew T X Y M H := ⟨v.get x, fun _ => boot x pc⟩

/-- What the process is at, and the variables as it finds them. -/
def seen (s : Crew T X Y M H) (t : T) : Process X M H :=
  { s.locals t with vars := v.set s.shared (s.locals t).vars }

variable {p v}

theorem crewStep_eq_some [DecidableEq T] {a : T × Action A} {s s' : Crew T X Y M H}
    (h : p.crewStep v a s = some s') :
    p.step a.2 (seen v s a.1) = some (s'.locals a.1) ∧ s'.shared = v.get (s'.locals a.1).vars ∧
      ∀ u ≠ a.1, s'.locals u = s.locals u := by
  obtain ⟨hnext, hothers⟩ := Team.step_self h
  obtain ⟨s₁, hs₁, heq⟩ := Option.map_eq_some_iff.mp hnext
  obtain ⟨hshared, rfl⟩ := Prod.mk.inj heq
  exact ⟨hs₁, hshared.symm, hothers⟩

-- ---------------------------------------------------------------------------
-- Locks
-- ---------------------------------------------------------------------------

/-- The processes guard what they share by a lock, as far as only actions `Allowed` are taken. -/
structure Guards (p : Program A X M H) (v : Shares X Y) (locked : Y → Prop)
    (Allowed : Action A → Process X M H → Prop) (Good Owns Held : Process X M H → Prop)
    (Free : Y → Prop) : Prop where
  good_set : ∀ s y, Good s → Good { s with vars := v.set y s.vars }
  owns_set : ∀ s y, Owns { s with vars := v.set y s.vars } ↔ Owns s
  locked_of_held : ∀ s, Owns s → Held s → locked (v.get s.vars)
  good : ∀ a s s', Good s → Allowed a s → p.step a s = some s' → Good s'
  owner : ∀ a s s', Good s → Owns s → Held s → Allowed a s → p.step a s = some s' →
    Owns s' ∧ Held s' ∨ ¬ Owns s' ∧ (locked (v.get s'.vars) ∨ Free (v.get s'.vars))
  other : ∀ a s s', Good s → ¬ Owns s → Allowed a s → p.step a s = some s' →
    ¬ Owns s' ∧ v.get s'.vars = v.get s.vars ∨
      ¬ locked (v.get s.vars) ∧ (Free (v.get s.vars) → Owns s' ∧ Held s')

/-- There is one owner at most. -/
structure Guarded (v : Shares X Y) (locked : Y → Prop) (Good Owns Held : Process X M H → Prop)
    (Free : Y → Prop) (s : Crew T X Y M H) : Prop where
  good : ∀ t, Good (s.locals t)
  unique : ∀ t u, Owns (s.locals t) → Owns (s.locals u) → t = u
  held : ∀ t, Owns (s.locals t) → Held (seen v s t)
  free : (∀ t, ¬ Owns (s.locals t)) → locked s.shared ∨ Free s.shared

namespace Guards

variable {locked : Y → Prop} {Allowed : Action A → Process X M H → Prop}
variable {Good Owns Held : Process X M H → Prop} {Free : Y → Prop} [DecidableEq T]
variable {s s' : Crew T X Y M H}

theorem step (h : p.Guards v locked Allowed Good Owns Held Free) {a : T × Action A}
    (hs : Guarded v locked Good Owns Held Free s) (hallowed : Allowed a.2 (seen v s a.1))
    (hstep : p.crewStep v a s = some s') : Guarded v locked Good Owns Held Free s' := by
  obtain ⟨hself, hshared, hothers⟩ := crewStep_eq_some hstep
  have hgood : Good (seen v s a.1) := h.good_set _ _ (hs.good a.1)
  have hseen : seen v s' a.1 = s'.locals a.1 := by rw [seen, hshared, v.set_get]
  have hall : ∀ t, Good (s'.locals t) := by
    intro t
    by_cases ht : t = a.1
    · rw [ht]
      exact h.good _ _ _ hgood hallowed hself
    · rw [hothers t ht]
      exact hs.good t
  by_cases howns : Owns (s.locals a.1)
  · -- nobody else owns the lock, before or after
    have hnone : ∀ t ≠ a.1, ¬ Owns (s'.locals t) := by
      intro t ht ht'
      rw [hothers t ht] at ht'
      exact ht (hs.unique t a.1 ht' howns)
    have hseenOwns : Owns (seen v s a.1) := (h.owns_set _ _).mpr howns
    rcases h.owner _ _ _ hgood hseenOwns (hs.held _ howns) hallowed hself with
      ⟨howns', hheld⟩ | ⟨hleft, hrest⟩
    · refine ⟨hall, fun t u ht hu => ?_, fun t ht => ?_, fun hno => absurd howns' (hno a.1)⟩
      · rw [not_imp_not.mp (hnone t) ht, not_imp_not.mp (hnone u) hu]
      · rw [not_imp_not.mp (hnone t) ht, hseen]
        exact hheld
    · have hno : ∀ t, ¬ Owns (s'.locals t) := by
        intro t
        by_cases ht : t = a.1
        · rw [ht]
          exact hleft
        · exact hnone t ht
      refine ⟨hall, fun t _ ht => absurd ht (hno t), fun t ht => absurd ht (hno t), fun _ => ?_⟩
      rw [hshared]
      exact hrest
  · have hseenOwns : ¬ Owns (seen v s a.1) := fun hown => howns ((h.owns_set _ _).mp hown)
    have hget : v.get (seen v s a.1).vars = s.shared := v.get_set _ _
    rcases h.other _ _ _ hgood hseenOwns hallowed hself with ⟨hnot, hkept⟩ | ⟨hopen, htakes⟩
    · have hsame : s'.shared = s.shared := by rw [hshared, hkept, hget]
      have hback : ∀ t, Owns (s'.locals t) → t ≠ a.1 ∧ Owns (s.locals t) := by
        intro t ht
        have hne : t ≠ a.1 := by
          rintro rfl
          exact hnot ht
        exact ⟨hne, hothers t hne ▸ ht⟩
      refine ⟨hall, fun t u ht hu => hs.unique t u (hback t ht).2 (hback u hu).2, fun t ht => ?_,
        fun hno => ?_⟩
      · rw [seen, hsame, hothers t (hback t ht).1]
        exact hs.held t (hback t ht).2
      · rw [hsame]
        refine hs.free fun t ht => ?_
        by_cases hta : t = a.1
        · rw [hta] at ht
          exact howns ht
        · rw [← hothers t hta] at ht
          exact hno t ht
    · -- the lock is taken, where nobody had it
      rw [hget] at hopen htakes
      have hno : ∀ t, ¬ Owns (s.locals t) := by
        intro t ht
        have hlocked := h.locked_of_held _ ((h.owns_set _ _).mpr ht) (hs.held t ht)
        rw [v.get_set] at hlocked
        exact hopen hlocked
      obtain ⟨howns', hheld⟩ := htakes ((hs.free hno).resolve_left hopen)
      have hback : ∀ t, Owns (s'.locals t) → t = a.1 := by
        intro t ht
        by_contra hta
        rw [hothers t hta] at ht
        exact hno t ht
      refine ⟨hall, fun t u ht hu => (hback t ht).trans (hback u hu).symm, fun t ht => ?_,
        fun hnone => absurd howns' (hnone a.1)⟩
      rw [hback t ht, hseen]
      exact hheld

/-- **The rule of locks.** -/
theorem holds_of_reachesWhen (h : p.Guards v locked Allowed Good Owns Held Free)
    (hs : Guarded v locked Good Owns Held Free s)
    (hreach : ReachesWhen (fun a s => Allowed a.2 (seen v s a.1)) (p.crewStep v) s s') :
    Guarded v locked Good Owns Held Free s' :=
  hreach.invariant hs fun _ _ _ hI hC ha => h.step hI hC ha

end Guards

-- ---------------------------------------------------------------------------
-- Programs that take a lock with their first statement
-- ---------------------------------------------------------------------------

/-- The first statement `pc₀` takes the lock or gives up, and the handler gives it back with its
last one. A process that gives up later leaves the lock taken. -/
structure Locks (p : Program A X M H) (v : Shares X Y) (locked : Y → Prop) (pc₀ : M) : Prop where
  installed_set : ∀ y x, p.installed (v.set y x) = p.installed x
  first : ∀ a x, p.main a x pc₀ = (x, .exiting 1) ∨
    ¬ locked (v.get x) ∧ locked (v.get (p.main a x pc₀).1) ∧
      ∃ pc ≠ pc₀, (p.main a x pc₀).2 = .main pc
  main_locked : ∀ a x pc, pc ≠ pc₀ → locked (v.get x) → locked (v.get (p.main a x pc).1)
  main_control : ∀ a x pc, pc ≠ pc₀ →
    (∃ pc' ≠ pc₀, (p.main a x pc).2 = .main pc') ∨ (p.main a x pc).2 = .exiting 1
  handler : ∀ a x pc, (∃ pc', (p.handler a x pc).2 = .handler pc' ∧
    (locked (v.get x) → locked (v.get (p.handler a x pc).1))) ∨ (p.handler a x pc).2 = .exiting 0

/-- A process gets no signal any more once it handles one. -/
def OneSignal (a : Action A) (s : Process X M H) : Prop :=
  ∀ sig, a = .signal sig → (∃ pc, s.control = .main pc) ∨ s.control = .exiting 1

/-- A signal that is handled comes at the statement `pc`. -/
def SignalledAt (p : Program A X M H) (pc : M) (a : Action A) (s : Process X M H) : Prop :=
  ∀ sig, a = .signal sig → s.control = .main pc ∨ p.installed s.vars sig = false

/-- The process has not installed a handler before its first statement. -/
def Fresh (p : Program A X M H) (pc₀ : M) (s : Process X M H) : Prop :=
  s.control = .main pc₀ → ∀ sig, p.installed s.vars sig = false

/-- The process has taken the lock and may still give it back. -/
def Inside (p : Program A X M H) (pc₀ : M) (s : Process X M H) : Prop :=
  match s.control with
  | .main pc => pc ≠ pc₀
  | .handler _ => True
  | .exiting status => status = 1 ∧ ∃ sig, p.installed s.vars sig = true
  | _ => False

/-- What the owner of the lock holds, as far as only actions `Allowed` are taken. -/
structure Custody (p : Program A X M H) (v : Shares X Y) (locked : Y → Prop) (pc₀ : M)
    (Allowed : Action A → Process X M H → Prop) (Held : X → Control M H → Prop)
    (Free : Y → Prop) : Prop where
  locked_of_held : ∀ x c, Held x c → locked (v.get x)
  first : ∀ a x, Free (v.get x) → locked (v.get (p.main a x pc₀).1) →
    Held (p.main a x pc₀).1 (p.main a x pc₀).2
  main : ∀ a x pc, pc ≠ pc₀ → Held x (.main pc) → Held (p.main a x pc).1 (p.main a x pc).2
  handler : ∀ a x pc, Held x (.handler pc) → Held (p.handler a x pc).1 (p.handler a x pc).2 ∨
    (p.handler a x pc).2 = .exiting 0 ∧ Free (v.get (p.handler a x pc).1)
  signal : ∀ sig s, Allowed (.signal sig) s → p.installed s.vars sig = true → p.Fresh pc₀ s →
    p.Inside pc₀ s ∧ (Held s.vars s.control → Held s.vars (.handler p.entry))

namespace Locks

variable {locked : Y → Prop} {pc₀ : M} {s s' : Process X M H} {a : Action A}

/-- No process comes back to its first statement. -/
theorem fresh (h : p.Locks v locked pc₀) (hstep : p.step a s = some s') : p.Fresh pc₀ s' := by
  suffices hne : s'.control ≠ .main pc₀ from fun heq => absurd heq hne
  obtain ⟨x, blocked, c⟩ := s
  cases a with
  | run a =>
    cases c with
    | main pc =>
      obtain rfl := Option.some.inj hstep
      by_cases hpc : pc = pc₀
      · subst hpc
        rcases h.first a x with heq | ⟨-, -, pc', hne, heq⟩
        · show (p.main a x pc).2 ≠ _
          rw [heq]
          rintro ⟨⟩
        · show (p.main a x pc).2 ≠ _
          rw [heq]
          exact fun heq => hne (Control.main.inj heq)
      · rcases h.main_control a x pc hpc with ⟨pc', hne, heq⟩ | heq
        · show (p.main a x pc).2 ≠ _
          rw [heq]
          exact fun heq => hne (Control.main.inj heq)
        · show (p.main a x pc).2 ≠ _
          rw [heq]
          rintro ⟨⟩
    | handler pc =>
      obtain rfl := Option.some.inj hstep
      rcases h.handler a x pc with ⟨pc', heq, -⟩ | heq
      · show (p.handler a x pc).2 ≠ _
        rw [heq]
        rintro ⟨⟩
      · show (p.handler a x pc).2 ≠ _
        rw [heq]
        rintro ⟨⟩
    | exiting status =>
      obtain rfl := Option.some.inj hstep
      rintro ⟨⟩
    | exited | killed => cases hstep
  | signal sig =>
    rw [Program.step, deliver] at hstep
    split at hstep
    · split at hstep
      · obtain rfl := Option.some.inj hstep
        rintro ⟨⟩
      · obtain rfl := Option.some.inj hstep
        rintro ⟨⟩
    · cases hstep

/-- A process that does not own the lock leaves everything alone, or takes it. -/
theorem other (h : p.Locks v locked pc₀) {Allowed : Action A → Process X M H → Prop}
    {Held : X → Control M H → Prop} {Free : Y → Prop}
    (hcustody : p.Custody v locked pc₀ Allowed Held Free) (hfresh : p.Fresh pc₀ s)
    (howns : ¬ p.Inside pc₀ s) (hallowed : Allowed a s) (hstep : p.step a s = some s') :
    ¬ p.Inside pc₀ s' ∧ v.get s'.vars = v.get s.vars ∨
      ¬ locked (v.get s.vars) ∧
        (Free (v.get s.vars) → p.Inside pc₀ s' ∧ Held s'.vars s'.control) := by
  obtain ⟨x, blocked, c⟩ := s
  cases a with
  | run a =>
    cases c with
    | main pc =>
      obtain rfl := Option.some.inj hstep
      obtain rfl : pc = pc₀ := not_not.mp howns
      rcases h.first a x with heq | ⟨hopen, htaken, pc', hne, heq⟩
      · refine .inl ⟨?_, ?_⟩
        · show ¬ p.Inside pc ⟨(p.main a x pc).1, blocked, (p.main a x pc).2⟩
          rw [heq]
          rintro ⟨-, sig, hsig⟩
          exact Bool.noConfusion ((hfresh rfl sig).symm.trans hsig)
        · show v.get (p.main a x pc).1 = v.get x
          rw [heq]
      · refine .inr ⟨hopen, fun hfree => ⟨?_, hcustody.first a x hfree htaken⟩⟩
        show p.Inside pc ⟨(p.main a x pc).1, blocked, (p.main a x pc).2⟩
        rw [heq]
        exact hne
    | handler pc => exact absurd trivial howns
    | exiting status =>
      obtain rfl := Option.some.inj hstep
      exact .inl ⟨id, rfl⟩
    | exited | killed => cases hstep
  | signal sig =>
    rw [Program.step, deliver] at hstep
    split at hstep
    · split at hstep
      · next hinstalled => exact absurd (hcustody.signal sig _ hallowed hinstalled hfresh).1 howns
      · obtain rfl := Option.some.inj hstep
        exact .inl ⟨id, rfl⟩
    · cases hstep

end Locks

namespace Custody

variable {locked : Y → Prop} {pc₀ : M} {s s' : Process X M H} {a : Action A}
variable {Allowed : Action A → Process X M H → Prop} {Held : X → Control M H → Prop}
variable {Free : Y → Prop}

/-- The owner holds on to the lock, gives it back, or leaves it taken. -/
theorem owner (hcustody : p.Custody v locked pc₀ Allowed Held Free) (hfresh : p.Fresh pc₀ s)
    (howns : p.Inside pc₀ s) (hheld : Held s.vars s.control) (hallowed : Allowed a s)
    (hstep : p.step a s = some s') :
    p.Inside pc₀ s' ∧ Held s'.vars s'.control ∨
      ¬ p.Inside pc₀ s' ∧ (locked (v.get s'.vars) ∨ Free (v.get s'.vars)) := by
  have hkeeps : Held s'.vars s'.control → p.Inside pc₀ s' ∧ Held s'.vars s'.control ∨
      ¬ p.Inside pc₀ s' ∧ (locked (v.get s'.vars) ∨ Free (v.get s'.vars)) := by
    intro hheld'
    by_cases hinside : p.Inside pc₀ s'
    · exact .inl ⟨hinside, hheld'⟩
    · exact .inr ⟨hinside, .inl (hcustody.locked_of_held _ _ hheld')⟩
  obtain ⟨x, blocked, c⟩ := s
  cases a with
  | run a =>
    cases c with
    | main pc =>
      obtain rfl := Option.some.inj hstep
      exact hkeeps (hcustody.main a x pc howns hheld)
    | handler pc =>
      obtain rfl := Option.some.inj hstep
      rcases hcustody.handler a x pc hheld with hheld' | ⟨heq, hfree⟩
      · exact hkeeps hheld'
      · refine .inr ⟨?_, .inr hfree⟩
        show ¬ p.Inside pc₀ ⟨(p.handler a x pc).1, blocked, (p.handler a x pc).2⟩
        rw [heq]
        exact fun hinside => absurd hinside.1 (by decide)
    | exiting status =>
      obtain rfl := Option.some.inj hstep
      exact .inr ⟨id, .inl (hcustody.locked_of_held _ _ hheld)⟩
    | exited | killed => cases hstep
  | signal sig =>
    rw [Program.step, deliver] at hstep
    split at hstep
    · split at hstep
      · next hinstalled =>
        obtain rfl := Option.some.inj hstep
        exact hkeeps ((hcustody.signal sig _ hallowed hinstalled hfresh).2 hheld)
      · obtain rfl := Option.some.inj hstep
        exact .inr ⟨id, .inl (hcustody.locked_of_held _ _ hheld)⟩
    · cases hstep

theorem guards (hcustody : p.Custody v locked pc₀ Allowed Held Free)
    (h : p.Locks v locked pc₀) :
    p.Guards v locked Allowed (p.Fresh pc₀) (p.Inside pc₀) (fun s => Held s.vars s.control)
      Free where
  good_set s y hs hpc sig := by
    show p.installed (v.set y s.vars) sig = false
    rw [h.installed_set]
    exact hs hpc sig
  owns_set s y := by
    unfold Inside
    simp only [h.installed_set]
  locked_of_held s _ hheld := hcustody.locked_of_held _ _ hheld
  good _ _ _ _ _ hstep := h.fresh hstep
  owner _ _ _ hfresh howns hheld hallowed hstep :=
    hcustody.owner hfresh howns hheld hallowed hstep
  other _ _ _ hfresh howns hallowed hstep := h.other hcustody hfresh howns hallowed hstep

/-- What the owner of the lock holds, in every run from the start. -/
theorem guarded [DecidableEq T] {x : X} {s : Crew T X Y M H}
    (hcustody : p.Custody v locked pc₀ Allowed Held Free) (h : p.Locks v locked pc₀)
    (hinstalled : ∀ sig, p.installed x sig = false) (hstart : locked (v.get x) ∨ Free (v.get x))
    (hreach : ReachesWhen (fun a s => Allowed a.2 (seen v s a.1)) (p.crewStep v)
      (crewBoot v T x pc₀) s) :
    Guarded v locked (p.Fresh pc₀) (p.Inside pc₀) (fun s => Held s.vars s.control) Free s := by
  apply (hcustody.guards h).holds_of_reachesWhen ?_ hreach
  have hnone : ∀ t : T, ¬ p.Inside pc₀ ((crewBoot v T x pc₀).locals t) := fun t hne => hne rfl
  exact ⟨fun _ _ => hinstalled, fun t _ ht => absurd ht (hnone t), fun t ht => absurd ht (hnone t),
    fun _ => hstart⟩

end Custody

/-- **Mutual exclusion**: no two processes have the lock, if none gets a second signal. -/
theorem Locks.exclusive [DecidableEq T] {locked : Y → Prop} {pc₀ : M} {x : X}
    {s : Crew T X Y M H} (h : p.Locks v locked pc₀)
    (hinstalled : ∀ sig, p.installed x sig = false)
    (hreach : ReachesWhen (fun a s => OneSignal a.2 (seen v s a.1)) (p.crewStep v)
      (crewBoot v T x pc₀) s) (t u : T) (ht : p.Inside pc₀ (s.locals t))
    (hu : p.Inside pc₀ (s.locals u)) : t = u := by
  have hcustody : p.Custody v locked pc₀ OneSignal (fun x _ => locked (v.get x)) fun _ => True :=
    { locked_of_held := fun _ _ hlocked => hlocked
      first := fun _ _ _ hlocked => hlocked
      main := h.main_locked
      handler := fun a x pc hlocked => by
        rcases h.handler a x pc with ⟨pc', -, hkept⟩ | heq
        · exact .inl (hkept hlocked)
        · exact .inr ⟨heq, trivial⟩
      signal := fun sig s hone hinstalled hfresh => by
        refine ⟨?_, id⟩
        rcases hone sig rfl with ⟨pc, hpc⟩ | hpc
        · have hne : pc ≠ pc₀ := by
            rintro rfl
            exact Bool.noConfusion ((hfresh hpc sig).symm.trans hinstalled)
          rw [Inside, hpc]
          exact hne
        · rw [Inside, hpc]
          exact ⟨rfl, sig, hinstalled⟩ }
  exact (hcustody.guarded h hinstalled (.inr trivial) hreach).unique t u ht hu

end Program

end LabsOS.Signals
