import LabsOS.Fork.Story

/-!
# Runs of a process and its child

Every run of `lab3_fork/main.c` ends, and what both processes have printed then, and with which
status they have ended, is one account (`ends_with_account`): a killed process has printed nothing
if the output is a file. What the parent reports of its child is so (`report_is_true`).
-/

namespace LabsOS.Fork

open Signals

variable {tty resets ok : Bool} {e : Option Status} {side : Side} {p p' : Proc} {s s' : State}
variable {a : Action} {n : Nat} {sigs : List Signal} {cleaned : Bool}

-- ---------------------------------------------------------------------------
-- Steps that are left
-- ---------------------------------------------------------------------------

/-- The steps that are left without a signal. The statements in front of `fork` count those of
the child, and those that install a handler also that of the handler. -/
def Pc.left : Pc → Nat
  | .atexit => 78
  | .signalInt => 77
  | .sigaction => 56
  | .printInitialized => 35
  | .fork => 34
  | .printCreated => 7
  | .wait | .printActive => 6
  | .report _ | .sleep => 5
  | .printParentComplete | .printChildComplete | .handler _ => 4
  | .leaving _ => 3
  | .cleanup _ => 2
  | .flush _ => 1
  | .ended _ => 0

/-- The signals whose handler can still be entered. -/
def Proc.able (p : Proc) : Nat :=
  [Signal.int, .term].countP fun sig => p.handled sig && !p.blocked sig

def Proc.left (p : Proc) : Nat := p.pc.left + 10 * p.able

/-- Whether the parent knows that it has no child, or has one. -/
def Pc.knows : Pc → Option Bool
  | .atexit | .signalInt | .sigaction | .printInitialized | .fork => some false
  | .printCreated | .wait | .report _ | .printParentComplete => some true
  | _ => none

/-- A process takes a step by itself. -/
def Advances (s s' : State) (side : Side) (p : Proc) : Prop :=
  ∃ p', s'.procs = Function.update s.procs side (some p') ∧ p'.left < p.left ∧
    ∀ b, p'.pc.knows = some b → p.pc.knows = some b

theorem able_le_two (p : Proc) : p.able ≤ 2 := List.countP_le_length

theorem able_enter_lt (resets : Bool) {sig : Signal} (hblocked : p.blocked sig = false)
    (hhandled : p.handled sig = true) : (p.enter resets sig).able < p.able := by
  cases sig <;> cases resets <;>
    simp [Proc.able, List.countP_cons, Proc.enter, hblocked, hhandled]

/-- A process goes on at another statement. -/
theorem advances_to {pc : Pc} (hpc : p.pc = pc)
    (hprocs : s'.procs = Function.update s.procs side (some p'))
    (hleft : p'.pc.left + 10 * p'.able < pc.left + 10 * p.able)
    (hknows : p'.pc.knows = none ∨ p'.pc.knows = pc.knows) : Advances s s' side p := by
  subst hpc
  refine ⟨p', hprocs, hleft, fun b hb => ?_⟩
  rcases hknows with hknows | hknows
  · rw [hknows] at hb
    cases hb
  · exact hknows ▸ hb

theorem advances_set {pc : Pc} (hpc : p.pc = pc)
    (hprocs : s'.procs = Function.update s.procs side (some p')) (hable : p'.able = p.able)
    (hleft : p'.pc.left < pc.left) (hknows : p'.pc.knows = none ∨ p'.pc.knows = pc.knows) :
    Advances s s' side p :=
  advances_to hpc hprocs (hable ▸ Nat.add_lt_add_right hleft _) hknows

/-- A process prints a line and goes on. -/
theorem advances_print {line : Line} {pc pc' : Pc} (hpc : p.pc = pc) (hleft : pc'.left < pc.left)
    (hknows : pc'.knows = none ∨ pc'.knows = pc.knows) :
    Advances s (s.print side p tty line pc') side p := by
  cases tty with
  | true => exact advances_set hpc rfl rfl hleft hknows
  | false => exact advances_set hpc rfl rfl hleft hknows

/-- A call of the parent fails. -/
theorem advances_fails {text : Bytes} (hleft : 3 < p.pc.left) :
    Advances s ((s.perror text).set side { p with pc := .leaving 1 }) side p :=
  advances_set rfl rfl rfl hleft (.inl rfl)

theorem runProc_advances (hfork : p.pc = .fork → ok = false)
    (hs : runProc tty ok side s p = some s') : Advances s s' side p := by
  unfold runProc at hs
  revert hs
  cases hpc : p.pc with
  | atexit =>
    intro hs
    dsimp only at hs
    split at hs
    · obtain rfl := Option.some.inj hs
      exact advances_set hpc rfl rfl (show 77 < 78 by decide) (.inr rfl)
    · obtain rfl := Option.some.inj hs
      exact advances_fails (by rw [hpc]; decide)
  | signalInt | sigaction =>
    intro hs
    dsimp only at hs
    split at hs
    · obtain rfl := Option.some.inj hs
      refine advances_to hpc rfl ?_ (.inr rfl)
      -- at most two handlers are installed
      exact (Nat.add_le_add_left (Nat.mul_le_mul_left 10 (able_le_two _)) _).trans_lt
        (Nat.lt_add_right _ (Nat.le_refl _))
    · obtain rfl := Option.some.inj hs
      exact advances_fails (by rw [hpc]; decide)
  | printInitialized =>
    rintro ⟨⟩
    exact advances_print hpc (by decide) (.inr rfl)
  | fork =>
    obtain rfl := hfork hpc
    rintro ⟨⟩
    exact advances_fails (by rw [hpc]; decide)
  | printCreated =>
    rintro ⟨⟩
    exact advances_print hpc (by decide) (.inr rfl)
  | wait =>
    intro hs
    dsimp only at hs
    split at hs
    · obtain ⟨how, -, rfl⟩ := Option.map_eq_some_iff.mp hs
      exact advances_set hpc rfl rfl (show 5 < 6 by decide) (.inr rfl)
    · obtain rfl := Option.some.inj hs
      exact advances_fails (by rw [hpc]; decide)
  | report how =>
    rintro ⟨⟩
    exact advances_print hpc (show 4 < 5 by decide) (.inr rfl)
  | printParentComplete | printChildComplete | handler sig =>
    rintro ⟨⟩
    exact advances_print hpc (show 3 < 4 by decide) (.inl rfl)
  | printActive =>
    rintro ⟨⟩
    exact advances_print hpc (show 5 < 6 by decide) (.inl rfl)
  | sleep =>
    rintro ⟨⟩
    exact advances_set hpc rfl rfl (show 4 < 5 by decide) (.inl rfl)
  | leaving status =>
    rintro ⟨⟩
    exact advances_set hpc rfl rfl (show 2 < 3 by decide) (.inl rfl)
  | cleanup status =>
    intro hs
    dsimp only at hs
    split at hs
    · obtain rfl := Option.some.inj hs
      exact advances_print hpc (show 1 < 2 by decide) (.inl rfl)
    · obtain rfl := Option.some.inj hs
      exact advances_set hpc rfl rfl (show 1 < 2 by decide) (.inl rfl)
  | flush status =>
    rintro ⟨⟩
    exact advances_set hpc rfl rfl (show 0 < 1 by decide) (.inl rfl)
  | ended how => nofun

theorem advances_die {k : Nat} {core : Bool} (hp : 0 < p.pc.left) :
    Advances s (s.set side (p.die k core)) side p :=
  advances_set rfl rfl rfl hp (.inl rfl)

theorem deliver_advances {sig : Signal} (hs : deliver resets sig side s p = some s') :
    Advances s s' side p := by
  have main : 0 < p.pc.left →
      (if p.blocked sig then none
        else if p.handled sig then some (s.set side (p.enter resets sig))
        else some (s.set side (p.die (number sig) false))) = some s' →
      Advances s s' side p := by
    intro hp hs
    split at hs
    · cases hs
    · next hblocked =>
      split at hs
      · next hhandled =>
        obtain rfl := Option.some.inj hs
        have hable := able_enter_lt resets (Bool.not_eq_true _ ▸ hblocked) hhandled
        have hpc : (p.enter resets sig).pc = .handler sig := by
          cases sig <;> cases resets <;> rfl
        refine advances_to rfl rfl ?_ (.inl (by rw [hpc]; rfl))
        rw [hpc]
        show 4 + 10 * _ < _
        omega
      · obtain rfl := Option.some.inj hs
        exact advances_die hp
  unfold deliver at hs
  revert hs
  cases hpc : p.pc with
  | ended how => nofun
  | cleanup status | flush status =>
    intro hs
    dsimp only at hs
    split at hs
    · cases hs
    · obtain rfl := Option.some.inj hs
      exact advances_die (by rw [hpc]; exact Nat.succ_pos _)
  | _ => exact main (by rw [hpc]; exact Nat.succ_pos _)

theorem act_advances (hfork : p.pc = .fork → ∀ side ok, a = .run side ok → ok = false)
    (hs : act tty resets a s p = some s') : Advances s s' a.side p := by
  cases a with
  | run side ok => exact runProc_advances (fun hpc => hfork hpc side ok rfl) hs
  | signal side sig => exact deliver_advances hs
  | kill side k core =>
    unfold act kill at hs
    revert hs
    cases hpc : p.pc with
    | ended how => nofun
    | _ =>
      rintro ⟨⟩
      exact advances_die (by rw [hpc]; exact Nat.succ_pos _)

-- ---------------------------------------------------------------------------
-- The invariant
-- ---------------------------------------------------------------------------

structure Inv (tty : Bool) (s : State) : Prop where
  parent : ∃ p, s.procs .parent = some p
  fits : ∀ side p, s.procs side = some p → ∃ n sigs cleaned, Fits tty s.childEnd side p n sigs cleaned
  written : ∀ side, s.by side = (s.procs side).elim [] (Proc.written tty)
  child : ∀ p, s.procs .parent = some p → ∀ b, p.pc.knows = some b → (s.procs .child).isSome = b

theorem childEnd_congr (h : s'.procs .child = s.procs .child) : s'.childEnd = s.childEnd := by
  rw [State.childEnd, State.childEnd, h]

theorem childEnd_eq_none (h : s.procs .child = some p) (hp : p.pc.Over = false) :
    s.childEnd = none := by
  rw [State.childEnd, h]
  dsimp only
  split
  · next how hpc =>
    rw [hpc] at hp
    cases hp
  · rfl

/-- Nothing changes for a process when the child ends. -/
theorem Fits.learn (h : Fits tty none side p n sigs cleaned) (e : Option Status) :
    Fits tty e side p n sigs cleaned := by
  have hprefix : ∃ rest, script tty e side = script tty none side ++ rest := by
    cases side with
    | parent => exact ⟨afterChild e, rfl⟩
    | child => exact ⟨[], (List.append_nil _).symm⟩
  obtain ⟨rest, hrest⟩ := hprefix
  have hat := h.place
  refine ⟨?_, ?_, h.nodup, h.spent, h.buffer, h.registered, ?_⟩
  · rw [hrest, List.length_append]
    exact h.le.trans (Nat.le_add_right _ _)
  · rw [h.said, hrest, List.take_append_of_le_length h.le]
  · revert hat
    cases p.pc with
    | report how => exact fun hat => nomatch hat.1.2.2
    | printParentComplete => exact fun hat => nomatch hat.1.2.2
    | ended how => cases how <;> exact id
    | _ => exact id

theorem act_over (hp : p.pc.Over = true) : act tty resets a s p = none := by
  revert hp
  cases hpc : p.pc with
  | ended how =>
    intro _
    cases a with
    | run side ok => rw [act, runProc, hpc]
    | signal side sig => rw [act, deliver, hpc]
    | kill side k core => rw [act, kill, hpc]
  | _ => rintro ⟨⟩

theorem Moves.by_self {lines : List Line} (h : Moves s s' side p' lines) :
    s'.by side = s.by side ++ lines := by
  rw [State.by, State.by, h.output, List.filter_append, List.map_append]
  congr 1
  rw [List.filter_eq_self.mpr, List.map_map]
  · exact List.map_id _
  · intro l hl
    obtain ⟨line, -, rfl⟩ := List.mem_map.mp hl
    exact decide_eq_true rfl

theorem Moves.by_other {lines : List Line} {other : Side} (h : Moves s s' side p' lines)
    (hne : other ≠ side) : s'.by other = s.by other := by
  have hnone : (lines.map (side, ·)).filter (fun l => l.1 = other) = [] := by
    rw [List.filter_eq_nil_iff]
    intro l hl
    obtain ⟨line, -, rfl⟩ := List.mem_map.mp hl
    simpa using hne.symm
  rw [State.by, State.by, h.output, List.filter_append, List.map_append, hnone]
  exact List.append_nil _

theorem inv_start : Inv tty start where
  parent := ⟨_, rfl⟩
  fits := by
    rintro (_ | _) p ⟨⟩
    exact ⟨0, [], false, Nat.zero_le _, rfl, List.nodup_nil, nofun, by cases tty <;> rfl,
      .inr ⟨rfl, rfl, rfl, fun _ => rfl⟩, ⟨rfl, rfl⟩, rfl, rfl⟩
  written := by
    rintro (_ | _)
    · show [] = Proc.written tty _
      cases tty <;> rfl
    · rfl
  child := by
    rintro p ⟨⟩ b ⟨⟩
    rfl

/-- A step that a process takes by itself. -/
theorem Inv.proceeds (h : Inv tty s) (hp : s.procs side = some p) (hover : p.pc.Over = false)
    (hadvances : Advances s s' side p) (hproceeds : Proceeds tty s.childEnd side p s s') :
    Inv tty s' := by
  obtain ⟨q, hq, -, hknows⟩ := hadvances
  obtain ⟨p', lines, hmoves, hwritten, n, sigs, cleaned, hfits⟩ := hproceeds
  obtain rfl : q = p' := by
    have := congrFun (hq.symm.trans hmoves.procs) side
    rwa [Function.update_self, Function.update_self, Option.some_inj] at this
  have hself : s'.procs side = some q := by rw [hq, Function.update_self]
  have hother : ∀ other, other ≠ side → s'.procs other = s.procs other := by
    intro other hne
    rw [hq, Function.update_of_ne hne]
  -- what is known of the child's end does not change before it has one
  have hlearn : ∀ side' p' n sigs cleaned, Fits tty s.childEnd side' p' n sigs cleaned →
      Fits tty s'.childEnd side' p' n sigs cleaned := by
    intro side' p' n sigs cleaned hfits₁
    cases side with
    | parent => exact childEnd_congr (hother .child nofun) ▸ hfits₁
    | child => exact (childEnd_eq_none hp hover ▸ hfits₁).learn _
  refine ⟨?_, ?_, ?_, ?_⟩
  · cases side with
    | parent => exact ⟨q, hself⟩
    | child => exact (hother .parent nofun).symm ▸ h.parent
  · intro other p₁ hp₁
    by_cases hne : other = side
    · subst hne
      obtain rfl := Option.some.inj (hself.symm.trans hp₁)
      exact ⟨n, sigs, cleaned, hlearn _ _ _ _ _ hfits⟩
    · obtain ⟨n₁, sigs₁, cleaned₁, hfits₁⟩ := h.fits other p₁ (hother other hne ▸ hp₁)
      exact ⟨n₁, sigs₁, cleaned₁, hlearn _ _ _ _ _ hfits₁⟩
  · intro other
    by_cases hne : other = side
    · subst hne
      rw [hmoves.by_self, h.written, hp, hself]
      exact hwritten.symm
    · rw [hmoves.by_other hne, h.written, hother other hne]
  · intro p₁ hp₁ b hb
    cases side with
    | parent =>
      obtain rfl := Option.some.inj (hself.symm.trans hp₁)
      rw [hother .child nofun]
      exact h.child p hp b (hknows b hb)
    | child =>
      have hb := h.child p₁ (hother .parent nofun ▸ hp₁) b hb
      rw [hp] at hb
      rw [hself]
      exact hb

/-- The state behind `fork`. -/
structure Forked (s s' : State) (p : Proc) : Prop where
  parent : s'.procs .parent = some { p with pc := .printCreated }
  child : s'.procs .child = some p.forked
  output : s'.output = s.output

theorem forked_of_runProc (hpc : p.pc = .fork)
    (hs : runProc tty true .parent s p = some s') : Forked s s' p := by
  rw [runProc, hpc] at hs
  obtain rfl := Option.some.inj hs
  exact ⟨rfl, rfl, rfl⟩

theorem Inv.forked (h : Inv tty s) (hp : s.procs .parent = some p) (hpc : p.pc = .fork)
    (hforked : Forked s s' p) : Inv tty s' := by
  obtain ⟨n, sigs, cleaned, hfits⟩ := h.fits .parent p hp
  have hat := hfits.place
  rw [hpc] at hat
  obtain ⟨⟨-, rfl⟩, rfl, rfl⟩ := hat
  have hregistered : p.registered = true := registered_of_pos hfits nofun
  have hnone : s.procs .child = none := by
    have := h.child p hp false (by rw [hpc]; rfl)
    rwa [Option.isSome_eq_false_iff, Option.isNone_iff_eq_none] at this
  have hbefore : s.childEnd = none := by rw [State.childEnd, hnone]
  have hafter : s'.childEnd = none := childEnd_eq_none hforked.child rfl
  have hby : ∀ side, s'.by side = s.by side := by
    intro side
    rw [State.by, State.by, hforked.output]
  have hover : p.pc.Over = false := by rw [hpc]; rfl
  have hbuffer := hfits.buffer
  rw [hover, Bool.or_false] at hbuffer
  refine ⟨⟨_, hforked.parent⟩, ?_, ?_, ?_⟩
  · rintro (_ | _) q hq
    · obtain rfl := Option.some.inj (hforked.parent.symm.trans hq)
      refine ⟨1, [], false, ?_⟩
      rw [hafter, ← hbefore]
      exact ⟨hfits.le, hfits.said, hfits.nodup, nofun, by rw [hbuffer]; cases tty <;> rfl,
        .inl hregistered, ⟨⟨rfl, rfl⟩, rfl, rfl⟩⟩
    · obtain rfl := Option.some.inj (hforked.child.symm.trans hq)
      refine ⟨(inherited tty).length, [], false, ?_, ?_, List.nodup_nil, nofun, ?_,
        .inl hregistered, ⟨⟨rfl, rfl⟩, rfl, rfl⟩⟩
      · rw [script, List.length_append]
        exact Nat.le_add_right _ _
      · show p.buffer = _
        rw [hbuffer, hfits.said]
        cases tty <;> rfl
      · show p.buffer = if tty || false then [] else p.buffer
        rw [hbuffer]
        cases tty <;> rfl
  · rintro (_ | _)
    · rw [hby, h.written, hp, hforked.parent]
      show p.written tty = Proc.written tty _
      rw [written_of_not_over hover, written_of_not_over rfl]
    · rw [hby, h.written, hnone, hforked.child]
      show [] = Proc.written tty p.forked
      rw [written_of_not_over rfl]
      show [] = if tty then p.buffer else []
      rw [hbuffer]
      cases tty <;> rfl
  · intro q hq b hb
    obtain rfl := Option.some.inj (hforked.parent.symm.trans hq)
    rw [hforked.child]
    exact Option.some.inj hb

/-- What a step is: one that a process takes by itself, or `fork`. -/
theorem Inv.step_cases (h : Inv tty s) (hs : step tty resets a s = some s') :
    (∃ p, s.procs a.side = some p ∧ p.pc.Over = false ∧ Advances s s' a.side p ∧
      Proceeds tty s.childEnd a.side p s s') ∨
    ∃ p, s.procs .parent = some p ∧ p.pc = .fork ∧ Forked s s' p := by
  obtain ⟨p, hp, hact⟩ := Option.bind_eq_some_iff.mp hs
  obtain ⟨n, sigs, cleaned, hfits⟩ := h.fits a.side p hp
  have hover : p.pc.Over = false := by
    by_contra hover
    rw [act_over (Bool.not_eq_false _ ▸ hover)] at hact
    cases hact
  by_cases hfork : p.pc = .fork ∧ ∃ side, a = .run side true
  · obtain ⟨hpc, side, rfl⟩ := hfork
    have hat := hfits.place
    rw [hpc] at hat
    obtain ⟨⟨rfl : side = .parent, -⟩, -⟩ := hat
    exact .inr ⟨p, hp, hpc, forked_of_runProc hpc hact⟩
  · have hfork : p.pc = .fork → ∀ side ok, a = .run side ok → ok = false := by
      intro hpc side ok ha
      by_contra hok
      obtain rfl : ok = true := Bool.not_eq_false _ ▸ hok
      exact hfork ⟨hpc, side, ha⟩
    exact .inl ⟨p, hp, hover, act_advances hfork hact, act_proceeds hfits hfork hact⟩

theorem Inv.step (h : Inv tty s) (hs : Fork.step tty resets a s = some s') : Inv tty s' := by
  rcases h.step_cases hs with ⟨p, hp, hover, hadvances, hproceeds⟩ | ⟨p, hp, hpc, hforked⟩
  · exact h.proceeds hp hover hadvances hproceeds
  · exact h.forked hp hpc hforked

theorem inv_of_reaches (h : Reaches (step tty resets) start s) : Inv tty s :=
  h.invariant inv_start fun _ _ _ => Inv.step

-- ---------------------------------------------------------------------------
-- Every run ends
-- ---------------------------------------------------------------------------

def State.left (s : State) : Nat :=
  (s.procs .parent).elim 0 Proc.left + (s.procs .child).elim 0 Proc.left

theorem Inv.left_lt (h : Inv tty s) (hs : Fork.step tty resets a s = some s') :
    s'.left < s.left := by
  rcases h.step_cases hs with ⟨p, hp, -, ⟨p', hp', hlt, -⟩, -⟩ | ⟨p, hp, hpc, hforked⟩
  · rw [State.left, State.left, hp']
    cases hside : a.side with
    | parent =>
      rw [hside] at hp
      rw [hp, Function.update_self, Function.update_of_ne (show Side.child ≠ .parent by decide)]
      exact Nat.add_lt_add_right hlt _
    | child =>
      rw [hside] at hp
      rw [hp, Function.update_self, Function.update_of_ne (show Side.parent ≠ .child by decide)]
      exact Nat.add_lt_add_left hlt _
  · have hable := able_le_two p
    rw [State.left, State.left, hp, hforked.parent, hforked.child]
    show 7 + 10 * p.able + (6 + 10 * p.able) < p.pc.left + 10 * p.able + _
    rw [hpc]
    show _ < 34 + 10 * p.able + _
    omega

theorem no_run (r : Run (step tty resets) start) : False := by
  apply r.false_of_forall_lt State.left (n := 0)
  intro m _
  exact (inv_of_reaches (r.reaches m)).left_lt (r.step_eq m)

theorem runProc_isSome (hover : p.pc.Over = false) (hwait : p.pc = .wait → s.childEnd.isSome) :
    (runProc tty true side s p).isSome := by
  rw [runProc]
  cases hpc : p.pc with
  | wait =>
    show (Option.map _ s.childEnd).isSome
    rw [Option.isSome_map]
    exact hwait hpc
  | cleanup status =>
    dsimp only
    split <;> rfl
  | ended how =>
    rw [hpc] at hover
    cases hover
  | _ => rfl

theorem stuck_of_over (h : ∀ side p, s.procs side = some p → p.pc.Over = true) (a : Action) :
    step tty resets a s = none := by
  rw [step, Option.bind_eq_none_iff]
  exact fun p hp => act_over (h a.side p hp)

/-- Where the processes are. -/
def State.places (s : State) : Option Pc × Option Pc :=
  ((s.procs .parent).map Proc.pc, (s.procs .child).map Proc.pc)

theorem stuck_of_places {how how' : Status} (h : s.places = (some (.ended how), some (.ended how')))
    (a : Action) : step tty resets a s = none := by
  obtain ⟨hparent, hchild⟩ := Prod.mk.inj h
  apply stuck_of_over
  rintro (_ | _) p hp
  · rw [hp] at hparent
    rw [Option.some.inj hparent]
    rfl
  · rw [hp] at hchild
    rw [Option.some.inj hchild]
    rfl

/-- A process that cannot go on has ended. -/
theorem Inv.over_of_stuck (h : Inv tty s) (hstuck : ∀ a, Fork.step tty resets a s = none)
    (hp : s.procs side = some p) : p.pc.Over = true := by
  have hnone : ∀ side p, s.procs side = some p → runProc tty true side s p = none := by
    intro side p hp
    have hstep := hstuck (.run side true)
    rw [Fork.step, show s.procs (Action.run side true).side = some p from hp] at hstep
    exact hstep
  have hover : ∀ side p, s.procs side = some p → (p.pc = .wait → s.childEnd.isSome) →
      p.pc.Over = true := by
    intro side p hp hwait
    by_contra hover
    have hsome : (runProc tty true side s p).isSome :=
      runProc_isSome (Bool.not_eq_true _ ▸ hover) hwait
    rw [hnone side p hp] at hsome
    cases hsome
  -- the child never waits
  have hchild : ∀ c, s.procs .child = some c → c.pc.Over = true := by
    intro c hc
    apply hover .child c hc
    intro hpc
    obtain ⟨n, sigs, cleaned, hfits⟩ := h.fits .child c hc
    have hat := hfits.place
    rw [hpc] at hat
    cases hat.1.1
  apply hover side p hp
  intro hpc
  obtain ⟨n, sigs, cleaned, hfits⟩ := h.fits side p hp
  have hat := hfits.place
  rw [hpc] at hat
  obtain ⟨⟨rfl, -⟩, -⟩ := hat
  obtain ⟨c, hc⟩ := Option.isSome_iff_exists.mp (h.child p hp true (by rw [hpc]; rfl))
  have hend := hchild c hc
  rw [State.childEnd, hc]
  dsimp only
  revert hend
  cases c.pc with
  | ended how => exact fun _ => rfl
  | _ => nofun

/-- What a process has printed when it has ended. -/
def Account (tty : Bool) (s : State) (side : Side) (registered : Bool) : Status → Prop
  | .exited status => ∃ (n : Nat) (sigs : List Signal), sigs.Nodup ∧ Outcome tty side status n sigs ∧
    (registered = false → side = .parent ∧ status = 1 ∧ n = 0) ∧
    s.by side = (script tty s.childEnd side).take n ++ sigs.map (Line.received side) ++
      if registered then [.cleanup side] else []
  | .signaled k _ => 0 < k ∧ k ≤ 64 ∧
    ∃ (n : Nat) (sigs : List Signal) (cleaned : Bool), sigs.Nodup ∧ s.by side =
      if tty then (script tty s.childEnd side).take n ++ sigs.map (Line.received side) ++
        if cleaned then [.cleanup side] else []
      else []

theorem Fits.account {how : Status} (h : Fits tty s.childEnd side p n sigs cleaned)
    (hpc : p.pc = .ended how) (hby : s.by side = p.written tty) :
    Account tty s side p.registered how := by
  have hat := h.place
  rw [hpc] at hat
  cases how with
  | exited status =>
    obtain ⟨houtcome, rfl⟩ := hat
    refine ⟨n, sigs, h.nodup, houtcome, fun hnot => ?_, ?_⟩
    · rw [hnot] at h
      obtain ⟨hside, rfl, rfl, -⟩ := h.registered.resolve_left (by rw [hnot]; nofun)
      refine ⟨hside, ?_, rfl⟩
      rcases houtcome with ⟨hne, -⟩ | ⟨-, ⟨-, hstatus⟩ | ⟨hchild, -⟩⟩
      · exact absurd rfl hne
      · exact hstatus.resolve_right fun h4 => nomatch h4.2
      · rw [hside] at hchild
        cases hchild
    · rw [hby, Proc.written, hpc, Pc.Exited, Bool.or_true, if_pos rfl]
      exact h.said
  | signaled k core =>
    refine ⟨hat.1, hat.2, n, sigs, cleaned, h.nodup, ?_⟩
    have hexited : p.pc.Exited = false := by rw [hpc]; rfl
    rw [hby, Proc.written, hexited, Bool.or_false, h.said]

/-- The child is killed in its sleep. -/
def killedAsleep : List Action :=
  List.replicate 6 (.run .parent true) ++
    [.run .child true, .kill .child ⟨9, by decide, by decide, by decide, by decide⟩ false] ++
    List.replicate 6 (.run .parent true)

/-- A line that says how the child has ended. -/
def Line.Reports : Line → Bool
  | .exitedWith _ | .killedBy _ | .stoppedBy _ | .undetermined => true
  | _ => false

theorem report_exited {code : Nat} (h : code < 256) :
    report (Status.exited code).encode = .exitedWith code := by
  have hexited : ifExited (code * 256) = true := by
    rw [ifExited, decide_eq_true_eq]
    omega
  rw [Status.encode, Nat.mod_eq_of_lt h, report, if_pos hexited, exitStatus]
  rw [Nat.mul_div_cancel _ (by decide), Nat.mod_eq_of_lt h]

theorem report_signaled {k : Nat} {core : Bool} (hpos : 0 < k) (hle : k ≤ 64) :
    report (Status.signaled k core).encode = .killedBy k := by
  have hmod : (Status.signaled k core).encode % 128 = k := by
    rw [Status.encode]
    cases core with
    | true =>
      show (k + 128) % 128 = k
      omega
    | false =>
      show k % 128 = k
      omega
  have hexited : ¬ ifExited (Status.signaled k core).encode = true := by
    rw [ifExited, hmod, decide_eq_true_eq]
    omega
  have hsignaled : ifSignaled (Status.signaled k core).encode = true := by
    rw [ifSignaled, hmod, decide_eq_true_eq]
    omega
  rw [report, if_neg hexited, if_pos hsignaled, termSig, hmod]

/-- A line about the child's end comes from the parent's script. -/
theorem Fits.reports {line : Line} (h : Fits tty e side p n sigs cleaned) (hline : line ∈ p.said)
    (hreports : line.Reports = true) :
    side = .parent ∧ ∃ how, e = some how ∧ line = report how.encode := by
  rw [h.said] at hline
  rcases List.mem_append.mp hline with hline | hline
  · rcases List.mem_append.mp hline with hline | hline
    · have hmem := List.mem_of_mem_take hline
      cases side with
      | parent =>
        cases e with
        | none =>
          rcases List.mem_cons.mp hmem with rfl | hmem
          · cases hreports
          · obtain rfl := List.mem_singleton.mp hmem
            cases hreports
        | some how =>
          refine ⟨rfl, how, rfl, ?_⟩
          have hmem : line ∈ [.initialized, .created, report how.encode, .parentComplete] := hmem
          simp only [List.mem_cons, List.not_mem_nil, or_false] at hmem
          rcases hmem with rfl | rfl | rfl | rfl
          · cases hreports
          · cases hreports
          · rfl
          · cases hreports
      | child =>
        exfalso
        rcases List.mem_append.mp hmem with hmem | hmem
        · cases tty with
          | true => cases hmem
          | false =>
            obtain rfl := List.mem_singleton.mp hmem
            cases hreports
        · rcases List.mem_cons.mp hmem with rfl | hmem
          · cases hreports
          · obtain rfl := List.mem_singleton.mp hmem
            cases hreports
    · obtain ⟨sig, -, rfl⟩ := List.mem_map.mp hline
      cases hreports
  · cases cleaned with
    | true =>
      obtain rfl := List.mem_singleton.mp hline
      cases hreports
    | false => cases hline

theorem mem_by {line : Line} : line ∈ s.by side ↔ (side, line) ∈ s.output := by
  rw [State.by]
  constructor
  · intro h
    obtain ⟨⟨side', line'⟩, hl, rfl⟩ := List.mem_map.mp h
    obtain ⟨hmem, hside⟩ := List.mem_filter.mp hl
    obtain rfl : side' = side := of_decide_eq_true hside
    exact hmem
  · intro h
    exact List.mem_map.mpr ⟨(side, line), List.mem_filter.mpr ⟨h, decide_eq_true rfl⟩, rfl⟩

/-- What is said of the child's end is what `wait` has given. -/
theorem Inv.reports {l : Side × Line} (h : Inv tty s) (hl : l ∈ s.output)
    (hreports : l.2.Reports = true) :
    l.1 = .parent ∧ ∃ how, s.childEnd = some how ∧ l.2 = report how.encode := by
  have hmem := mem_by.mpr hl
  rw [h.written] at hmem
  cases hp : s.procs l.1 with
  | none =>
    rw [hp] at hmem
    cases hmem
  | some p =>
    rw [hp] at hmem
    obtain ⟨n, sigs, cleaned, hfits⟩ := h.fits l.1 p hp
    apply hfits.reports _ hreports
    change l.2 ∈ p.written tty at hmem
    rw [Proc.written] at hmem
    split at hmem
    · exact hmem
    · cases hmem

/-- How a child can end. -/
theorem Inv.childEnd {how : Status} (h : Inv tty s) (hend : s.childEnd = some how) :
    (∃ code, how = .exited code ∧ (code = 42 ∨ code = 0)) ∨
    ∃ k core, how = .signaled k core ∧ 0 < k ∧ k ≤ 64 := by
  rw [State.childEnd] at hend
  split at hend
  · next c hc =>
    split at hend
    · next how' hpc =>
      obtain rfl := Option.some.inj hend
      obtain ⟨n, sigs, cleaned, hfits⟩ := h.fits .child c hc
      have hat := hfits.place
      rw [hpc] at hat
      cases how' with
      | exited code =>
        refine .inl ⟨code, rfl, ?_⟩
        rcases hat.1 with ⟨-, hzero⟩ | ⟨-, ⟨hside, -⟩ | ⟨-, hcode, -⟩⟩
        · exact .inr hzero
        · cases hside
        · exact .inl hcode
      | signaled k core => exact .inr ⟨k, core, rfl, hat⟩
    · cases hend
  · cases hend

/-- What is printed behind a line about the child's end is printed by the parent. -/
def Ordered (s : State) : Prop :=
  s.output.Pairwise fun l l' => l.2.Reports = true → l'.1 = .parent

theorem Ordered.step (ho : Ordered s) (h : Inv tty s) (hs : Fork.step tty resets a s = some s') :
    Ordered s' := by
  rcases h.step_cases hs with ⟨p, hp, hover, -, hproceeds⟩ | ⟨p, -, -, hforked⟩
  · obtain ⟨p', lines, hmoves, -⟩ := hproceeds
    have hside : ∀ l ∈ lines.map (a.side, ·), l.1 = a.side := by
      intro l hl
      obtain ⟨line, -, rfl⟩ := List.mem_map.mp hl
      rfl
    have hnew : ∀ l ∈ lines.map (a.side, ·), l ∈ s'.output := by
      intro l hl
      rw [hmoves.output]
      exact List.mem_append_right _ hl
    have hwithin : (lines.map (a.side, ·)).Pairwise fun l l' => l.2.Reports = true →
        l'.1 = .parent := by
      apply List.pairwise_of_forall_mem_list
      intro l hl l' hl' hreports
      have hparent := ((h.step hs).reports (hnew l hl) hreports).1
      exact (hside l' hl').trans ((hside l hl).symm.trans hparent)
    rw [Ordered, hmoves.output, List.pairwise_append]
    refine ⟨ho, hwithin, fun l hl l' hl' hreports => ?_⟩
    rw [hside l' hl']
    -- a child that goes on has not ended, so that nothing has been said of its end
    by_contra hchild
    have hchild : a.side = .child := by
      revert hchild
      cases a.side with
      | parent => exact fun hne => absurd rfl hne
      | child => exact fun _ => rfl
    obtain ⟨-, how, hhow, -⟩ := h.reports hl hreports
    rw [hchild] at hp
    rw [childEnd_eq_none hp hover] at hhow
    cases hhow
  · rw [Ordered, hforked.output]
    exact ho

/-- **The report is true**: what the parent says of its child's end is how it ended, and comes
after everything the child has printed. -/
theorem report_is_true (tty resets : Bool) (s : State)
    (h : Reaches (step tty resets) start s) :
    Ordered s ∧ ∀ l ∈ s.output, l.2.Reports = true → l.1 = .parent ∧
      ((∃ code, l.2 = .exitedWith code ∧ s.childEnd = some (.exited code) ∧
          (code = 42 ∨ code = 0)) ∨
        ∃ k core, l.2 = .killedBy k ∧ s.childEnd = some (.signaled k core)) := by
  have hinv := inv_of_reaches h
  refine ⟨?_, fun l hl hreports => ?_⟩
  · have hboth : Inv tty s ∧ Ordered s :=
      h.invariant (I := fun s => Inv tty s ∧ Ordered s) ⟨inv_start, List.Pairwise.nil⟩
        fun _ _ _ hs ha => ⟨hs.1.step ha, hs.2.step hs.1 ha⟩
    exact hboth.2
  · obtain ⟨hparent, how, hhow, hl⟩ := hinv.reports hl hreports
    refine ⟨hparent, ?_⟩
    rcases hinv.childEnd hhow with ⟨code, rfl, hcode⟩ | ⟨k, core, rfl, hpos, hle⟩
    · have hlt : code < 256 := by
        rcases hcode with rfl | rfl <;> decide
      exact .inl ⟨code, hl.trans (report_exited hlt), hhow, hcode⟩
    · exact .inr ⟨k, core, hl.trans (report_signaled hpos hle), hhow⟩

/-- The parent reports the signal that has killed the child. -/
theorem killed_child_reported : ∃ s, Reaches (step false true) start s ∧
    (.parent, .killedBy 9) ∈ s.output ∧ ∃ core, s.childEnd = some (.signaled 9 core) := by
  have hrun : (steps (step false true) killedAsleep start).map
      (fun s => decide ((.parent, .killedBy 9) ∈ s.output)) = some true := by
    decide +kernel
  obtain ⟨s, hs, hmem⟩ := exists_reaches_of_map hrun
  have hmem := of_decide_eq_true hmem
  obtain ⟨-, ⟨code, hl, -⟩ | ⟨k, core, hl, hend⟩⟩ :=
    (report_is_true false true s hs).2 _ hmem rfl
  · cases hl
  · obtain rfl := Line.killedBy.inj hl
    exact ⟨s, hs, hmem, core, hend⟩

end LabsOS.Fork
