import LabsOS.Concurrency.Fairness
import LabsOS.Fork.Fork

/-!
# What the processes say

Each process of `lab3_fork/main.c` says the first lines of its script, then a line for each
handler that it enters, and when it exits that it has cleaned up (`Fits`). On a terminal that is
what it prints; otherwise it prints all of it when it exits and nothing when it is killed
(`Proc.written`).
-/

namespace LabsOS.Fork

open Signals

-- ---------------------------------------------------------------------------
-- Scripts
-- ---------------------------------------------------------------------------

/-- What a child that ends with this status makes the parent say. -/
def afterChild : Option Status → List Line
  | none => []
  | some how => [report how.encode, .parentComplete]

/-- What the child has of the parent's buffer. -/
def inherited (tty : Bool) : List Line := if tty then [] else [.initialized]

/-- What a process says that nothing happens to, as far as it is known. -/
def script (tty : Bool) (e : Option Status) : Side → List Line
  | .parent => [.initialized, .created] ++ afterChild e
  | .child => inherited tty ++ [.active, .childComplete]

/-- How a process comes to exit: after a signal, or at the end of its script, or, in the parent,
after an error. -/
def Outcome (tty : Bool) (side : Side) (status n : Nat) (sigs : List Signal) : Prop :=
  sigs ≠ [] ∧ status = 0 ∨ sigs = [] ∧
    (side = .parent ∧ (status = 1 ∨ status = 0 ∧ n = 4) ∨
      side = .child ∧ status = 42 ∧ n = (inherited tty).length + 2)

/-- What a process has said at each statement: `n` lines of its script, a line for each of the
signals `sigs`, and whether it has cleaned up. -/
def At (tty : Bool) (e : Option Status) (side : Side) (n : Nat) (sigs : List Signal)
    (cleaned : Bool) (p : Proc) : Pc → Prop
  | .atexit => (side = .parent ∧ n = 0) ∧ sigs = [] ∧ cleaned = false
  | .signalInt | .sigaction | .printInitialized =>
    (side = .parent ∧ n = 0 ∧ p.registered = true) ∧ sigs = [] ∧ cleaned = false
  | .fork | .printCreated => (side = .parent ∧ n = 1) ∧ sigs = [] ∧ cleaned = false
  | .wait => (side = .parent ∧ n = 2) ∧ sigs = [] ∧ cleaned = false
  | .report how => (side = .parent ∧ n = 2 ∧ e = some how) ∧ sigs = [] ∧ cleaned = false
  | .printParentComplete =>
    (side = .parent ∧ n = 3 ∧ e.isSome = true) ∧ sigs = [] ∧ cleaned = false
  | .printActive => (side = .child ∧ n = (inherited tty).length) ∧ sigs = [] ∧ cleaned = false
  | .sleep | .printChildComplete =>
    (side = .child ∧ n = (inherited tty).length + 1) ∧ sigs = [] ∧ cleaned = false
  | .handler sig => (sig ∉ sigs ∧ (p.blocked sig = true ∨ p.handled sig = false)) ∧
      p.registered = true ∧ cleaned = false
  | .leaving status | .cleanup status => Outcome tty side status n sigs ∧ cleaned = false
  | .flush status | .ended (.exited status) =>
    Outcome tty side status n sigs ∧ cleaned = p.registered
  | .ended (.signaled k _) => 0 < k ∧ k ≤ 64

def Pc.Over : Pc → Bool
  | .ended _ => true
  | _ => false

def Pc.Exited : Pc → Bool
  | .ended (.exited _) => true
  | _ => false

/-- What a process has said, and what of it is in its buffer. -/
structure Fits (tty : Bool) (e : Option Status) (side : Side) (p : Proc) (n : Nat)
    (sigs : List Signal) (cleaned : Bool) : Prop where
  le : n ≤ (script tty e side).length
  said : p.said = (script tty e side).take n ++ sigs.map (Line.received side) ++
    if cleaned then [.cleanup side] else []
  nodup : sigs.Nodup
  spent : ∀ sig ∈ sigs, p.blocked sig = true ∨ p.handled sig = false
  buffer : p.buffer = if tty || p.pc.Over then [] else p.said
  registered : p.registered = true ∨
    side = .parent ∧ n = 0 ∧ sigs = [] ∧ ∀ sig, p.handled sig = false
  place : At tty e side n sigs cleaned p p.pc

/-- What a process has printed. -/
def Proc.written (tty : Bool) (p : Proc) : List Line :=
  if tty || p.pc.Exited then p.said else []

/-- What the process `side` has printed. -/
def State.by (s : State) (side : Side) : List Line :=
  (s.output.filter fun l => l.1 = side).map Prod.snd

/-- A process takes a step by itself, and prints `lines`. -/
structure Moves (s s' : State) (side : Side) (p' : Proc) (lines : List Line) : Prop where
  procs : s'.procs = Function.update s.procs side (some p')
  output : s'.output = s.output ++ lines.map (side, ·)

variable {tty resets ok cleaned : Bool} {e : Option Status} {side : Side} {p p' : Proc}
variable {n status : Nat} {sigs : List Signal} {s s' : State} {pc : Pc} {line : Line}

/-- A process takes a step by itself, and still fits. -/
def Proceeds (tty : Bool) (e : Option Status) (side : Side) (p : Proc) (s s' : State) : Prop :=
  ∃ p' lines, Moves s s' side p' lines ∧ p'.written tty = p.written tty ++ lines ∧
    ∃ n sigs cleaned, Fits tty e side p' n sigs cleaned

theorem written_of_not_over (hp : p.pc.Over = false) :
    p.written tty = if tty then p.said else [] := by
  have hexited : p.pc.Exited = false := by
    revert hp
    cases p.pc with
    | ended how => nofun
    | _ => exact fun _ => rfl
  rw [Proc.written, hexited, Bool.or_false]

-- ---------------------------------------------------------------------------
-- Steps of a process
-- ---------------------------------------------------------------------------

/-- A process prints a line. -/
theorem Fits.prints (h : Fits tty e side p n sigs cleaned) (s : State) (hp : p.pc.Over = false)
    (hpc : pc.Over = false) (n' : Nat) (sigs' : List Signal) (cleaned' : Bool)
    (hsaid : p.said ++ [line] = (script tty e side).take n' ++ sigs'.map (Line.received side) ++
      if cleaned' then [.cleanup side] else []) (hle : n' ≤ (script tty e side).length)
    (hnodup : sigs'.Nodup) (hspent : ∀ sig ∈ sigs', p.blocked sig = true ∨ p.handled sig = false)
    (hregistered : p.registered = true)
    (hat : At tty e side n' sigs' cleaned' { p with pc := pc } pc) :
    Proceeds tty e side p s (s.print side p tty line pc) := by
  have hbuffer := h.buffer
  rw [hp, Bool.or_false] at hbuffer
  have hplace : ∀ q : Proc, q.blocked = p.blocked → q.handled = p.handled →
      q.registered = p.registered → At tty e side n' sigs' cleaned' q pc := by
    intro q hblocked hhandled hreg
    revert hat
    cases pc with
    | flush | cleanup | leaving | handler | signalInt | sigaction | printInitialized =>
      simp only [At, hblocked, hhandled, hreg]
      exact id
    | ended how => cases hpc
    | _ => exact id
  cases tty with
  | true =>
    refine ⟨{ p with pc := pc, said := p.said ++ [line] }, [line], ⟨rfl, rfl⟩, ?_, n', sigs',
      cleaned', hle, hsaid, hnodup, hspent, hbuffer, .inl hregistered, hplace _ rfl rfl rfl⟩
    rw [written_of_not_over hp, written_of_not_over hpc]
    rfl
  | false =>
    refine ⟨{ p with pc := pc, buffer := p.buffer ++ [line], said := p.said ++ [line] }, [],
      ⟨rfl, (List.append_nil _).symm⟩, ?_, n', sigs', cleaned', hle, hsaid, hnodup, hspent, ?_,
      .inl hregistered, hplace _ rfl rfl rfl⟩
    · rw [written_of_not_over hp, written_of_not_over hpc]
      rfl
    · show p.buffer ++ [line] = if pc.Over then [] else p.said ++ [line]
      rw [hpc, hbuffer]
      rfl

/-- A process goes on without printing anything. -/
theorem Fits.goes (h : Fits tty e side p n sigs cleaned) (hp : p.pc.Over = false)
    (hmoves : Moves s s' side p' []) (hsaid : p'.said = p.said) (hbuffer : p'.buffer = p.buffer)
    (hover : p'.pc.Over = false)
    (hspent : ∀ sig ∈ sigs, p'.blocked sig = true ∨ p'.handled sig = false)
    (hregistered : p'.registered = true ∨
      side = .parent ∧ n = 0 ∧ sigs = [] ∧ ∀ sig, p'.handled sig = false)
    (hat : At tty e side n sigs cleaned p' p'.pc) : Proceeds tty e side p s s' := by
  refine ⟨p', [], hmoves, ?_, n, sigs, cleaned, h.le, ?_, h.nodup, hspent, ?_, hregistered, hat⟩
  · rw [written_of_not_over hp, written_of_not_over hover, hsaid, List.append_nil]
  · rw [hsaid, h.said]
  · rw [hover, hbuffer, hsaid, h.buffer, hp]

/-- A process is killed. -/
theorem Fits.dies (h : Fits tty e side p n sigs cleaned) (hp : p.pc.Over = false) (s : State)
    {k : Nat} (core : Bool) (hk : 0 < k ∧ k ≤ 64) :
    Proceeds tty e side p s (s.set side (p.die k core)) := by
  refine ⟨p.die k core, [], ⟨rfl, (List.append_nil _).symm⟩, ?_, n, sigs, cleaned, h.le, h.said,
    h.nodup, h.spent, ?_, h.registered, hk⟩
  · rw [written_of_not_over hp, List.append_nil]
    cases tty <;> rfl
  · show [] = if tty || true then [] else p.said
    rw [Bool.or_true]
    rfl

theorem number_bounds (sig : Signal) : 0 < number sig ∧ number sig ≤ 64 := by
  cases sig <;> decide

/-- A line of the script is said. -/
theorem Fits.says (h : Fits tty e side p n [] false) (s : State) (hp : p.pc.Over = false)
    (hpc : pc.Over = false) (hline : (script tty e side)[n]? = some line)
    (hregistered : p.registered = true)
    (hat : At tty e side (n + 1) [] false { p with pc := pc } pc) :
    Proceeds tty e side p s (s.print side p tty line pc) := by
  apply h.prints s hp hpc (n + 1) [] false ?_ (List.getElem?_eq_some_iff.mp hline).1 List.nodup_nil
    nofun hregistered hat
  rw [h.said, List.take_add_one, hline]
  simp

theorem Moves.set (s : State) (side : Side) (p' : Proc) : Moves s (s.set side p') side p' [] :=
  ⟨rfl, (List.append_nil _).symm⟩

theorem Moves.perror (s : State) (text : Bytes) (side : Side) (p' : Proc) :
    Moves s ((s.perror text).set side p') side p' [] := ⟨rfl, (List.append_nil _).symm⟩

/-- A call of the parent fails. -/
theorem Fits.fails (h : Fits tty e .parent p n [] false) (s : State) (text : Bytes)
    (hp : p.pc.Over = false) :
    Proceeds tty e .parent p s ((s.perror text).set .parent { p with pc := .leaving 1 }) :=
  h.goes hp (.perror ..) rfl rfl rfl nofun h.registered
    ⟨.inr ⟨rfl, .inl ⟨rfl, .inl rfl⟩⟩, rfl⟩

/-- What the parent has said before it comes to know of a child is not too much. -/
theorem registered_of_pos (h : Fits tty e side p n sigs cleaned) (hn : n ≠ 0) :
    p.registered = true := h.registered.resolve_right fun hnot => hn hnot.2.1

theorem runProc_proceeds (h : Fits tty s.childEnd side p n sigs cleaned)
    (hfork : p.pc = .fork → ok = false)
    (hs : runProc tty ok side s p = some s') : Proceeds tty s.childEnd side p s s' := by
  have hat := h.place
  unfold runProc at hs
  revert hs hat
  cases hpc : p.pc with
  | atexit =>
    rintro hs ⟨⟨rfl, rfl⟩, rfl, rfl⟩
    dsimp only at hs
    split at hs
    · obtain rfl := Option.some.inj hs
      exact h.goes (by rw [hpc]; rfl) (.set ..) rfl rfl rfl nofun (.inl rfl)
        ⟨⟨rfl, rfl, rfl⟩, rfl, rfl⟩
    · obtain rfl := Option.some.inj hs
      exact h.fails s _ (by rw [hpc]; rfl)
  | signalInt =>
    rintro hs ⟨⟨rfl, rfl, hregistered⟩, rfl, rfl⟩
    dsimp only at hs
    split at hs
    · obtain rfl := Option.some.inj hs
      exact h.goes (by rw [hpc]; rfl) (.set ..) rfl rfl rfl nofun (.inl hregistered)
        ⟨⟨rfl, rfl, hregistered⟩, rfl, rfl⟩
    · obtain rfl := Option.some.inj hs
      exact h.fails s _ (by rw [hpc]; rfl)
  | sigaction =>
    rintro hs ⟨⟨rfl, rfl, hregistered⟩, rfl, rfl⟩
    dsimp only at hs
    split at hs
    · obtain rfl := Option.some.inj hs
      exact h.goes (by rw [hpc]; rfl) (.set ..) rfl rfl rfl nofun (.inl hregistered)
        ⟨⟨rfl, rfl, hregistered⟩, rfl, rfl⟩
    · obtain rfl := Option.some.inj hs
      exact h.fails s _ (by rw [hpc]; rfl)
  | printInitialized =>
    rintro ⟨⟩ ⟨⟨rfl, rfl, hregistered⟩, rfl, rfl⟩
    exact h.says s (by rw [hpc]; rfl) rfl rfl hregistered ⟨⟨rfl, rfl⟩, rfl, rfl⟩
  | fork =>
    obtain rfl := hfork hpc
    rintro ⟨⟩ ⟨⟨rfl, rfl⟩, rfl, rfl⟩
    exact h.fails s _ (by rw [hpc]; rfl)
  | printCreated =>
    rintro ⟨⟩ ⟨⟨rfl, rfl⟩, rfl, rfl⟩
    exact h.says s (by rw [hpc]; rfl) rfl rfl (registered_of_pos h nofun) ⟨⟨rfl, rfl⟩, rfl, rfl⟩
  | wait =>
    rintro hs ⟨⟨rfl, rfl⟩, rfl, rfl⟩
    dsimp only at hs
    split at hs
    · obtain ⟨how, hend, rfl⟩ := Option.map_eq_some_iff.mp hs
      exact h.goes (by rw [hpc]; rfl) (.set ..) rfl rfl rfl nofun h.registered
        ⟨⟨rfl, rfl, hend⟩, rfl, rfl⟩
    · obtain rfl := Option.some.inj hs
      exact h.fails s _ (by rw [hpc]; rfl)
  | report how =>
    rintro ⟨⟩ ⟨⟨rfl, rfl, hend⟩, rfl, rfl⟩
    refine h.says s (by rw [hpc]; rfl) rfl (by rw [hend]; rfl) (registered_of_pos h nofun)
      ⟨⟨rfl, rfl, ?_⟩, rfl, rfl⟩
    rw [hend]
    rfl
  | printParentComplete =>
    rintro ⟨⟩ ⟨⟨rfl, rfl, hend⟩, rfl, rfl⟩
    obtain ⟨how, hhow⟩ := Option.isSome_iff_exists.mp hend
    exact h.says s (by rw [hpc]; rfl) rfl (by rw [hhow]; rfl) (registered_of_pos h nofun)
      ⟨.inr ⟨rfl, .inl ⟨rfl, .inr ⟨rfl, rfl⟩⟩⟩, rfl⟩
  | printActive =>
    rintro ⟨⟩ ⟨⟨rfl, rfl⟩, rfl, rfl⟩
    exact h.says s (by rw [hpc]; rfl) rfl (by simp [script])
      (h.registered.resolve_right fun hnot => nomatch hnot.1) ⟨⟨rfl, rfl⟩, rfl, rfl⟩
  | sleep =>
    rintro ⟨⟩ ⟨⟨rfl, rfl⟩, rfl, rfl⟩
    exact h.goes (by rw [hpc]; rfl) (.set ..) rfl rfl rfl nofun h.registered ⟨⟨rfl, rfl⟩, rfl, rfl⟩
  | printChildComplete =>
    rintro ⟨⟩ ⟨⟨rfl, rfl⟩, rfl, rfl⟩
    exact h.says s (by rw [hpc]; rfl) rfl (by simp [script])
      (h.registered.resolve_right fun hnot => nomatch hnot.1)
      ⟨.inr ⟨rfl, .inr ⟨rfl, rfl, rfl⟩⟩, rfl⟩
  | handler sig =>
    rintro ⟨⟩ ⟨⟨hsig, hspent⟩, hregistered, rfl⟩
    refine h.prints s (by rw [hpc]; rfl) rfl n (sigs ++ [sig]) false ?_ h.le 
      (List.nodup_append.mpr ⟨h.nodup, List.nodup_singleton _, ?_⟩) ?_ hregistered
      ⟨.inl ⟨by simp, rfl⟩, rfl⟩
    · rw [h.said]
      simp
    · rintro a ha b hb rfl
      exact hsig (List.mem_singleton.mp hb ▸ ha)
    · intro a ha
      rcases List.mem_append.mp ha with ha | ha
      · exact h.spent a ha
      · rw [List.mem_singleton.mp ha]
        exact hspent
  | leaving status =>
    rintro ⟨⟩ hat
    exact h.goes (by rw [hpc]; rfl) (.set ..) rfl rfl rfl h.spent h.registered hat
  | cleanup status =>
    rintro hs ⟨houtcome, rfl⟩
    dsimp only at hs
    split at hs
    · next hregistered =>
      obtain rfl := Option.some.inj hs
      refine h.prints s (by rw [hpc]; rfl) rfl n sigs true ?_ h.le h.nodup h.spent hregistered
        ⟨houtcome, hregistered.symm⟩
      rw [h.said]
      simp
    · next hregistered =>
      obtain rfl := Option.some.inj hs
      exact h.goes (by rw [hpc]; rfl) (.set ..) rfl rfl rfl h.spent h.registered
        ⟨houtcome, (Bool.not_eq_true _ ▸ hregistered).symm⟩
  | flush status =>
    rintro ⟨⟩ hat
    refine ⟨{ p with pc := .ended (.exited status), buffer := [] }, p.buffer, ⟨rfl, rfl⟩, ?_, n,
      sigs, cleaned, h.le, h.said, h.nodup, h.spent, ?_, h.registered, hat⟩
    · have hwritten : p.written tty = if tty then p.said else [] :=
        written_of_not_over (by rw [hpc]; rfl)
      have hover : p.pc.Over = false := by rw [hpc]; rfl
      have hbuffer : p.buffer = if tty then [] else p.said := by
        rw [h.buffer, hover, Bool.or_false]
      rw [hwritten, hbuffer]
      cases tty with
      | true => exact (List.append_nil _).symm
      | false => rfl
    · show [] = if tty || true then [] else p.said
      rw [Bool.or_true]
      rfl
  | ended how => nofun

/-- A signal that is not held back enters its handler. -/
theorem Fits.enters {sig : Signal} (h : Fits tty e side p n sigs false) (hp : p.pc.Over = false)
    (s : State) (hblocked : p.blocked sig = false) (hhandled : p.handled sig = true) :
    Proceeds tty e side p s (s.set side (p.enter resets sig)) := by
  have hregistered : p.registered = true := by
    apply h.registered.resolve_right
    rintro ⟨-, -, -, hnot⟩
    rw [hnot sig] at hhandled
    cases hhandled
  have hsig : sig ∉ sigs := by
    intro hsig
    rcases h.spent sig hsig with hspent | hspent
    · rw [hblocked] at hspent
      cases hspent
    · rw [hhandled] at hspent
      cases hspent
  -- what was held back still is, and now the signal is too
  have hspent : ∀ a, a = sig ∨ p.blocked a = true ∨ p.handled a = false →
      (p.enter resets sig).blocked a = true ∨ (p.enter resets sig).handled a = false := by
    intro a ha
    by_cases hsig : a = sig
    · cases sig <;> cases resets <;> simp [Proc.enter, hsig]
    · have ha := ha.resolve_left hsig
      cases sig <;> cases resets <;> simpa [Proc.enter, hsig] using ha
  have hsame : (p.enter resets sig).pc = .handler sig ∧ (p.enter resets sig).said = p.said ∧
      (p.enter resets sig).buffer = p.buffer ∧
      (p.enter resets sig).registered = p.registered := by
    cases sig <;> cases resets <;> exact ⟨rfl, rfl, rfl, rfl⟩
  obtain ⟨hpc, hsaid, hbuffer, hreg⟩ := hsame
  refine h.goes hp (.set ..) hsaid hbuffer (by rw [hpc]; rfl)
    (fun a ha => hspent a (.inr (h.spent a ha))) (.inl (hreg.trans hregistered)) ?_
  rw [hpc]
  exact ⟨⟨hsig, hspent sig (.inl rfl)⟩, hreg.trans hregistered, rfl⟩

theorem deliver_proceeds {sig : Signal} (h : Fits tty e side p n sigs cleaned)
    (hs : deliver resets sig side s p = some s') : Proceeds tty e side p s s' := by
  -- where the handlers can be entered nothing is cleaned up yet
  have main : p.pc.Over = false → (cleaned = false) →
      (if p.blocked sig then none
        else if p.handled sig then some (s.set side (p.enter resets sig))
        else some (s.set side (p.die (number sig) false))) = some s' →
      Proceeds tty e side p s s' := by
    rintro hp rfl hs
    split at hs
    · cases hs
    · next hblocked =>
      split at hs
      · next hhandled =>
        obtain rfl := Option.some.inj hs
        exact h.enters hp s (Bool.not_eq_true _ ▸ hblocked) hhandled
      · obtain rfl := Option.some.inj hs
        exact h.dies hp s _ (number_bounds sig)
  have hat := h.place
  unfold deliver at hs
  revert hs hat
  cases hpc : p.pc with
  | ended how => nofun
  | cleanup status | flush status =>
    intro hs _
    dsimp only at hs
    split at hs
    · cases hs
    · obtain rfl := Option.some.inj hs
      exact h.dies (by rw [hpc]; rfl) s _ (number_bounds sig)
  | leaving status => exact fun hs hat => main (by rw [hpc]; rfl) hat.2 hs
  | _ => exact fun hs hat => main (by rw [hpc]; rfl) hat.2.2 hs

theorem kill_proceeds {k : Fatal} {core : Bool} (h : Fits tty e side p n sigs cleaned)
    (hs : kill k core side s p = some s') : Proceeds tty e side p s s' := by
  rw [kill] at hs
  split at hs
  · cases hs
  · next hpc =>
    obtain rfl := Option.some.inj hs
    apply h.dies _ s _ ⟨k.2.1, k.2.2.1⟩
    revert hpc
    cases p.pc with
    | ended how => exact fun hpc => absurd rfl (hpc how)
    | _ => exact fun _ => rfl

/-- Only the call of `fork` is not a step that the process takes by itself. -/
theorem act_proceeds {a : Action} (h : Fits tty s.childEnd a.side p n sigs cleaned)
    (hfork : p.pc = .fork → ∀ side ok, a = .run side ok → ok = false) (hs : act tty resets a s p = some s') :
    Proceeds tty s.childEnd a.side p s s' := by
  cases a with
  | run side ok => exact runProc_proceeds h (fun hpc => hfork hpc side ok rfl) hs
  | signal side sig => exact deliver_proceeds h hs
  | kill side k core => exact kill_proceeds h hs

end LabsOS.Fork
