/-
The first signals of the Reporter. Its signals are remembered by nobody: a signal to a player that does not wait yet is
lost. The players are in their places when the Reporter is created, so the first signal to each of them wakes it, and the
first tick runs through all three handshakes.

- `Event`, `event`: what is seen of a run: the signals that wake a player, those that are lost, the reads of the clock
  and the Reporter's returns from its waits.
- `Dawn`: the state of the race when the record has come to the `n`-th event of the first tick.
- `Dawn.next`: a step is not seen, or it is the next event of the first tick.
- `first_signals`: no start is stuck and no first signal is lost, in every run.

Nothing is assumed of the race but a positive printing delay; waits return only after a signal.
-/
import DecsLabs.Race.Arrival
import DecsLabs.Race.Deadlock

namespace DecsLabs.HareTortoise

open DecsLabs.Transition DecsLabs.Pthread

/-! ## What is seen of a run -/

inductive Event where
  /-- a signal of `t` has woken `x` -/
  | woken (t : Thread) (x : Player)
  /-- a signal of the Reporter to `x` has found nobody waiting -/
  | missed (x : Player)
  /-- `x` has read the clock -/
  | read (x : Player) (clockTick : ℤ)
  /-- the Reporter has returned from its wait for `x` -/
  | returned (x : Player) (clockTick : ℤ)
deriving DecidableEq, Repr

def event (s : RaceSt) : Op Thread → Option Event
  | .wake t (.player x) => some (.woken t x)
  | .exec .report =>
    match (s.pc .report : ReportPc) with
    | .signal x | .shutSignal x => some (.missed x)
    | _ => none
  | .exec (.player x) =>
    match (s.pc (.player x) : PlayerPc x) with
    | .clockRead => some (.read x s.mem.clockTick)
    | _ => none
  | .resume .report =>
    match (s.pc .report : ReportPc) with
    | .wait x => some (.returned x s.mem.clockTick)
    | _ => none
  | _ => none

/-- `s` is reached without spurious wake-ups, and `l` is what has been seen on the way -/
abbrev Recording (r : Race) (s : RaceSt) (l : List Event) : Prop :=
  Recorded (step (code r)) event NoSpurious initial s l

/-- the handshake of `x` in tick 0 -/
def handshake (x : Player) : List Event := [.woken .report x, .read x 0, .returned x 0]

def firstTick : List Event := handshake .randomizer ++ handshake .turtle ++ handshake .hare

/-- the steps of the threads with what is seen of them -/
inductive Observed (r : Race) (s s' : RaceSt) : Option Event → Prop
  | main (h : MainStep s s') : Observed r s s' none
  | player (x : Player) (h : PlayerStep r x s s') (hp : s.pc (.player x) ≠ .clockRead) : Observed r s s' none
  | read (x : Player) (h : PlayerStep r x s s') (hp : s.pc (.player x) = .clockRead) :
    Observed r s s' (some (.read x s.mem.clockTick))
  | report (h : ReportStep r s s') (hr : s.mode .report = .run)
    (hp : ∀ x, s.pc .report ≠ .signal x ∧ s.pc .report ≠ .shutSignal x) : Observed r s s' none
  | missed (x : Player) (h : ReportStep r s s') (hr : s.mode .report = .run)
    (hp : s.pc .report = .signal x ∨ s.pc .report = .shutSignal x) (hn : ∀ u, s.mode u ≠ .waiting (.reporterToPlayer x)) :
    Observed r s s' (some (.missed x))
  | woken (x : Player) (h : ReportStep r s s') (hr : s.mode .report = .run)
    (hp : s.pc .report = .signal x ∨ s.pc .report = .shutSignal x)
    (hu : s.mode (.player x) = .waiting (.reporterToPlayer x)) : Observed r s s' (some (.woken .report x))
  | returned (x : Player) (h : ReportStep r s s') (hm : s.mode .report = .woken) (hp : s.pc .report = .wait x) :
    Observed r s s' (some (.returned x s.mem.clockTick))

/-- a player signals `main` and the Reporter only -/
theorem player_signals {r : Race} {x y : Player} {p q : PlayerPc x} {l : Lock} :
    playerCode r x p ≠ .signal (.reporterToPlayer y) l q := by
  intro h
  cases p with
  | block a b => cases b <;> simp [playerCode, blockCode] at h
  | _ => simp [playerCode] at h

/-- and the Reporter the players -/
theorem report_signals_players {r : Race} {p q : ReportPc} {c : Cond} {l : Lock} (h : reportCode r p = .signal c l q) :
    ∃ x, c = .reporterToPlayer x ∧ (p = .signal x ∨ p = .shutSignal x) := by
  cases p with
  | signal x =>
    cases h
    exact ⟨x, rfl, .inl rfl⟩
  | shutSignal x =>
    cases h
    exact ⟨x, rfl, .inr rfl⟩
  | release x | shutRelease x => cases x <;> cases h
  | _ => cases h

theorem observed_exec {r : Race} {s s' : RaceSt} {t : Thread} (h : step (code r) s (.exec t) = some s') :
    Observed r s s' (event s (.exec t)) := by
  have hr : s.mode t = .run := by
    by_contra hne
    simp [step, hne] at h
  cases t with
  | main => exact .main (main_exec h)
  | player x =>
    have hstep := player_exec h
    by_cases hp : s.pc (.player x) = .clockRead
    · have he : event s (.exec (.player x)) = some (.read x s.mem.clockTick) := by simp [event, hp]
      rw [he]
      exact .read x hstep hp
    · have he : event s (.exec (.player x)) = none := by simp only [event]
      rw [he]
      exact .player x hstep hp
  | report =>
    have hstep := report_exec h
    by_cases hsignal : ∃ x, s.pc .report = .signal x ∨ s.pc .report = .shutSignal x
    · obtain ⟨x, hp⟩ := hsignal
      have he : event s (.exec .report) = some (.missed x) := by rcases hp with hp | hp <;> simp [event, hp]
      rw [he]
      refine .missed x hstep hr hp fun u => ?_
      rcases hp with hp | hp
      · exact lost_signal h (by rw [hp]; rfl) u
      · exact lost_signal h (by rw [hp]; rfl) u
    · push Not at hsignal
      have he : event s (.exec .report) = none := by
        cases hp : s.pc .report with
        | signal x => exact absurd hp (hsignal x).1
        | shutSignal x => exact absurd hp (hsignal x).2
        | _ => simp [event, hp]
      rw [he]
      exact .report hstep hr hsignal

theorem observed_wake {r : Race} {s s' : RaceSt} {t u : Thread} (ho : Owned (code r) held s)
    (h : step (code r) s (.wake t u) = some s') : Observed r s s' (event s (.wake t u)) := by
  cases t with
  | main => exact (main_wake h).elim
  | player x =>
    have hstep := player_wake h
    cases step_move h with
    | @wake _ _ c l p hr hc hu =>
      have he : event s (.wake (.player x) u) = none := by
        cases u with
        | player y =>
          have hw := waits_on ho.atWait hu
          cases c with
          | reporterToPlayer z => exact absurd hc player_signals
          | _ => cases hw.1
        | _ => rfl
      rw [he]
      refine .player x hstep ?_
      intro hp
      simp [code, hp, playerCode] at hc
  | report =>
    have hstep := report_wake h
    cases step_move h with
    | @wake _ _ c l p hr hc hu =>
      obtain ⟨x, rfl, hp⟩ := report_signals_players hc
      obtain ⟨rfl, -⟩ := waits_on ho.atWait hu
      exact .woken x hstep hr hp hu

theorem observed_resume {r : Race} {s s' : RaceSt} {t : Thread} (h : step (code r) s (.resume t) = some s') :
    Observed r s s' (event s (.resume t)) := by
  cases t with
  | main => exact .main (main_resume h)
  | player x =>
    refine .player x (player_resume h) ?_
    intro hp
    simp [step, code, hp, playerCode] at h
  | report =>
    have hstep := report_resume h
    cases step_move h with
    | @resume _ c l p hm hc hfree =>
      cases hp : s.pc .report with
      | wait x =>
        have he : event s (.resume .report) = some (.returned x s.mem.clockTick) := by simp [event, hp]
        rw [he]
        exact .returned x hstep hm hp
      | release x | shutRelease x => cases x <;> simp [hp, code, reportCode] at hc
      | _ => simp [hp, code, reportCode] at hc

/-- **Inversion**, with what is seen of the step. -/
theorem observed {r : Race} {s s' : RaceSt} {o : Op Thread} (ho : Owned (code r) held s) (hns : NoSpurious s o)
    (h : step (code r) s o = some s') : Observed r s s' (event s o) := by
  cases o with
  | exec t => exact observed_exec h
  | wake t u => exact observed_wake ho h
  | resume t => exact observed_resume h
  | spurious t => exact absurd rfl (hns t)

/-! ## The first tick -/

/-- the handshakes completed and the clock, where the Reporter stands between two handshakes of the first tick -/
def ReportPc.between : ReportPc → Option (ℕ × ℤ)
  | .loopTest | .clockAcquire | .clockInc => some (0, -1)
  | .clockRelease | .acquire .randomizer | .signal .randomizer => some (0, 0)
  | .release .randomizer | .print | .acquire .turtle | .signal .turtle => some (1, 0)
  | .release .turtle | .acquire .hare | .signal .hare => some (2, 0)
  | _ => none

/-- where the Reporter stands, and the player it has called, when `n` events of the first tick have been seen -/
inductive Stand (v : View) : ℕ → Prop
  | between {k : ℕ} {c : ℤ} (hr : v.reportMode = .run) (hp : v.report.between = some (k, c)) (hc : v.clockTick = c)
    (hw : c = -1 → v.track.noWinner ≠ 0) : Stand v (3 * k)
  | called (x : Player) (hc : v.clockTick = 0) (he : v.Engaged x) (ha : (v.role x).Awake) (ht : ¬ (v.role x).Timed) :
    Stand v (3 * x.index + 1)
  | timed (x : Player) (hc : v.clockTick = 0) (he : v.Engaged x) (ht : (v.role x).Timed) : Stand v (3 * x.index + 2)
  | answered (x : Player) (hc : v.clockTick = 0) (hp : v.report = .wait x) (hm : v.reportMode = .woken) :
    Stand v (3 * x.index + 2)

/-- the race when `n` events of the first tick have been seen -/
structure Dawn (s : RaceSt) (n : ℕ) : Prop where
  stand : Stand (view s) n
  /-- those that have not been called are in their places -/
  inPlace : ∀ x : Player, n ≤ 3 * x.index → InPlace s x
  /-- only the player whose handshake it is is awake -/
  alone : ∀ x, ((view s).role x).Awake → (view s).Engaged x

theorem ReportPc.next_between {r : Race} {w : ℤ} {p q : ReportPc} {k : ℕ} {c : ℤ} (hd : r.printingDelay ≠ 0)
    (h : p.next r w = some q) (hp : p.between = some (k, c)) (hw : c = -1 → w ≠ 0) : q.between = some (k, c) := by
  cases p with
  | loopTest =>
    cases hp
    simp only [next, hw rfl, ne_eq, not_false_eq_true, if_true, Option.some.injEq] at h
    subst h
    rfl
  | print =>
    cases hp
    simp only [next, hd, if_false, Option.some.injEq] at h
    subst h
    rfl
  | acquire x =>
    cases h
    cases x <;> exact hp
  | release x =>
    cases x with
    | randomizer | turtle =>
      cases hp
      cases h
      rfl
    | hare => cases hp
  | clockAcquire | clockRelease =>
    cases hp
    cases h
    rfl
  | clockInc | signal x | wait x | exit | shutSignal x => cases h
  | crash | endTest | shutAcquire x | shutRelease x => cases hp

/-- a player in its place does not hold the lock of its handshake while the Reporter does, so it waits -/
theorem InPlace.waits {r : Race} {s : RaceSt} {x : Player} (h : InPlace s x) (ho : Owned (code r) held s)
    (hr : s.mode .report = .run) (hp : s.pc .report = .signal x) :
    s.mode (.player x) = .waiting (.reporterToPlayer x) := by
  refine h.2.resolve_left fun hx => ?_
  have hrep : Lock.playerReporter x ∈ held .report (s.pc .report) := by simp [hp, held, reportHeld]
  have hpl : Lock.playerReporter x ∈ held (.player x) (s.pc (.player x)) := by simp [h.1, held, playerHeld]
  cases ho.unique hr hrep hx hpl

theorem Stand.engaged {v : View} {n : ℕ} {x : Player} (h : Stand v n) (he : v.Engaged x) :
    v.clockTick = 0 ∧ (v.role x).Awake ∧
      (n = 3 * x.index + 1 ∧ ¬ (v.role x).Timed ∨ n = 3 * x.index + 2 ∧ (v.role x).Timed) := by
  cases h with
  | between hr hp hc hw =>
    rw [he.1] at hp
    cases hp
  | called y hc he' ha ht =>
    obtain rfl := he'.unique he
    exact ⟨hc, ha, .inl ⟨rfl, ht⟩⟩
  | timed y hc he' ht =>
    obtain rfl := he'.unique he
    exact ⟨hc, ht.awake, .inr ⟨rfl, ht⟩⟩
  | answered y hc hp hm => exact absurd hm he.not_woken

/-- the same the other way round -/
theorem Stand.of_engaged {v : View} {n : ℕ} {x : Player} (hc : v.clockTick = 0) (he : v.Engaged x)
    (ha : (v.role x).Awake)
    (hn : n = 3 * x.index + 1 ∧ ¬ (v.role x).Timed ∨ n = 3 * x.index + 2 ∧ (v.role x).Timed) : Stand v n := by
  rcases hn with ⟨rfl, ht⟩ | ⟨rfl, ht⟩
  · exact .called x hc he ha ht
  · exact .timed x hc he ht

/-- where the Reporter is not in a handshake, nobody has been called who has not answered -/
theorem Stand.eq_between {v : View} {n : ℕ} (h : Stand v n) (hp : ∀ x, v.report ≠ .wait x) :
    ∃ k, n = 3 * k ∧ v.report.between = some (k, v.clockTick) ∧ (v.clockTick = -1 → v.track.noWinner ≠ 0) := by
  cases h with
  | @between k c hr hb hc hw =>
    subst hc
    exact ⟨k, rfl, hb, hw⟩
  | called x hc he | timed x hc he => exact absurd he.1 (hp x)
  | answered x hc hw hm => exact absurd hw (hp x)

theorem Dawn.alive {s : RaceSt} {n : ℕ} (h : Dawn s n) : s.mode .report ≠ .unborn ∧ s.mode .report ≠ .exited := by
  have hm : s.mode .report = .run ∨ s.mode .report = .woken ∨ ∃ c, s.mode .report = .waiting c := by
    cases h.stand with
    | between hr hp hc hw => exact .inl hr
    | called x hc he | timed x hc he =>
      rcases he.2 with e | e
      · exact .inl e
      · exact .inr (.inr ⟨_, e⟩)
    | answered x hc hp hm => exact .inr (.inl hm)
  rcases hm with e | e | ⟨c, e⟩ <;> simp [e]

/-! ## Steps of `main` and of the players -/

theorem Dawn.main_step {r : Race} {s s' : RaceSt} {n : ℕ} (h : Dawn s n) (hst : Startup r s) (hs : MainStep s s') :
    Dawn s' n := by
  have hf := hs.frame
  have hv := main_view hst h.alive.1 hs
  refine ⟨hv ▸ h.stand, fun x hx => ?_, hv ▸ h.alone⟩
  exact (h.inPlace x hx).congr (hf.pc _ (by simp)) (main_alone hst h.alive.1 hf (by simp))

theorem PlayerStep.Frame.others {s s' : RaceSt} {x y : Player} (hf : PlayerStep.Frame x s s') (hyx : y ≠ x) :
    (view s').role y = (view s).role y ∧ (InPlace s y → InPlace s' y) := by
  have hp : s'.pc (.player y) = s.pc (.player y) := hf.pc _ (by simp [hyx])
  have hm : s'.mode (.player y) = s.mode (.player y) := hf.mode _ (by simp [hyx]) (by simp) (by simp)
  exact ⟨view_role hp hm, InPlace.congr hp hm⟩

theorem PlayerStep.Frame.engaged {s s' : RaceSt} {x y : Player} (hf : PlayerStep.Frame x s s')
    (hm : s'.mode .report = s.mode .report) : (view s').Engaged y ↔ (view s).Engaged y := by
  have hp : (view s').report = (view s).report := hf.pc _ (by simp)
  simp only [View.Engaged, hp, show (view s').reportMode = (view s).reportMode from hm]

/-- a step after which `x` is as much awake as before, and the Reporter where it was -/
theorem Dawn.same {s s' : RaceSt} {n : ℕ} {x : Player} (h : Dawn s n) (hf : PlayerStep.Frame x s s')
    (hm : s'.mode .report = s.mode .report) (hc : s'.mem.clockTick = s.mem.clockTick)
    (hw : s'.mem.track = s.mem.track ∨ ((view s).role x).Awake) (hin : InPlace s x → InPlace s' x)
    (ha : ((view s').role x).Awake ↔ ((view s).role x).Awake)
    (ht : ((view s').role x).Timed ↔ ((view s).role x).Timed) : Dawn s' n := by
  have hp : (view s').report = (view s).report := hf.pc _ (by simp)
  have he : ∀ y, (view s').Engaged y ↔ (view s).Engaged y := fun y => hf.engaged hm
  have hawake : ∀ y, ((view s').role y).Awake ↔ ((view s).role y).Awake := by
    intro y
    by_cases hyx : y = x
    · subst hyx; exact ha
    · rw [(hf.others hyx).1]
  have htimed : ∀ y, ((view s').role y).Timed ↔ ((view s).role y).Timed := by
    intro y
    by_cases hyx : y = x
    · subst hyx; exact ht
    · rw [(hf.others hyx).1]
  refine ⟨?_, fun y hy => ?_, fun y hy => (he y).2 (h.alone y ((hawake y).1 hy))⟩
  · cases h.stand with
    | between hr hb hc' hw' =>
      refine .between (hm.trans hr) (hp ▸ hb) (hc.trans hc') fun hneg => ?_
      rcases hw with hw | hx
      · exact congrArg Track.noWinner hw ▸ hw' hneg
      · rw [(h.alone x hx).1] at hb
        cases hb
    | called y hc' he' ha' ht' =>
      exact .called y (hc.trans hc') ((he y).2 he') ((hawake y).2 ha') ((htimed y).not.2 ht')
    | timed y hc' he' ht' => exact .timed y (hc.trans hc') ((he y).2 he') ((htimed y).2 ht')
    | answered y hc' hp' hm' => exact .answered y (hc.trans hc') (hp.trans hp') (hm.trans hm')
  · by_cases hyx : y = x
    · subst hyx; exact hin (h.inPlace y hy)
    · exact (hf.others hyx).2 (h.inPlace y hy)

/-- the turn of `x` ends, and the Reporter has been woken -/
theorem Dawn.answered {s s' : RaceSt} {n : ℕ} {x : Player} {a : Bool} (h : Dawn s n) (hr : s.mode (.player x) = .run)
    (hp : s.pc (.player x) = .block a .done) (hf : PlayerStep.Frame x s s') (hm : s'.mode .report = .woken)
    (hc : s'.mem.clockTick = s.mem.clockTick) (hρ : (view s').role x = .loose) : Dawn s' n := by
  have hturn : (view s).role x = .turn a .done := by simp [view, hr, hp, roleOf]
  have he := h.alone x (by rw [hturn]; trivial)
  obtain ⟨hclock, -, ⟨-, ht⟩ | ⟨hn, -⟩⟩ := h.stand.engaged he
  · exact absurd (by rw [hturn]; trivial) ht
  · subst hn
    refine ⟨.answered x (hc.trans hclock) ((hf.pc _ (by simp)).trans he.1) hm, fun y hy => ?_, fun y hy => ?_⟩
    · have hyx : y ≠ x := by
        intro hyx
        subst hyx
        omega
      exact (hf.others hyx).2 (h.inPlace y hy)
    · by_cases hyx : y = x
      · subst hyx
        rw [hρ] at hy
        exact hy.elim
      · rw [(hf.others hyx).1] at hy
        exact absurd ((h.alone y hy).unique he) hyx

/-- a step of a player that does not read the clock -/
theorem Dawn.player_step {r : Race} {s s' : RaceSt} {n : ℕ} {x : Player} (h : Dawn s n) (hst : Startup r s)
    (ho : Owned (code r) held s) (hs : PlayerStep r x s s') (hp : s.pc (.player x) ≠ .clockRead) : Dawn s' n := by
  have hf := hs.frame ho.atWait
  have hout : s.pc (.player x) ≠ .wait → InPlace s x → InPlace s' x := fun hne hin => absurd hin.1 hne
  cases hs with
  | quiet w hr hq =>
    have hne : s.pc (.player x) ≠ .wait := by
      intro he
      rw [he] at hq
      cases hq
    rcases PlayerPc.next_role hq with h1 | ⟨h1, h2, -⟩
    · exact h.same hf rfl rfl (.inl rfl) (hout hne) (by simp [view, hr, h1]) (by simp [view, hr, h1])
    · exact h.same hf rfl rfl (.inl rfl) (hout hne) (by simp [view, hr, h1, h2, Role.Awake])
        (by simp [view, hr, h1, h2, Role.Timed])
  | enter hr hpc =>
    -- `main` has waited for this player before it created the Reporter
    have hpassed := hst.reporter.not.1 h.alive.1
    have := x.index_lt
    exact absurd (hst.enter x hpc) (hst.passed x (by omega))
  | setReached hr hpc =>
    exact h.same hf rfl rfl (.inl rfl) (hout (by simp [hpc])) (by simp [view, hr, hpc, roleOf])
      (by simp [view, hr, hpc, roleOf])
  | clockRead hr hpc => exact absurd hpc hp
  | test hr hpc =>
    have hrole : ∀ {a : Bool} {b : PlayerBlock x [.playerReporter x]},
        ((Role.turn a b).Awake ↔ (Role.timed (x := x)).Awake) ∧ ((Role.turn a b).Timed ↔ (Role.timed (x := x)).Timed) :=
      ⟨Iff.rfl, Iff.rfl⟩
    refine h.same hf rfl rfl (.inl rfl) (hout (by simp [hpc])) ?_ ?_
    · simp only [view, goto_mode, hr, goto_pc_self, hpc]
      split_ifs
      · exact hrole.1
      · exact hrole.1
    · simp only [view, goto_mode, hr, goto_pc_self, hpc]
      split_ifs
      · exact hrole.2
      · exact hrole.2
  | access b' t w hr hpc he hsil =>
    exact h.same hf rfl rfl (.inr (by simp [view, hr, hpc, roleOf, Role.Awake])) (hout (by simp [hpc]))
      (by simp [view, hr, hpc, roleOf, Role.Awake]) (by simp [view, hr, hpc, roleOf, Role.Timed])
  | drop hr hpc hn =>
    have he := h.alone x (by simp [view, hr, hpc, roleOf, Role.Awake])
    exact absurd he (drop_not_engaged ho hr hpc hn)
  | answer hr hpc hu =>
    obtain ⟨rfl, -⟩ := waits_on ho.atWait hu
    exact h.answered hr hpc hf (by simp) rfl (by simp [view, hr, roleOf])
  | wakeMain hr hpc hu =>
    obtain ⟨rfl, -⟩ := waits_on ho.atWait hu
    exact h.same hf (by simp) rfl (.inl rfl) (hout (by simp [hpc])) (by simp [view, hr, hpc, roleOf])
      (by simp [view, hr, hpc, roleOf])
  | sleep w hr hpc =>
    exact h.same hf (by simp) rfl (.inl rfl) (fun _ => ⟨hpc, .inr (by simp)⟩)
      (by simp [view, hr, hpc, roleOf, Role.Awake]) (by simp [view, hr, hpc, roleOf, Role.Timed])
  | resume w hm hpc =>
    exact h.same hf (by simp) rfl (.inl rfl) (fun hin => absurd hm hin.not_woken) (by simp [view, hm, hpc, roleOf])
      (by simp [view, hm, hpc, roleOf])
  | exit hr hpc =>
    exact h.same hf (by simp) rfl (.inl rfl) (hout (by simp [hpc])) (by simp [view, hr, hpc, roleOf])
      (by simp [view, hr, hpc, roleOf])

/-- the player whose handshake it is reads the clock, and the clock is at 0 -/
theorem Dawn.clocked {s s' : RaceSt} {n : ℕ} {x : Player} (h : Dawn s n) (hcalled : (view s).role x = .called)
    (hf : PlayerStep.Frame x s s') (hm : s'.mode .report = s.mode .report) (hc : s'.mem.clockTick = s.mem.clockTick)
    (hρ : (view s').role x = .timed) : firstTick[n]? = some (.read x s.mem.clockTick) ∧ Dawn s' (n + 1) := by
  have he := h.alone x (by rw [hcalled]; trivial)
  obtain ⟨hclock, -, ⟨hn, -⟩ | ⟨-, ht⟩⟩ := h.stand.engaged he
  · subst hn
    have hclock : s.mem.clockTick = 0 := hclock
    refine ⟨?_, .timed x (hc.trans hclock) ((hf.engaged hm).2 he) (by rw [hρ]; trivial), fun y hy => ?_, fun y hy => ?_⟩
    · rw [hclock]
      cases x <;> rfl
    · have hyx : y ≠ x := by
        intro hyx
        subst hyx
        omega
      exact (hf.others hyx).2 (h.inPlace y (by omega))
    · by_cases hyx : y = x
      · subst hyx
        exact (hf.engaged hm).2 he
      · rw [(hf.others hyx).1] at hy
        exact (hf.engaged hm).2 (h.alone y hy)
  · rw [hcalled] at ht
    exact ht.elim

theorem Dawn.read_step {r : Race} {s s' : RaceSt} {n : ℕ} {x : Player} (h : Dawn s n) (ho : Owned (code r) held s)
    (hs : PlayerStep r x s s') (hp : s.pc (.player x) = .clockRead) :
    firstTick[n]? = some (.read x s.mem.clockTick) ∧ Dawn s' (n + 1) := by
  have hf := hs.frame ho.atWait
  cases hs with
  | clockRead hr hpc =>
    exact h.clocked (by simp [view, hr, hp, roleOf]) hf rfl rfl (by simp [view, hr, roleOf])
  | quiet w hr hq =>
    rw [hp] at hq
    cases hq
  | enter _ hpc | setReached _ hpc | test _ hpc | access _ _ _ _ hpc | drop _ hpc | answer _ hpc | wakeMain _ hpc
  | sleep _ _ hpc | resume _ _ hpc | exit _ hpc => exact absurd (hp.symm.trans hpc) (by simp)

/-! ## Steps of the Reporter -/

theorem ReportStep.Frame.others {s s' : RaceSt} (hf : ReportStep.Frame s s') {x : Player}
    (hm : s'.mode (.player x) = s.mode (.player x)) :
    (view s').role x = (view s).role x ∧ (InPlace s x → InPlace s' x) := by
  have hp : s'.pc (.player x) = s.pc (.player x) := hf.pc _ (by simp)
  exact ⟨view_role hp hm, InPlace.congr hp hm⟩

/-- a step of the Reporter outside of the handshakes, after which the players are as before -/
theorem Dawn.moved {s s' : RaceSt} {m n : ℕ} (h : Dawn s m) (hf : ReportStep.Frame s s')
    (hm : ∀ x : Player, s'.mode (.player x) = s.mode (.player x)) (hidle : ∀ x, ¬ (view s).Engaged x) (hmn : m ≤ n)
    (hst : Stand (view s') n) : Dawn s' n := by
  refine ⟨hst, fun x hx => (hf.others (hm x)).2 (h.inPlace x (hmn.trans hx)), fun x hx => ?_⟩
  rw [(hf.others (hm x)).1] at hx
  exact absurd (h.alone x hx) (hidle x)

/-- the Reporter falls asleep in the handshake of `x` -/
theorem Dawn.awaited {s s' : RaceSt} {n : ℕ} {x : Player} (h : Dawn s n) (hf : ReportStep.Frame s s')
    (hm : ∀ y : Player, s'.mode (.player y) = s.mode (.player y)) (he : (view s).Engaged x) (he' : (view s').Engaged x)
    (hc : s'.mem.clockTick = s.mem.clockTick) : Dawn s' n := by
  obtain ⟨hclock, ha, hn⟩ := h.stand.engaged he
  have hrole := fun y => (hf.others (hm y)).1
  rw [← hrole x] at ha hn
  refine ⟨.of_engaged (hc.trans hclock) he' ha hn, fun y hy => (hf.others (hm y)).2 (h.inPlace y hy), fun y hy => ?_⟩
  rw [hrole y] at hy
  obtain rfl := (h.alone y hy).unique he
  exact he'

theorem ReportPc.between_signal {p : ReportPc} {x : Player} {k : ℕ} {c : ℤ} (hb : p.between = some (k, c))
    (hp : p = .signal x) : k = x.index ∧ c = 0 := by
  subst hp
  cases x with
  | _ =>
    cases hb
    exact ⟨rfl, rfl⟩

/-- the Reporter between two handshakes of the first tick, or at its wait -/
theorem Dawn.report_step {r : Race} {s s' : RaceSt} {n : ℕ} (h : Dawn s n) (hd : r.printingDelay ≠ 0)
    (ho : Owned (code r) held s) (hs : ReportStep r s s') (hr : s.mode .report = .run)
    (hp : ∀ x, s.pc .report ≠ .signal x ∧ s.pc .report ≠ .shutSignal x) : Dawn s' n := by
  have hf := hs.frame ho.atWait
  cases hs with
  | quiet w l _ hq =>
    have hwait : ∀ x, (view s).report ≠ .wait x := by
      intro x he
      have he : s.pc .report = .wait x := he
      rw [he] at hq
      cases hq
    obtain ⟨k, rfl, hb, hw⟩ := h.stand.eq_between hwait
    refine h.moved hf (fun _ => rfl) (View.not_engaged hwait) le_rfl (.between (k := k) hr ?_ rfl hw)
    simp only [view, goto_pc_self]
    exact ReportPc.next_between hd hq hb hw
  | tick _ hpc =>
    have hwait : ∀ x, (view s).report ≠ .wait x := by simp [view, hpc]
    obtain ⟨k, rfl, hb, hw⟩ := h.stand.eq_between hwait
    simp only [view, hpc, ReportPc.between, Option.some.injEq, Prod.mk.injEq] at hb
    obtain ⟨rfl, hc⟩ := hb
    refine h.moved hf (fun _ => rfl) (View.not_engaged hwait) le_rfl (.between (k := 0) (c := 0) hr ?_ ?_ ?_)
    · simp [view, ReportPc.between]
    · simp [view, ← hc]
    · intro hneg
      cases hneg
  | @await x w _ hpc =>
    exact h.awaited hf (fun y => by simp) ⟨hpc, .inl hr⟩ ⟨hpc, .inr (by simp [view])⟩ rfl
  | resume w hm hpc =>
    rw [hr] at hm
    cases hm
  | exit _ hpc =>
    obtain ⟨k, -, hb, -⟩ := h.stand.eq_between (by simp [view, hpc])
    simp [view, hpc, ReportPc.between] at hb
  | miss _ hpc | call _ hpc => exact absurd hpc (hp _).1
  | dismissMiss _ hpc | dismiss _ hpc => exact absurd hpc (hp _).2

/-- the Reporter sends its first signal to `x` -/
theorem Dawn.at_signal {s : RaceSt} {n : ℕ} {x : Player} (h : Dawn s n)
    (hp : s.pc .report = .signal x ∨ s.pc .report = .shutSignal x) :
    n = 3 * x.index ∧ s.pc .report = .signal x ∧ s.mem.clockTick = 0 ∧ ∀ y, ¬ (view s).Engaged y := by
  have hwait : ∀ y, (view s).report ≠ .wait y := by
    intro y
    rcases hp with hp | hp
    · simp [view, hp]
    · simp [view, hp]
  obtain ⟨k, rfl, hb, -⟩ := h.stand.eq_between hwait
  rcases hp with hp | hp
  · obtain ⟨rfl, hc⟩ := ReportPc.between_signal hb hp
    exact ⟨rfl, hp, hc, View.not_engaged hwait⟩
  · simp [view, hp, ReportPc.between] at hb

/-- **No first signal is lost.** -/
theorem Dawn.not_missed {r : Race} {s : RaceSt} {n : ℕ} {x : Player} (h : Dawn s n) (ho : Owned (code r) held s)
    (hr : s.mode .report = .run) (hp : s.pc .report = .signal x ∨ s.pc .report = .shutSignal x) :
    s.mode (.player x) = .waiting (.reporterToPlayer x) := by
  obtain ⟨hn, hpc, -, -⟩ := h.at_signal hp
  exact (h.inPlace x hn.le).waits ho hr hpc

theorem Dawn.call_step {r : Race} {s s' : RaceSt} {n : ℕ} {x : Player} (h : Dawn s n) (ho : Owned (code r) held s)
    (hs : ReportStep r s s') (hr : s.mode .report = .run)
    (hp : s.pc .report = .signal x ∨ s.pc .report = .shutSignal x) :
    firstTick[n]? = some (.woken .report x) ∧ Dawn s' (n + 1) := by
  have hx := h.not_missed ho hr hp
  obtain ⟨rfl, hpc, hc, hidle⟩ := h.at_signal hp
  cases hs with
  | @call y u _ hpy hu =>
    obtain rfl : x = y := ReportPc.signal.inj (hpc.symm.trans hpy)
    obtain ⟨rfl, -⟩ := waits_on ho.atWait hu
    refine ⟨by cases x <;> rfl, ?_, fun y hy => ?_, fun y hy => ?_⟩
    · rw [view_call]
      exact .called x hc ⟨rfl, .inl hr⟩ (by simp [Role.Awake]) (by simp [Role.Timed])
    · have hyx : y ≠ x := by
        intro hyx
        subst hyx
        omega
      apply (h.inPlace y (by omega)).congr
      · simp [goto_pc_of_ne]
      · simp [hyx]
    · rw [view_call] at hy ⊢
      by_cases hyx : y = x
      · subst hyx
        exact ⟨rfl, .inl hr⟩
      · simp only [View.become, Function.update_of_ne hyx] at hy
        exact absurd (h.alone y hy) (hidle y)
  | @miss y _ hpy hn =>
    obtain rfl : x = y := ReportPc.signal.inj (hpc.symm.trans hpy)
    exact absurd hx (hn _)
  | quiet w l _ hq =>
    rw [hpc] at hq
    cases hq
  | tick _ hpy | await _ _ hpy | resume _ _ hpy | dismissMiss _ hpy | dismiss _ hpy | exit _ hpy =>
    exact absurd (hpc.symm.trans hpy) (by simp)

/-- the Reporter returns from its wait, and the handshake of `x` is over -/
theorem Dawn.return_step {r : Race} {s s' : RaceSt} {n : ℕ} {x : Player} (h : Dawn s n) (ho : Owned (code r) held s)
    (hs : ReportStep r s s') (hm : s.mode .report = .woken) (hp : s.pc .report = .wait x) :
    firstTick[n]? = some (.returned x s.mem.clockTick) ∧ (Dawn s' (n + 1) ∨ n + 1 = firstTick.length) := by
  have hf := hs.frame ho.atWait
  have hidle : ∀ y, ¬ (view s).Engaged y := fun y he => he.not_woken hm
  have hn : n = 3 * x.index + 2 ∧ s.mem.clockTick = 0 := by
    cases h.stand with
    | between hr _ _ _ =>
      rw [show (view s).reportMode = .woken from hm] at hr
      cases hr
    | called y _ he | timed y _ he => exact absurd he (hidle y)
    | answered y hc hpy _ =>
      obtain rfl : x = y := ReportPc.wait.inj (hp.symm.trans hpy)
      exact ⟨rfl, hc⟩
  obtain ⟨rfl, hc⟩ := hn
  refine ⟨by rw [hc]; cases x <;> rfl, ?_⟩
  cases hs with
  | @resume y w _ hpy =>
    obtain rfl : x = y := ReportPc.wait.inj (hp.symm.trans hpy)
    cases x with
    | randomizer =>
      refine .inl (h.moved hf (fun _ => by simp) hidle (Nat.le_succ _) ?_)
      exact .between (k := 1) (c := 0) (by simp [view]) (by simp [view, ReportPc.between]) hc (by simp)
    | turtle =>
      refine .inl (h.moved hf (fun _ => by simp) hidle (Nat.le_succ _) ?_)
      exact .between (k := 2) (c := 0) (by simp [view]) (by simp [view, ReportPc.between]) hc (by simp)
    | hare => exact .inr rfl
  | quiet _ _ hr | tick hr | miss hr | call hr | await _ hr | dismissMiss hr | dismiss hr | exit hr =>
    rw [hm] at hr
    cases hr

/-! ## Runs -/

/-- **One step of the first tick.** It is not seen, or it is the next event. -/
theorem Dawn.next {r : Race} {s s' : RaceSt} {n : ℕ} {e : Option Event} (h : Dawn s n) (hd : r.printingDelay ≠ 0)
    (hst : Startup r s) (ho : Owned (code r) held s) (hs : Observed r s s' e) :
    (e = none ∧ Dawn s' n) ∨
      ∃ a, e = some a ∧ firstTick[n]? = some a ∧ (Dawn s' (n + 1) ∨ n + 1 = firstTick.length) := by
  cases hs with
  | main hs => exact .inl ⟨rfl, h.main_step hst hs⟩
  | player x hs hp => exact .inl ⟨rfl, h.player_step hst ho hs hp⟩
  | report hs hr hp => exact .inl ⟨rfl, h.report_step hd ho hs hr hp⟩
  | read x hs hp =>
    obtain ⟨h1, h2⟩ := h.read_step ho hs hp
    exact .inr ⟨_, rfl, h1, .inl h2⟩
  | woken x hs hr hp hu =>
    obtain ⟨h1, h2⟩ := h.call_step ho hs hr hp
    exact .inr ⟨_, rfl, h1, .inl h2⟩
  | returned x hs hm hp =>
    obtain ⟨h1, h2⟩ := h.return_step ho hs hm hp
    exact .inr ⟨_, rfl, h1, h2⟩
  | missed x hs hr hp hn => exact absurd (h.not_missed ho hr hp) (hn _)

/-- before the Reporter is created nothing is seen -/
theorem Opening.unseen {r : Race} {s s' : RaceSt} {e : Option Event} (h : Opening r s) (hu : s.mode .report = .unborn)
    (hs : Observed r s s' e) : e = none := by
  cases hs with
  | main hs => rfl
  | player x hs hp => rfl
  | report hs hr hp => rfl
  | read x hs hp =>
    have hplace := ((h.arrivals hu).player x).place
    simp [hp, PlayerPc.stage] at hplace
  | missed x hs hr hp hn => simp [hu] at hr
  | woken x hs hr hp hx => simp [hu] at hr
  | returned x hs hm hp => simp [hu] at hm

/-- the first tick begins when the Reporter is created -/
theorem dawn {r : Race} {s s' : RaceSt} {o : Op Thread} (h : Opening r s) (hns : NoSpurious s o)
    (hs : step (code r) s o = some s') (hu : s.mode .report = .unborn) (hb : s'.mode .report ≠ .unborn) : Dawn s' 0 := by
  have hf := h.startup.fresh hu
  obtain ⟨hv, -⟩ := create_report_view h.owned hu (race_step hns hs) hb
  refine ⟨?_, fun x _ => in_place h hns hs hu hb x, fun x hx => ?_⟩
  · rw [hv]
    refine .between (k := 0) (c := -1) rfl ?_ hf.clock fun _ => ?_
    · simp [view, hf.report, ReportPc.between]
    · simp [view, hf.noWinner]
  · rw [hv] at hx
    exact absurd hx (hf.role x)

/-- **The first tick is not stuck.** The player that the Reporter waits for has been woken. -/
theorem Dawn.live {r : Race} {s : RaceSt} {n : ℕ} (h : Dawn s n) (hst : Startup r s) (ho : Owned (code r) held s) :
    ∃ t, Enabled (code r) s t := by
  by_contra hno
  push Not at hno
  have hstuck : ∀ t, t ≠ .main → s.mode t = .exited ∨ ∃ c, s.mode t = .waiting c := fun t =>
    stuck_cases hst ho h.alive.1 fun t _ => hno t
  rcases hstuck .report (by simp) with e | ⟨c, e⟩
  · exact h.alive.2 e
  · have hw := waits_on ho.atWait e
    cases c with
    | playerToReporter x =>
      have hawake := (h.stand.engaged (x := x) ⟨hw.2, .inr e⟩).2.1
      rcases hstuck (.player x) (by simp) with e' | ⟨c, e'⟩
      · simp [view, e', roleOf, Role.Awake] at hawake
      · simp [view, e', roleOf, Role.Awake] at hawake
    | _ => cases hw.1

/-- a state of the race and the record of its run, up to the end of the first tick and beyond -/
inductive Morning (s : RaceSt) (l : List Event) : Prop
  | before (hu : s.mode .report = .unborn) (hl : l = [])
  | during (n : ℕ) (hd : Dawn s n) (hl : l = firstTick.take n)
  | after (hl : firstTick <+: l)

theorem Morning.next {r : Race} {s s' : RaceSt} {l : List Event} {o : Op Thread} (h : Morning s l)
    (hd : r.printingDelay ≠ 0) (hk : Opening r s) (hns : NoSpurious s o) (hs : step (code r) s o = some s') :
    Morning s' (l ++ (event s o).toList) := by
  have hseen := observed hk.owned hns hs
  cases h with
  | before hu hl =>
    rw [hl, hk.unseen hu hseen]
    by_cases hb : s'.mode .report = .unborn
    · exact .before hb rfl
    · exact .during 0 (dawn hk hns hs hu hb) rfl
  | during n hdawn hl =>
    rcases hdawn.next hd hk.startup hk.owned hseen with ⟨he, hnext⟩ | ⟨a, he, ha, hnext⟩
    · rw [he]
      exact .during n hnext (by simpa using hl)
    · have htake : l ++ (event s o).toList = firstTick.take (n + 1) := by
        rw [hl, he, List.take_add_one, ha]
      rw [htake]
      rcases hnext with hnext | hend
      · exact .during (n + 1) hnext rfl
      · exact .after (by rw [hend, List.take_length])
  | after hl => exact .after (hl.trans (List.prefix_append _ _))

theorem morning {r : Race} (hd : r.printingDelay ≠ 0) {s : RaceSt} {l : List Event} (h : Recording r s l) :
    Morning s l :=
  h.invariant (.before rfl rfl) fun _ _ _ _ hrec hm hns hs => hm.next hd (opening hrec.reach) hns hs

/-! ## Main result -/

theorem Morning.record {s : RaceSt} {l : List Event} (h : Morning s l) : l <+: firstTick ∨ firstTick <+: l := by
  cases h with
  | before hu hl => exact .inl (hl ▸ List.nil_prefix)
  | during n hd hl => exact .inl (hl ▸ List.take_prefix n firstTick)
  | after hl => exact .inr hl

/-- the events before one that is not of the first tick contain the first tick -/
theorem firstTick_before {l₁ l₂ : List Event} {a : Event} (ha : a ∉ firstTick)
    (h : l₁ ++ a :: l₂ <+: firstTick ∨ firstTick <+: l₁ ++ a :: l₂) : firstTick <+: l₁ := by
  have hmem : ∀ l, l₁ ++ a :: l <+: firstTick → False := fun l hl => ha (hl.subset (by simp))
  rcases h with h | h
  · exact (hmem l₂ h).elim
  · have hfirst : l₁ ++ [a] <+: l₁ ++ a :: l₂ := by simp
    rcases List.prefix_or_prefix_of_prefix h hfirst with hp | hp
    · rcases List.prefix_concat_iff.1 hp with he | hp
      · exact absurd (by rw [he]; simp) ha
      · exact hp
    · exact (hmem [] hp).elim

/-- the first tick ends with the Reporter's return from its wait for the Hare -/
theorem firstTick_end {l : List Event} (hl : .returned .hare 0 ∉ l)
    (h : l ++ [.returned .hare 0] <+: firstTick ∨ firstTick <+: l ++ [.returned .hare 0]) :
    l ++ [.returned .hare 0] = firstTick := by
  have hfull : firstTick = firstTick.take 8 ++ [.returned .hare 0] := rfl
  rcases h with h | h
  · rw [hfull] at h
    rcases List.prefix_concat_iff.1 h with he | hp
    · exact he.trans hfull.symm
    · have hmem : Event.returned .hare 0 ∈ firstTick.take 8 := hp.subset (by simp)
      exact absurd hmem (by decide)
  · rcases List.prefix_concat_iff.1 h with he | hp
    · exact he.symm
    · exact absurd (hp.subset (by decide)) hl

/-- **The start-up handshake loses no first signal.** In every run without spurious wake-ups: before the Reporter is
created some thread can move; when it is created each player owns the lock of its handshake and is about to wait for
the Reporter, or waits already. Every state that is reached has a record of what has been seen on the way, and in each:
a signal of the Reporter to a player is lost only after one that has woken this player; before the Reporter returns from
its wait for the Hare in tick 0 some thread can move; and when it returns, what has been seen is that each player was
woken once, in the order of the handshakes, and has read the clock at 0. -/
theorem first_signals (r : Race) (hd : 0 < r.printingDelay.toInt) :
    (∀ s, ReachIf (step (code r)) NoSpurious initial s → s.mode .report = .unborn → ∃ t, Enabled (code r) s t) ∧
    (∀ s o s', ReachIf (step (code r)) NoSpurious initial s → NoSpurious s o → step (code r) s o = some s' →
      s.mode .report = .unborn → s'.mode .report ≠ .unborn → ∀ x,
      s'.owner (.playerReporter x) = some (.player x) ∧ s'.mode (.player x) = .run ∧ s'.pc (.player x) = .wait ∨
        s'.mode (.player x) = .waiting (.reporterToPlayer x)) ∧
    (∀ s, ReachIf (step (code r)) NoSpurious initial s → ∃ l, Recording r s l) ∧
    ∀ s l, Recording r s l →
      (∀ x l₁ l₂, l = l₁ ++ .missed x :: l₂ → .woken .report x ∈ l₁) ∧
      (.returned .hare 0 ∉ l → ∃ t, Enabled (code r) s t) ∧
      ∀ l₁, .returned .hare 0 ∉ l₁ → l = l₁ ++ [.returned .hare 0] → l = firstTick := by
  have hd' : r.printingDelay ≠ 0 := by
    intro he
    simp [he] at hd
  refine ⟨fun s hs hu => init_live (opening hs) hu, ?_, fun s hs => hs.recorded, fun s l hrec => ⟨?_, fun hl => ?_, ?_⟩⟩
  · intro s o s' hreach hns hs hu hb x
    have hk := opening hreach
    have hin := in_place hk hns hs hu hb x
    refine hin.2.imp_left fun hrun => ⟨?_, hrun, hin.1⟩
    have ho' := (disciplined r).owned_step hk.owned (step_move hs)
    rw [ho'.owner]
    exact ⟨hrun, by rw [hin.1]; simp [held, playerHeld]⟩
  · intro x l₁ l₂ hl
    subst hl
    have hfirst := firstTick_before (by cases x <;> decide) (morning hd' hrec).record
    exact hfirst.subset (by cases x <;> decide)
  · have hk := opening hrec.reach
    cases morning hd' hrec with
    | before hu _ => exact init_live hk hu
    | during n hdawn _ => exact hdawn.live hk.startup hk.owned
    | after hfirst => exact absurd (hfirst.subset (by decide)) hl
  · intro l₁ hl hend
    subst hend
    exact firstTick_end hl (morning hd' hrec).record

/-- the first tick of a race that goes on, up to the Reporter's return from its wait for the Hare -/
def firstTickTrace : List (Op Thread) :=
  initTrace ++ steps .report 4 ++ handshakeTrace .randomizer 0 5 ++ steps .report 1 ++ handshakeTrace .turtle 5 5 ++
    (handshakeTrace .hare 11 5).dropLast

theorem first_signals_example : ∃ s l, Recording ⟨1, 1, 1, 1, 1, 100, []⟩ s l ∧ l = firstTick := by
  have hsome : (runIf (step (code ⟨1, 1, 1, 1, 1, 100, []⟩)) solicited initial firstTickTrace).isSome := by
    decide +kernel
  have hlast : record (step (code ⟨1, 1, 1, 1, 1, 100, []⟩)) event initial firstTickTrace =
      firstTick.take 8 ++ [.returned .hare 0] := by decide +kernel
  obtain ⟨s, hrun⟩ := Option.isSome_iff_exists.1 hsome
  have hrec : Recording ⟨1, 1, 1, 1, 1, 100, []⟩ s ([] ++ record _ event initial firstTickTrace) :=
    Recorded.of_runIf noSpurious_of_solicited .init hrun
  rw [List.nil_append, hlast] at hrec
  have h := first_signals ⟨1, 1, 1, 1, 1, 100, []⟩ (by decide)
  exact ⟨s, _, hrec, (h.2.2.2 s _ hrec).2.2 (firstTick.take 8) (by decide) rfl⟩

end DecsLabs.HareTortoise
