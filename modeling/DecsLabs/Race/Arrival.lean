/-
The start of the race up to the creation of the Reporter. `main` creates a player and waits until the player says that it
holds the lock of its handshake; the flag and the condition variable for this are guarded by the lock that `main` and the
player share, and the player takes the lock of its handshake before it signals.

- `Arriving`: how far a player has come on the way to its first wait, and what `main` knows of it. `main` goes on
  only when the player stands at its wait.
- `opening`: `Arriving` in every state that is reached before the Reporter is created, whichever of `main` and the
  new thread comes first to their lock.
- `init_live`: until then some thread can move.
- `in_place`: when the Reporter is created, each player owns the lock of its handshake and is about to wait, or waits.

Nothing is assumed of the race; waits return only after a signal.
-/
import DecsLabs.Race.Refinement

namespace DecsLabs.HareTortoise

open DecsLabs.Transition DecsLabs.Pthread

/-! ## The way to the first wait -/

/-- how far a player has come to its first wait -/
def PlayerPc.stage {x : Player} : PlayerPc x → ℕ
  | .enter => 0
  | .loopTest => 1
  | .reachedTest => 2
  | .mainAcquire => 3
  | .setReached => 4
  | .firstAcquire => 5
  | .mainSignal => 6
  | .mainRelease => 7
  | .wait => 8
  | _ => 9

theorem PlayerPc.eq_wait {x : Player} {p : PlayerPc x} (h : p.stage = 8) : p = .wait := by
  cases p <;> simp [stage] at h ⊢

/-- on the way from the flag to the signal a player holds the lock that it shares with `main` -/
theorem PlayerPc.main_held {x : Player} {p : PlayerPc x} (h4 : 4 ≤ p.stage) (h7 : p.stage ≤ 7) :
    Lock.playerMain x ∈ playerHeld x p := by
  cases p <;> simp [stage, playerHeld] at h4 h7 ⊢

/-- `x` owns the lock of its handshake and is about to wait, or waits -/
def InPlace (s : RaceSt) (x : Player) : Prop :=
  s.pc (.player x) = .wait ∧ (s.mode (.player x) = .run ∨ s.mode (.player x) = .waiting (.reporterToPlayer x))

theorem InPlace.congr {s s' : RaceSt} {x : Player} (hp : s'.pc (.player x) = s.pc (.player x))
    (hm : s'.mode (.player x) = s.mode (.player x)) (h : InPlace s x) : InPlace s' x :=
  ⟨hp.trans h.1, h.2.imp hm.trans hm.trans⟩

theorem InPlace.not_woken {s : RaceSt} {x : Player} (h : InPlace s x) : s.mode (.player x) ≠ .woken := by
  rcases h.2 with e | e <;> simp [e]

structure Arriving (s : RaceSt) (x : Player) : Prop where
  place : (s.pc (.player x) : PlayerPc x).stage ≤ 8
  reached : s.mem.reached x ≠ 0 ↔ 5 ≤ (s.pc (.player x) : PlayerPc x).stage
  mode : s.mode (.player x) = .unborn ∨ s.mode (.player x) = .run ∨ InPlace s x
  /-- `main` goes on only when `x` is in its place -/
  passed : 5 * x.index + 5 ≤ (s.pc .main).stage → 8 ≤ (s.pc (.player x) : PlayerPc x).stage
  woken : s.pc .main = .wait x → s.mode .main = .woken → 7 ≤ (s.pc (.player x) : PlayerPc x).stage
  /-- the signal of `x` is still to come -/
  sleeping : s.pc .main = .wait x → s.mode .main ≠ .woken → (s.pc (.player x) : PlayerPc x).stage ≤ 6

structure Arrivals (s : RaceSt) : Prop where
  player : ∀ x, Arriving s x
  alive : s.mode .main ≠ .exited

theorem initial_arrivals : Arrivals initial := by
  refine ⟨fun x => ⟨?_, ?_, .inl rfl, ?_, ?_, ?_⟩, by simp [initial]⟩
  · exact Nat.zero_le 8
  · simp [initial, PlayerPc.stage]
  · intro hm
    simp [initial, MainPc.stage] at hm
  · intro hm
    cases hm
  · intro hm
    cases hm

/-- a player on its way between two stages runs -/
theorem Arriving.running {r : Race} {s : RaceSt} {x : Player} (h : Arriving s x) (hst : Startup r s)
    (h1 : 1 ≤ (s.pc (.player x) : PlayerPc x).stage) (h7 : (s.pc (.player x) : PlayerPc x).stage ≤ 7) :
    s.mode (.player x) = .run := by
  rcases h.mode with hm | hm | hm
  · simp [hst.unborn x hm, PlayerPc.stage] at h1
  · exact hm
  · simp [hm.1, PlayerPc.stage] at h7

/-- while `main` holds the lock that it shares with `x`, that player is not between its flag and its signal -/
theorem main_excludes {r : Race} {s : RaceSt} {x : Player} (ho : Owned (code r) held s) (hr : s.mode .main = .run)
    (hm : Lock.playerMain x ∈ mainHeld (s.pc .main)) (hx : s.mode (.player x) = .run)
    (h4 : 4 ≤ (s.pc (.player x) : PlayerPc x).stage) : 8 ≤ (s.pc (.player x) : PlayerPc x).stage := by
  by_contra h8
  have hheld : Lock.playerMain x ∈ held (.player x) (s.pc (.player x)) := PlayerPc.main_held h4 (by omega)
  cases ho.unique hr hm hx hheld

/-! ## Steps of a player -/

theorem PlayerPc.next_stage {x : Player} {m : Mem} {p q : PlayerPc x} (h : p.next m = some q) (hp : p.stage ≤ 8)
    (hw : m.track.noWinner ≠ 0) (hr : m.reached x ≠ 0 ↔ 5 ≤ p.stage) :
    q.stage = p.stage + 1 ∧ q.stage ≤ 8 ∧ (m.reached x ≠ 0 ↔ 5 ≤ q.stage) := by
  cases p with
  | loopTest =>
    simp only [next, hw, ne_eq, not_false_eq_true, if_true, Option.some.injEq] at h
    subst h
    simpa [stage] using hr
  | reachedTest =>
    have hzero : m.reached x = 0 := by simpa [stage] using hr
    simp only [next, hzero, if_true, Option.some.injEq] at h
    subst h
    simp [stage, hzero]
  | mainAcquire | firstAcquire | mainSignal | mainRelease =>
    cases h
    simpa [stage] using hr
  | acquire | clockAcquire | clockRelease | release => simp [stage] at hp
  | _ => simp [next] at h

/-- what a step of an arriving player does to it -/
structure Advance (x : Player) (s s' : RaceSt) : Prop where
  place : (s'.pc (.player x) : PlayerPc x).stage ≤ 8
  le : (s.pc (.player x) : PlayerPc x).stage ≤ (s'.pc (.player x) : PlayerPc x).stage
  /-- no stage is skipped -/
  next : (s'.pc (.player x) : PlayerPc x).stage ≤ (s.pc (.player x) : PlayerPc x).stage + 1
  reached : s'.mem.reached x ≠ 0 ↔ 5 ≤ (s'.pc (.player x) : PlayerPc x).stage
  mode : s'.mode (.player x) = .run ∨ InPlace s' x
  signal : s.pc (.player x) = .mainSignal → s'.pc (.player x) = .mainRelease

theorem Arriving.advance {r : Race} {s s' : RaceSt} {x : Player} (h : Arriving s x) (hw : s.mem.track.noWinner ≠ 0)
    (hs : PlayerStep r x s s') : Advance x s s' := by
  have hreached := h.reached
  have hplace := h.place
  cases hs with
  | quiet w hr hq =>
    obtain ⟨h1, h2, h3⟩ := PlayerPc.next_stage hq hplace hw hreached
    refine ⟨?_, ?_, ?_, ?_, .inl hr, fun hp => ?_⟩
    · simpa using h2
    · simp [h1]
    · simp [h1]
    · simpa using h3
    · rw [hp] at hq
      cases hq
      exact goto_pc_self ..
  | enter hr hp =>
    simp only [hp, PlayerPc.stage] at hreached
    exact ⟨by simp [PlayerPc.stage], by simp [hp, PlayerPc.stage], by simp [hp, PlayerPc.stage],
      by simpa [PlayerPc.stage] using hreached, .inl hr, by simp [hp]⟩
  | setReached hr hp =>
    exact ⟨by simp [PlayerPc.stage], by simp [hp, PlayerPc.stage], by simp [hp, PlayerPc.stage], by simp [PlayerPc.stage],
      .inl hr, by simp [hp]⟩
  | @wakeMain u hr hp hu =>
    have hne : Thread.player x ≠ u := by
      intro he
      rw [← he, hr] at hu
      cases hu
    simp only [hp, PlayerPc.stage] at hreached
    exact ⟨by simp [PlayerPc.stage], by simp [hp, PlayerPc.stage], by simp [hp, PlayerPc.stage],
      by simpa [PlayerPc.stage] using hreached, .inl (by simp [Function.update_of_ne hne, hr]), by simp⟩
  | sleep w hr hp => exact ⟨hplace, le_rfl, Nat.le_succ _, hreached, .inr ⟨hp, .inr (by simp)⟩, by simp [hp]⟩
  | resume w hm hp =>
    rcases h.mode with e | e | e
    · rw [hm] at e; cases e
    · rw [hm] at e; cases e
    · exact absurd hm e.not_woken
  | clockRead hr hp | test hr hp | access _ _ _ hr hp | drop hr hp | answer hr hp | exit hr hp =>
    simp [hp, PlayerPc.stage] at hplace

/-- A player that has signalled leaves `main` awake: only `main` waits on that condition. -/
theorem main_signalled {r : Race} {s s' : RaceSt} {o : Op Thread} {x : Player} (ho : Owned (code r) held s)
    (hs : step (code r) s o = some s') (hp : s.pc (.player x) = .mainSignal) (hp' : s'.pc (.player x) = .mainRelease) :
    s'.mode .main ≠ .waiting (.playerMain x) := by
  have hone : ∀ u v, s.mode u = .waiting (.playerMain x) → s.mode v = .waiting (.playerMain x) → u = v := by
    intro u v hu hv
    rw [(waits_on ho.atWait hu).1, (waits_on ho.atWait hv).1]
  exact (step_move hs).signalled (t := .player x) (by rw [hp]; rfl) (by simp [hp, hp']) hone _

/-- `main` is where it waits for `x` and has not been woken: it is asleep or about to be -/
theorem main_waits {r : Race} {s : RaceSt} {x : Player} (ho : Owned (code r) held s) (hst : Startup r s)
    (halive : s.mode .main ≠ .exited) (hp : s.pc .main = .wait x) (hm : s.mode .main ≠ .woken) :
    s.mode .main = .run ∨ s.mode .main = .waiting (.playerMain x) := by
  cases hmode : s.mode .main with
  | unborn => exact absurd hmode hst.main
  | run => exact .inl rfl
  | woken => exact absurd hmode hm
  | exited => exact absurd hmode halive
  | waiting c =>
    have hw := waits_on ho.atWait hmode
    cases c with
    | playerMain y =>
      obtain rfl : x = y := MainPc.wait.inj (hp.symm.trans hw.2)
      exact .inr rfl
    | _ => cases hw.1

/-- a step that leaves `y` alone, and `main` if it waits for `y` -/
theorem Arriving.frame {s s' : RaceSt} {y : Player} (h : Arriving s y) (hp : s'.pc (.player y) = s.pc (.player y))
    (hm : s'.mode (.player y) = s.mode (.player y)) (hr : s'.mem.reached y = s.mem.reached y)
    (hpm : s'.pc .main = s.pc .main) (hmain : s.pc .main = .wait y → s'.mode .main = s.mode .main) :
    Arriving s' y := by
  refine ⟨hp ▸ h.place, ?_, ?_, ?_, ?_, ?_⟩
  · rw [hp, hr]
    exact h.reached
  · rw [hm]
    exact h.mode.imp_right fun hmode => hmode.imp_right fun hin => hin.congr hp hm
  · rw [hpm, hp]
    exact h.passed
  · intro hw
    rw [hpm] at hw
    rw [hp, hmain hw]
    exact h.woken hw
  · intro hw
    rw [hpm] at hw
    rw [hp, hmain hw]
    exact h.sleeping hw

theorem Arriving.player_step {r : Race} {s s' : RaceSt} {o : Op Thread} {x : Player} (h : Arriving s x)
    (ho : Owned (code r) held s) (hw : s.mem.track.noWinner ≠ 0) (hs : step (code r) s o = some s')
    (hstep : PlayerStep r x s s') (ho' : Owned (code r) held s') (hst' : Startup r s')
    (halive : s'.mode .main ≠ .exited) : Arriving s' x := by
  have hf := hstep.frame ho.atWait
  have hpc : s'.pc .main = s.pc .main := hf.pc _ (by simp)
  have ha := h.advance hw hstep
  -- outside of its signal the player leaves `main` alone
  have hmain : s.pc (.player x) ≠ .mainSignal → s'.mode .main = s.mode .main := by
    intro hp
    exact hf.main.resolve_right fun hm => hp hm.1
  refine ⟨ha.place, ha.reached, .inr ha.mode, ?_, ?_, ?_⟩
  · intro hm
    rw [hpc] at hm
    exact (h.passed hm).trans ha.le
  · intro hm hwk
    by_cases hp : s.pc (.player x) = .mainSignal
    · rw [ha.signal hp]
      exact le_rfl
    · rw [hpc] at hm
      exact (h.woken hm (hmain hp ▸ hwk)).trans ha.le
  · intro hm hwk
    by_cases hp : s.pc (.player x) = .mainSignal
    · -- `main` would have to sleep on after the signal, or to hold the lock that the player holds
      exfalso
      have hp' := ha.signal hp
      rcases main_waits ho' hst' halive hm hwk with hrun | hwait
      · have hx : s'.mode (.player x) = .run := by
          apply ha.mode.resolve_right
          intro hin
          exact absurd (hp'.symm.trans hin.1) (by simp)
        have h8 := main_excludes ho' hrun (by rw [hm]; simp [mainHeld]) hx (by simp [hp', PlayerPc.stage])
        rw [hp'] at h8
        simp [PlayerPc.stage] at h8
      · exact main_signalled ho hs hp hp' hwait
    · rw [hpc] at hm
      have hle := h.sleeping hm (hmain hp ▸ hwk)
      have hne : (s.pc (.player x) : PlayerPc x).stage ≠ 6 := by
        intro h6
        apply hp
        revert h6
        cases s.pc (.player x) <;> simp [PlayerPc.stage]
      have := ha.next
      omega

theorem Arrivals.player_step {r : Race} {s s' : RaceSt} {o : Op Thread} {x : Player} (h : Arrivals s)
    (ho : Owned (code r) held s) (hw : s.mem.track.noWinner ≠ 0) (hs : step (code r) s o = some s')
    (hstep : PlayerStep r x s s') (ho' : Owned (code r) held s') (hst' : Startup r s') : Arrivals s' := by
  have hf := hstep.frame ho.atWait
  have halive : s'.mode .main ≠ .exited := by
    rcases hf.main with hm | ⟨-, -, hm⟩
    · rw [hm]
      exact h.alive
    · simp [hm]
  refine ⟨fun y => ?_, halive⟩
  by_cases hyx : y = x
  · subst hyx
    exact (h.player y).player_step ho hw hs hstep ho' hst' halive
  · apply (h.player y).frame (hf.pc _ (by simp [hyx])) (hf.mode _ (by simp [hyx]) (by simp) (by simp))
    · exact (hf.reached y).resolve_right fun hr => hyx hr.1
    · exact hf.pc _ (by simp)
    · intro hp
      exact hf.main.resolve_right fun hm => hyx (MainPc.wait.inj (hp.symm.trans hm.2.1))

/-! ## Steps of `main` -/

theorem MainPc.next_wait {m : Mem} {p : MainPc} {x : Player} (h : p.next m = some (.wait x)) : m.reached x = 0 := by
  unfold next at h
  split at h <;> simp only [Option.some.injEq, reduceCtorEq] at h
  split_ifs at h with hr
  cases h
  exact hr

/-- `main` goes on only when `x` is at its wait -/
theorem Arriving.main_passed {r : Race} {s s' : RaceSt} {x : Player} (h : Arriving s x) (ho : Owned (code r) held s)
    (hst : Startup r s) (ho' : Owned (code r) held s') (hs : MainStep s s')
    (hm : 5 * x.index + 5 ≤ (s'.pc .main).stage) (hbefore : (s.pc .main).stage ≤ 16) :
    8 ≤ (s.pc (.player x) : PlayerPc x).stage := by
  have hf := hs.frame
  have hmode : ∀ y : Player, 1 ≤ (s.pc (.player y) : PlayerPc y).stage → s'.mode (.player y) = s.mode (.player y) := by
    intro y hy
    refine (hf.mode _ (by simp)).resolve_right fun hnew => ?_
    simp [hst.unborn y hnew.1, PlayerPc.stage] at hy
  cases hs with
  | quiet w li ci hr hq =>
    rcases (MainPc.next_stage hq).1 x (by simpa using hm) with hb | ⟨hp, hreached⟩
    · exact h.passed hb
    · have h5 := h.reached.1 hreached
      by_contra h8
      have hx := h.running hst (by omega) (by omega)
      exact h8 (main_excludes ho hr (by rw [hp]; simp [mainHeld]) hx (by omega))
  | create hr hp ht =>
    apply h.passed
    rcases create_cases hp with ⟨y, hpy, -, rfl⟩ | ⟨hpy, -, -⟩
    · simp only [goto_pc_self, MainPc.stage] at hm
      simp only [hpy, MainPc.stage]
      omega
    · have := x.index_lt
      simp only [hpy, MainPc.stage]
      omega
  | join hr hp ht =>
    have := (join_cases hp).1
    omega
  | sleep w hr hp => exact h.passed hm
  | @resume y w hwk hp =>
    by_cases hxy : x = y
    · subst hxy
      have h7 := h.woken hp hwk
      by_contra h8
      have hx := h.running hst (by omega) (by omega)
      -- `main` has its lock back, so the player has released it
      have hge := main_excludes (x := x) ho' (by simp) (by simp [mainHeld]) ((hmode x (by omega)).trans hx)
        (by simpa [goto_pc_of_ne] using (by omega : 4 ≤ (s.pc (.player x) : PlayerPc x).stage))
      exact h8 (by simpa [goto_pc_of_ne] using hge)
    · apply h.passed
      have hne := Player.index_ne hxy
      simp only [goto_pc_self, MainPc.stage] at hm
      simp only [hp, MainPc.stage]
      omega
  | exit hr hp => exact h.passed hm

/-- `main` comes to its wait only when it has read that the player has not set its flag -/
theorem Arriving.main_sleeping {s s' : RaceSt} {x : Player} (h : Arriving s x) (hs : MainStep s s')
    (hm : s'.pc .main = .wait x) : (s.pc (.player x) : PlayerPc x).stage ≤ 6 := by
  cases hs with
  | quiet w li ci hr hq =>
    simp only [goto_pc_self] at hm
    subst hm
    have hzero := MainPc.next_wait hq
    have := h.reached.not.1 (by simp [hzero])
    omega
  | create hr hp ht =>
    simp only [goto_pc_self] at hm
    rcases create_cases hp with ⟨y, -, -, rfl⟩ | ⟨-, -, rfl⟩
    · cases hm
    · cases hm
  | join hr hp ht =>
    simp only [goto_pc_self] at hm
    exact absurd hm ((join_cases hp).2.2.2 x)
  | sleep w hr hp => exact h.sleeping hm (by simp [hr])
  | resume w hwk hp => simp at hm
  | exit hr hp => exact absurd (hp.symm.trans hm) (by simp)

theorem Arrivals.main_step {r : Race} {s s' : RaceSt} (h : Arrivals s) (ho : Owned (code r) held s)
    (hst : Startup r s) (hu : s.mode .report = .unborn) (hs : MainStep s s') (ho' : Owned (code r) held s') :
    Arrivals s' := by
  have hf := hs.frame
  have hbefore := hst.reporter.1 hu
  refine ⟨fun x => ?_, ?_⟩
  · have hx := h.player x
    have hp : s'.pc (.player x) = s.pc (.player x) := hf.pc _ (by simp)
    refine ⟨hp ▸ hx.place, ?_, ?_, ?_, fun _ hwk => absurd hwk hf.woken, fun hm _ => ?_⟩
    · rw [hp, hf.reached]
      exact hx.reached
    · rcases hf.mode (.player x) (by simp) with hm | hm
      · rw [hm]
        exact hx.mode.imp_right fun hmode => hmode.imp_right fun hin => hin.congr hp hm
      · exact .inr (.inl hm.2)
    · intro hm
      rw [hp]
      exact hx.main_passed ho hst ho' hs hm hbefore
    · rw [hp]
      exact hx.main_sleeping hs hm
  · intro he
    obtain ⟨w, hw⟩ := hf.left he
    simp [hw, MainPc.stage] at hbefore

/-! ## Runs -/

/-- what is known of every state without any assumption about the race -/
structure Opening (r : Race) (s : RaceSt) : Prop where
  owned : Owned (code r) held s
  startup : Startup r s
  arrivals : s.mode .report = .unborn → Arrivals s

theorem RaceStep.unborn {r : Race} {s s' : RaceSt} (hw : AtWait (code r) s) (hs : RaceStep r s s') {t : Thread}
    (hu : s'.mode t = .unborn) : s.mode t = .unborn := by
  rcases hs with hm | hr | ⟨x, hp⟩
  · have hf := hm.frame
    by_cases ht : t = .main
    · subst ht
      exact absurd hu hf.born
    · rcases hf.mode t ht with e | e
      · rwa [e] at hu
      · exact e.1
  · exact ((hr.frame hw).unborn t).1 hu
  · exact ((hp.frame hw).unborn t).1 hu

theorem Opening.step {r : Race} {s s' : RaceSt} {o : Op Thread} (h : Opening r s) (hns : NoSpurious s o)
    (hs : step (code r) s o = some s') : Opening r s' := by
  have hstep := race_step hns hs
  have ho' := (disciplined r).owned_step h.owned (step_move hs)
  have hst' := h.startup.step h.owned.atWait hstep
  refine ⟨ho', hst', fun hu' => ?_⟩
  have hu := hstep.unborn h.owned.atWait hu'
  have ha := h.arrivals hu
  rcases hstep with hm | hr | ⟨x, hp⟩
  · exact ha.main_step h.owned h.startup hu hm ho'
  · exact absurd hu (hr.frame h.owned.atWait).alive.1
  · exact ha.player_step h.owned (by simp [(h.startup.fresh hu).noWinner]) hs hp ho' hst'

theorem opening {r : Race} {s : RaceSt} (hs : ReachIf (step (code r)) NoSpurious initial s) : Opening r s :=
  hs.invariant ⟨initial_owned r, initial_startup r, fun _ => initial_arrivals⟩
    fun _ _ _ _ h hns hst => h.step hns hst

/-! ## Main results -/

/-- **`init` is never stuck.** Before the Reporter is created some thread can move. -/
theorem init_live {r : Race} {s : RaceSt} (h : Opening r s) (hu : s.mode .report = .unborn) :
    ∃ t, Enabled (code r) s t := by
  by_contra hno
  push Not at hno
  have ha := h.arrivals hu
  have hbefore := h.startup.reporter.1 hu
  have hfree := unlocked (disciplined r) lockRank_lt h.owned fun u _ _ => hno u
  rcases blocked_unlocked h.owned hfree (hno .main) with e | e | ⟨c, e⟩ | ⟨-, ⟨u, p, e, hb⟩ | ⟨u, p, e, -⟩⟩
  · exact h.startup.main e
  · exact ha.alive e
  · -- `main` waits for a player that has yet to signal, and can move
    have hw := waits_on h.owned.atWait e
    cases c with
    | playerMain x =>
      have hp : s.pc .main = .wait x := hw.2
      have h6 := (ha.player x).sleeping hp (by simp [e])
      have hborn : s.mode (.player x) ≠ .unborn := by
        rw [Ne, h.startup.player x]
        simp only [hp, MainPc.stage]
        omega
      have hrun : s.mode (.player x) = .run := by
        rcases (ha.player x).mode with hm | hm | hm
        · exact absurd hm hborn
        · exact hm
        · simp [hm.1, PlayerPc.stage] at h6
      rcases others_blocked h.owned hfree (by simp) (hno (.player x)) with hm | hm | ⟨c, hm⟩
      · exact hborn hm
      · rw [hrun] at hm
        cases hm
      · rw [hrun] at hm
        cases hm
    | _ => cases hw.1
  · rcases create_cases e with ⟨x, hp, rfl, -⟩ | ⟨hp, rfl, -⟩
    · apply hb
      rw [h.startup.player x]
      simp [hp, MainPc.stage]
    · exact hb hu
  · have := (join_cases e).1
    omega

/-- **The players are in their places** when the Reporter is created. -/
theorem in_place {r : Race} {s s' : RaceSt} {o : Op Thread} (h : Opening r s) (hns : NoSpurious s o)
    (hs : step (code r) s o = some s') (hu : s.mode .report = .unborn) (hb : s'.mode .report ≠ .unborn) (x : Player) :
    InPlace s' x := by
  have hstep := race_step hns hs
  have ha := (h.arrivals hu).player x
  have hp : s.pc (.player x) = .wait := by
    have hcreate : s.pc .main = .createReport := (create_report_view h.owned hu hstep hb).2
    have := x.index_lt
    have h8 := ha.passed (by simp only [hcreate, MainPc.stage]; omega)
    exact PlayerPc.eq_wait (le_antisymm ha.place h8)
  have hborn : s.mode (.player x) ≠ .unborn := by
    intro he
    exact absurd (hp.symm.trans (h.startup.unborn x he)) (by simp)
  have hin : InPlace s x := by
    rcases ha.mode with hm | hm | hm
    · exact absurd hm hborn
    · exact ⟨hp, .inl hm⟩
    · exact hm
  -- the step is that of `main`, which has created the players before
  rcases hstep with hm | hr | ⟨y, hy⟩
  · have hf := hm.frame
    exact hin.congr (hf.pc _ (by simp)) ((hf.mode _ (by simp)).resolve_right fun hnew => hborn hnew.1)
  · exact absurd hu (hr.frame h.owned.atWait).alive.1
  · exact absurd (((hy.frame h.owned.atWait).unborn _).2 hu) hb

end DecsLabs.HareTortoise
