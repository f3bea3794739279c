/-
The threads seen as the turn-taking protocol, and the start of the race: `init` creates the players one by one, waits
for each to reach its place, and then creates the Reporter.

- `view`: the protocol state of a state of the threads.
- `Startup`: the invariant of `init`. Before `main` has passed its wait for a player, that player has set its flag; so
  when the Reporter is created, all players have done what they do before their loop, and nobody has been called.
-/
import DecsLabs.Race.Handshake

namespace DecsLabs.HareTortoise

open DecsLabs.Pthread

/-! ## The view -/

def roleOf {x : Player} : Mode Cond → PlayerPc x → Role x
  | .waiting _, _ => .asleep
  | .woken, _ => .called
  | .run, .reachedTest | .run, .mainAcquire | .run, .setReached | .run, .firstAcquire | .run, .mainSignal
  | .run, .mainRelease | .run, .acquire | .run, .wait => .coming
  | .run, .clockAcquire | .run, .clockRead => .called
  | .run, .clockRelease | .run, .test => .timed
  | .run, .block a b => .turn a b
  | _, _ => .loose

def view (s : RaceSt) : View where
  report := s.pc .report
  reportMode := s.mode .report
  role x := roleOf (s.mode (.player x)) (s.pc (.player x))
  track := s.mem.track
  clockTick := s.mem.clockTick
  currTime := s.mem.currTime

theorem view_role {s s' : RaceSt} {x : Player} (hp : s'.pc (.player x) = s.pc (.player x))
    (hm : s'.mode (.player x) = s.mode (.player x)) : (view s').role x = (view s).role x := by
  simp only [view, hp, hm]

/-! ## The invariant of `init` -/

/-- how far `main` has come -/
def MainPc.stage : MainPc → ℕ
  | .init _ => 0
  | .create x => 5 * x.index + 1
  | .acquire x => 5 * x.index + 2
  | .testReached x => 5 * x.index + 3
  | .wait x => 5 * x.index + 4
  | .release x => 5 * x.index + 5
  | .createReport => 16
  | .joinPlayer x => 17 + x.index
  | .joinReport => 20
  | .ret => 21
  | .done _ => 22

/-- the race before the Reporter is created -/
structure Fresh (r : Race) (s : RaceSt) : Prop where
  report : s.pc .report = .loopTest
  clock : s.mem.clockTick = -1
  role : ∀ x, ¬ ((view s).role x).Awake
  track : { s.mem.track with hareSleepCounter := r.hareSleepTime.toInt } = start r
  counter : s.pc (.player .hare) ≠ .enter → s.mem.track.hareSleepCounter = r.hareSleepTime.toInt

theorem Fresh.noWinner {r : Race} {s : RaceSt} (h : Fresh r s) : s.mem.track.noWinner = 1 :=
  congrArg Track.noWinner h.track

structure Startup (r : Race) (s : RaceSt) : Prop where
  main : s.mode .main ≠ .unborn
  enter : ∀ x, s.pc (.player x) = .enter → s.mem.reached x = 0
  reached : ∀ x, s.pc (.player x) = .firstAcquire ∨ s.pc (.player x) = .mainSignal → s.mem.reached x ≠ 0
  passed : ∀ x, 5 * x.index + 5 ≤ (s.pc .main).stage → s.mem.reached x ≠ 0
  woken : ∀ x, s.pc .main = .wait x → s.mode .main = .woken → s.mem.reached x ≠ 0
  player : ∀ x, s.mode (.player x) = .unborn ↔ (s.pc .main).stage ≤ 5 * x.index + 1
  unborn : ∀ x, s.mode (.player x) = .unborn → s.pc (.player x) = .enter
  reporter : s.mode .report = .unborn ↔ (s.pc .main).stage ≤ 16
  joined : 21 ≤ (s.pc .main).stage → s.mode .report = .exited
  exited : s.mode .report = .exited → s.pc .report = .exit
  fresh : s.mode .report = .unborn → Fresh r s

theorem initial_startup (r : Race) : Startup r initial where
  main := by simp [initial]
  enter _ _ := rfl
  reached x h := by rcases h with h | h <;> cases h
  passed x h := by simp [initial, MainPc.stage] at h
  woken x h := by simp [initial] at h
  player x := by simp [initial, MainPc.stage]
  unborn x _ := rfl
  reporter := by simp [initial, MainPc.stage]
  joined h := by simp [initial, MainPc.stage] at h
  exited h := by simp [initial] at h
  fresh _ := ⟨rfl, rfl, fun x => by simp [view, initial, roleOf, Role.Awake], rfl, fun h => absurd rfl h⟩

theorem MainPc.next_stage {m : Mem} {p q : MainPc} (h : p.next m = some q) :
    (∀ x : Player, 5 * x.index + 5 ≤ q.stage → 5 * x.index + 5 ≤ p.stage ∨ p = .testReached x ∧ m.reached x ≠ 0) ∧
    (∀ x : Player, q.stage ≤ 5 * x.index + 1 ↔ p.stage ≤ 5 * x.index + 1) ∧
    (q.stage ≤ 16 ↔ p.stage ≤ 16) ∧ (21 ≤ q.stage ↔ 21 ≤ p.stage) := by
  have hi := fun x : Player => x.index_lt
  unfold MainPc.next at h
  split at h <;> simp only [Option.some.injEq, reduceCtorEq] at h <;> subst h
  case h_4 y =>
    have := hi y
    by_cases hy : m.reached y = 0
    · simp only [hy, if_true, stage]
      refine ⟨fun x h => .inl ?_, fun x => ?_, ?_, ?_⟩ <;> omega
    · simp only [hy, if_false, stage]
      refine ⟨fun x h => ?_, fun x => ?_, ?_, ?_⟩
      · by_cases hxy : x = y
        · subst hxy; exact .inr ⟨rfl, hy⟩
        · refine .inl ?_
          have := Player.index_ne (Ne.symm hxy)
          omega
      all_goals omega
  all_goals
    simp only [stage, index_randomizer, index_turtle, index_hare]
    refine ⟨fun x h => .inl ?_, fun x => ?_, ?_, ?_⟩
    · omega
    · have := hi x
      first | trivial | omega
    · first | trivial | omega
    · first | trivial | omega

theorem create_cases {p q : MainPc} {t : Thread} (h : mainCode p = .create t q) :
    (∃ x, p = .create x ∧ t = .player x ∧ q = .acquire x) ∨
      (p = .createReport ∧ t = .report ∧ q = .joinPlayer .randomizer) := by
  unfold mainCode at h
  split at h <;> cases h
  · exact .inl ⟨_, rfl, rfl, rfl⟩
  · exact .inr ⟨rfl, rfl, rfl⟩

theorem join_cases {p q : MainPc} {t : Thread} (h : mainCode p = .join t q) :
    17 ≤ p.stage ∧ 17 ≤ q.stage ∧ (21 ≤ q.stage → t = .report) ∧ ∀ x, q ≠ .wait x := by
  unfold mainCode at h
  split at h <;> cases h <;> simp [MainPc.stage]

/-- what the steps of `main` have in common -/
structure MainStep.Frame (s s' : RaceSt) : Prop where
  pc : ∀ t, t ≠ .main → s'.pc t = s.pc t
  mode : ∀ t, t ≠ .main → s'.mode t = s.mode t ∨ s.mode t = .unborn ∧ s'.mode t = .run
  born : s'.mode .main ≠ .unborn
  woken : s'.mode .main ≠ .woken
  left : s'.mode .main = .exited → ∃ w, s.pc .main = .done w
  reached : s'.mem.reached = s.mem.reached
  track : s'.mem.track = s.mem.track
  clock : s'.mem.clockTick = s.mem.clockTick
  currTime : s'.mem.currTime = s.mem.currTime

theorem MainStep.frame {s s' : RaceSt} (hs : MainStep s s') : MainStep.Frame s s' := by
  have hother : ∀ (p : MainPc) t, t ≠ .main → (s.goto .main p).pc t = s.pc t := fun p _ ht => goto_pc_of_ne s p ht
  have hset : ∀ (m : Mode Cond) t, t ≠ .main → Function.update s.mode .main m t = s.mode t := fun m t ht =>
    Function.update_of_ne ht ..
  cases hs with
  | quiet w li ci hr hq =>
    exact ⟨hother _, fun _ _ => .inl rfl, by simp [hr], by simp [hr], by simp [hr], rfl, rfl, rfl, rfl⟩
  | @create u q hr hp hu =>
    have hne : Thread.main ≠ u := by rintro rfl; simp [hr] at hu
    have hm : Function.update s.mode u .run .main = .run := (Function.update_of_ne hne ..).trans hr
    refine ⟨hother _, fun t ht => ?_, by simp [hm], by simp [hm], by simp [hm], rfl, rfl, rfl, rfl⟩
    by_cases htu : t = u
    · subst htu; exact .inr ⟨hu, by simp⟩
    · exact .inl (Function.update_of_ne htu ..)
  | join hr hp ht =>
    exact ⟨hother _, fun _ _ => .inl rfl, by simp [hr], by simp [hr], by simp [hr], rfl, rfl, rfl, rfl⟩
  | sleep w hr hp =>
    exact ⟨fun _ _ => rfl, fun t ht => .inl (hset _ t ht), by simp, by simp, by simp, rfl, rfl, rfl, rfl⟩
  | resume w hm hp =>
    exact ⟨hother _, fun t ht => .inl (hset _ t ht), by simp, by simp, by simp, rfl, rfl, rfl, rfl⟩
  | exit hr hp =>
    exact ⟨fun _ _ => rfl, fun t ht => .inl (hset _ t ht), by simp, by simp, fun _ => ⟨_, hp⟩, rfl, rfl, rfl, rfl⟩

/-- a step of `main`: what remains to be shown is about how far `main` has come -/
theorem Startup.main_frame {r : Race} {s s' : RaceSt} (h : Startup r s) (hf : MainStep.Frame s s')
    (hpassed : ∀ x : Player, 5 * x.index + 5 ≤ (s'.pc .main).stage →
      5 * x.index + 5 ≤ (s.pc .main).stage ∨ s.mem.reached x ≠ 0)
    (hplayer : ∀ x, s'.mode (.player x) = .unborn ↔ (s'.pc .main).stage ≤ 5 * x.index + 1)
    (hreporter : s'.mode .report = .unborn ↔ (s'.pc .main).stage ≤ 16)
    (hjoined : 21 ≤ (s'.pc .main).stage → s'.mode .report = .exited) : Startup r s' := by
  have hp : ∀ x : Player, s'.pc (.player x) = s.pc (.player x) := fun x => hf.pc _ (by simp)
  have hr : s'.pc .report = s.pc .report := hf.pc _ (by simp)
  have hunborn : ∀ t, t ≠ .main → s'.mode t = .unborn → s.mode t = .unborn := by
    intro t ht hu
    rcases hf.mode t ht with e | e
    · rwa [e] at hu
    · exact e.1
  refine ⟨hf.born, fun x hx => ?_, fun x hx => ?_, fun x hx => ?_, fun x _ hw => absurd hw hf.woken, hplayer,
    fun x hx => ?_, hreporter, hjoined, fun he => ?_, fun hu => ?_⟩
  · rw [hp] at hx
    rw [hf.reached]
    exact h.enter x hx
  · rw [hp] at hx
    rw [hf.reached]
    exact h.reached x hx
  · rw [hf.reached]
    rcases hpassed x hx with hb | hb
    · exact h.passed x hb
    · exact hb
  · rw [hp]
    exact h.unborn x (hunborn _ (by simp) hx)
  · rw [hr]
    rcases hf.mode .report (by simp) with e | e
    · exact h.exited (e ▸ he)
    · rw [e.2] at he
      cases he
  · have hfr := h.fresh (hunborn _ (by simp) hu)
    refine ⟨hr.trans hfr.report, hf.clock.trans hfr.clock, fun x => ?_, hf.track ▸ hfr.track, fun hne => ?_⟩
    · have hrole := hfr.role x
      simp only [view, hp] at hrole ⊢
      rcases hf.mode (.player x) (by simp) with e | e
      · rwa [e]
      · rw [e.2, h.unborn x e.1]
        simp [roleOf, Role.Awake]
    · rw [hf.track]
      rw [hp] at hne
      exact hfr.counter hne

theorem Startup.main_step {r : Race} {s s' : RaceSt} (h : Startup r s) (hs : MainStep s s') : Startup r s' := by
  have hlt := fun x : Player => x.index_lt
  have hf := hs.frame
  have hplayer := h.player
  have hreporter := h.reporter
  cases hs with
  | @quiet q w li ci hr hq =>
    obtain ⟨h1, h2, h3, h4⟩ := MainPc.next_stage hq
    refine h.main_frame hf (fun x hx => ?_) (fun x => ?_) ?_ fun hx => ?_
    · exact (h1 x (by simpa using hx)).imp_right And.right
    · simpa [h2] using hplayer x
    · simpa [h3] using hreporter
    · exact h.joined (h4.1 (by simpa using hx))
  | @create t q hr hp ht =>
    rcases create_cases hp with ⟨x, hpx, rfl, rfl⟩ | ⟨hpx, rfl, rfl⟩
    · have hst := hlt x
      simp only [hpx, MainPc.stage] at hplayer hreporter
      refine h.main_frame hf (fun y hy => .inl ?_) (fun y => ?_) ?_ fun hx => ?_
      · simp only [hpx, MainPc.stage, goto_pc_self] at hy ⊢
        omega
      · by_cases hyx : y = x
        · subst hyx; simp [MainPc.stage]
        · have hne := Player.index_ne hyx
          simp only [goto_pc_self, MainPc.stage, ne_eq, Thread.player.injEq, hyx, not_false_eq_true,
            Function.update_of_ne, hplayer y]
          omega
      · simp only [goto_pc_self, MainPc.stage, ne_eq, reduceCtorEq, not_false_eq_true, Function.update_of_ne, hreporter]
        omega
      · simp only [goto_pc_self, MainPc.stage] at hx
        omega
    · simp only [hpx, MainPc.stage] at hplayer
      refine h.main_frame hf (fun y _ => .inl ?_) (fun y => ?_) ?_ fun hx => ?_
      · have := hlt y
        simp only [hpx, MainPc.stage]
        omega
      · have := hlt y
        simp [hplayer, MainPc.stage]
        omega
      · simp [MainPc.stage]
      · simp [MainPc.stage] at hx
  | @join t q hr hp ht =>
    obtain ⟨h1, h2, h3, -⟩ := join_cases hp
    refine h.main_frame hf (fun x _ => .inl ?_) (fun x => ?_) ?_ fun hx => ?_
    · have := hlt x
      omega
    · have := hlt x
      simp only [goto_mode, goto_pc_self, hplayer x]
      omega
    · simp only [goto_mode, goto_pc_self, hreporter]
      omega
    · rw [← h3 (by simpa using hx)]
      exact ht
  | sleep w hr hp =>
    exact h.main_frame hf (fun x hx => .inl hx) (fun x => by simpa using hplayer x) (by simpa using hreporter)
      fun hx => by simpa using h.joined hx
  | @resume x w hm hp =>
    have hst := hlt x
    simp only [hp, MainPc.stage] at hplayer hreporter
    refine h.main_frame hf (fun y hy => ?_) (fun y => ?_) ?_ fun hx => ?_
    · by_cases hyx : y = x
      · subst hyx
        exact .inr (h.woken y hp hm)
      · have hne := Player.index_ne hyx
        left
        simp only [goto_pc_self, hp, MainPc.stage] at hy ⊢
        omega
    · simp only [goto_pc_self, MainPc.stage, ne_eq, reduceCtorEq, not_false_eq_true, Function.update_of_ne, hplayer y]
      omega
    · simp only [goto_pc_self, MainPc.stage, ne_eq, reduceCtorEq, not_false_eq_true, Function.update_of_ne, hreporter]
      omega
    · simp only [goto_pc_self, MainPc.stage] at hx
      omega
  | exit hr hp =>
    exact h.main_frame hf (fun x hx => .inl hx) (fun x => by simpa using hplayer x) (by simpa using hreporter)
      fun hx => by simpa using h.joined hx

/-- a step that is not one of `main` -/
theorem Startup.frame {r : Race} {s s' : RaceSt} (h : Startup r s) (hpc : s'.pc .main = s.pc .main)
    (henter : ∀ x, s'.pc (.player x) = .enter → s.pc (.player x) = .enter ∧ s'.mem.reached x = s.mem.reached x)
    (hmid : ∀ x, s'.pc (.player x) = .firstAcquire ∨ s'.pc (.player x) = .mainSignal → s'.mem.reached x ≠ 0)
    (hreached : ∀ x, s.mem.reached x ≠ 0 → s'.mem.reached x ≠ 0)
    (hmain : s'.mode .main = .woken → s.mode .main = .woken ∨ ∀ x, s.pc .main = .wait x → s.mem.reached x ≠ 0)
    (hunborn : ∀ t, s'.mode t = .unborn ↔ s.mode t = .unborn)
    (hstill : ∀ t, s.mode t = .unborn → s'.pc t = s.pc t)
    (hex : s.mode .report = .exited → s'.mode .report = .exited)
    (hexit : s'.mode .report = .exited → s'.pc .report = .exit)
    (hfresh : s.mode .report = .unborn → Fresh r s → Fresh r s') : Startup r s' where
  main := (hunborn _).not.2 h.main
  enter x hx := (henter x hx).2.trans (h.enter x (henter x hx).1)
  reached := hmid
  passed x hx := hreached x (h.passed x (hpc ▸ hx))
  woken x hx hw := by
    rw [hpc] at hx
    rcases hmain hw with hw' | hw'
    · exact hreached x (h.woken x hx hw')
    · exact hreached x (hw' x hx)
  player x := by rw [hunborn, hpc]; exact h.player x
  unborn x hx := by
    have hu := (hunborn _).1 hx
    rw [hstill _ hu]
    exact h.unborn x hu
  reporter := by rw [hunborn, hpc]; exact h.reporter
  joined hx := hex (h.joined (hpc ▸ hx))
  exited := hexit
  fresh hu := hfresh ((hunborn _).1 hu) (h.fresh ((hunborn _).1 hu))

theorem woken_unborn {s : RaceSt} {u : Thread} {c : Cond} (hu : s.mode u = .waiting c) (t : Thread) :
    Function.update s.mode u .woken t = .unborn ↔ s.mode t = .unborn := by
  by_cases htu : t = u
  · subst htu; simp [hu]
  · simp [htu]

/-- what the steps of the Reporter have in common -/
structure ReportStep.Frame (s s' : RaceSt) : Prop where
  pc : ∀ t, t ≠ .report → s'.pc t = s.pc t
  reached : s'.mem.reached = s.mem.reached
  main : s'.mode .main = s.mode .main
  unborn : ∀ t, s'.mode t = .unborn ↔ s.mode t = .unborn
  alive : s.mode .report ≠ .unborn ∧ s.mode .report ≠ .exited
  exited : s'.mode .report = .exited → s'.pc .report = .exit

theorem ReportStep.frame {r : Race} {s s' : RaceSt} (hw : AtWait (code r) s) (hs : ReportStep r s s') :
    ReportStep.Frame s s' := by
  have hother : ∀ (p : ReportPc) t, t ≠ .report → (s.goto .report p).pc t = s.pc t := fun p _ ht =>
    goto_pc_of_ne s p ht
  have hupd : ∀ (m : Mode Cond) t, s.mode .report ≠ .unborn → m ≠ .unborn →
      (Function.update s.mode .report m t = .unborn ↔ s.mode t = .unborn) := by
    intro m t h1 h2
    by_cases ht : t = .report
    · subst ht; simp [h1, h2]
    · simp [ht]
  cases hs with
  | quiet w l hr hq => exact ⟨hother _, rfl, rfl, fun _ => Iff.rfl, by simp [hr], by simp [hr]⟩
  | tick hr hp => exact ⟨hother _, rfl, rfl, fun _ => Iff.rfl, by simp [hr], by simp [hr]⟩
  | miss hr hp hn => exact ⟨hother _, rfl, rfl, fun _ => Iff.rfl, by simp [hr], by simp [hr]⟩
  | dismissMiss hr hp hn => exact ⟨hother _, rfl, rfl, fun _ => Iff.rfl, by simp [hr], by simp [hr]⟩
  | call hr hp hu =>
    obtain ⟨rfl, -⟩ := waits_on hw hu
    exact ⟨hother _, rfl, by simp, woken_unborn hu, by simp [hr], by simp [hr]⟩
  | dismiss hr hp hu =>
    obtain ⟨rfl, -⟩ := waits_on hw hu
    exact ⟨hother _, rfl, by simp, woken_unborn hu, by simp [hr], by simp [hr]⟩
  | await w hr hp =>
    exact ⟨fun _ _ => rfl, rfl, by simp, fun t => hupd _ t (by simp [hr]) (by simp), by simp [hr], by simp⟩
  | resume w hm hp =>
    exact ⟨hother _, rfl, by simp, fun t => hupd _ t (by simp [hm]) (by simp), by simp [hm], by simp⟩
  | exit hr hp =>
    exact ⟨fun _ _ => rfl, rfl, by simp, fun t => hupd _ t (by simp [hr]) (by simp), by simp [hr], fun _ => hp⟩

theorem Startup.report_step {r : Race} {s s' : RaceSt} (h : Startup r s) (hw : AtWait (code r) s)
    (hs : ReportStep r s s') : Startup r s' := by
  have hf := hs.frame hw
  have hp : ∀ x : Player, s'.pc (.player x) = s.pc (.player x) := fun x => hf.pc _ (by simp)
  refine h.frame (hf.pc _ (by simp)) (fun x hx => ?_) (fun x hx => ?_) (fun x hx => ?_) (fun hx => ?_) hf.unborn
    (fun t ht => hf.pc t ?_) (fun he => absurd he hf.alive.2) hf.exited fun hu => absurd hu hf.alive.1
  · rw [hp] at hx; exact ⟨hx, congrFun hf.reached x⟩
  · rw [hp] at hx; rw [hf.reached]; exact h.reached x hx
  · rwa [hf.reached]
  · rw [hf.main] at hx; exact .inl hx
  · rintro rfl; exact hf.alive.1 ht

theorem PlayerPc.next_cases {x : Player} {m : Mem} {p q : PlayerPc x} (h : p.next m = some q) :
    p ≠ .enter ∧ q ≠ .enter ∧ q ≠ .firstAcquire ∧ (q = .mainSignal → p = .firstAcquire) ∧
      ((roleOf .run q).Awake → (roleOf .run p).Awake) := by
  cases p <;> simp only [next, Option.some.injEq, reduceCtorEq] at h <;> subst h
  all_goals try split_ifs
  all_goals simp [roleOf, Role.Awake]

/-- what the steps of a player have in common -/
structure PlayerStep.Frame (x : Player) (s s' : RaceSt) : Prop where
  pc : ∀ t, t ≠ .player x → s'.pc t = s.pc t
  mode : ∀ t, t ≠ .player x → t ≠ .main → t ≠ .report → s'.mode t = s.mode t
  unborn : ∀ t, s'.mode t = .unborn ↔ s.mode t = .unborn
  alive : s.mode (.player x) ≠ .unborn
  report : s'.mode .report = .exited ↔ s.mode .report = .exited
  main : s'.mode .main = s.mode .main ∨
    s.pc (.player x) = .mainSignal ∧ s.pc .main = .wait x ∧ s'.mode .main = .woken
  enter : s'.pc (.player x) ≠ .enter
  reached : ∀ y, s'.mem.reached y = s.mem.reached y ∨ y = x ∧ s'.mem.reached y ≠ 0
  mid : s'.pc (.player x) = .firstAcquire ∨ s'.pc (.player x) = .mainSignal →
    s'.mem.reached x ≠ 0 ∨ s.pc (.player x) = .firstAcquire ∧ s'.mem.reached = s.mem.reached

theorem PlayerStep.frame {r : Race} {x : Player} {s s' : RaceSt} (hw : AtWait (code r) s) (hs : PlayerStep r x s s') :
    PlayerStep.Frame x s s' := by
  have hother : ∀ (p : PlayerPc x) t, t ≠ .player x → (s.goto (.player x) p).pc t = s.pc t := fun p _ ht =>
    goto_pc_of_ne s p ht
  have hupd : ∀ (m : Mode Cond) t, s.mode (.player x) ≠ .unborn → m ≠ .unborn →
      (Function.update s.mode (.player x) m t = .unborn ↔ s.mode t = .unborn) := by
    intro m t h1 h2
    by_cases ht : t = .player x
    · subst ht; simp [h1, h2]
    · simp [ht]
  have hset : ∀ (m : Mode Cond) t, t ≠ .player x → Function.update s.mode (.player x) m t = s.mode t := fun m t ht =>
    Function.update_of_ne ht ..
  cases hs with
  | answer hr hp hu =>
    obtain ⟨rfl, -⟩ := waits_on hw hu
    exact ⟨hother _, fun t _ _ h3 => Function.update_of_ne h3 .., woken_unborn hu, by simp [hr], by simp [hu],
      .inl (by simp), by simp, fun _ => .inl rfl, by simp⟩
  | wakeMain hr hp hu =>
    obtain ⟨rfl, hpm⟩ := waits_on hw hu
    exact ⟨hother _, fun t _ h2 _ => Function.update_of_ne h2 .., woken_unborn hu, by simp [hr], by simp,
      .inr ⟨hp, hpm, by simp⟩, by simp, fun _ => .inl rfl, by simp⟩
  | sleep w hr hp =>
    exact ⟨fun _ _ => rfl, fun t ht _ _ => hset _ t ht, fun t => hupd _ t (by simp [hr]) (by simp), by simp [hr],
      by simp, .inl rfl, by simp [hp], fun _ => .inl rfl, by simp [hp]⟩
  | resume w hm hp =>
    exact ⟨hother _, fun t ht _ _ => hset _ t ht, fun t => hupd _ t (by simp [hm]) (by simp), by simp [hm], by simp,
      .inl rfl, by simp, fun _ => .inl rfl, by simp⟩
  | exit hr hp =>
    exact ⟨fun _ _ => rfl, fun t ht _ _ => hset _ t ht, fun t => hupd _ t (by simp [hr]) (by simp), by simp [hr],
      by simp, .inl rfl, by simp [hp], fun _ => .inl rfl, by simp [hp]⟩
  | setReached hr hp =>
    refine ⟨hother _, fun _ _ _ _ => rfl, fun _ => Iff.rfl, by simp [hr], Iff.rfl, .inl rfl, by simp, fun y => ?_,
      fun _ => .inl (by simp)⟩
    by_cases hyx : y = x
    · subst hyx; exact .inr ⟨rfl, by simp⟩
    · exact .inl (by simp [hyx])
  | quiet w hr hq =>
    obtain ⟨-, h1, h2, h3, -⟩ := PlayerPc.next_cases hq
    refine ⟨hother _, fun _ _ _ _ => rfl, fun _ => Iff.rfl, by simp [hr], Iff.rfl, .inl rfl, by simpa using h1,
      fun _ => .inl rfl, fun h => .inr ⟨?_, rfl⟩⟩
    simp only [goto_pc_self] at h
    exact h3 (h.resolve_left h2)
  | test hr hp =>
    refine ⟨hother _, fun _ _ _ _ => rfl, fun _ => Iff.rfl, by simp [hr], Iff.rfl, .inl rfl, ?_, fun _ => .inl rfl, ?_⟩
    · simp only [goto_pc_self]; split_ifs <;> simp
    · simp only [goto_pc_self]; split_ifs <;> simp
  | _ =>
    exact ⟨hother _, fun _ _ _ _ => rfl, fun _ => Iff.rfl, by simp [*], Iff.rfl, .inl rfl, by simp, fun _ => .inl rfl,
      by simp⟩

/-- a step of a player before the Reporter is created -/
theorem Fresh.player_step {r : Race} {x : Player} {s s' : RaceSt} (h : Fresh r s) (hs : PlayerStep r x s s')
    (hf : PlayerStep.Frame x s s') : Fresh r s' := by
  have hx := h.role x
  have hroles : ¬ ((view s').role x).Awake → ∀ y, ¬ ((view s').role y).Awake := by
    intro hx' y
    by_cases hyx : y = x
    · subst hyx; exact hx'
    · rw [view_role (hf.pc _ (by simp [hyx])) (hf.mode _ (by simp [hyx]) (by simp) (by simp))]
      exact h.role y
  -- a player that writes nothing has left `enter` behind it if it has after the step
  have hquiet : s.pc (.player x) ≠ .enter → s'.mem.track = s.mem.track →
      s'.pc (.player .hare) ≠ .enter → s'.mem.track.hareSleepCounter = r.hareSleepTime.toInt := by
    intro hp ht hh
    rw [ht]
    by_cases hxh : x = .hare
    · subst hxh; exact h.counter hp
    · rw [hf.pc _ (by simp [Ne.symm hxh])] at hh; exact h.counter hh
  have hreport : s'.pc .report = .loopTest := (hf.pc _ (by simp)).trans h.report
  cases hs with
  | quiet w hr hq =>
    obtain ⟨h1, -, -, -, h2⟩ := PlayerPc.next_cases hq
    refine ⟨hreport, h.clock, hroles fun ha => hx ?_, h.track, hquiet h1 rfl⟩
    simp only [view, goto_pc_self, goto_mode, hr] at ha ⊢
    exact h2 ha
  | enter hr hp =>
    refine ⟨hreport, h.clock, hroles (by simp [view, hr, roleOf, Role.Awake]), ?_, fun hh => ?_⟩
    · have ht := h.track
      cases x with
      | randomizer => simp only [enterTrack, start, Track.mk.injEq] at ht ⊢; simp [ht]
      | _ => exact ht
    · cases x with
      | hare => rfl
      | _ => exact h.counter (by simpa [goto_pc_of_ne] using hh)
  | setReached hr hp =>
    exact ⟨hreport, h.clock, hroles (by simp [view, hr, roleOf, Role.Awake]), h.track, hquiet (by simp [hp]) rfl⟩
  | @wakeMain u hr hp hu =>
    have hu' : Thread.player x ≠ u := by rintro rfl; simp [hr] at hu
    exact ⟨hreport, h.clock, hroles (by simp [view, Function.update_of_ne hu', hr, roleOf, Role.Awake]), h.track,
      hquiet (by simp [hp]) rfl⟩
  | sleep w hr hp =>
    exact ⟨hreport, h.clock, hroles (by simp [view, roleOf, Role.Awake]), h.track, hquiet (by simp [hp]) rfl⟩
  | exit hr hp =>
    exact ⟨hreport, h.clock, hroles (by simp [view, roleOf, Role.Awake]), h.track, hquiet (by simp [hp]) rfl⟩
  | resume w hm hp => exact absurd (by simp [view, hm, roleOf, Role.Awake]) hx
  | _ => exact absurd (by simp [view, *, roleOf, Role.Awake]) hx

theorem Startup.player_step {r : Race} {x : Player} {s s' : RaceSt} (h : Startup r s) (hw : AtWait (code r) s)
    (hs : PlayerStep r x s s') : Startup r s' := by
  have hf := hs.frame hw
  have hne : ∀ {y}, y ≠ x → s'.pc (.player y) = s.pc (.player y) := fun hyx => hf.pc _ (by simp [hyx])
  refine h.frame (hf.pc _ (by simp)) (fun y hy => ?_) (fun y hy => ?_) (fun y hy => ?_) (fun hy => ?_) hf.unborn
    (fun t ht => hf.pc t ?_) hf.report.2 (fun he => ?_) fun _ hfr => hfr.player_step hs hf
  · have hyx : y ≠ x := by rintro rfl; exact hf.enter hy
    rw [hne hyx] at hy
    exact ⟨hy, (hf.reached y).resolve_right fun h => hyx h.1⟩
  · by_cases hyx : y = x
    · subst hyx
      rcases hf.mid hy with h1 | ⟨h1, h2⟩
      · exact h1
      · rw [h2]; exact h.reached y (.inl h1)
    · rw [hne hyx] at hy
      rcases hf.reached y with h1 | h1
      · rw [h1]; exact h.reached y hy
      · exact h1.2
  · rcases hf.reached y with h1 | h1
    · rwa [h1]
    · exact h1.2
  · rcases hf.main with h1 | ⟨h1, h2, -⟩
    · exact .inl (h1 ▸ hy)
    · refine .inr fun y hy => ?_
      obtain rfl : x = y := MainPc.wait.inj (h2.symm.trans hy)
      exact h.reached x (.inr h1)
  · rintro rfl; exact hf.alive ht
  · rw [hf.pc _ (by simp)]; exact h.exited (hf.report.1 he)

/-- **Startup.** -/
theorem Startup.step {r : Race} {s s' : RaceSt} (h : Startup r s) (hw : AtWait (code r) s) (hs : RaceStep r s s') :
    Startup r s' := by
  rcases hs with hm | hr | ⟨x, hp⟩
  · exact h.main_step hm
  · exact h.report_step hw hr
  · exact h.player_step hw hp

end DecsLabs.HareTortoise
