/-
The threads refine the turn-taking protocol, and through it the tick machine.

- `view_step`: once the Reporter is created, a step of a thread is a step of the protocol or leaves its view alone.
- `view_inv`: in every run without spurious wake-ups the invariant of the protocol holds from then on.
-/
import DecsLabs.Race.Startup

namespace DecsLabs.HareTortoise

open DecsLabs.Transition DecsLabs.Pthread

/-! ## Simulation -/

/-- the view after a step of player `x` -/
theorem view_player {x : Player} {s s' : RaceSt} (hf : PlayerStep.Frame x s s') (ρ : Role x)
    (hρ : roleOf (s'.mode (.player x)) (s'.pc (.player x)) = ρ) :
    view s' = ⟨s.pc .report, s'.mode .report, ((view s).become x ρ).role, s'.mem.track, s'.mem.clockTick,
      s'.mem.currTime⟩ := by
  refine View.ext (hf.pc _ (by simp)) rfl ?_ rfl rfl rfl
  funext y
  by_cases hyx : y = x
  · subst hyx; simp [view, hρ]
  · simp only [view, View.become, Function.update_of_ne hyx]
    rw [hf.pc _ (by simp [hyx]), hf.mode _ (by simp [hyx]) (by simp) (by simp)]

/-- a player whose role stays the same, and that writes nothing the view shows -/
theorem view_same {x : Player} {s s' : RaceSt} (hf : PlayerStep.Frame x s s')
    (hρ : roleOf (s'.mode (.player x)) (s'.pc (.player x)) = (view s).role x)
    (hm : s'.mode .report = s.mode .report) (ht : s'.mem.track = s.mem.track)
    (hc : s'.mem.clockTick = s.mem.clockTick) (hct : s'.mem.currTime = s.mem.currTime) : view s' = view s := by
  rw [view_player hf _ hρ, View.become, Function.update_eq_self, hm, ht, hc, hct]
  rfl

theorem PlayerPc.next_role {x : Player} {m : Mem} {p q : PlayerPc x} (h : p.next m = some q) :
    roleOf .run q = roleOf .run p ∨
      roleOf .run p = .loose ∧ roleOf .run q = .coming ∧ m.track.noWinner ≠ 0 := by
  cases p <;> simp only [next, Option.some.injEq, reduceCtorEq] at h <;> subst h
  case loopTest =>
    by_cases hw : m.track.noWinner = 0
    · exact .inl (by simp [hw, roleOf])
    · exact .inr (by simp [hw, roleOf])
  case reachedTest => split_ifs <;> exact .inl rfl
  all_goals exact .inl rfl

/-- in the view nobody is engaged with a player that holds the lock of its handshake and runs, unless it waits -/
theorem drop_not_engaged {r : Race} {x : Player} {s : RaceSt} {a : Bool} (ho : Owned (code r) held s)
    (hr : s.mode (.player x) = .run) (hp : s.pc (.player x) = .block a .done)
    (hn : ∀ u, s.mode u ≠ .waiting (.playerToReporter x)) : ¬ (view s).Engaged x := by
  rintro ⟨h1, h2 | h2⟩
  · have hx : Lock.playerReporter x ∈ held (.player x) (s.pc (.player x)) := by simp [hp, held, playerHeld]
    have hrep : Lock.playerReporter x ∈ held .report (s.pc .report) := by
      rw [show s.pc .report = .wait x from h1]; simp [held, reportHeld]
    cases ho.unique hr hx h2 hrep
  · exact hn _ h2

theorem player_view {r : Race} {x : Player} {s s' : RaceSt} (h : Startup r s) (ho : Owned (code r) held s)
    (hb : s.mode .report ≠ .unborn) (hs : PlayerStep r x s s') :
    view s' = view s ∨ ViewStep r (view s) (view s') := by
  have hf := hs.frame ho.atWait
  cases hs with
  | @quiet q w hr hq =>
    rcases PlayerPc.next_role hq with h1 | ⟨h1, h2, hw⟩
    · exact .inl (view_same hf (by simp [view, hr, h1]) rfl rfl rfl rfl)
    · refine .inr ?_
      rw [view_player hf .coming (by simp [hr, h2])]
      exact .commit x (by simp [view, hr, h1]) hw
  | enter hr hp =>
    -- `main` has waited for this player before it created the Reporter
    have hst := h.reporter.not.1 hb
    have := x.index_lt
    exact absurd (h.enter x hp) (h.passed x (by omega))
  | setReached hr hp => exact .inl (view_same hf (by simp [view, hr, hp, roleOf]) rfl rfl rfl rfl)
  | clockRead hr hp =>
    refine .inr ?_
    rw [view_player hf .timed (by simp [hr, roleOf])]
    exact .clock x (by simp [view, hr, hp, roleOf])
  | test hr hp =>
    refine .inr ?_
    rw [view_player hf (if s.mem.track.noWinner ≠ 0 then
      .turn true (turnBlock r x (s.mem.currTime x) s.mem.track.arrayIndex) else .turn false (overBlock x))
      (by simp only [goto_mode, hr, goto_pc_self]; split_ifs <;> rfl)]
    exact .test x (by simp [view, hr, hp, roleOf])
  | @access a h₁ h₂ b b' t w hr hp he hs =>
    refine .inr ?_
    rw [view_player hf (.turn a b') (by simp [hr, roleOf])]
    exact .access x b' t (by simp [view, hr, hp, roleOf]) he hs
  | @drop a hr hp hn =>
    refine .inr ?_
    rw [view_player hf .loose (by simp [hr, roleOf])]
    exact .drop x (a := a) (by simp [view, hr, hp, roleOf]) (drop_not_engaged ho hr hp hn)
  | @answer a _ hr hp hu =>
    obtain ⟨rfl, hpu⟩ := waits_on ho.atWait hu
    refine .inr ?_
    rw [view_player hf .loose (by simp [hr, roleOf])]
    exact .answer x (a := a) (by simp [view, hr, hp, roleOf]) hpu hu
  | wakeMain hr hp hu =>
    obtain ⟨rfl, -⟩ := waits_on ho.atWait hu
    exact .inl (view_same hf (by simp [view, hr, hp, roleOf]) rfl rfl rfl rfl)
  | sleep w hr hp =>
    refine .inr ?_
    rw [view_player hf .asleep (by simp [roleOf])]
    exact .sleep x (by simp [view, hr, hp, roleOf])
  | resume w hm hp => exact .inl (view_same hf (by simp [view, hm, hp, roleOf]) rfl rfl rfl rfl)
  | exit hr hp => exact .inl (view_same hf (by simp [view, hr, hp, roleOf]) rfl rfl rfl rfl)

/-- the view after a step of the Reporter that wakes nobody -/
theorem view_report {s s' : RaceSt} (hf : ReportStep.Frame s s')
    (hm : ∀ x : Player, s'.mode (.player x) = s.mode (.player x)) :
    view s' = ⟨s'.pc .report, s'.mode .report, (view s).role, s'.mem.track, s'.mem.clockTick, s'.mem.currTime⟩ := by
  refine View.ext rfl rfl ?_ rfl rfl rfl
  funext y
  exact view_role (hf.pc _ (by simp)) (hm y)

/-- the view after the Reporter has woken `x` -/
theorem view_call {x : Player} {s : RaceSt} (p : ReportPc) :
    view { s.goto .report p with mode := Function.update s.mode (.player x) .woken } =
      { (view s).become x .called with report := p } := by
  refine View.ext (by simp [view]) (by simp [view, View.become]) ?_ rfl rfl rfl
  funext y
  by_cases hyx : y = x
  · subst hyx; simp [view, roleOf]
  · simp [view, View.become, hyx, goto_pc_of_ne]

/-- a player that does not wait for the Reporter is not asleep -/
theorem not_asleep {r : Race} {x : Player} {s : RaceSt} (ho : Owned (code r) held s)
    (hn : ∀ u, s.mode u ≠ .waiting (.reporterToPlayer x)) : (view s).role x ≠ .asleep := by
  intro h
  simp only [view] at h
  cases hm : s.mode (.player x) with
  | waiting c =>
    have hw := waits_on ho.atWait hm
    cases c with
    | reporterToPlayer y =>
      obtain rfl : x = y := by simpa using hw.1
      exact hn _ hm
    | _ => cases hw.1
  | run => rw [hm] at h; cases hp : s.pc (.player x) <;> simp [hp, roleOf] at h
  | _ => rw [hm] at h; simp [roleOf] at h

theorem report_view {r : Race} {s s' : RaceSt} (ho : Owned (code r) held s) (hs : ReportStep r s s') :
    ViewStep r (view s) (view s') := by
  have hf := hs.frame ho.atWait
  cases hs with
  | @quiet q w l hr hq =>
    rw [view_report hf fun _ => rfl]
    simp only [goto_pc_self]
    exact .quiet hr hq
  | tick hr hp =>
    rw [view_report hf fun _ => rfl]
    simp only [goto_pc_self]
    exact .tick hr hp
  | @miss x hr hp hn =>
    rw [view_report hf fun _ => rfl]
    simp only [goto_pc_self]
    exact .miss x hr hp (not_asleep ho hn)
  | @call x u hr hp hu =>
    obtain ⟨rfl, -⟩ := waits_on ho.atWait hu
    rw [view_call]
    exact .call x hr hp (by simp [view, hu, roleOf])
  | @await x w hr hp =>
    rw [view_report hf fun x => by simp]
    simp only [Function.update_self]
    exact .await x hr hp
  | @resume x w hm hp =>
    rw [view_report hf fun x => by simp]
    simp only [goto_pc_self, Function.update_self]
    exact .resume x hm hp
  | @dismissMiss x hr hp hn =>
    rw [view_report hf fun _ => rfl]
    simp only [goto_pc_self]
    exact .dismissMiss x hr hp (not_asleep ho hn)
  | @dismiss x u hr hp hu =>
    obtain ⟨rfl, -⟩ := waits_on ho.atWait hu
    rw [view_call]
    exact .dismiss x hr hp (by simp [view, hu, roleOf])
  | exit hr hp =>
    rw [view_report hf fun x => by simp]
    simp only [Function.update_self]
    exact .exit hr hp

/-- `main` has created everybody, so it changes no other thread -/
theorem main_alone {r : Race} {s s' : RaceSt} (h : Startup r s) (hb : s.mode .report ≠ .unborn) (hf : MainStep.Frame s s')
    {t : Thread} (ht : t ≠ .main) : s'.mode t = s.mode t := by
  have hst := h.reporter.not.1 hb
  refine (hf.mode t ht).resolve_right fun hnew => ?_
  cases t with
  | main => exact ht rfl
  | report => exact hb hnew.1
  | player x =>
    have := (h.player x).1 hnew.1
    have := x.index_lt
    omega

/-- its steps are not seen -/
theorem main_view {r : Race} {s s' : RaceSt} (h : Startup r s) (hb : s.mode .report ≠ .unborn) (hs : MainStep s s') :
    view s' = view s := by
  have hf := hs.frame
  refine View.ext (hf.pc _ (by simp)) (main_alone h hb hf (by simp)) ?_ hf.track hf.clock hf.currTime
  funext x
  exact view_role (hf.pc _ (by simp)) (main_alone h hb hf (by simp))

/-- **Simulation.** Once the Reporter is created, a step is a step of the protocol or is not seen in the view. -/
theorem view_step {r : Race} {s s' : RaceSt} (h : Startup r s) (ho : Owned (code r) held s)
    (hb : s.mode .report ≠ .unborn) (hs : RaceStep r s s') : view s' = view s ∨ ViewStep r (view s) (view s') := by
  rcases hs with hm | hr | ⟨x, hp⟩
  · exact .inl (main_view h hb hm)
  · exact .inr (report_view ho hr)
  · exact player_view h ho hb hp

/-! ## Runs -/

/-- the protocol starts in its invariant when `main` creates the Reporter -/
theorem Fresh.inv {r : Race} {s : RaceSt} (h : Fresh r s) (hp : s.pc (.player .hare) ≠ .enter) :
    Inv r { view s with reportMode := .run } := by
  have ht : s.mem.track = start r := by
    have h1 := h.track
    rw [← h.counter hp] at h1
    exact h1
  refine ⟨fun x => .of_not_awake (h.role x), fun _ => ?_, fun hs => ?_, ?_, fun hi => ?_⟩
  · simp [View.turns, view, h.report, turnsAt, h.clock, ht, afterTurns]
  · simp [view, h.report, ReportPc.Shut] at hs
  · simp [view, h.clock]
  · simp [view, h.report, ReportPc.InTick] at hi

theorem create_report_view {r : Race} {s s' : RaceSt} (ho : Owned (code r) held s)
    (hu : s.mode .report = .unborn) (hs : RaceStep r s s') (hb : s'.mode .report ≠ .unborn) :
    view s' = { view s with reportMode := .run } ∧ s.pc .main = .createReport := by
  rcases hs with hm | hr | ⟨x, hp⟩
  · cases hm with
    | @create t q hr hp ht =>
      rcases create_cases hp with ⟨x, -, rfl, -⟩ | ⟨hpx, rfl, -⟩
      · exact absurd (by simpa using hu) hb
      · refine ⟨View.ext (by simp [view, goto_pc_of_ne]) (by simp [view]) ?_ rfl rfl rfl, hpx⟩
        funext y
        simp [view, goto_pc_of_ne]
    | quiet w li ci hr hq => exact absurd hu hb
    | join hr hp ht => exact absurd hu hb
    | sleep w hr hp => exact absurd (by simpa using hu) hb
    | resume w hm hp => exact absurd (by simpa using hu) hb
    | exit hr hp => exact absurd (by simpa using hu) hb
  · exact absurd hu (hr.frame ho.atWait).alive.1
  · exact absurd (((hp.frame ho.atWait).unborn _).2 hu) hb

/-- what is known of every state that the threads reach without spurious wake-ups -/
structure Known (r : Race) (s : RaceSt) : Prop where
  owned : Owned (code r) held s
  startup : Startup r s
  inv : s.mode .report ≠ .unborn → Inv r (view s)
  /-- the result that `init` returns -/
  result : ∀ w, s.pc .main = .done w → w = s.mem.track.overallWinner

/-- when the Reporter has left, the track does not change any more -/
theorem ViewStep.track_final {r : Race} {v v' : View} (h : Inv r v) (he : v.reportMode = .exited)
    (hs : ViewStep r v v') : v'.track = v.track := by
  cases hs with
  | @access x a _ _ b b' t hρ hev hs =>
    cases a with
    | true =>
      obtain ⟨-, hm | hm⟩ := ((h.seat x).acting hρ).1
      · rw [he] at hm; cases hm
      · rw [he] at hm; cases hm
    | false => exact (hs ((h.seat x).passing hρ).1).2
  | _ => rfl

theorem Known.result_step {r : Race} {s s' : RaceSt} (hk : Known r s) (hs : RaceStep r s s') {w : Char}
    (hw : s'.pc .main = .done w) : w = s'.mem.track.overallWinner := by
  rcases hs with hm | hr | ⟨x, hp⟩
  · cases hm with
    | @quiet q o li ci hr hq =>
      simp only [goto_pc_self] at hw
      subst hw
      generalize hp : s.pc .main = p at hq
      unfold MainPc.next at hq
      split at hq <;> simp at hq
      · split_ifs at hq
      · exact hq.symm
    | @create t q hr hp ht =>
      rcases create_cases hp with ⟨x, -, -, rfl⟩ | ⟨-, -, rfl⟩ <;> simp at hw
    | @join t q hr hp ht =>
      simp only [goto_pc_self] at hw
      subst hw
      generalize s.pc .main = p at hp
      unfold mainCode at hp
      split at hp <;> cases hp
    | sleep o hr hp => exact hk.result w hw
    | resume o hm hp => simp at hw
    | exit hr hp => exact hk.result w hw
  all_goals
    have hpc : s.pc .main = .done w := by
      first
      | rw [← (hr.frame hk.owned.atWait).pc .main (by simp)]; exact hw
      | rw [← (hp.frame hk.owned.atWait).pc .main (by simp)]; exact hw
    have he : s.mode .report = .exited := hk.startup.joined (by simp [hpc, MainPc.stage])
    have hb : s.mode .report ≠ .unborn := by simp [he]
    have ht : s'.mem.track = s.mem.track := by
      first
      | exact (report_view hk.owned hr).track_final (hk.inv hb) he
      | rcases player_view hk.startup hk.owned hb hp with hv | hv
        · exact congrArg View.track hv
        · exact hv.track_final (hk.inv hb) he
    rw [ht]
    exact hk.result w hpc

theorem Known.step {r : Race} (hr : r.Valid) {s s' : RaceSt} {o : Op Thread} (h : Known r s) (hns : NoSpurious s o)
    (hs : step (code r) s o = some s') : Known r s' := by
  have hstep := race_step hns hs
  refine ⟨(disciplined r).owned_step h.owned (step_move hs), h.startup.step h.owned.atWait hstep, fun hb => ?_,
    fun _ hw => h.result_step hstep hw⟩
  by_cases hu : s.mode .report = .unborn
  · obtain ⟨hv, hp⟩ := create_report_view h.owned hu hstep hb
    rw [hv]
    refine (h.startup.fresh hu).inv fun he => h.startup.passed .hare ?_ (h.startup.enter .hare he)
    simp [hp, MainPc.stage]
  · rcases view_step h.startup h.owned hu hstep with hv | hv
    · rw [hv]; exact h.inv hu
    · exact (h.inv hu).step hr hv

theorem known {r : Race} (hr : r.Valid) {s : RaceSt} (hs : ReachIf (step (code r)) NoSpurious initial s) :
    Known r s :=
  hs.invariant ⟨initial_owned r, initial_startup r, fun hb => absurd rfl hb, fun w hw => by simp [initial] at hw⟩
    fun _ _ _ _ h hns hst => h.step hr hns hst

/-! ## The sequential race -/

/-- the race as a sequential program: one turn after the other, and nothing once there is a winner -/
def sequential (r : Race) : ℕ → Track
  | 0 => start r
  | n + 1 =>
    let s := sequential r n
    if s.noWinner ≠ 0 then body r (playerOf n) (currTimeAt (n / 3)) s else s

theorem sequential_eq {r : Race} (hr : r.Valid) (n : ℕ) : sequential r n = afterTurns r n := by
  induction n with
  | zero => rfl
  | succ n ih =>
    simp only [sequential, ih]
    by_cases hw : (afterTurns r n).noWinner = 0
    · rw [if_neg (by simp [hw]), afterTurns, turn_over (afterTurns_consistent hr n) hw]
    · rw [if_pos hw, afterTurns]
      simp [turn, hw]

/-- `x` has read that there is no winner, and has not signalled the Reporter since -/
def Acting (s : RaceSt) (x : Player) : Prop :=
  s.mode (.player x) = .run ∧ ∃ (h : List Lock) (b : PlayerBlock x h), s.pc (.player x) = .block true b

/-- the turns that the Reporter has seen completed -/
def turnsDone (s : RaceSt) : ℕ := (view s).turns

theorem Acting.role {s : RaceSt} {x : Player} (h : Acting s x) : ((view s).role x).Acting := by
  obtain ⟨hr, _, b, hp⟩ := h
  simp [view, hr, hp, roleOf, Role.Acting]

theorem acting_of_role {s : RaceSt} {x : Player} (h : ((view s).role x).Acting) : Acting s x := by
  obtain ⟨h', b, hb⟩ := h.cases
  simp only [view] at hb
  cases hm : s.mode (.player x) with
  | run =>
    refine ⟨hm, h', b, ?_⟩
    rw [hm] at hb
    cases hp : s.pc (.player x) <;> rw [hp] at hb <;> simp [roleOf] at hb
    obtain ⟨rfl, rfl, hb⟩ := hb
    rw [eq_of_heq hb]
  | _ => rw [hm] at hb; simp [roleOf] at hb

theorem turnsDone_step {r : Race} {s s' : RaceSt} {o : Op Thread} (h : Known r s)
    (hb : s.mode .report ≠ .unborn) (hns : NoSpurious s o) (hs : step (code r) s o = some s') :
    turnsDone s' = turnsDone s + if s.mode .report ≠ .woken ∧ s'.mode .report = .woken then 1 else 0 := by
  rcases view_step h.startup h.owned hb (race_step hns hs) with hv | hv
  · have hm : s'.mode .report = s.mode .report := congrArg View.reportMode hv
    simp [turnsDone, hv, hm]
  · exact (h.inv hb).turns_step hv

/-! ## Concrete runs -/

/-- `m` steps of `t` -/
def steps (t : Thread) (m : ℕ) : List (Op Thread) := List.replicate m (.exec t)

/-- `init` up to the creation of the Reporter, each player going to its wait as soon as it is created -/
def initTrace : List (Op Thread) :=
  let playerStart (x : Player) : List (Op Thread) := steps .main 1 ++ steps (.player x) 9 ++ steps .main 3
  steps .main 19 ++ playerStart .randomizer ++ playerStart .turtle ++ playerStart .hare ++ steps .main 1

/-- the Reporter calls `x`, whose turn takes `k` steps, and `x` takes `j` steps after its answer -/
def handshakeTrace (x : Player) (k j : ℕ) : List (Op Thread) :=
  [steps .report 1, [.wake .report (.player x)], steps .report 1, [.resume (.player x)], steps (.player x) (4 + k),
    [.wake (.player x) .report], steps (.player x) j, [.resume .report], steps .report 1].flatten

/-- Nobody moves in this race. -/
def standstill : Race := ⟨1, 0, 0, 0, 0, 1, []⟩

/-- the standstill with the Reporter at `p` and all players asleep -/
def resting (p : ReportPc) (n : ℤ) (currTime : Player → Int32) (printed : List (ℤ × ℤ × ℤ)) : RaceSt where
  mem := ⟨start standstill, n, currTime, fun _ => 1, fun _ => true, fun _ => true, printed⟩
  pc
    | .main => .joinPlayer .randomizer
    | .report => p
    | .player _ => .wait
  mode
    | .main | .report => .run
    | .player x => .waiting (.reporterToPlayer x)
  owner _ := none

def solicited (s : RaceSt) (o : Op Thread) : Bool := decide (NoSpurious s o)

theorem noSpurious_of_solicited (s : RaceSt) (o : Op Thread) (h : solicited s o = true) : NoSpurious s o :=
  of_decide_eq_true h

theorem race_st_ext {s s' : RaceSt} (hm : s.mem = s'.mem) (hp : ∀ t, s.pc t = s'.pc t) (hd : ∀ t, s.mode t = s'.mode t)
    (ho : ∀ l, s.owner l = s'.owner l) : s = s' := St.ext hm (funext hp) (funext hd) (funext ho)

/-- a race that the turtle wins in its first turn, run to its end -/
def oneTickTrace : List (Op Thread) :=
  [initTrace, steps .report 4, handshakeTrace .randomizer 0 5, steps .report 1, handshakeTrace .turtle 8 3,
    handshakeTrace .hare 0 3, steps .report 2, [.wake .report (.player .randomizer)], steps .report 9,
    [.resume (.player .randomizer)], steps (.player .randomizer) 8, steps .main 5].flatten

theorem standstill_init : ∃ s, runIf (step (code standstill)) solicited initial initTrace = some s ∧
    s = resting .loopTest (-1) (fun _ => 0) [] := by
  refine ⟨_, rfl, race_st_ext (Mem.ext rfl rfl rfl ?_ ?_ ?_ rfl) ?_ ?_ ?_⟩
  · funext x; cases x <;> rfl
  · funext l; rcases l with _ | x | x | _ | _ <;> (try cases x) <;> rfl
  · funext c; rcases c with x | x | x <;> cases x <;> rfl
  · rintro (_ | _ | _ | _ | _) <;> rfl
  · rintro (_ | _ | _ | _ | _) <;> rfl
  · rintro (_ | x | x | _ | _) <;> (try cases x) <;> rfl

theorem standstill_morning (n : ℤ) (ct : Player → Int32) (l : List (ℤ × ℤ × ℤ)) :
    ∃ s, runIf (step (code standstill)) solicited (resting .loopTest n ct l)
      (List.replicate 4 (.exec .report) ++ handshakeTrace .randomizer 0 5) = some s ∧
    s = resting .print (n + 1) (Function.update ct .randomizer (currTimeAt (n + 1))) l := by
  refine ⟨_, rfl, race_st_ext rfl ?_ ?_ ?_⟩
  · rintro (_ | _ | _ | _ | _) <;> rfl
  · rintro (_ | _ | _ | _ | _) <;> rfl
  · rintro (_ | x | x | _ | _) <;> (try cases x) <;> rfl

theorem standstill_print (n : ℤ) (ct : Player → Int32) (l : List (ℤ × ℤ × ℤ)) : ∃ l',
    step (code standstill) (resting .print n ct l) (.exec .report) = some (resting (.acquire .turtle) n ct l') := by
  have hd : standstill.printingDelay ≠ 0 := by decide
  by_cases hn : n.tmod standstill.printingDelay.toInt = 0
  · simp only [step, resting, code, reportCode, exec, hd, hn, if_true, if_false]
    refine ⟨_, congrArg some (race_st_ext rfl ?_ (fun _ => rfl) fun _ => rfl)⟩
    rintro (_ | _ | _) <;> rfl
  · simp only [step, resting, code, reportCode, exec, hd, hn, if_true, if_false]
    refine ⟨l, congrArg some (race_st_ext rfl ?_ (fun _ => rfl) fun _ => rfl)⟩
    rintro (_ | _ | _) <;> rfl

theorem standstill_evening (n : ℤ) (ct : Player → Int32) (l : List (ℤ × ℤ × ℤ)) :
    ∃ s, runIf (step (code standstill)) solicited (resting (.acquire .turtle) n ct l)
      (handshakeTrace .turtle 5 5 ++ handshakeTrace .hare 11 5 ++ [.exec .report]) = some s ∧
    s = resting .loopTest n (Function.update (Function.update ct .turtle (currTimeAt n)) .hare (currTimeAt n)) l := by
  refine ⟨_, rfl, race_st_ext rfl ?_ ?_ ?_⟩
  · rintro (_ | _ | _ | _ | _) <;> rfl
  · rintro (_ | _ | _ | _ | _) <;> rfl
  · rintro (_ | x | x | _ | _) <;> (try cases x) <;> rfl

/-- the standstill comes to every tick -/
theorem standstill_reaches (n : ℕ) : ∃ ct l,
    ReachIf (step (code standstill)) NoSpurious initial (resting .loopTest ((n : ℤ) - 1) ct l) := by
  induction n with
  | zero =>
    obtain ⟨_, h, rfl⟩ := standstill_init
    exact ⟨_, _, reachIf_of_runIf noSpurious_of_solicited h⟩
  | succ n ih =>
    obtain ⟨ct, l, ih⟩ := ih
    obtain ⟨_, h1, rfl⟩ := standstill_morning ((n : ℤ) - 1) ct l
    obtain ⟨l', h2⟩ := standstill_print ((n : ℤ) - 1 + 1) (Function.update ct .randomizer (currTimeAt (n - 1 + 1))) l
    obtain ⟨_, h3, rfl⟩ := standstill_evening ((n : ℤ) - 1 + 1)
      (Function.update ct .randomizer (currTimeAt (n - 1 + 1))) l'
    have hn : ((n + 1 : ℕ) : ℤ) - 1 = (n : ℤ) - 1 + 1 := by push_cast; ring
    rw [hn]
    exact ⟨_, _, ((ih.trans (reachIf_of_runIf noSpurious_of_solicited h1)).step (by simp [NoSpurious]) h2).trans
      (reachIf_of_runIf noSpurious_of_solicited h3)⟩

/-! ## Main result -/

/-- **The threads refine the sequential race.** In every run without spurious wake-ups, from the creation of the
Reporter on: at most one player acts; its `curr_time` is the clock tick, converted to an int; when nobody acts the track
is that of the sequential race after the completed turns; and the winner that `init` returns is its winner. -/
theorem threads_refine_sequential (r : Race) (hf : 0 < r.finishDistance.toInt) (hv : 0 ≤ r.tortoiseSpeed.toInt)
    (hh : 0 ≤ r.hareSpeed.toInt) {s : RaceSt} (hs : ReachIf (step (code r)) NoSpurious initial s)
    (hb : s.mode .report ≠ .unborn) :
    (∀ x y, Acting s x → Acting s y → x = y) ∧
    (∀ x, Acting s x → s.mem.currTime x = Int32.ofInt s.mem.clockTick) ∧
    ((∀ x, ¬ Acting s x) → s.mem.track = sequential r (turnsDone s)) ∧
    (∀ w, s.pc .main = .done w →
      (sequential r (turnsDone s)).noWinner = 0 ∧ w = (sequential r (turnsDone s)).overallWinner) := by
  have hr : r.Valid := ⟨hf, hv, hh⟩
  have hk := known hr hs
  have hi := hk.inv hb
  have hset : (∀ x, ¬ Acting s x) → s.mem.track = sequential r (turnsDone s) := fun hn => by
    rw [sequential_eq hr]
    exact hi.settled fun x hx => hn x (acting_of_role hx)
  refine ⟨fun x y hx hy => ?_, fun x hx => ?_, hset, fun w hw => ?_⟩
  · exact (hi.acting_engaged hx.role).unique (hi.acting_engaged hy.role)
  · have he := hi.acting_engaged hx.role
    refine (hi.seat x).timed he ?_
    obtain ⟨hm, _, b, hp⟩ := hx
    simp [view, hm, hp, roleOf, Role.Timed]
  · have he : s.mode .report = .exited := hk.startup.joined (by simp [hw, MainPc.stage])
    have hn : ∀ x, ¬ Acting s x := by
      intro x hx
      rcases (hi.acting_engaged hx.role).2 with hm | hm
      · rw [show (view s).reportMode = .exited from he] at hm; cases hm
      · rw [show (view s).reportMode = .exited from he] at hm; cases hm
    have hw0 : s.mem.track.noWinner = 0 := hi.shut (by
      rw [show (view s).report = .exit from hk.startup.exited he]; trivial)
    rw [← hset hn]
    exact ⟨hw0, hk.result w hw⟩

theorem threads_refine_sequential_example : ∃ s : RaceSt,
    ReachIf (step (code ⟨1, 5, 2, 3, 1, 5, []⟩)) NoSpurious initial s ∧ s.pc .main = .done 'T' ∧
      (sequential ⟨1, 5, 2, 3, 1, 5, []⟩ (turnsDone s)).overallWinner = 'T' := by
  have hend : (runIf (step (code ⟨1, 5, 2, 3, 1, 5, []⟩)) solicited initial oneTickTrace).map
      (fun s => ((s.pc .main : MainPc), s.mode .report)) = some (.done 'T', .exited) := by decide +kernel
  obtain ⟨s, hrun, he⟩ := Option.map_eq_some_iff.1 hend
  obtain ⟨hw, hm⟩ := Prod.mk.inj he
  have hs := reachIf_of_runIf noSpurious_of_solicited hrun
  have h := threads_refine_sequential ⟨1, 5, 2, 3, 1, 5, []⟩ (by decide) (by decide) (by decide) hs (by simp [hm])
  exact ⟨s, hs, hw, (h.2.2.2 'T' hw).2.symm⟩

/-- In tick 2^31 of the standstill the Randomizer acts with a negative `curr_time`. -/
theorem curr_time_is_not_the_tick : ∃ s : RaceSt, ReachIf (step (code ⟨1, 0, 0, 0, 0, 1, []⟩)) NoSpurious initial s ∧
    s.mode .report ≠ .unborn ∧ ∃ x, Acting s x ∧ (s.mem.currTime x).toInt ≠ s.mem.clockTick := by
  obtain ⟨ct, l, hs⟩ := standstill_reaches (2 ^ 31)
  obtain ⟨s, hrun, hs'⟩ : ∃ s, runIf (step (code standstill)) solicited
      (resting .loopTest (((2 ^ 31 : ℕ) : ℤ) - 1) ct l)
      (List.replicate 4 (.exec .report) ++ (handshakeTrace .randomizer 0 5).take 8) = some s ∧
      (s.mode .report ≠ .unborn ∧ Acting s .randomizer ∧ s.mem.clockTick = ((2 ^ 31 : ℕ) : ℤ) - 1 + 1 ∧
        s.mem.currTime .randomizer = currTimeAt (((2 ^ 31 : ℕ) : ℤ) - 1 + 1)) := by
    refine ⟨_, rfl, ?_, ⟨rfl, _, _, rfl⟩, rfl, rfl⟩
    intro h; cases h
  refine ⟨s, hs.trans (reachIf_of_runIf noSpurious_of_solicited hrun), hs'.1, .randomizer, hs'.2.1, ?_⟩
  rw [hs'.2.2.1, hs'.2.2.2]
  decide

end DecsLabs.HareTortoise
