/-
The threads of the race run to an end. A player that has answered goes to its next wait and does nothing more by itself, so
each call of the Reporter pays for one turn; and the Reporter makes a tick only while there is no winner.

- `rounds`: how many steps each thread has to go, up to its next wait or its end. The Reporter has those of all ticks that
  the sequential race has left.
- `race_terminates`: a bound on every run without spurious wake-ups, and the states in which no run goes on.
-/
import DecsLabs.Core.Rounds
import DecsLabs.Race.Arrival
import DecsLabs.Race.Deadlock
import DecsLabs.Race.Report

namespace DecsLabs.HareTortoise

open DecsLabs.Transition DecsLabs.Pthread

/-! ## What a thread has to go -/

/-- the longest turn of a player -/
def turnLength : ℕ := 14

def MainPc.left : MainPc → ℕ
  | .init todo => todo.length + 26
  | .create x => 6 * (2 - x.index) + 13
  | .acquire x => 6 * (2 - x.index) + 12
  | .testReached x => 6 * (2 - x.index) + 11
  | .wait x => 6 * (2 - x.index) + 10
  | .release x => 6 * (2 - x.index) + 8
  | .createReport => 7
  | .joinPlayer x => (2 - x.index) + 4
  | .joinReport => 3
  | .ret => 2
  | .done _ => 1

noncomputable def PlayerPc.left {x : Player} : PlayerPc x → ℕ
  | .enter => 9
  | .loopTest => 8
  | .reachedTest => 7
  | .mainAcquire => 6
  | .setReached => 5
  | .firstAcquire => 4
  | .mainSignal => 3
  | .mainRelease => 2
  | .acquire => 2
  | .wait => 1
  | .clockAcquire => turnLength + 14
  | .clockRead => turnLength + 13
  | .clockRelease => turnLength + 12
  | .test => turnLength + 11
  | .block _ b => b.depth + 10
  | .release => 9
  | .exit => 1

/-- without the ticks to come -/
def ReportPc.left : ReportPc → ℕ
  | .loopTest => 2
  | .clockAcquire => 205
  | .clockInc => 204
  | .clockRelease => 203
  | .acquire x => 34 * (2 - x.index) + if x = .randomizer then 134 else 133
  | .signal x => 34 * (2 - x.index) + if x = .randomizer then 133 else 132
  | .wait x => 34 * (2 - x.index) + if x = .randomizer then 103 else 102
  | .release x => 34 * (2 - x.index) + if x = .randomizer then 101 else 100
  | .print => 168
  | .crash => 0
  | .endTest => 99
  | .shutAcquire x => 32 * (2 - x.index) + 34
  | .shutSignal x => 32 * (2 - x.index) + 33
  | .shutRelease x => 32 * (2 - x.index) + 3
  | .exit => 1

/-- the ticks that are still to begin before tick `n` -/
def ReportPc.ticks (n : ℕ) (clockTick : ℤ) : ReportPc → ℕ
  | .clockAcquire | .clockInc => (n - (clockTick + 2)).toNat
  | _ => (n - (clockTick + 1)).toNat

noncomputable def left (n : ℕ) : ∀ t, Pc t → Mem → ℕ
  | .main, p, _ => p.left
  | .report, p, m => p.left + 204 * p.ticks n m.clockTick
  | .player _, p, _ => p.left

/-- what a sleeping thread keeps: a player nothing, the others all that comes after their wait -/
noncomputable def rest (r : Race) (n : ℕ) : ∀ t, Pc t → Mem → ℕ
  | .main, p, m => (mainCode p).afterWait fun q => left n .main q m
  | .report, p, m => (reportCode r p).afterWait fun q => left n .report q m
  | .player _, _, _ => 0

/-- the paths of the rest of a turn are of bounded length -/
def PlayerPc.Bounded {x : Player} : PlayerPc x → Prop
  | .block _ b => ∃ k, b.Within k
  | _ => True

/-- what has to be known of a thread at its point -/
def Funded (n : ℕ) : ∀ t, Pc t → Mem → Prop
  | .report, .loopTest, m => m.track.noWinner ≠ 0 → m.clockTick + 1 < n
  | .report, .crash, _ => False
  | .player _, p, _ => p.Bounded
  | _, _, _ => True

/-! ## The length of a turn -/

section
variable {r : Race} {x : Player} {h : List Lock} {get : Track → ℤ} {set : ℤ → Track → Track} {w : Char}
  {k : PlayerBlock x h} {n : ℕ}

theorem finishBlock_within (hk : k.Within n) : (finishBlock r get set w k).Within (n + 4) :=
  ⟨by omega, fun _ => Block.within_ite ⟨by omega, by omega, by omega, hk⟩ (hk.mono (by omega))⟩

theorem repositionBlock_within {d : ℤ} (hk : k.Within n) : (repositionBlock r get set w d k).Within (n + 7) := by
  refine ⟨by omega, fun _ => ⟨by omega, by omega, fun _ => Block.within_ite ?_ ?_⟩⟩
  · exact ⟨by omega, hk.mono (by omega)⟩
  · exact finishBlock_within hk

end

theorem turnBlock_within (r : Race) (x : Player) (c : Int32) (i : ℕ) : (turnBlock r x c i).Within turnLength := by
  cases x with
  | randomizer =>
    simp only [turnBlock, randomizerBlock]
    have hk : ∀ f : Track → Track, Block.Within (.store f .done : PlayerBlock .randomizer _) 1 := by
      intro f
      exact ⟨Nat.one_pos, trivial⟩
    split
    · refine Block.within_ite (Block.within_ite ?_ (Block.within_ite ?_ ?_)) trivial
      · exact (repositionBlock_within (hk _)).mono (by decide)
      · exact (repositionBlock_within (hk _)).mono (by decide)
      · exact (hk _).mono (by decide)
    · trivial
  | turtle =>
    have hk : Block.Within (.unlock (l := Lock.turtleDistance) (by decide) .done : PlayerBlock .turtle _) 1 :=
      ⟨Nat.one_pos, trivial⟩
    refine ⟨by decide, by decide, fun _ => ⟨by decide, ?_⟩⟩
    exact (finishBlock_within hk).mono (by decide)
  | hare =>
    have hsleep : Block.Within (.store (fun s => { s with hareSleepCounter := 0 }) <|
        .unlock (l := Lock.turtleDistance) (by decide) .done : PlayerBlock .hare _) 2 :=
      ⟨by decide, by decide, trivial⟩
    have hwork : ∀ k : PlayerBlock .hare [.turtleDistance, .playerReporter .hare], k.Within 2 →
        Block.Within (.unlock (l := Lock.hareDistance) (by decide) k) 3 := by
      intro k hk
      exact ⟨by decide, hk⟩
    refine ⟨by decide, fun _ => Block.within_ite ?_ ⟨by decide, fun _ => ⟨by decide, trivial⟩⟩⟩
    refine ⟨by decide, by decide, fun _ => ⟨by decide, fun _ => Block.within_ite ?_ (hsleep.mono (by decide))⟩⟩
    exact ⟨by decide, by decide, fun _ => ⟨by decide, finishBlock_within (hwork _ hsleep)⟩⟩

theorem overBlock_within (x : Player) : (overBlock x).Within turnLength := by
  cases x with
  | turtle =>
    refine ⟨by decide, fun _ => Block.within_ite ⟨by decide, fun _ => Block.within_ite ?_ trivial⟩ trivial⟩
    exact ⟨by decide, fun _ => ⟨by decide, fun _ => Block.within_ite ⟨by decide, trivial⟩ trivial⟩⟩
  | randomizer => trivial
  | hare => trivial

/-! ## One instruction -/

section
variable {r : Race} {m : Mem} {n : ℕ} {c : Cond} {l : Lock}

theorem main_wait {p q : MainPc} (h : mainCode p = .wait c l q) : ∃ x, p = .wait x ∧ c = .playerMain x ∧ q = .release x := by
  unfold mainCode at h
  split at h <;> cases h
  exact ⟨_, rfl, rfl, rfl⟩

theorem report_wait {p q : ReportPc} (h : reportCode r p = .wait c l q) :
    ∃ x, p = .wait x ∧ c = .playerToReporter x ∧ q = .release x := by
  unfold reportCode at h
  split at h <;> cases h
  exact ⟨_, rfl, rfl, rfl⟩

theorem player_wait {x : Player} {p q : PlayerPc x} (h : playerCode r x p = .wait c l q) :
    p = .wait ∧ c = .reporterToPlayer x ∧ q = .clockAcquire := by
  cases p with
  | block a b => cases b <;> cases h
  | wait =>
    cases h
    exact ⟨rfl, rfl, rfl⟩
  | _ => cases h

theorem report_signal {p q : ReportPc} (h : reportCode r p = .signal c l q) : ∃ x, c = .reporterToPlayer x ∧
    (p = .signal x ∧ q = .wait x ∨ p = .shutSignal x ∧ q = .shutRelease x) := by
  unfold reportCode at h
  split at h <;> cases h
  · exact ⟨_, rfl, .inl ⟨rfl, rfl⟩⟩
  · exact ⟨_, rfl, .inr ⟨rfl, rfl⟩⟩

theorem player_signal {x : Player} {p q : PlayerPc x} (h : playerCode r x p = .signal c l q) :
    (∀ y, c ≠ .reporterToPlayer y) ∧ q.left < p.left := by
  cases p with
  | block a b =>
    cases b <;> cases h
    exact ⟨by simp, by simp [PlayerPc.left]⟩
  | mainSignal =>
    cases h
    exact ⟨by simp, by simp [PlayerPc.left]⟩
  | _ => cases h

theorem main_left {p q : MainPc} (h : (mainCode p).next m = some q) (hw : ∀ c l q', mainCode p ≠ .wait c l q') :
    q.left < p.left := by
  unfold mainCode at h
  split at h <;> simp only [Instr.next, Option.some.injEq, reduceCtorEq] at h <;> subst h
  case h_7 => exact absurd rfl (hw _ _ _)
  case h_6 => split_ifs <;> simp [MainPc.left]
  all_goals simp [MainPc.left]

theorem report_left {p q : ReportPc} (hf : Funded n .report p m) (h : (reportCode r p).next m = some q)
    (hw : ∀ c l q', reportCode r p ≠ .wait c l q') (hd : r.printingDelay ≠ 0) :
    left n .report q ((reportCode r p).effect m) < left n .report p m := by
  cases p with
  | loopTest =>
    cases h
    simp only [reportCode, Instr.effect]
    split_ifs with hopen
    · have hlt := hf hopen
      simp only [left, ReportPc.left, ReportPc.ticks]
      omega
    · simp [left, ReportPc.left, ReportPc.ticks]
  | clockInc =>
    cases h
    simp only [left, ReportPc.left, ReportPc.ticks, reportCode, Instr.effect]
    omega
  | print =>
    cases h
    simp only [reportCode, Instr.effect, hd, if_false]
    split_ifs <;> simp [left, ReportPc.left, ReportPc.ticks]
  | endTest =>
    cases h
    simp only [reportCode, Instr.effect]
    split_ifs <;> simp [left, ReportPc.left, ReportPc.ticks]
  | crash => exact hf.elim
  | wait x => exact absurd rfl (hw _ _ _)
  | release x | shutRelease x =>
    cases x <;>
    · cases h
      simp [left, ReportPc.left, ReportPc.ticks, reportCode, Instr.effect]
  | exit => cases h
  | acquire x | signal x | shutAcquire x | shutSignal x =>
    cases h
    cases x <;> simp [left, ReportPc.left, ReportPc.ticks, reportCode, Instr.effect]
  | _ =>
    cases h
    simp [left, ReportPc.left, ReportPc.ticks, reportCode, Instr.effect]

theorem player_left {x : Player} {p q : PlayerPc x} (hf : p.Bounded) (h : (playerCode r x p).next m = some q)
    (hw : ∀ c l q', playerCode r x p ≠ .wait c l q') : q.left < p.left := by
  cases p with
  | block a b =>
    obtain ⟨k, hk⟩ := hf
    have hdepth := hk.depth
    cases b with
    | done =>
      cases h
      simp [PlayerPc.left]
    | load f k =>
      cases h
      exact Nat.add_lt_add_right (Block.depth_lt ⟨hdepth.1, hdepth.2 _⟩) 10
    | store | lock | unlock =>
      cases h
      exact Nat.add_lt_add_right (Block.depth_lt hdepth) 10
  | test =>
    cases h
    simp only
    split_ifs
    · exact Nat.add_lt_add_right (((turnBlock_within r x _ _).depth_le).trans_lt (Nat.lt_succ_self _)) 10
    · exact Nat.add_lt_add_right ((overBlock_within x).depth_le.trans_lt (Nat.lt_succ_self _)) 10
  | wait => exact absurd rfl (hw _ _ _)
  | loopTest | reachedTest =>
    cases h
    simp only
    split_ifs <;> simp [PlayerPc.left]
  | exit => cases h
  | _ =>
    cases h
    simp [PlayerPc.left, turnLength]

theorem left_frame (r : Race) (n : ℕ) {t u : Thread} (htu : t ≠ u) (p : Pc t) (p' : Pc u) (m : Mem) :
    left n u p' ((code r t p).effect m) = left n u p' m := by
  cases u with
  | report => simp only [left, (report_frame r htu p m).1]
  | main | player x => rfl

theorem rest_eq {t : Thread} {p q : Pc t} (ht : ∀ x, t ≠ .player x) (h : code r t p = .wait c l q) :
    rest r n t p m = left n t q m + 1 := by
  cases t with
  | player x => exact absurd rfl (ht x)
  | main =>
    have h : mainCode p = _ := h
    rw [rest, h]
    rfl
  | report =>
    have h : reportCode r p = _ := h
    rw [rest, h]
    rfl

/-- a thread that goes to sleep -/
theorem sleep_rest {t : Thread} {p q : Pc t} (h : code r t p = .wait c l q) : rest r n t p m < left n t p m := by
  cases t with
  | main =>
    rw [rest_eq (by simp) h]
    obtain ⟨x, rfl, -, rfl⟩ := main_wait h
    simp [left, MainPc.left]
  | report =>
    rw [rest_eq (by simp) h]
    obtain ⟨x, rfl, -, rfl⟩ := report_wait h
    cases x <;> simp [left, ReportPc.left, ReportPc.ticks] <;> omega
  | player x =>
    obtain ⟨rfl, -, -⟩ := player_wait h
    simp [rest, left, PlayerPc.left]

/-- a call of the Reporter pays for the turn of the thread that it wakes -/
theorem report_call {p q : ReportPc} {u : Thread} {p' q' : Pc u} {l' : Lock} (h : reportCode r p = .signal c l q)
    (hu : code r u p' = .wait c l' q') :
    left n .report q m + (left n u q' m + 1) < left n .report p m + rest r n u p' m := by
  obtain ⟨x, rfl, hp⟩ := report_signal h
  cases u with
  | main =>
    obtain ⟨y, -, hc, -⟩ := main_wait hu
    cases hc
  | report =>
    obtain ⟨y, -, hc, -⟩ := report_wait hu
    cases hc
  | player y =>
    obtain ⟨rfl, hc, rfl⟩ := player_wait hu
    rcases hp with ⟨rfl, rfl⟩ | ⟨rfl, rfl⟩
    · simp only [left, rest, ReportPc.left, ReportPc.ticks, PlayerPc.left, turnLength]
      split_ifs <;> omega
    · simp only [left, rest, ReportPc.left, ReportPc.ticks, PlayerPc.left, turnLength]
      omega

/-- a player calls `main` or the Reporter, who have kept what they need -/
theorem player_call {x : Player} {p q : PlayerPc x} {u : Thread} {p' q' : Pc u} {l' : Lock}
    (h : playerCode r x p = .signal c l q) (hu : code r u p' = .wait c l' q') :
    left n (.player x) q m + (left n u q' m + 1) < left n (.player x) p m + rest r n u p' m := by
  obtain ⟨hc, hlt⟩ := player_signal h
  have hlt' : left n (.player x) q m < left n (.player x) p m := hlt
  cases u with
  | main | report =>
    rw [rest_eq (by simp) hu]
    omega
  | player y => exact absurd (player_wait hu).2.1 (hc y)

theorem exit_left {t : Thread} {p : Pc t} (h : code r t p = .exit) : 0 < left n t p m := by
  cases t with
  | main => cases p <;> simp [left, MainPc.left]
  | report =>
    cases p with
    | release x | shutRelease x => cases x <;> cases h
    | exit => simp [left, ReportPc.left]
    | _ => cases h
  | player x => cases p <;> simp [left, PlayerPc.left, turnLength]

/-- cond_broadcast is not called -/
theorem no_broadcast {t : Thread} {p q : Pc t} : code r t p ≠ .broadcast c q := by
  intro h
  cases t with
  | main =>
    cases p with
    | init todo => rcases todo with _ | ⟨l | c, todo⟩ <;> cases h
    | release x | joinPlayer x => cases x <;> cases h
    | _ => cases h
  | report =>
    cases p with
    | release x | shutRelease x => cases x <;> cases h
    | _ => cases h
  | player x =>
    cases p with
    | block a b => cases b <;> cases h
    | _ => cases h

/-- **Rounds.** A call pays for the turn that it starts, and nothing else wakes a thread that has nothing to go. -/
theorem rounds (hd : r.printingDelay ≠ 0) : Rounds (code r) (Funded n) (left n) (rest r n) := by
  constructor
  case advance =>
    intro t p m q hf h hw
    cases t with
    | main => exact main_left h hw
    | report => exact report_left hf h hw hd
    | player x => exact player_left hf h hw
  case sleep => exact sleep_rest
  case call =>
    intro t p m c l q u p' l' q' _ h hu
    cases t with
    | main =>
      change mainCode p = _ at h
      unfold mainCode at h
      split at h <;> cases h
    | report => exact report_call h hu
    | player x => exact player_call h hu
  case exit => exact exit_left
  case frame =>
    intro t u p p' m htu
    refine ⟨(left_frame r n htu p p' m).le, ?_⟩
    cases u with
    | player y => exact le_rfl
    | main | report => exact Instr.afterWait_mono (fun q => (left_frame r n htu p q m).le) _
  case noBroadcast => exact no_broadcast

end

/-! ## Runs -/

variable {r : Race} {s s' : RaceSt} {n : ℕ}

/-- the rest of a bounded block is bounded -/
theorem player_bounded {x : Player} {p q : PlayerPc x} {m : Mem} (hf : p.Bounded)
    (h : (playerCode r x p).next m = some q) : q.Bounded := by
  cases p with
  | block a b =>
    obtain ⟨k, hk⟩ := hf
    cases b with
    | done =>
      cases h
      trivial
    | load f b =>
      cases h
      exact ⟨k - 1, hk.2 _⟩
    | store | lock | unlock =>
      cases h
      exact ⟨k - 1, hk.2⟩
  | test =>
    cases h
    simp only
    split_ifs
    · exact ⟨_, turnBlock_within r x _ _⟩
    · exact ⟨_, overBlock_within x⟩
  | loopTest | reachedTest =>
    cases h
    simp only
    split_ifs <;> trivial
  | exit => cases h
  | _ =>
    cases h
    trivial

theorem players_bounded (hs : ReachIf (step (code r)) NoSpurious initial s) (x : Player) :
    (s.pc (.player x) : PlayerPc x).Bounded := by
  revert x
  apply hs.invariant (I := fun s => ∀ x : Player, (s.pc (.player x) : PlayerPc x).Bounded)
  · intro x
    trivial
  intro s o s' _ ih _ hst x
  have hstep := step_move hst
  by_cases ho : o.thread = .player x
  · rcases hstep.pc_self ho with hp | hq
    · rw [hp]
      exact ih x
    · exact player_bounded (ih x) hq
  · rw [hstep.pc_of_ne (Ne.symm ho)]
    exact ih x

theorem not_crashed (hr : r.Valid) (hd : r.printingDelay ≠ 0) (hs : ReachIf (step (code r)) NoSpurious initial s) :
    s.pc .report ≠ .crash := by
  apply hs.invariant (I := fun s => s.pc .report ≠ .crash)
  · simp [initial]
  intro s o s' hs ih hns hst
  exact alive_step hd (known hr hs).owned ih (race_step hns hst)

/-- the Reporter comes to its loop test without a winner only before the sequential race is over -/
theorem tick_left (hr : r.Valid) (hn : (sequential r (3 * n)).noWinner = 0)
    (hs : ReachIf (step (code r)) NoSpurious initial s) (hb : s.mode .report ≠ .unborn) (hp : s.pc .report = .loopTest)
    (hopen : s.mem.track.noWinner ≠ 0) : s.mem.clockTick + 1 < n := by
  have hi := (known hr hs).inv hb
  have hsettled : s.mem.track = afterTurns r (view s).turns := hi.between (View.not_engaged (by simp [view, hp]))
  have hclock : -1 ≤ s.mem.clockTick := hi.clock
  have hturns : (view s).turns = (3 * (s.mem.clockTick + 1)).toNat := by
    simp [View.turns, view, hp, turnsAt]
  by_contra hlt
  rw [sequential_eq hr] at hn
  have hle : 3 * n ≤ (view s).turns := by omega
  rw [hsettled, afterTurns_over hr hle hn] at hopen
  exact hopen hn

theorem funded (hr : r.Valid) (hd : r.printingDelay ≠ 0) (hn : (sequential r (3 * n)).noWinner = 0)
    (hs : ReachIf (step (code r)) NoSpurious initial s) (t : Thread) (ht : s.mode t = .run) :
    Funded n t (s.pc t) s.mem := by
  cases t with
  | main => trivial
  | player x => exact players_bounded hs x
  | report =>
    have hcrash := not_crashed hr hd hs
    cases hp : s.pc .report with
    | loopTest => exact tick_left hr hn hs (by simp [ht]) hp
    | crash => exact absurd hp hcrash
    | _ => trivial

theorem initial_toGo (r : Race) (n : ℕ) : ∑ t, toGo (code r) (left n) (rest r n) initial t = 204 * n + 73 := by
  have huniv : (Finset.univ : Finset Thread) =
      {.main, .report, .player .randomizer, .player .turtle, .player .hare} := rfl
  rw [huniv]
  simp [toGo, initial, left, MainPc.left, PlayerPc.left, ReportPc.left, ReportPc.ticks, initCalls]
  omega

/-! ## The end of a run -/

/-- all threads have left, and `init` has returned `w` -/
def Finished (s : RaceSt) (w : Char) : Prop := (∀ t, s.mode t = .exited) ∧ s.pc .main = .done w

/-- a call has been lost: the Reporter waits for `x`, which does not answer any more, or it has left and `x` waits -/
def Stranded (s : RaceSt) (x : Player) : Prop :=
  s.mode .report = .waiting (.playerToReporter x) ∧
    (s.mode (.player x) = .waiting (.reporterToPlayer x) ∨ s.mode (.player x) = .exited) ∨
  s.mode .report = .exited ∧ s.mode (.player x) = .waiting (.reporterToPlayer x)

theorem sequential_final (hr : r.Valid) {a b : ℕ} (ha : (sequential r a).noWinner = 0) (hb : (sequential r b).noWinner = 0) :
    sequential r a = sequential r b := by
  rw [sequential_eq hr] at ha hb
  rw [sequential_eq hr, sequential_eq hr]
  rcases le_total a b with hab | hab
  · exact (afterTurns_over hr hab ha).symm
  · exact afterTurns_over hr hab hb

/-- who has left has the result of the sequential race behind him -/
theorem finished (hr : r.Valid) (hn : (sequential r n).noWinner = 0) (hs : ReachIf (step (code r)) NoSpurious initial s)
    (hall : ∀ t, s.mode t = .exited) : Finished s (sequential r n).overallWinner := by
  have hk := known hr hs
  have hi := hk.inv (by simp [hall])
  have hp : s.pc .report = .exit := hk.startup.exited (hall _)
  have hover : s.mem.track.noWinner = 0 := by
    apply hi.shut
    rw [show (view s).report = .exit from hp]
    trivial
  have htrack : s.mem.track = sequential r (view s).turns := by
    rw [sequential_eq hr]
    exact hi.between (View.not_engaged (by simp [view, hp]))
  have hsame : s.mem.track = sequential r n := by
    rw [htrack]
    exact sequential_final hr (htrack ▸ hover) hn
  refine ⟨hall, ?_⟩
  have hstart : ∀ t, initial.mode t ≠ .exited := by
    intro t
    cases t <;> simp [initial]
  have hexit := exited_at hstart hs .main (hall _)
  cases hm : s.pc .main with
  | done w => rw [hk.result w hm, hsame]
  | init todo =>
    rw [hm] at hexit
    rcases todo with _ | ⟨l | c, todo⟩ <;> cases hexit
  | release x | joinPlayer x =>
    rw [hm] at hexit
    cases x <;> cases hexit
  | _ =>
    rw [hm] at hexit
    cases hexit

/-- **Ends.** When no thread can move, all have left or a call has been lost. -/
theorem stuck_state (hr : r.Valid) (hs : ReachIf (step (code r)) NoSpurious initial s)
    (hno : ∀ t, ¬ Enabled (code r) s t) : (∀ t, s.mode t = .exited) ∨ ∃ x, Stranded s x := by
  have hb : s.mode .report ≠ .unborn := by
    intro hu
    obtain ⟨t, ht⟩ := init_live (opening hs) hu
    exact hno t ht
  have hk := known hr hs
  have hstuck : ∀ t, t ≠ .main → s.mode t = .exited ∨ ∃ c, s.mode t = .waiting c := fun t ht =>
    stuck_cases hk.startup hk.owned hb (fun u _ => hno u) ht
  have hplayer : ∀ x : Player, s.mode (.player x) = .exited ∨ s.mode (.player x) = .waiting (.reporterToPlayer x) := by
    intro x
    refine (hstuck (.player x) (by simp)).imp_right ?_
    rintro ⟨c, hc⟩
    have hw := waits_on hk.owned.atWait hc
    cases c with
    | reporterToPlayer y =>
      obtain rfl : x = y := by simpa using hw.1
      exact hc
    | _ => cases hw.1
  rcases hstuck .report (by simp) with he | ⟨c, hc⟩
  · by_cases hall : ∀ x : Player, s.mode (.player x) = .exited
    · left
      have hothers : ∀ t, t ≠ .main → s.mode t = .exited := by
        intro t ht
        cases t with
        | main => exact absurd rfl ht
        | report => exact he
        | player x => exact hall x
      intro t
      by_cases ht : t = .main
      · rw [ht]
        exact (main_joins hk hothers).resolve_right (hno _)
      · exact hothers t ht
    · push Not at hall
      obtain ⟨x, hx⟩ := hall
      exact .inr ⟨x, .inr ⟨he, (hplayer x).resolve_left hx⟩⟩
  · have hw := waits_on hk.owned.atWait hc
    cases c with
    | playerToReporter x => exact .inr ⟨x, .inl ⟨hc, (hplayer x).symm⟩⟩
    | _ => cases hw.1

/-- in a run that loses no call nobody is stranded -/
theorem Live.not_stranded (h : Live r s) (hb : s.mode .report ≠ .unborn) (x : Player) : ¬ Stranded s x := by
  have hp := h.paced hb
  rintro (⟨hm, hx⟩ | ⟨he, hx⟩)
  · have hwait : s.pc .report = .wait x := (waits_on h.known.owned.atWait hm).2
    have hawake := hp.engaged x ⟨hwait, .inr hm⟩
    rcases hx with e | e <;> simp [view, e, roleOf, Role.Awake] at hawake
  · have hpc := h.known.startup.exited he
    have hout := (hp.dismissed x (by simp [View.Dismissed, view, hpc])).2
    simp [view, hx, roleOf] at hout

/-- **The threads run to an end.** If the sequential race is over after `n` ticks, no run without spurious wake-ups is longer
than 204 n + 73 steps. When no thread can move, all have left and `init` has returned the winner of the sequential race, or
a call of the Reporter has been lost; and in a run that loses no call it is the former. -/
theorem race_terminates (r : Race) (hf : 0 < r.finishDistance.toInt) (hv : 0 ≤ r.tortoiseSpeed.toInt)
    (hh : 0 ≤ r.hareSpeed.toInt) (hd : r.printingDelay ≠ 0) {n : ℕ} (hn : (sequential r (3 * n)).noWinner = 0)
    {os : List (Op Thread)} {s : RaceSt} (hok : ∀ o ∈ os, ∀ t, o ≠ .spurious t)
    (h : run (step (code r)) initial os = some s) :
    os.length ≤ 204 * n + 73 ∧
    ((∀ t, ¬ Enabled (code r) s t) → Finished s (sequential r (3 * n)).overallWinner ∨ ∃ x, Stranded s x) ∧
    (Along (step (code r)) CallsHeard initial os → (∀ t, ¬ Enabled (code r) s t) →
      Finished s (sequential r (3 * n)).overallWinner) := by
  have hr : r.Valid := ⟨hf, hv, hh⟩
  have hs : ReachIf (step (code r)) NoSpurious initial s := (along_of_forall (fun o ho _ => hok o ho) initial).reach h
  have hends : (∀ t, ¬ Enabled (code r) s t) → Finished s (sequential r (3 * n)).overallWinner ∨ ∃ x, Stranded s x :=
    fun hno => (stuck_state hr hs hno).imp_left (finished hr hn hs)
  refine ⟨?_, hends, fun hheard hno => ?_⟩
  · rw [← initial_toGo r n]
    exact (rounds hd).run_bounded (fun _ hs => (known hr hs).owned.atWait) (fun _ hs => funded hr hd hn hs) hok h
  · refine (hends hno).resolve_right ?_
    rintro ⟨x, hx⟩
    refine (live hr hd (hheard.reach h)).not_stranded ?_ x hx
    rcases hx with ⟨hm, -⟩ | ⟨hm, -⟩ <;> simp [hm]

theorem race_terminates_example : ∃ s : RaceSt,
    run (step (code ⟨1, 5, 2, 3, 1, 5, []⟩)) initial (oneTickTrace ++ steps .main 1) = some s ∧
      (oneTickTrace ++ steps .main 1).length ≤ 277 ∧ Finished s 'T' := by
  have hend : (run (step (code ⟨1, 5, 2, 3, 1, 5, []⟩)) initial (oneTickTrace ++ steps .main 1)).any
      (fun s => ∀ t, ¬ Enabled (code ⟨1, 5, 2, 3, 1, 5, []⟩) s t) = true := by decide +kernel
  have hheard : Along (step (code ⟨1, 5, 2, 3, 1, 5, []⟩)) CallsHeard initial (oneTickTrace ++ steps .main 1) := by
    decide +kernel
  obtain ⟨s, hrun, hno⟩ := (Option.any_eq_true ..).1 hend
  have h := race_terminates ⟨1, 5, 2, 3, 1, 5, []⟩ (by decide) (by decide) (by decide) (by decide) (n := 1) (by decide)
    (by decide +kernel) hrun
  exact ⟨s, hrun, h.1, h.2.2 hheard (of_decide_eq_true hno)⟩

end DecsLabs.HareTortoise
