/-
What each thread of the race can do in one step. Most steps are quiet: they take or release a mutex or read a variable,
and change nothing but the program counter; the functions `next` say where they go. The others are listed one by one.
A wake-up that nobody asked for is not a step of any thread here.

- `player_step`, `report_step`, `main_step`: the inversion of a step, by its thread.
- `waits_on`: who can wait on which condition variable, and where.
- `others_blocked`: how a thread other than `main` can be stuck when every lock is free.
-/
import DecsLabs.Race.Threads

namespace DecsLabs.HareTortoise

open DecsLabs.Pthread

/-! ## Steps -/

/-- the quiet steps of a player outside its turn -/
def PlayerPc.next {x : Player} (m : Mem) : PlayerPc x → Option (PlayerPc x)
  | .loopTest => some (if m.track.noWinner ≠ 0 then .reachedTest else .exit)
  | .reachedTest => some (if m.reached x = 0 then .mainAcquire else .acquire)
  | .mainAcquire => some .setReached
  | .firstAcquire => some .mainSignal
  | .mainSignal => some .mainRelease
  | .mainRelease => some .wait
  | .acquire => some .wait
  | .clockAcquire => some .clockRead
  | .clockRelease => some .test
  | .release => some .loopTest
  | _ => none

/-- the quiet steps of the Reporter -/
def ReportPc.next (r : Race) (noWinner : ℤ) : ReportPc → Option ReportPc
  | .loopTest => some (if noWinner ≠ 0 then .clockAcquire else .exit)
  | .clockAcquire => some .clockInc
  | .clockRelease => some (.acquire .randomizer)
  | .acquire x => some (.signal x)
  | .release .randomizer => some .print
  | .release .turtle => some (.acquire .hare)
  | .release .hare => some .endTest
  | .print => some (if r.printingDelay = 0 then .crash else .acquire .turtle)
  | .crash => some .crash
  | .endTest => some (if noWinner = 0 then .shutAcquire .randomizer else .loopTest)
  | .shutAcquire x => some (.shutSignal x)
  | .shutRelease .randomizer => some (.shutAcquire .turtle)
  | .shutRelease .turtle => some (.shutAcquire .hare)
  | .shutRelease .hare => some .loopTest
  | _ => none

/-- the quiet steps of `main`: those that change no variable but the initialisation flags -/
def MainPc.next (m : Mem) : MainPc → Option MainPc
  | .init [] => some (.create .randomizer)
  | .init (_ :: todo) => some (.init todo)
  | .acquire x => some (.testReached x)
  | .testReached x => some (if m.reached x = 0 then .wait x else .release x)
  | .release .randomizer => some (.create .turtle)
  | .release .turtle => some (.create .hare)
  | .release .hare => some .createReport
  | .ret => some (.done m.track.overallWinner)
  | _ => none

inductive PlayerStep (r : Race) (x : Player) (s : RaceSt) : RaceSt → Prop
  | quiet {q : PlayerPc x} (w) (hr : s.mode (.player x) = .run) (hq : (s.pc (.player x)).next s.mem = some q) :
    PlayerStep r x s { s.goto (.player x) q with owner := w }
  | enter (hr : s.mode (.player x) = .run) (hp : s.pc (.player x) = .enter) :
    PlayerStep r x s
      { s.goto (.player x) .loopTest with mem := { s.mem with track := enterTrack r x s.mem.track } }
  | setReached (hr : s.mode (.player x) = .run) (hp : s.pc (.player x) = .setReached) :
    PlayerStep r x s
      { s.goto (.player x) .firstAcquire with mem := { s.mem with reached := Function.update s.mem.reached x 1 } }
  | clockRead (hr : s.mode (.player x) = .run) (hp : s.pc (.player x) = .clockRead) :
    PlayerStep r x s { s.goto (.player x) .clockRelease with
      mem := { s.mem with currTime := Function.update s.mem.currTime x (currTimeAt s.mem.clockTick) } }
  | test (hr : s.mode (.player x) = .run) (hp : s.pc (.player x) = .test) :
    PlayerStep r x s (s.goto (.player x)
      (if s.mem.track.noWinner ≠ 0 then .block true (turnBlock r x (s.mem.currTime x) s.mem.track.arrayIndex)
        else .block false (overBlock x)))
  | access {a : Bool} {h h' : List Lock} {b : PlayerBlock x h} (b' : PlayerBlock x h') (t : Track) (w)
    (hr : s.mode (.player x) = .run) (hp : s.pc (.player x) = .block a b) (he : b'.eval t = b.eval s.mem.track)
    (hs : b.Silent s.mem.track → b'.Silent t ∧ t = s.mem.track) :
    PlayerStep r x s { s.goto (.player x) (.block a b') with mem := { s.mem with track := t }, owner := w }
  | drop {a : Bool} (hr : s.mode (.player x) = .run) (hp : s.pc (.player x) = .block a .done)
    (hn : ∀ u, s.mode u ≠ .waiting (.playerToReporter x)) : PlayerStep r x s (s.goto (.player x) .release)
  | answer {a : Bool} {u : Thread} (hr : s.mode (.player x) = .run) (hp : s.pc (.player x) = .block a .done)
    (hu : s.mode u = .waiting (.playerToReporter x)) :
    PlayerStep r x s { s.goto (.player x) .release with mode := Function.update s.mode u .woken }
  | wakeMain {u : Thread} (hr : s.mode (.player x) = .run) (hp : s.pc (.player x) = .mainSignal)
    (hu : s.mode u = .waiting (.playerMain x)) :
    PlayerStep r x s { s.goto (.player x) .mainRelease with mode := Function.update s.mode u .woken }
  | sleep (w) (hr : s.mode (.player x) = .run) (hp : s.pc (.player x) = .wait) :
    PlayerStep r x s { s with
      owner := w, mode := Function.update s.mode (.player x) (.waiting (.reporterToPlayer x)) }
  | resume (w) (hm : s.mode (.player x) = .woken) (hp : s.pc (.player x) = .wait) :
    PlayerStep r x s { s.goto (.player x) .clockAcquire with
      owner := w, mode := Function.update s.mode (.player x) .run }
  | exit (hr : s.mode (.player x) = .run) (hp : s.pc (.player x) = .exit) :
    PlayerStep r x s { s with mode := Function.update s.mode (.player x) .exited }

inductive ReportStep (r : Race) (s : RaceSt) : RaceSt → Prop
  | quiet {q : ReportPc} (w l) (hr : s.mode .report = .run)
    (hq : (s.pc .report).next r s.mem.track.noWinner = some q) :
    ReportStep r s { s.goto .report q with owner := w, mem := { s.mem with printed := l } }
  | tick (hr : s.mode .report = .run) (hp : s.pc .report = .clockInc) :
    ReportStep r s
      { s.goto .report .clockRelease with mem := { s.mem with clockTick := s.mem.clockTick + 1 } }
  | miss {x : Player} (hr : s.mode .report = .run) (hp : s.pc .report = .signal x)
    (hn : ∀ u, s.mode u ≠ .waiting (.reporterToPlayer x)) : ReportStep r s (s.goto .report (.wait x))
  | call {x : Player} {u : Thread} (hr : s.mode .report = .run) (hp : s.pc .report = .signal x)
    (hu : s.mode u = .waiting (.reporterToPlayer x)) :
    ReportStep r s { s.goto .report (.wait x) with mode := Function.update s.mode u .woken }
  | await {x : Player} (w) (hr : s.mode .report = .run) (hp : s.pc .report = .wait x) :
    ReportStep r s { s with owner := w, mode := Function.update s.mode .report (.waiting (.playerToReporter x)) }
  | resume {x : Player} (w) (hm : s.mode .report = .woken) (hp : s.pc .report = .wait x) :
    ReportStep r s { s.goto .report (.release x) with owner := w, mode := Function.update s.mode .report .run }
  | dismissMiss {x : Player} (hr : s.mode .report = .run) (hp : s.pc .report = .shutSignal x)
    (hn : ∀ u, s.mode u ≠ .waiting (.reporterToPlayer x)) : ReportStep r s (s.goto .report (.shutRelease x))
  | dismiss {x : Player} {u : Thread} (hr : s.mode .report = .run) (hp : s.pc .report = .shutSignal x)
    (hu : s.mode u = .waiting (.reporterToPlayer x)) :
    ReportStep r s { s.goto .report (.shutRelease x) with mode := Function.update s.mode u .woken }
  | exit (hr : s.mode .report = .run) (hp : s.pc .report = .exit) :
    ReportStep r s { s with mode := Function.update s.mode .report .exited }

inductive MainStep (s : RaceSt) : RaceSt → Prop
  | quiet {q : MainPc} (w li ci) (hr : s.mode .main = .run) (hq : (s.pc .main).next s.mem = some q) :
    MainStep s { s.goto .main q with owner := w, mem := { s.mem with lockInit := li, condInit := ci } }
  | create {t : Thread} {q : MainPc} (hr : s.mode .main = .run) (hp : mainCode (s.pc .main) = .create t q)
    (ht : s.mode t = .unborn) : MainStep s { s.goto .main q with mode := Function.update s.mode t .run }
  | join {t : Thread} {q : MainPc} (hr : s.mode .main = .run) (hp : mainCode (s.pc .main) = .join t q)
    (ht : s.mode t = .exited) : MainStep s (s.goto .main q)
  | sleep {x : Player} (w) (hr : s.mode .main = .run) (hp : s.pc .main = .wait x) :
    MainStep s { s with owner := w, mode := Function.update s.mode .main (.waiting (.playerMain x)) }
  | resume {x : Player} (w) (hm : s.mode .main = .woken) (hp : s.pc .main = .wait x) :
    MainStep s { s.goto .main (.release x) with owner := w, mode := Function.update s.mode .main .run }
  | exit {w : Char} (hr : s.mode .main = .run) (hp : s.pc .main = .done w) :
    MainStep s { s with mode := Function.update s.mode .main .exited }

/-! ## Inversion -/

theorem block_step {r : Race} {x : Player} {s s' : RaceSt} {a : Bool} {h : List Lock} {b : PlayerBlock x h}
    (hr : s.mode (.player x) = .run) (hp : s.pc (.player x) = .block a b)
    (hs : exec s (.player x) (blockCode a b) = some s') : PlayerStep r x s s' := by
  cases b with
  | done =>
    simp only [blockCode, exec] at hs
    split_ifs at hs with hn
    cases hs
    exact .drop hr hp hn
  | load f k => cases hs; exact .access (k (f s.mem.track)) s.mem.track s.owner hr hp rfl fun hb => ⟨hb, rfl⟩
  | store f k => cases hs; exact .access k (f s.mem.track) s.owner hr hp rfl fun hb => hb.elim
  | lock l hl k =>
    simp only [blockCode, exec] at hs
    split_ifs at hs with ho
    cases hs
    exact .access k s.mem.track _ hr hp rfl fun hb => ⟨hb, rfl⟩
  | unlock hl k => cases hs; exact .access k s.mem.track _ hr hp rfl fun hb => ⟨hb, rfl⟩

theorem player_exec {r : Race} {x : Player} {s s' : RaceSt} (h : step (code r) s (.exec (.player x)) = some s') :
    PlayerStep r x s s' := by
  simp only [step] at h
  split_ifs at h with hr
  cases hp : s.pc (.player x) with
  | block a b => rw [hp] at h; exact block_step hr hp h
  | enter => rw [hp] at h; cases h; exact .enter hr hp
  | setReached => rw [hp] at h; cases h; exact .setReached hr hp
  | clockRead => rw [hp] at h; cases h; exact .clockRead hr hp
  | test => rw [hp] at h; cases h; exact .test hr hp
  | exit => rw [hp] at h; cases h; exact .exit hr hp
  | wait => rw [hp] at h; cases h; exact .sleep _ hr hp
  | loopTest | reachedTest | mainRelease | clockRelease | release =>
    rw [hp] at h; cases h; exact .quiet _ hr (by rw [hp]; rfl)
  | mainAcquire | firstAcquire | acquire | clockAcquire =>
    simp only [hp, code, playerCode, exec] at h
    split_ifs at h
    cases h; exact .quiet _ hr (by rw [hp]; rfl)
  | mainSignal =>
    simp only [hp, code, playerCode, exec] at h
    split_ifs at h
    cases h; exact .quiet _ hr (by rw [hp]; rfl)

theorem player_wake {r : Race} {x : Player} {u : Thread} {s s' : RaceSt}
    (h : step (code r) s (.wake (.player x) u) = some s') : PlayerStep r x s s' := by
  cases hp : s.pc (.player x) with
  | mainSignal =>
    simp only [step, hp, code, playerCode] at h
    split_ifs at h with hg
    cases h; exact .wakeMain hg.1 hp hg.2
  | block a b =>
    cases b with
    | done =>
      simp only [step, hp, code, playerCode, blockCode] at h
      split_ifs at h with hg
      cases h; exact .answer hg.1 hp hg.2
    | _ => simp [step, hp, code, playerCode, blockCode] at h
  | _ => simp [step, hp, code, playerCode] at h

theorem player_resume {r : Race} {x : Player} {s s' : RaceSt} (h : step (code r) s (.resume (.player x)) = some s') :
    PlayerStep r x s s' := by
  cases hp : s.pc (.player x) with
  | wait =>
    simp only [step, hp, code, playerCode] at h
    split_ifs at h with hg
    cases h; exact .resume _ hg.1 hp
  | block a b => cases b <;> simp [step, hp, code, playerCode, blockCode] at h
  | _ => simp [step, hp, code, playerCode] at h

theorem report_exec {r : Race} {s s' : RaceSt} (h : step (code r) s (.exec .report) = some s') :
    ReportStep r s s' := by
  simp only [step] at h
  split_ifs at h with hr
  cases hp : s.pc .report with
  | exit => rw [hp] at h; cases h; exact .exit hr hp
  | clockInc => rw [hp] at h; cases h; exact .tick hr hp
  | wait x => rw [hp] at h; cases h; exact .await _ hr hp
  | signal x =>
    simp only [hp, code, reportCode, exec] at h
    split_ifs at h with hn
    cases h; exact .miss hr hp hn
  | shutSignal x =>
    simp only [hp, code, reportCode, exec] at h
    split_ifs at h with hn
    cases h; exact .dismissMiss hr hp hn
  | print =>
    simp only [hp, code, reportCode, exec] at h
    split_ifs at h with h0 h1
    · cases h; exact .quiet _ _ hr (by rw [hp]; simp [ReportPc.next, h0])
    · cases h; exact .quiet _ _ hr (by rw [hp]; simp [ReportPc.next, h0])
    · cases h; exact .quiet _ _ hr (by rw [hp]; simp [ReportPc.next, h0])
  | loopTest | clockRelease | crash | endTest =>
    rw [hp] at h; cases h; exact .quiet _ s.mem.printed hr (by rw [hp]; rfl)
  | release x | shutRelease x =>
    cases x <;> (rw [hp] at h; cases h; exact .quiet _ s.mem.printed hr (by rw [hp]; rfl))
  | clockAcquire | acquire x | shutAcquire x =>
    simp only [hp, code, reportCode, exec] at h
    split_ifs at h
    cases h; exact .quiet _ s.mem.printed hr (by rw [hp]; rfl)

theorem report_wake {r : Race} {u : Thread} {s s' : RaceSt} (h : step (code r) s (.wake .report u) = some s') :
    ReportStep r s s' := by
  cases hp : s.pc .report with
  | signal x =>
    simp only [step, hp, code, reportCode] at h
    split_ifs at h with hg
    cases h; exact .call hg.1 hp hg.2
  | shutSignal x =>
    simp only [step, hp, code, reportCode] at h
    split_ifs at h with hg
    cases h; exact .dismiss hg.1 hp hg.2
  | release x | shutRelease x => cases x <;> simp [step, hp, code, reportCode] at h
  | _ => simp [step, hp, code, reportCode] at h

theorem report_resume {r : Race} {s s' : RaceSt} (h : step (code r) s (.resume .report) = some s') :
    ReportStep r s s' := by
  cases hp : s.pc .report with
  | wait x =>
    simp only [step, hp, code, reportCode] at h
    split_ifs at h with hg
    cases h; exact .resume _ hg.1 hp
  | release x | shutRelease x => cases x <;> simp [step, hp, code, reportCode] at h
  | _ => simp [step, hp, code, reportCode] at h

theorem main_exec {r : Race} {s s' : RaceSt} (h : step (code r) s (.exec .main) = some s') : MainStep s s' := by
  simp only [step] at h
  split_ifs at h with hr
  cases hp : s.pc .main with
  | done w => rw [hp] at h; cases h; exact .exit hr hp
  | wait x => rw [hp] at h; cases h; exact .sleep _ hr hp
  | init todo =>
    rcases todo with _ | ⟨l | c, todo⟩ <;>
      (rw [hp] at h; cases h; exact .quiet s.owner _ _ hr (by rw [hp]; rfl))
  | testReached x | ret =>
    rw [hp] at h; cases h; exact .quiet s.owner s.mem.lockInit s.mem.condInit hr (by rw [hp]; rfl)
  | release x =>
    cases x <;> (rw [hp] at h; cases h; exact .quiet _ s.mem.lockInit s.mem.condInit hr (by rw [hp]; rfl))
  | acquire x =>
    simp only [hp, code, mainCode, exec] at h
    split_ifs at h
    cases h; exact .quiet _ s.mem.lockInit s.mem.condInit hr (by rw [hp]; rfl)
  | create x | createReport =>
    simp only [hp, code, mainCode, exec] at h
    split_ifs at h with hu
    cases h; exact .create hr (by rw [hp]; rfl) hu
  | joinReport =>
    simp only [hp, code, mainCode, exec] at h
    split_ifs at h with hu
    cases h; exact .join hr (by rw [hp]; rfl) hu
  | joinPlayer x =>
    cases x <;>
    · simp only [hp, code, mainCode, exec] at h
      split_ifs at h with hu
      cases h; exact .join hr (by rw [hp]; rfl) hu

theorem main_wake {r : Race} {u : Thread} {s s' : RaceSt} (h : step (code r) s (.wake .main u) = some s') : False := by
  cases hp : s.pc .main with
  | init todo => rcases todo with _ | ⟨l | c, todo⟩ <;> simp [step, hp, code, mainCode] at h
  | release x | joinPlayer x => cases x <;> simp [step, hp, code, mainCode] at h
  | _ => simp [step, hp, code, mainCode] at h

theorem main_resume {r : Race} {s s' : RaceSt} (h : step (code r) s (.resume .main) = some s') : MainStep s s' := by
  cases hp : s.pc .main with
  | wait x =>
    simp only [step, hp, code, mainCode] at h
    split_ifs at h with hg
    cases h; exact .resume _ hg.1 hp
  | init todo => rcases todo with _ | ⟨l | c, todo⟩ <;> simp [step, hp, code, mainCode] at h
  | release x | joinPlayer x => cases x <;> simp [step, hp, code, mainCode] at h
  | _ => simp [step, hp, code, mainCode] at h

inductive RaceStep (r : Race) (s s' : RaceSt) : Prop
  | main (h : MainStep s s')
  | report (h : ReportStep r s s')
  | player (x : Player) (h : PlayerStep r x s s')

/-- **Inversion.** A step that is not a spurious wake-up is a step of one thread. -/
theorem race_step {r : Race} {s s' : RaceSt} {o : Op Thread} (hns : NoSpurious s o)
    (h : step (code r) s o = some s') : RaceStep r s s' := by
  cases o with
  | exec t =>
    rcases t with _ | _ | x
    · exact .main (main_exec h)
    · exact .report (report_exec h)
    · exact .player x (player_exec h)
  | wake t u =>
    rcases t with _ | _ | x
    · exact (main_wake h).elim
    · exact .report (report_wake h)
    · exact .player x (player_wake h)
  | resume t =>
    rcases t with _ | _ | x
    · exact .main (main_resume h)
    · exact .report (report_resume h)
    · exact .player x (player_resume h)
  | spurious t => exact absurd rfl (hns t)

/-! ## Who waits where -/

/-- the waiter of a condition variable and the point where it waits -/
def WaitsAt (s : RaceSt) (u : Thread) : Cond → Prop
  | .playerToReporter x => u = .report ∧ s.pc .report = .wait x
  | .reporterToPlayer x => u = .player x ∧ s.pc (.player x) = .wait
  | .playerMain x => u = .main ∧ s.pc .main = .wait x

theorem waits_on {r : Race} {s : RaceSt} (h : AtWait (code r) s) {u : Thread} {c : Cond} (hu : s.mode u = .waiting c) :
    WaitsAt s u c := by
  obtain ⟨l, p, hc⟩ := h.waiting u c hu
  rcases u with _ | _ | x
  · cases hp : s.pc .main with
    | wait x => simp only [hp, code, mainCode] at hc; cases hc; exact ⟨rfl, hp⟩
    | init todo => rcases todo with _ | ⟨l | c, todo⟩ <;> simp [hp, code, mainCode] at hc
    | release x | joinPlayer x => cases x <;> simp [hp, code, mainCode] at hc
    | _ => simp [hp, code, mainCode] at hc
  · cases hp : s.pc .report with
    | wait x => simp only [hp, code, reportCode] at hc; cases hc; exact ⟨rfl, hp⟩
    | release x | shutRelease x => cases x <;> simp [hp, code, reportCode] at hc
    | _ => simp [hp, code, reportCode] at hc
  · cases hp : s.pc (.player x) with
    | wait => simp only [hp, code, playerCode] at hc; cases hc; exact ⟨rfl, hp⟩
    | block a b => cases b <;> simp [hp, code, playerCode, blockCode] at hc
    | _ => simp [hp, code, playerCode] at hc

/-- only `main` creates and joins threads -/
theorem main_creates {r : Race} {t u : Thread} {p q : Pc t} (ht : t ≠ .main) :
    code r t p ≠ .create u q ∧ code r t p ≠ .join u q := by
  cases t with
  | main => exact absurd rfl ht
  | report =>
    cases p with
    | release x | shutRelease x => cases x <;> simp [code, reportCode]
    | _ => simp [code, reportCode]
  | player x =>
    cases p with
    | block a b => cases b <;> simp [code, playerCode, blockCode]
    | _ => simp [code, playerCode]

/-- when every lock is free, a thread other than `main` that cannot move has nothing to do or waits -/
theorem others_blocked {r : Race} {s : RaceSt} (h : Owned (code r) held s) (hfree : ∀ l, s.owner l = none) {t : Thread}
    (ht : t ≠ .main) (hn : ¬ Enabled (code r) s t) :
    s.mode t = .unborn ∨ s.mode t = .exited ∨ ∃ c, s.mode t = .waiting c := by
  rcases blocked_unlocked h hfree hn with e | e | e | ⟨-, ⟨u, p, e, -⟩ | ⟨u, p, e, -⟩⟩
  · exact .inl e
  · exact .inr (.inl e)
  · exact .inr (.inr e)
  · exact absurd e (main_creates ht).1
  · exact absurd e (main_creates ht).2

end DecsLabs.HareTortoise
