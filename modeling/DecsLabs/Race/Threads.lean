/-
The threads of the race (hare_tortoise.c): `main` inside `init`, the Randomizer, the Turtle, the Hare and the Reporter,
as code for the machine of `Core.Pthread`. The three player threads have one skeleton; what differs is the block between
the read of the clock and the signal to the Reporter.

Every read and every write of a shared variable is a step of its own; a local variable changes in the step that assigns
it. Only the `printf` of the Reporter, with the test before it, reads its variables in one step: without spurious wake-ups
no player is at its turn then. `lock_acquire`, `lock_release`, `cond_wait` and `cond_signal` of cs_thread.h are the
instructions of the machine: the checks in them are facts about the states in which they are called. `malloc` and
`pthread_create` succeed.

- `turnBlock_eval`: run without interference, the block of a player is its turn in the tick machine.
- `disciplined`: the code takes its locks by the order `lockRank` and releases what it holds.
-/
import DecsLabs.Core.Discipline
import DecsLabs.Core.Block
import DecsLabs.Race.Sequential

namespace DecsLabs.HareTortoise

open DecsLabs.Pthread

/-! ## Threads, locks, conditions, memory -/

inductive Thread where
  | main
  | report
  | player (x : Player)
deriving DecidableEq, Repr

instance : Fintype Thread :=
  ⟨{.main, .report, .player .randomizer, .player .turtle, .player .hare}, fun t => by
    rcases t with _ | _ | x
    · decide
    · decide
    · cases x <;> decide⟩

inductive Lock where
  | reporter
  /-- `randomizer_reporter_lock`, `turtle_reporter_lock`, `hare_reporter_lock` -/
  | playerReporter (x : Player)
  /-- `randomizer_main_lock`, `turtle_main_lock`, `hare_main_lock` -/
  | playerMain (x : Player)
  | turtleDistance
  | hareDistance
deriving DecidableEq, Repr

inductive Cond where
  | playerToReporter (x : Player)
  | reporterToPlayer (x : Player)
  | playerMain (x : Player)
deriving DecidableEq, Repr

@[ext]
structure Mem where
  track : Track
  clockTick : ℤ
  /-- the local `curr_time` of each player -/
  currTime : Player → Int32
  /-- `randomizer_thread_reached`, `turtle_thread_reached`, `hare_thread_reached` -/
  reached : Player → ℤ
  lockInit : Lock → Bool
  condInit : Cond → Bool
  /-- the lines of the Reporter: hare position, turtle position, time -/
  printed : List (ℤ × ℤ × ℤ)

/-- the order in which nested locks are taken -/
def lockRank : Lock → ℕ
  | .playerMain _ => 0
  | .playerReporter _ => 1
  | .reporter => 2
  | .turtleDistance => 3
  | .hareDistance => 4

theorem lockRank_lt (l : Lock) : lockRank l < 5 := by cases l <;> simp [lockRank]

/-! ## Blocks of the players -/

/-- a block of player `x`; it starts and ends with the lock that `x` shares with the Reporter -/
abbrev PlayerBlock (x : Player) (h : List Lock) : Type := Block lockRank Track [.playerReporter x] h

section
variable {x : Player} {h : List Lock}

/-- `if(d>=finish_distance) { overall_winner=w; d=finish_distance; no_winner=0; }` on the position `get` -/
def finishBlock (r : Race) (get : Track → ℤ) (set : ℤ → Track → Track) (w : Char) (k : PlayerBlock x h) :
    PlayerBlock x h :=
  .load get fun d =>
    if d ≥ r.finishDistance.toInt then
      .store (fun s => { s with overallWinner := w }) <| .store (set r.finishDistance.toInt) <|
        .store (fun s => { s with noWinner := 0 }) k
    else k

/-- the Randomizer moves a position by `d`: below the start it is set to the start, from the finish on it wins -/
def repositionBlock (r : Race) (get : Track → ℤ) (set : ℤ → Track → Track) (w : Char) (d : ℤ) (k : PlayerBlock x h) :
    PlayerBlock x h :=
  .load get fun p => .store (set (p + d)) <|
    .load get fun p => if p < 0 then .store (set 0) k else finishBlock r get set w k

end

def setHare (d : ℤ) (s : Track) : Track := { s with hareDistance := d }

def setTurtle (d : ℤ) (s : Track) : Track := { s with turtleDistance := d }

/-- the `if(no_winner)` body of `Randomizer`; `curr_time` and `array_index` are local, so is the array -/
def randomizerBlock (r : Race) (currTime : Int32) (i : ℕ) : PlayerBlock .randomizer [.playerReporter .randomizer] :=
  match r.reposition[i]? with
  | some e =>
    if e.time = currTime then
      let k := .store (fun s => { s with arrayIndex := i + 1 }) .done
      if e.player = 'H' then repositionBlock r Track.hareDistance setHare 'H' e.distance.toInt k
      else if e.player = 'T' then repositionBlock r Track.turtleDistance setTurtle 'T' e.distance.toInt k
      else k
    else .done
  | none => .done

/-- the `if(no_winner)` body of `Turtle` -/
def turtleBlock (r : Race) : PlayerBlock .turtle [.playerReporter .turtle] :=
  .lock .turtleDistance (by decide) <|
    .load Track.turtleDistance fun d => .store (setTurtle (d + r.tortoiseSpeed.toInt)) <|
      finishBlock r Track.turtleDistance setTurtle 'T' <| .unlock (by decide) .done

/-- the `if(no_winner)` body of `Hare` -/
def hareBlock (r : Race) : PlayerBlock .hare [.playerReporter .hare] :=
  .load Track.hareSleepCounter fun c =>
    if c = r.hareSleepTime.toInt then
      .lock .turtleDistance (by decide) <|
        let sleep : PlayerBlock .hare [.turtleDistance, .playerReporter .hare] :=
          .store (fun s => { s with hareSleepCounter := 0 }) <| .unlock (by decide) .done
        .load Track.hareDistance fun a => .load Track.turtleDistance fun b =>
          if a - b ≤ r.hareTurtleDistanceForSleep.toInt then
            .lock .hareDistance (by decide) <|
              .load Track.hareDistance fun d => .store (setHare (d + r.hareSpeed.toInt)) <|
                finishBlock r Track.hareDistance setHare 'H' <| .unlock (by decide) sleep
          else sleep
    else .load Track.hareSleepCounter fun c => .store (fun s => { s with hareSleepCounter := c + 1 }) .done

def turnBlock (r : Race) (x : Player) (currTime : Int32) (i : ℕ) : PlayerBlock x [.playerReporter x] :=
  match x with
  | .randomizer => randomizerBlock r currTime i
  | .turtle => turtleBlock r
  | .hare => hareBlock r

/-- what a player does in place of its turn when there is a winner: the `else if` of `Turtle`, nothing for the others -/
def overBlock (x : Player) : PlayerBlock x [.playerReporter x] :=
  match x with
  | .turtle =>
    .load Track.noWinner fun n =>
      if n = 0 then
        .load (fun s => s.overallWinner.toNat) fun w =>
          if w = 'H'.toNat then
            .load Track.hareDistance fun a => .load Track.turtleDistance fun b =>
              if a = b then .store (fun s => { s with overallWinner := 'T' }) .done else .done
          else .done
      else .done
  | _ => .done

/-! ## Code -/

inductive MainPc where
  /-- the `lock_init` and `cond_init` calls still to do -/
  | init (todo : List (Lock ⊕ Cond))
  | create (x : Player)
  | acquire (x : Player)
  | testReached (x : Player)
  | wait (x : Player)
  | release (x : Player)
  | createReport
  | joinPlayer (x : Player)
  | joinReport
  | ret
  | done (w : Char)
deriving DecidableEq, Repr

inductive PlayerPc (x : Player) : Type where
  | enter
  | loopTest
  | reachedTest
  | mainAcquire
  | setReached
  | firstAcquire
  | mainSignal
  | mainRelease
  | acquire
  | wait
  | clockAcquire
  | clockRead
  | clockRelease
  | test
  /-- the rest of the block after the test of `no_winner`, which was 1 if `acting` -/
  | block (acting : Bool) {h : List Lock} (b : PlayerBlock x h)
  | release
  | exit

inductive ReportPc where
  | loopTest
  | clockAcquire
  | clockInc
  | clockRelease
  | acquire (x : Player)
  | signal (x : Player)
  | wait (x : Player)
  | release (x : Player)
  | print
  /-- a division by zero has killed the process -/
  | crash
  | endTest
  | shutAcquire (x : Player)
  | shutSignal (x : Player)
  | shutRelease (x : Player)
  | exit
deriving DecidableEq, Repr

abbrev Pc : Thread → Type
  | .main => MainPc
  | .report => ReportPc
  | .player x => PlayerPc x

abbrev RaceInstr (P : Type) : Type := Instr Thread Lock Cond Mem P

def initCalls : List (Lock ⊕ Cond) :=
  [.inl .reporter, .inl (.playerReporter .turtle), .inl (.playerReporter .hare), .inl (.playerReporter .randomizer),
   .inl .hareDistance, .inl .turtleDistance,
   .inr (.playerToReporter .turtle), .inr (.reporterToPlayer .turtle), .inr (.playerToReporter .hare),
   .inr (.reporterToPlayer .hare), .inr (.playerToReporter .randomizer), .inr (.reporterToPlayer .randomizer),
   .inl (.playerMain .randomizer), .inl (.playerMain .turtle), .inl (.playerMain .hare),
   .inr (.playerMain .randomizer), .inr (.playerMain .turtle), .inr (.playerMain .hare)]

/-- `init` -/
def mainCode : MainPc → RaceInstr MainPc
  | .init [] => .act fun m => (m, .create .randomizer)
  | .init (.inl l :: todo) => .act fun m => ({ m with lockInit := Function.update m.lockInit l true }, .init todo)
  | .init (.inr c :: todo) => .act fun m => ({ m with condInit := Function.update m.condInit c true }, .init todo)
  | .create x => .create (.player x) (.acquire x)
  | .acquire x => .lock (.playerMain x) (.testReached x)
  | .testReached x => .act fun m => (m, if m.reached x = 0 then .wait x else .release x)
  | .wait x => .wait (.playerMain x) (.playerMain x) (.release x)
  | .release .randomizer => .unlock (.playerMain .randomizer) (.create .turtle)
  | .release .turtle => .unlock (.playerMain .turtle) (.create .hare)
  | .release .hare => .unlock (.playerMain .hare) .createReport
  | .createReport => .create .report (.joinPlayer .randomizer)
  | .joinPlayer .randomizer => .join (.player .randomizer) (.joinPlayer .turtle)
  | .joinPlayer .turtle => .join (.player .turtle) (.joinPlayer .hare)
  | .joinPlayer .hare => .join (.player .hare) .joinReport
  | .joinReport => .join .report .ret
  | .ret => .act fun m => (m, .done m.track.overallWinner)
  | .done _ => .exit

/-- what a player thread does before its loop -/
def enterTrack (r : Race) (x : Player) (s : Track) : Track :=
  match x with
  | .randomizer => { s with arrayIndex := 0 }
  | .turtle => s
  | .hare => { s with hareSleepCounter := r.hareSleepTime.toInt }

def blockCode {x : Player} (acting : Bool) {h : List Lock} : PlayerBlock x h → RaceInstr (PlayerPc x)
  | .done => .signal (.playerToReporter x) (.playerReporter x) .release
  | .load f k => .act fun m => (m, .block acting (k (f m.track)))
  | .store f k => .act fun m => ({ m with track := f m.track }, .block acting k)
  | .lock l _ k => .lock l (.block acting k)
  | .unlock (l := l) _ k => .unlock l (.block acting k)

/-- `Randomizer`, `Turtle` and `Hare` -/
def playerCode (r : Race) (x : Player) : PlayerPc x → RaceInstr (PlayerPc x)
  | .enter => .act fun m => ({ m with track := enterTrack r x m.track }, .loopTest)
  | .loopTest => .act fun m => (m, if m.track.noWinner ≠ 0 then .reachedTest else .exit)
  | .reachedTest => .act fun m => (m, if m.reached x = 0 then .mainAcquire else .acquire)
  | .mainAcquire => .lock (.playerMain x) .setReached
  | .setReached => .act fun m => ({ m with reached := Function.update m.reached x 1 }, .firstAcquire)
  | .firstAcquire => .lock (.playerReporter x) .mainSignal
  | .mainSignal => .signal (.playerMain x) (.playerMain x) .mainRelease
  | .mainRelease => .unlock (.playerMain x) .wait
  | .acquire => .lock (.playerReporter x) .wait
  | .wait => .wait (.reporterToPlayer x) (.playerReporter x) .clockAcquire
  | .clockAcquire => .lock .reporter .clockRead
  | .clockRead =>
    .act fun m => ({ m with currTime := Function.update m.currTime x (currTimeAt m.clockTick) }, .clockRelease)
  | .clockRelease => .unlock .reporter .test
  | .test => .act fun m =>
    (m, if m.track.noWinner ≠ 0 then .block true (turnBlock r x (m.currTime x) m.track.arrayIndex)
        else .block false (overBlock x))
  | .block acting b => blockCode acting b
  | .release => .unlock (.playerReporter x) .loopTest
  | .exit => .exit

/-- `Report` -/
def reportCode (r : Race) : ReportPc → RaceInstr ReportPc
  | .loopTest => .act fun m => (m, if m.track.noWinner ≠ 0 then .clockAcquire else .exit)
  | .clockAcquire => .lock .reporter .clockInc
  | .clockInc => .act fun m => ({ m with clockTick := m.clockTick + 1 }, .clockRelease)
  | .clockRelease => .unlock .reporter (.acquire .randomizer)
  | .acquire x => .lock (.playerReporter x) (.signal x)
  | .signal x => .signal (.reporterToPlayer x) (.playerReporter x) (.wait x)
  | .wait x => .wait (.playerToReporter x) (.playerReporter x) (.release x)
  | .release .randomizer => .unlock (.playerReporter .randomizer) .print
  | .release .turtle => .unlock (.playerReporter .turtle) (.acquire .hare)
  | .release .hare => .unlock (.playerReporter .hare) .endTest
  | .print => .act fun m =>
    if r.printingDelay = 0 then (m, .crash)
    else if m.clockTick.tmod r.printingDelay.toInt = 0 then
      ({ m with printed := m.printed ++ [(m.track.hareDistance, m.track.turtleDistance, m.clockTick)] },
        .acquire .turtle)
    else (m, .acquire .turtle)
  | .crash => .act fun m => (m, .crash)
  | .endTest => .act fun m => (m, if m.track.noWinner = 0 then .shutAcquire .randomizer else .loopTest)
  | .shutAcquire x => .lock (.playerReporter x) (.shutSignal x)
  | .shutSignal x => .signal (.reporterToPlayer x) (.playerReporter x) (.shutRelease x)
  | .shutRelease .randomizer => .unlock (.playerReporter .randomizer) (.shutAcquire .turtle)
  | .shutRelease .turtle => .unlock (.playerReporter .turtle) (.shutAcquire .hare)
  | .shutRelease .hare => .unlock (.playerReporter .hare) .loopTest
  | .exit => .exit

def code (r : Race) : Code Thread Lock Cond Mem Pc
  | .main => mainCode
  | .report => reportCode r
  | .player x => playerCode r x

abbrev RaceSt : Type := St Thread Lock Cond Mem Pc

/-- the globals as the program starts with them, and `main` at the beginning of `init` -/
def initial : RaceSt where
  mem := ⟨⟨0, 0, 0, 1, '-', 0⟩, -1, fun _ => 0, fun _ => 0, fun _ => false, fun _ => false, []⟩
  pc
    | .main => .init initCalls
    | .report => .loopTest
    | .player _ => .enter
  mode
    | .main => .run
    | _ => .unborn
  owner _ := none

/-! ## The blocks compute the turns -/

theorem applyEntry_eq_reposition (r : Race) (e : Repositioning) (i : ℕ) (s : Track) (hi : s.arrayIndex = i)
    {h : List Lock} {x : Player} (k : PlayerBlock x h) (hk : ∀ s, k.eval s = { s with arrayIndex := i + 1 }) :
    (if e.player = 'H' then repositionBlock r Track.hareDistance setHare 'H' e.distance.toInt k
      else if e.player = 'T' then repositionBlock r Track.turtleDistance setTurtle 'T' e.distance.toInt k
      else k).eval s = { applyEntry r e s with arrayIndex := s.arrayIndex + 1 } := by
  unfold applyEntry
  split_ifs with hH hT
  · simp only [repositionBlock, finishBlock, Block.eval, Block.eval_ite, hk]
    simp only [setHare, hi]
    split_ifs <;> rfl
  · simp only [repositionBlock, finishBlock, Block.eval, Block.eval_ite, hk]
    simp only [setTurtle, hi]
    split_ifs <;> rfl
  · simp only [hk, hi]

theorem turnBlock_eval (r : Race) (x : Player) (c : Int32) (s : Track) :
    (turnBlock r x c s.arrayIndex).eval s = body r x c s := by
  cases x with
  | randomizer =>
    simp only [turnBlock, randomizerBlock, body, randomizerBody]
    cases r.reposition[s.arrayIndex]? with
    | none => rfl
    | some e =>
      by_cases ht : e.time = c
      · simp only [ht, if_true]
        exact applyEntry_eq_reposition r e s.arrayIndex s rfl _ fun _ => rfl
      · simp only [ht, if_false]
        rfl
  | turtle =>
    simp only [turnBlock, turtleBlock, body, turtleBody, finishBlock, Block.eval, Block.eval_ite]
    rfl
  | hare =>
    simp only [turnBlock, hareBlock, body, hareBody, finishBlock, Block.eval, Block.eval_ite]
    rfl

/-- with a winner at the finish alone, the Turtle does not write in its `else if` -/
theorem overBlock_silent {r : Race} {s : Track} (h : Consistent r s) (x : Player) : (overBlock x).Silent s := by
  cases x with
  | turtle =>
    simp only [overBlock, Block.Silent]
    split_ifs with h1
    · simp only [Block.Silent]
      split_ifs with h2
      · simp only [Block.Silent]
        split_ifs with h3
        · rcases h.status with ⟨h4, -⟩ | ⟨-, h4, -⟩ | ⟨-, -, h4, h5⟩
          · omega
          · rw [h4] at h2; exact absurd h2 (by decide)
          · omega
        · trivial
      · trivial
    · trivial
  | _ => trivial

/-! ## Lock discipline -/

def mainHeld : MainPc → List Lock
  | .testReached x | .wait x | .release x => [.playerMain x]
  | _ => []

def playerHeld (x : Player) : PlayerPc x → List Lock
  | .setReached | .firstAcquire => [.playerMain x]
  | .mainSignal | .mainRelease => [.playerReporter x, .playerMain x]
  | .wait | .clockAcquire | .test | .release => [.playerReporter x]
  | .clockRead | .clockRelease => [.reporter, .playerReporter x]
  | .block (h := h) _ _ => h
  | _ => []

def reportHeld : ReportPc → List Lock
  | .clockInc | .clockRelease => [.reporter]
  | .signal x | .wait x | .release x | .shutSignal x | .shutRelease x => [.playerReporter x]
  | _ => []

/-- the locks held at each point -/
def held : ∀ t, Pc t → List Lock
  | .main => mainHeld
  | .report => reportHeld
  | .player x => playerHeld x

theorem main_disciplined (p : MainPc) : Fits (T := Thread) (C := Cond) (S := Mem) lockRank mainHeld p (mainCode p) := by
  unfold mainCode
  split <;> simp only [Fits, mainHeld, lockRank]
  all_goals try simp
  rename_i x
  intro m l
  by_cases h : m.reached x = 0 <;> simp [h]

theorem block_disciplined (x : Player) (a : Bool) {h : List Lock} (b : PlayerBlock x h) :
    Fits lockRank (playerHeld x) (.block a b) (blockCode a b) := by
  cases b with
  | done => simp [blockCode, Fits, playerHeld]
  | load f k => simp [blockCode, Fits, playerHeld]
  | store f k => simp [blockCode, Fits, playerHeld]
  | lock l hl k => simp only [blockCode, Fits, playerHeld, List.mem_cons, implies_true, and_true]; exact hl
  | unlock hl k =>
    simp only [blockCode, Fits, playerHeld, List.mem_cons, true_or, true_and]
    intro l'
    constructor
    · rintro h; exact ⟨by rintro rfl; exact hl h, .inr h⟩
    · rintro ⟨h1, h2 | h2⟩
      · exact absurd h2 h1
      · exact h2

theorem player_disciplined (r : Race) (x : Player) (p : PlayerPc x) :
    Fits lockRank (playerHeld x) p (playerCode r x p) := by
  cases p with
  | block a b => exact block_disciplined x a b
  | loopTest | reachedTest | test =>
    simp only [playerCode, Fits]
    intro m l
    split_ifs <;> simp [playerHeld]
  | mainRelease | clockRelease =>
    simp only [playerCode, Fits, playerHeld, List.mem_cons, List.not_mem_nil, or_false, true_or, or_true, true_and]
    intro l
    cases l <;> simp
  | _ => simp [playerCode, Fits, playerHeld, lockRank]

theorem report_disciplined (r : Race) (p : ReportPc) : Fits lockRank reportHeld p (reportCode r p) := by
  unfold reportCode
  split <;> simp only [Fits, reportHeld, lockRank]
  all_goals try simp
  all_goals
    intro m l
    split_ifs <;> simp

theorem disciplined (r : Race) : Disciplined (code r) lockRank held := by
  rintro (_ | _ | x) p
  · exact main_disciplined p
  · exact report_disciplined r p
  · exact player_disciplined r x p

theorem initial_owned (r : Race) : Owned (code r) held initial where
  owner l t := by cases t <;> simp [initial, held, mainHeld]
  unborn t h := by cases t <;> simp_all [initial, held, reportHeld, playerHeld]
  atWait := ⟨fun t c h => by cases t <;> simp [initial] at h, fun t h => by cases t <;> simp [initial] at h⟩

end DecsLabs.HareTortoise
