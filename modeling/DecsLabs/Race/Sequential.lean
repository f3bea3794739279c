/-
The hare and tortoise race as a sequential tick machine (assignment-2, 3_race, hare_tortoise.c): for tick 0, 1, 2, ...
one turn of the Randomizer, one of the Turtle and one of the Hare. A turn is what the thread function does between its
read of the clock and its signal to the Reporter, the `else if` of the Turtle included. The threads are in `Threads`;
that they run these turns, one at a time and in this order, is proved from their code.

The fields of `struct race` and of `struct Repositioning` are C ints, here `Int32`; `repositioning_count` is the length
of the list. Positions and the sleep counter are `long int` on a 64-bit target: `Consistent` keeps every position
between 0 and `finish_distance`, so no sum in a turn leaves the type and they are plain integers here. `curr_time` is an
int that is assigned from the 64-bit clock: `Int32.ofInt`.

- `Consistent`: positions in range, and the flag, the winner and the positions agree.
- `turn_consistent`, `afterTurns_consistent`: one turn and every run keep it.
- `turn_over`: a turn of a finished race changes nothing, in particular the tie branch of the Turtle is not taken.
-/
import Mathlib.Tactic

namespace DecsLabs.HareTortoise

/-! ## Model -/

structure Repositioning where
  player : Char
  time : Int32
  distance : Int32
deriving DecidableEq, Repr

structure Race where
  printingDelay : Int32
  tortoiseSpeed : Int32
  hareSpeed : Int32
  hareSleepTime : Int32
  hareTurtleDistanceForSleep : Int32
  finishDistance : Int32
  reposition : List Repositioning
deriving DecidableEq, Repr

inductive Player where
  | randomizer
  | turtle
  | hare
deriving DecidableEq, Repr

instance : Fintype Player := ⟨{.randomizer, .turtle, .hare}, fun x => by cases x <;> decide⟩

/-- the variables that the turns read and write; `arrayIndex` is the Randomizer's local cursor -/
structure Track where
  turtleDistance : ℤ
  hareDistance : ℤ
  hareSleepCounter : ℤ
  /-- 1 while there is no winner, 0 once there is one -/
  noWinner : ℤ
  overallWinner : Char
  arrayIndex : ℕ
deriving DecidableEq, Repr

/-- the state when the Reporter starts: the Hare has set its sleep counter to its sleep time -/
def start (r : Race) : Track := ⟨0, 0, r.hareSleepTime.toInt, 1, '-', 0⟩

/-- the Randomizer moves the player of the entry `e` -/
def applyEntry (r : Race) (e : Repositioning) (s : Track) : Track :=
  if e.player = 'H' then
    let d := s.hareDistance + e.distance.toInt
    if d < 0 then { s with hareDistance := 0 }
    else if d ≥ r.finishDistance.toInt then
      { s with overallWinner := 'H', hareDistance := r.finishDistance.toInt, noWinner := 0 }
    else { s with hareDistance := d }
  else if e.player = 'T' then
    let d := s.turtleDistance + e.distance.toInt
    if d < 0 then { s with turtleDistance := 0 }
    else if d ≥ r.finishDistance.toInt then
      { s with overallWinner := 'T', turtleDistance := r.finishDistance.toInt, noWinner := 0 }
    else { s with turtleDistance := d }
  else s

/-- the `if(no_winner)` body of `Randomizer` -/
def randomizerBody (r : Race) (currTime : Int32) (s : Track) : Track :=
  match r.reposition[s.arrayIndex]? with
  | some e => if e.time = currTime then { applyEntry r e s with arrayIndex := s.arrayIndex + 1 } else s
  | none => s

/-- the `if(no_winner)` body of `Turtle` -/
def turtleBody (r : Race) (s : Track) : Track :=
  let d := s.turtleDistance + r.tortoiseSpeed.toInt
  if d ≥ r.finishDistance.toInt then
    { s with overallWinner := 'T', turtleDistance := r.finishDistance.toInt, noWinner := 0 }
  else { s with turtleDistance := d }

/-- the `if(no_winner)` body of `Hare` -/
def hareBody (r : Race) (s : Track) : Track :=
  if s.hareSleepCounter = r.hareSleepTime.toInt then
    if s.hareDistance - s.turtleDistance ≤ r.hareTurtleDistanceForSleep.toInt then
      let d := s.hareDistance + r.hareSpeed.toInt
      if d ≥ r.finishDistance.toInt then
        { s with overallWinner := 'H', hareDistance := r.finishDistance.toInt, noWinner := 0, hareSleepCounter := 0 }
      else { s with hareDistance := d, hareSleepCounter := 0 }
    else { s with hareSleepCounter := 0 }
  else { s with hareSleepCounter := s.hareSleepCounter + 1 }

def body (r : Race) (x : Player) (currTime : Int32) (s : Track) : Track :=
  match x with
  | .randomizer => randomizerBody r currTime s
  | .turtle => turtleBody r s
  | .hare => hareBody r s

/-- the `else if` of `Turtle`: a tie is a win of the turtle -/
def tieBody (s : Track) : Track :=
  if s.noWinner = 0 ∧ s.overallWinner = 'H' ∧ s.hareDistance = s.turtleDistance then { s with overallWinner := 'T' }
  else s

/-- one turn of `x` at `currTime` -/
def turn (r : Race) (x : Player) (currTime : Int32) (s : Track) : Track :=
  if s.noWinner ≠ 0 then body r x currTime s
  else
    match x with
    | .turtle => tieBody s
    | _ => s

/-! ## Runs -/

/-- whose turn comes after `n` turns -/
def playerOf (n : ℕ) : Player :=
  match n % 3 with
  | 0 => .randomizer
  | 1 => .turtle
  | _ => .hare

/-- the `curr_time` that a turn of tick `t` reads -/
def currTimeAt (t : ℤ) : Int32 := Int32.ofInt t

/-- the race after `n` turns -/
def afterTurns (r : Race) : ℕ → Track
  | 0 => start r
  | n + 1 => turn r (playerOf n) (currTimeAt (n / 3)) (afterTurns r n)

/-- the place of `x` in a tick -/
def Player.index : Player → ℕ
  | .randomizer => 0
  | .turtle => 1
  | .hare => 2

@[simp] theorem index_randomizer : Player.randomizer.index = 0 := rfl

@[simp] theorem index_turtle : Player.turtle.index = 1 := rfl

@[simp] theorem index_hare : Player.hare.index = 2 := rfl

theorem Player.index_lt (x : Player) : x.index < 3 := by cases x <;> simp [index]

theorem Player.index_ne {x y : Player} (h : y ≠ x) : x.index ≠ y.index := by
  intro he
  apply h
  cases x <;> cases y <;> simp_all [index]

theorem playerOf_index (x : Player) (t : ℕ) : playerOf (3 * t + x.index) = x := by
  have : (3 * t + x.index) % 3 = x.index := by have := x.index_lt; omega
  unfold playerOf
  rw [this]
  cases x <;> rfl

/-- the turn of `x` in tick `t` -/
theorem afterTurns_index (r : Race) (x : Player) (t : ℕ) :
    afterTurns r (3 * t + x.index + 1) = turn r x (currTimeAt t) (afterTurns r (3 * t + x.index)) := by
  have ht : ((3 * t + x.index : ℕ) : ℤ) / 3 = t := by have := x.index_lt; omega
  rw [afterTurns, playerOf_index, ht]

/-! ## The state invariant -/

structure Consistent (r : Race) (s : Track) : Prop where
  turtle_lo : 0 ≤ s.turtleDistance
  turtle_hi : s.turtleDistance ≤ r.finishDistance.toInt
  hare_lo : 0 ≤ s.hareDistance
  hare_hi : s.hareDistance ≤ r.finishDistance.toInt
  status :
    (s.noWinner = 1 ∧ s.overallWinner = '-' ∧ s.turtleDistance < r.finishDistance.toInt ∧
      s.hareDistance < r.finishDistance.toInt) ∨
    (s.noWinner = 0 ∧ s.overallWinner = 'T' ∧ s.turtleDistance = r.finishDistance.toInt ∧
      s.hareDistance < r.finishDistance.toInt) ∨
    (s.noWinner = 0 ∧ s.overallWinner = 'H' ∧ s.hareDistance = r.finishDistance.toInt ∧
      s.turtleDistance < r.finishDistance.toInt)

/-- what the invariant asks of a race: somewhere to go, and nobody walks backwards by himself -/
structure Race.Valid (r : Race) : Prop where
  finish : 0 < r.finishDistance.toInt
  tortoise : 0 ≤ r.tortoiseSpeed.toInt
  hare : 0 ≤ r.hareSpeed.toInt

theorem start_consistent {r : Race} (hr : r.Valid) : Consistent r (start r) :=
  ⟨le_rfl, hr.finish.le, le_rfl, hr.finish.le, .inl ⟨rfl, rfl, hr.finish, hr.finish⟩⟩

/-- in an open race both players are short of the finish -/
theorem Consistent.short {r : Race} {s : Track} (h : Consistent r s) (ho : s.noWinner ≠ 0) :
    s.noWinner = 1 ∧ s.overallWinner = '-' ∧ s.turtleDistance < r.finishDistance.toInt ∧
      s.hareDistance < r.finishDistance.toInt := by
  rcases h.status with h1 | ⟨h1, _⟩ | ⟨h1, _⟩
  · exact h1
  · exact absurd h1 ho
  · exact absurd h1 ho

theorem Consistent.cursor {r : Race} {s : Track} (h : Consistent r s) (i : ℕ) :
    Consistent r { s with arrayIndex := i } := ⟨h.turtle_lo, h.turtle_hi, h.hare_lo, h.hare_hi, h.status⟩

theorem Consistent.counter {r : Race} {s : Track} (h : Consistent r s) (c : ℤ) :
    Consistent r { s with hareSleepCounter := c } := ⟨h.turtle_lo, h.turtle_hi, h.hare_lo, h.hare_hi, h.status⟩

/-- the hare is moved to `d` and clamped: every place in the source that moves the hare does one of these three -/
theorem Consistent.moveHare {r : Race} {s : Track} (hr : r.Valid) (h : Consistent r s) (ho : s.noWinner ≠ 0) (d : ℤ) :
    Consistent r { s with hareDistance := 0 } ∧
    Consistent r { s with overallWinner := 'H', hareDistance := r.finishDistance.toInt, noWinner := 0 } ∧
    (0 ≤ d → d < r.finishDistance.toInt → Consistent r { s with hareDistance := d }) := by
  obtain ⟨h1, h2, h3, h4⟩ := h.short ho
  have hf := hr.finish
  refine ⟨⟨h.turtle_lo, h.turtle_hi, le_rfl, hf.le, .inl ⟨h1, h2, h3, hf⟩⟩,
    ⟨h.turtle_lo, h.turtle_hi, hf.le, le_rfl, .inr (.inr ⟨rfl, rfl, rfl, h3⟩)⟩, fun h0 hd => ?_⟩
  exact ⟨h.turtle_lo, h.turtle_hi, h0, hd.le, .inl ⟨h1, h2, h3, hd⟩⟩

theorem Consistent.moveTurtle {r : Race} {s : Track} (hr : r.Valid) (h : Consistent r s) (ho : s.noWinner ≠ 0)
    (d : ℤ) :
    Consistent r { s with turtleDistance := 0 } ∧
    Consistent r { s with overallWinner := 'T', turtleDistance := r.finishDistance.toInt, noWinner := 0 } ∧
    (0 ≤ d → d < r.finishDistance.toInt → Consistent r { s with turtleDistance := d }) := by
  obtain ⟨h1, h2, h3, h4⟩ := h.short ho
  have hf := hr.finish
  refine ⟨⟨le_rfl, hf.le, h.hare_lo, h.hare_hi, .inl ⟨h1, h2, hf, h4⟩⟩,
    ⟨hf.le, le_rfl, h.hare_lo, h.hare_hi, .inr (.inl ⟨rfl, rfl, rfl, h4⟩)⟩, fun h0 hd => ?_⟩
  exact ⟨h0, hd.le, h.hare_lo, h.hare_hi, .inl ⟨h1, h2, hd, h4⟩⟩

theorem applyEntry_consistent {r : Race} {s : Track} (hr : r.Valid) (h : Consistent r s) (ho : s.noWinner ≠ 0)
    (e : Repositioning) : Consistent r (applyEntry r e s) := by
  unfold applyEntry
  split_ifs with hp hp'
  · obtain ⟨h1, h2, h3⟩ := h.moveHare hr ho (s.hareDistance + e.distance.toInt)
    dsimp only
    split_ifs with hlo hhi
    · exact h1
    · exact h2
    · exact h3 (by omega) (by omega)
  · obtain ⟨h1, h2, h3⟩ := h.moveTurtle hr ho (s.turtleDistance + e.distance.toInt)
    dsimp only
    split_ifs with hlo hhi
    · exact h1
    · exact h2
    · exact h3 (by omega) (by omega)
  · exact h

theorem randomizerBody_consistent {r : Race} {s : Track} (hr : r.Valid) (h : Consistent r s) (ho : s.noWinner ≠ 0)
    (c : Int32) : Consistent r (randomizerBody r c s) := by
  unfold randomizerBody
  split
  · rename_i e he
    split_ifs with ht
    · exact (applyEntry_consistent hr h ho e).cursor _
    · exact h
  · exact h

theorem turtleBody_consistent {r : Race} {s : Track} (hr : r.Valid) (h : Consistent r s) (ho : s.noWinner ≠ 0) :
    Consistent r (turtleBody r s) := by
  obtain ⟨-, h2, h3⟩ := h.moveTurtle hr ho (s.turtleDistance + r.tortoiseSpeed.toInt)
  have hlo := h.turtle_lo
  have hv := hr.tortoise
  simp only [turtleBody]
  split_ifs with hhi
  · exact h2
  · exact h3 (by omega) (by omega)

theorem hareBody_consistent {r : Race} {s : Track} (hr : r.Valid) (h : Consistent r s) (ho : s.noWinner ≠ 0) :
    Consistent r (hareBody r s) := by
  obtain ⟨-, h2, h3⟩ := h.moveHare hr ho (s.hareDistance + r.hareSpeed.toInt)
  have hlo := h.hare_lo
  have hv := hr.hare
  simp only [hareBody]
  split_ifs with hs hl hhi
  · exact h2.counter 0
  · exact (h3 (by omega) (by omega)).counter 0
  · exact h.counter 0
  · exact h.counter _

/-- **A turn of a finished race does nothing.** A winner is alone at the finish, so the tie branch is not taken. -/
theorem turn_over {r : Race} {s : Track} (h : Consistent r s) (ho : s.noWinner = 0) (x : Player) (c : Int32) :
    turn r x c s = s := by
  have hne : ¬ (s.noWinner = 0 ∧ s.overallWinner = 'H' ∧ s.hareDistance = s.turtleDistance) := by
    rintro ⟨-, hw, he⟩
    rcases h.status with ⟨h1, -⟩ | ⟨-, h2, -⟩ | ⟨-, -, h3, h4⟩
    · rw [ho] at h1; exact absurd h1 (by decide)
    · rw [hw] at h2; exact absurd h2 (by decide)
    · omega
  cases x <;> simp [turn, ho, tieBody]
  intro hw he
  exact absurd ⟨ho, hw, he⟩ hne

theorem turn_consistent {r : Race} {s : Track} (hr : r.Valid) (h : Consistent r s) (x : Player) (c : Int32) :
    Consistent r (turn r x c s) := by
  by_cases ho : s.noWinner = 0
  · rw [turn_over h ho]; exact h
  · simp only [turn, ne_eq, ho, not_false_eq_true, if_true]
    cases x with
    | randomizer => exact randomizerBody_consistent hr h ho c
    | turtle => exact turtleBody_consistent hr h ho
    | hare => exact hareBody_consistent hr h ho

theorem afterTurns_consistent {r : Race} (hr : r.Valid) (n : ℕ) : Consistent r (afterTurns r n) := by
  induction n with
  | zero => exact start_consistent hr
  | succ n ih => exact turn_consistent hr ih _ _

/-- once the race is over it stays as it is -/
theorem afterTurns_over {r : Race} (hr : r.Valid) {n m : ℕ} (hnm : n ≤ m) (ho : (afterTurns r n).noWinner = 0) :
    afterTurns r m = afterTurns r n := by
  induction m, hnm using Nat.le_induction with
  | base => rfl
  | succ m hm ih =>
    simp only [afterTurns]
    rw [turn_over (afterTurns_consistent hr m) (ih ▸ ho), ih]

/-- **Race state invariant.** After every turn of every race both positions are between the start and the finish; the
flag, the winner and the positions agree; and a finished race does not change any more. -/
theorem race_state_invariant (r : Race) (hf : 0 < r.finishDistance.toInt) (hv : 0 ≤ r.tortoiseSpeed.toInt)
    (hh : 0 ≤ r.hareSpeed.toInt) (n : ℕ) :
    let s := afterTurns r n
    let F := r.finishDistance.toInt
    (0 ≤ s.turtleDistance ∧ s.turtleDistance ≤ F ∧ 0 ≤ s.hareDistance ∧ s.hareDistance ≤ F) ∧
    (s.noWinner = 1 ↔ s.overallWinner = '-') ∧
    (s.overallWinner = '-' ↔ s.turtleDistance < F ∧ s.hareDistance < F) ∧
    (s.noWinner = 0 ↔ (s.overallWinner = 'T' ∧ s.turtleDistance = F ∧ s.hareDistance < F) ∨
      (s.overallWinner = 'H' ∧ s.hareDistance = F ∧ s.turtleDistance < F)) ∧
    (s.noWinner = 0 → ∀ m, n ≤ m →
      (afterTurns r m).turtleDistance = s.turtleDistance ∧ (afterTurns r m).hareDistance = s.hareDistance ∧
      (afterTurns r m).overallWinner = s.overallWinner) ∧
    ¬ (s.noWinner = 0 ∧ s.overallWinner = 'H' ∧ s.hareDistance = s.turtleDistance) := by
  intro s F
  have hr : r.Valid := ⟨hf, hv, hh⟩
  have h : Consistent r s := afterTurns_consistent hr n
  refine ⟨⟨h.turtle_lo, h.turtle_hi, h.hare_lo, h.hare_hi⟩, ?_, ?_, ?_, fun ho m hm => ?_, ?_⟩
  · rcases h.status with ⟨h1, h2, -⟩ | ⟨h1, h2, -⟩ | ⟨h1, h2, -⟩ <;> simp [h1, h2]
  · rcases h.status with ⟨-, h2, h3, h4⟩ | ⟨-, h2, h3, -⟩ | ⟨-, h2, h3, -⟩
    · simp [h2, h3, h4, F]
    · simp [h2, h3, F]
    · simp [h2, h3, F]
  · rcases h.status with ⟨h1, h2, -⟩ | ⟨h1, h2, h3, h4⟩ | ⟨h1, h2, h3, h4⟩
    · simp [h1, h2]
    · simp [h1, h2, h3, h4, F]
    · simp [h1, h2, h3, h4, F]
  · rw [afterTurns_over hr hm ho]
    exact ⟨rfl, rfl, rfl⟩
  · rintro ⟨ho, hw, he⟩
    rcases h.status with ⟨h1, -⟩ | ⟨-, h2, -⟩ | ⟨-, -, h3, h4⟩
    · rw [ho] at h1; exact absurd h1 (by decide)
    · rw [hw] at h2; exact absurd h2 (by decide)
    · omega

theorem race_state_invariant_example :
    let r : Race := ⟨1, 1, 2, 3, 1, 10, [⟨'H', 2, 20⟩]⟩
    0 < r.finishDistance.toInt ∧ (afterTurns r 7).overallWinner = 'H' ∧ (afterTurns r 9).overallWinner = 'H' := by
  intro r
  have h := race_state_invariant r (by decide) (by decide) (by decide) 7
  have h7 : (afterTurns r 7).noWinner = 0 ∧ (afterTurns r 7).overallWinner = 'H' := by decide
  refine ⟨by decide, h7.2, ?_⟩
  rw [(h.2.2.2.2.1 h7.1 9 (by omega)).2.2]
  exact h7.2

end DecsLabs.HareTortoise
