/-
When the hare sleeps. The claim of `struct race` is that the hare goes to sleep only when its lead is larger than the
threshold; the code sets the sleep counter back after every turn in which the hare is awake, also when it has moved.

- `decisions`, `Asleep`: when the hare ought to sleep, from the leads alone.
- `Follows`: the Hare's turn of a tick moves the hare as it ought to.
- `counter_inv`: the sleep counter agrees with `Asleep` as long as no turn has moved the hare on.
- `hare_follows`: until then every turn is right.
- `rests_after_move`: after such a turn the hare, not asleep, stays where it is.
-/
import DecsLabs.Race.Termination

namespace DecsLabs.HareTortoise

variable {r : Race} {t : ℕ}

/-! ## When the hare ought to sleep -/

/-- the state before the Hare's turn of tick `t` -/
def beforeHare (r : Race) (t : ℕ) : Track := afterTurns r (3 * t + 2)

def lead (s : Track) : ℤ := s.hareDistance - s.turtleDistance

/-- one of the decisions `l` was made in the `hare_sleep_time` turns before that of tick `t` -/
def AsleepBy (r : Race) (l : List ℕ) (t : ℕ) : Prop := ∃ d ∈ l, (t : ℤ) ≤ d + r.hareSleepTime.toInt

instance (r : Race) (l : List ℕ) (t : ℕ) : Decidable (AsleepBy r l t) := inferInstanceAs (Decidable (∃ d ∈ l, _))

/-- the ticks before `t` in which the hare decides to sleep: the race is open, it is awake, and its lead is large -/
def decisions (r : Race) : ℕ → List ℕ
  | 0 => []
  | t + 1 =>
    if (beforeHare r t).noWinner = 1 ∧ ¬ AsleepBy r (decisions r t) t ∧
        r.hareTurtleDistanceForSleep.toInt < lead (beforeHare r t) then t :: decisions r t
    else decisions r t

/-- the hare decided to sleep in one of the `hare_sleep_time` turns before that of tick `t` -/
def Asleep (r : Race) (t : ℕ) : Prop := AsleepBy r (decisions r t) t

instance (r : Race) (t : ℕ) : Decidable (Asleep r t) := inferInstanceAs (Decidable (AsleepBy ..))

/-- the hare after a step of its own -/
def advanced (r : Race) (s : Track) : ℤ :=
  if s.hareDistance + r.hareSpeed.toInt ≥ r.finishDistance.toInt then r.finishDistance.toInt
  else s.hareDistance + r.hareSpeed.toInt

/-- the Hare's turn of tick `t` does what it ought to do in an open race -/
structure Follows (r : Race) (t : ℕ) : Prop where
  moves : (beforeHare r t).noWinner = 1 → ¬ Asleep r t → lead (beforeHare r t) ≤ r.hareTurtleDistanceForSleep.toInt →
    (afterTurns r (3 * (t + 1))).hareDistance = advanced r (beforeHare r t) ∧ ¬ Asleep r (t + 1)
  sleeps : (beforeHare r t).noWinner = 1 → ¬ Asleep r t → r.hareTurtleDistanceForSleep.toInt < lead (beforeHare r t) →
    (afterTurns r (3 * (t + 1))).hareDistance = (beforeHare r t).hareDistance ∧ t ∈ decisions r (t + 1)
  rests : (beforeHare r t).noWinner = 1 → Asleep r t →
    (afterTurns r (3 * (t + 1))).hareDistance = (beforeHare r t).hareDistance

theorem decisions_lt {d : ℕ} (h : d ∈ decisions r t) : d < t := by
  induction t with
  | zero => cases h
  | succ t ih =>
    rw [decisions] at h
    split_ifs at h
    · rcases List.mem_cons.1 h with rfl | h
      · exact Nat.lt_succ_self d
      · exact (ih h).trans (Nat.lt_succ_self t)
    · exact (ih h).trans (Nat.lt_succ_self t)

theorem decisions_decided (ho : (beforeHare r t).noWinner = 1) (ha : ¬ Asleep r t)
    (hl : r.hareTurtleDistanceForSleep.toInt < lead (beforeHare r t)) : decisions r (t + 1) = t :: decisions r t :=
  if_pos ⟨ho, ha, hl⟩

theorem decisions_same (h : Asleep r t ∨ lead (beforeHare r t) ≤ r.hareTurtleDistanceForSleep.toInt) :
    decisions r (t + 1) = decisions r t := by
  refine if_neg ?_
  rintro ⟨-, ha, hl⟩
  rcases h with h | h
  · exact ha h
  · exact absurd hl (not_lt.2 h)

/-- a hare that stays awake is awake in its next turn -/
theorem awake_again (ha : ¬ Asleep r t) (hl : lead (beforeHare r t) ≤ r.hareTurtleDistanceForSleep.toInt) :
    ¬ Asleep r (t + 1) := by
  rintro ⟨d, hd, hle⟩
  rw [decisions_same (.inr hl)] at hd
  push_cast at hle
  exact ha ⟨d, hd, by omega⟩

/-! ## The sleep counter -/

theorem hareBody_awake {s : Track} (hc : s.hareSleepCounter = r.hareSleepTime.toInt) :
    (hareBody r s).hareSleepCounter = 0 ∧
    (lead s ≤ r.hareTurtleDistanceForSleep.toInt → (hareBody r s).hareDistance = advanced r s) ∧
    (r.hareTurtleDistanceForSleep.toInt < lead s → (hareBody r s).hareDistance = s.hareDistance) := by
  unfold hareBody
  rw [if_pos hc]
  refine ⟨?_, ?_, ?_⟩
  · dsimp only
    split_ifs <;> rfl
  · intro hl
    rw [advanced, if_pos (show s.hareDistance - s.turtleDistance ≤ _ from hl)]
    dsimp only
    split_ifs <;> rfl
  · intro hl
    rw [if_neg (show ¬ s.hareDistance - s.turtleDistance ≤ _ from not_le.2 hl)]

/-- a step past the line ends the race -/
theorem hareBody_finish {s : Track} (hc : s.hareSleepCounter = r.hareSleepTime.toInt)
    (hl : lead s ≤ r.hareTurtleDistanceForSleep.toInt)
    (hf : r.finishDistance.toInt ≤ s.hareDistance + r.hareSpeed.toInt) : (hareBody r s).noWinner = 0 := by
  unfold hareBody
  rw [if_pos hc, if_pos (show s.hareDistance - s.turtleDistance ≤ _ from hl)]
  dsimp only
  rw [if_pos hf]

theorem hareBody_asleep {s : Track} (hc : s.hareSleepCounter ≠ r.hareSleepTime.toInt) :
    (hareBody r s).hareSleepCounter = s.hareSleepCounter + 1 ∧ (hareBody r s).hareDistance = s.hareDistance := by
  rw [hareBody, if_neg hc]
  exact ⟨rfl, rfl⟩

/-- the Hare's turn of an open race -/
theorem hare_turn (ho : (beforeHare r t).noWinner = 1) : afterTurns r (3 * (t + 1)) = hareBody r (beforeHare r t) := by
  rw [afterTurns_hare]
  change turn r .hare _ (beforeHare r t) = _
  simp only [turn, ho, ne_eq, one_ne_zero, not_false_eq_true, if_true, body]

theorem applyEntry_counter (r : Race) (e : Repositioning) (s : Track) :
    (applyEntry r e s).hareSleepCounter = s.hareSleepCounter := by
  simp only [applyEntry]
  split_ifs <;> rfl

theorem turn_counter {x : Player} (hx : x ≠ .hare) (c : Int32) (s : Track) :
    (turn r x c s).hareSleepCounter = s.hareSleepCounter := by
  cases x with
  | hare => exact absurd rfl hx
  | turtle =>
    simp only [turn, body, turtleBody, tieBody]
    split_ifs <;> rfl
  | randomizer =>
    simp only [turn, body, randomizerBody]
    split_ifs
    · split
      · split_ifs
        · exact applyEntry_counter r _ s
        · rfl
      · rfl
    · rfl

/-- the other two players leave the counter alone -/
theorem counter_tick (r : Race) (t : ℕ) :
    (beforeHare r (t + 1)).hareSleepCounter = (afterTurns r (3 * (t + 1))).hareSleepCounter := by
  rw [beforeHare, afterTurns_turtle, turn_counter (by decide), afterTurns_randomizer, turn_counter (by decide)]

/-- a turn that moves the hare in a race that goes on -/
def MovesOn (r : Race) (s : Track) : Prop :=
  s.noWinner = 1 ∧ s.hareSleepCounter = r.hareSleepTime.toInt ∧ lead s ≤ r.hareTurtleDistanceForSleep.toInt ∧
    s.hareDistance + r.hareSpeed.toInt < r.finishDistance.toInt

instance (r : Race) (s : Track) : Decidable (MovesOn r s) := inferInstanceAs (Decidable (_ ∧ _))

/-- the hare does not sleep at all, or the turn of tick `t` does not move it on -/
def Steady (r : Race) (t : ℕ) : Prop := r.hareSleepTime.toInt = 0 ∨ ¬ MovesOn r (beforeHare r t)

instance (r : Race) (t : ℕ) : Decidable (Steady r t) := inferInstanceAs (Decidable (_ ∨ _))

/-- awake with the counter at the sleep time, or asleep since the last decision, as many turns ago as it says -/
inductive Counted (r : Race) (t : ℕ) (c : ℤ) : Prop
  | awake (hc : c = r.hareSleepTime.toInt) (ha : ¬ Asleep r t)
  | asleep (hc : 0 ≤ c) (hlt : c < r.hareSleepTime.toInt) {d : ℕ} (hd : d ∈ decisions r t)
      (hlast : ∀ d' ∈ decisions r t, d' ≤ d) (ht : (t : ℤ) = d + 1 + c)

/-- **The counter.** One tick. -/
theorem counted_tick (hs : 0 ≤ r.hareSleepTime.toInt) (hst : Steady r t) (ho : (beforeHare r t).noWinner = 1)
    (hnext : (beforeHare r (t + 1)).noWinner = 1) (h : Counted r t (beforeHare r t).hareSleepCounter) :
    Counted r (t + 1) (beforeHare r (t + 1)).hareSleepCounter := by
  rw [counter_tick, hare_turn ho]
  cases h with
  | awake hc ha =>
    rw [(hareBody_awake hc).1]
    rcases le_or_gt (lead (beforeHare r t)) r.hareTurtleDistanceForSleep.toInt with hl | hl
    · -- the hare moves; the race goes on, so it has no sleep time
      have hgo : (beforeHare r t).hareDistance + r.hareSpeed.toInt < r.finishDistance.toInt := by
        by_contra hf
        have hopen := open_earlier (show 3 * (t + 1) ≤ 3 * (t + 1) + 2 by omega) hnext
        rw [hare_turn ho, hareBody_finish hc hl (not_lt.1 hf)] at hopen
        exact absurd hopen (by decide)
      have hzero := hst.resolve_right fun hno => hno ⟨ho, hc, hl, hgo⟩
      exact .awake hzero.symm (awake_again ha hl)
    · have hdec := decisions_decided ho ha hl
      rcases hs.eq_or_lt with hzero | hpos
      · refine .awake hzero ?_
        rintro ⟨d, hd, hle⟩
        have := decisions_lt hd
        push_cast at hle
        omega
      · refine .asleep (d := t) le_rfl hpos (by simp [hdec]) ?_ (by push_cast; omega)
        intro d' hd'
        have := decisions_lt hd'
        omega
  | @asleep hc hlt d hd hlast ht =>
    have ha : Asleep r t := ⟨d, hd, by omega⟩
    have hdec := decisions_same (.inl ha)
    rw [(hareBody_asleep hlt.ne).1]
    rcases (Int.add_one_le_of_lt hlt).eq_or_lt with hend | hmore
    · refine .awake hend ?_
      rintro ⟨d', hd', hle⟩
      rw [hdec] at hd'
      have := hlast d' hd'
      push_cast at hle
      omega
    · rw [← hdec] at hd hlast
      exact .asleep (by omega) hmore hd hlast (by push_cast; omega)

/-- **The counter.** Until a turn has moved the hare on. -/
theorem counted_run (hs : 0 ≤ r.hareSleepTime.toInt) (hst : ∀ u < t, Steady r u)
    (ho : (beforeHare r t).noWinner = 1) : Counted r t (beforeHare r t).hareSleepCounter := by
  induction t with
  | zero =>
    have hc : (beforeHare r 0).hareSleepCounter = r.hareSleepTime.toInt := by
      have hfirst : beforeHare r 0 = turn r .turtle (currTimeAt 0) (turn r .randomizer (currTimeAt 0) (start r)) := rfl
      rw [hfirst, turn_counter (by decide), turn_counter (by decide)]
      rfl
    refine .awake hc ?_
    rintro ⟨d, hd, -⟩
    cases hd
  | succ t ih =>
    have hprev : (beforeHare r t).noWinner = 1 := open_earlier (show 3 * t + 2 ≤ 3 * (t + 1) + 2 by omega) ho
    exact counted_tick hs (hst t (Nat.lt_succ_self t)) hprev ho (ih (fun u hu => hst u (by omega)) hprev)

/-! ## The turns -/

/-- **The hare's turns.** Every turn is right as long as no earlier one has moved the hare on, unless the hare does not
sleep at all. -/
theorem hare_follows (r : Race) (hs : 0 ≤ r.hareSleepTime.toInt) (t : ℕ) (hst : ∀ u < t, Steady r u) : Follows r t := by
  constructor
  · intro ho ha hl
    cases counted_run hs hst ho with
    | awake hc _ =>
      rw [hare_turn ho]
      exact ⟨(hareBody_awake hc).2.1 hl, awake_again ha hl⟩
    | asleep hc hlt hd hlast ht => exact absurd ⟨_, hd, by omega⟩ ha
  · intro ho ha hl
    cases counted_run hs hst ho with
    | awake hc _ =>
      rw [hare_turn ho, decisions_decided ho ha hl]
      exact ⟨(hareBody_awake hc).2.2 hl, List.mem_cons_self⟩
    | asleep hc hlt hd hlast ht => exact absurd ⟨_, hd, by omega⟩ ha
  · intro ho ha
    cases counted_run hs hst ho with
    | awake _ hn => exact absurd ha hn
    | asleep hc hlt hd hlast ht => rw [hare_turn ho, (hareBody_asleep hlt.ne).2]

/-- a hare that goes to sleep in tick 0, sleeps one turn and moves in tick 2 -/
theorem hare_follows_example : Follows ⟨1, 1, 1, 1, -2, 10, []⟩ 2 :=
  hare_follows ⟨1, 1, 1, 1, -2, 10, []⟩ (by decide) 2 (by decide)

/-- the turn after the first one that moves the hare on: it is not asleep, and it stays where it is -/
theorem rests_after_move (hs : 0 < r.hareSleepTime.toInt) (hst : ∀ u < t, Steady r u)
    (hm : MovesOn r (beforeHare r t)) (hnext : (beforeHare r (t + 1)).noWinner = 1) :
    ¬ Asleep r (t + 1) ∧ (afterTurns r (3 * (t + 1 + 1))).hareDistance = (beforeHare r (t + 1)).hareDistance := by
  obtain ⟨ho, hc, hl, -⟩ := hm
  have hzero : (beforeHare r (t + 1)).hareSleepCounter = 0 := by
    rw [counter_tick, hare_turn ho, (hareBody_awake hc).1]
  constructor
  · cases counted_run hs.le hst ho with
    | awake _ ha => exact awake_again ha hl
    | asleep _ hlt => exact absurd hc hlt.ne
  · rw [hare_turn hnext]
    exact (hareBody_asleep (hzero.trans_ne hs.ne)).2

/-- the hare moves in tick 0, is awake in tick 1 and ahead of nobody, and does not move -/
theorem hare_rests : ¬ Follows ⟨1, 1, 1, 1, 100, 10, []⟩ 1 := by
  intro h
  have hmoves := (h.moves (by decide) (by decide) (by decide)).1
  exact absurd hmoves (by decide)

end DecsLabs.HareTortoise
