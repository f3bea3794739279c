/-
Every race with a moving tortoise ends. The Randomizer may push the tortoise back as long as there are entries, but not
after the largest time of the array: from then on the tortoise gains its speed in every tick. The clock wraps as an int
only after that, and then it is negative until tick 2^32, where no entry is.

- `no_entry_late`: after the last time no entry is applied before tick 2^32.
- `tortoise_gains`: the tortoise after `k` more ticks.
- `race_ends`: the bound.
-/
import DecsLabs.Race.Repositioning

namespace DecsLabs.HareTortoise

variable {r : Race} {s : Track}

/-- the largest time in the array, 0 for an empty one -/
def lastTime (r : Race) : ℤ := (r.reposition.map fun e => e.time.toInt).foldr max 0

theorem le_foldr_max {l : List ℤ} {a : ℤ} (h : a ∈ l) : a ≤ l.foldr max 0 := by
  induction l with
  | nil => cases h
  | cons b l ih =>
    rcases List.mem_cons.1 h with rfl | h
    · exact le_max_left _ _
    · exact (ih h).trans (le_max_right _ _)

theorem foldr_max_lt {l : List ℤ} {b : ℤ} (h0 : 0 < b) (h : ∀ a ∈ l, a < b) : l.foldr max 0 < b := by
  induction l with
  | nil => exact h0
  | cons a l ih => exact max_lt (h a (by simp)) (ih fun c hc => h c (by simp [hc]))

theorem time_le_lastTime {e : Repositioning} (he : e ∈ r.reposition) : e.time.toInt ≤ lastTime r :=
  le_foldr_max (List.mem_map_of_mem he)

theorem lastTime_nonneg (r : Race) : 0 ≤ lastTime r := by
  unfold lastTime
  induction r.reposition with
  | nil => exact le_rfl
  | cons e l ih => exact ih.trans (le_max_right _ _)

theorem lastTime_lt (r : Race) : lastTime r < 2 ^ 31 := by
  refine foldr_max_lt (by norm_num) fun a ha => ?_
  obtain ⟨e, -, rfl⟩ := List.mem_map.1 ha
  exact e.time.toInt_lt

/-! ## One turn -/

/-- after the last time no entry is at the time that the Randomizer reads, until the clock passes 2^32 -/
theorem no_entry_late (hnn : ∀ e ∈ r.reposition, 0 ≤ e.time.toInt) {t : ℕ} (hlate : lastTime r < t) (ht : t < 2 ^ 32)
    {e : Repositioning} (he : e ∈ r.reposition) : e.time ≠ currTimeAt t := by
  intro heq
  have h0 := hnn e he
  have hle := time_le_lastTime he
  have hclock : e.time.toInt = (t : ℤ).bmod (2 ^ 32) := by
    rw [heq, currTimeAt, Int32.toInt_ofInt]
    rfl
  rw [Int.bmod_def] at hclock
  split_ifs at hclock <;> omega

theorem randomizer_late (hnn : ∀ e ∈ r.reposition, 0 ≤ e.time.toInt) {t : ℕ} (hlate : lastTime r < t)
    (ht : t < 2 ^ 32) (s : Track) : turn r .randomizer (currTimeAt t) s = s := by
  have hbody : randomizerBody r (currTimeAt t) s = s := by
    unfold randomizerBody
    split
    · rename_i e he
      rw [if_neg (no_entry_late hnn hlate ht (List.mem_of_getElem? he))]
    · rfl
  simp only [turn, body, hbody, ite_self]

/-- a turn of the Turtle ends the race or takes the turtle on by its speed -/
theorem turtle_gains (r : Race) (c : Int32) (s : Track) :
    (turn r .turtle c s).noWinner = 0 ∨ (turn r .turtle c s).turtleDistance = s.turtleDistance + r.tortoiseSpeed.toInt ∧
      s.turtleDistance + r.tortoiseSpeed.toInt < r.finishDistance.toInt := by
  unfold turn
  split_ifs with ho
  · simp only [body, turtleBody]
    split_ifs with hf
    · exact .inl rfl
    · exact .inr ⟨rfl, not_le.1 hf⟩
  · left
    have h0 : s.noWinner = 0 := not_not.1 ho
    simp only [tieBody]
    split_ifs <;> exact h0

theorem hare_keeps_turtle (r : Race) (c : Int32) (s : Track) :
    (turn r .hare c s).turtleDistance = s.turtleDistance := by
  simp only [turn, body, hareBody]
  split_ifs <;> rfl

/-! ## From the last time on -/

/-- the turtle's turn of tick `t` -/
theorem afterTurns_turtle (r : Race) (t : ℕ) :
    afterTurns r (3 * t + 2) = turn r .turtle (currTimeAt t) (afterTurns r (3 * t + 1)) :=
  afterTurns_index r .turtle t

theorem afterTurns_hare (r : Race) (t : ℕ) :
    afterTurns r (3 * (t + 1)) = turn r .hare (currTimeAt t) (afterTurns r (3 * t + 2)) :=
  afterTurns_index r .hare t

theorem turtle_moved {t : ℕ} (ho : (afterTurns r (3 * t + 2)).noWinner = 1) :
    (afterTurns r (3 * t + 2)).turtleDistance = (afterTurns r (3 * t + 1)).turtleDistance + r.tortoiseSpeed.toInt ∧
      (afterTurns r (3 * t + 2)).turtleDistance < r.finishDistance.toInt := by
  have hgain := turtle_gains r (currTimeAt t) (afterTurns r (3 * t + 1))
  rw [← afterTurns_turtle, ho] at hgain
  obtain ⟨hmove, hlt⟩ := hgain.resolve_left one_ne_zero
  exact ⟨hmove, hmove ▸ hlt⟩

/-- **Gain.** After the Turtle's turn of the `k`-th tick from the last time on, by induction on `k`. -/
theorem tortoise_gains (hr : r.Valid) (hnn : ∀ e ∈ r.reposition, 0 ≤ e.time.toInt) {T : ℕ} (hT : T = lastTime r) (k : ℕ)
    (hk : T + k < 2 ^ 32) (ho : (afterTurns r (3 * (T + k) + 2)).noWinner = 1) :
    (k + 1) * r.tortoiseSpeed.toInt ≤ (afterTurns r (3 * (T + k) + 2)).turtleDistance := by
  induction k with
  | zero =>
    have hlo := (afterTurns_consistent hr (3 * (T + 0) + 1)).turtle_lo
    rw [(turtle_moved ho).1, Nat.cast_zero, zero_add, one_mul]
    omega
  | succ k ih =>
    have hlate : lastTime r < ((T + (k + 1) : ℕ) : ℤ) := by omega
    -- between the two turns of the Turtle only the Hare has moved
    have hsame : afterTurns r (3 * (T + (k + 1)) + 1) = afterTurns r (3 * ((T + k) + 1)) := by
      rw [afterTurns_randomizer, randomizer_late hnn hlate hk]
      rfl
    have hprev : (afterTurns r (3 * (T + (k + 1)) + 1)).turtleDistance =
        (afterTurns r (3 * (T + k) + 2)).turtleDistance := by
      rw [hsame, afterTurns_hare, hare_keeps_turtle]
    have hgain := ih (by omega) (open_earlier (by omega) ho)
    rw [(turtle_moved ho).1, hprev]
    push_cast
    linarith

/-- **Every race ends.** At the latest when the tortoise has had the time for the whole way after the last entry. -/
theorem race_ends (r : Race) (hf : 1 ≤ r.finishDistance.toInt) (hv : 1 ≤ r.tortoiseSpeed.toInt)
    (hh : 0 ≤ r.hareSpeed.toInt) (hnn : ∀ e ∈ r.reposition, 0 ≤ e.time.toInt) :
    ∃ t : ℕ, (t : ℤ) ≤ lastTime r + ⌈(r.finishDistance.toInt : ℚ) / r.tortoiseSpeed.toInt⌉ - 1 ∧
      (afterTurns r (3 * (t + 1))).noWinner = 0 := by
  have hr : r.Valid := ⟨by omega, by omega, hh⟩
  have hvpos : (0 : ℚ) < r.tortoiseSpeed.toInt := by exact_mod_cast hv
  obtain ⟨T, hT⟩ := Int.eq_ofNat_of_zero_le (lastTime_nonneg r)
  set c := ⌈(r.finishDistance.toInt : ℚ) / r.tortoiseSpeed.toInt⌉ with hc
  -- the tortoise needs at least one tick, and at most one for each unit of the way
  have hc1 : 1 ≤ c := by
    rw [hc, Int.one_le_ceil_iff]
    exact div_pos (by exact_mod_cast hf) hvpos
  have hcF : c ≤ r.finishDistance.toInt := by
    rw [hc, Int.ceil_le, div_le_iff₀ hvpos]
    have hle : r.finishDistance.toInt ≤ r.finishDistance.toInt * r.tortoiseSpeed.toInt :=
      le_mul_of_one_le_right (by omega) hv
    exact_mod_cast hle
  have hway : r.finishDistance.toInt ≤ c * r.tortoiseSpeed.toInt := by
    have hceil : (r.finishDistance.toInt : ℚ) / r.tortoiseSpeed.toInt ≤ c := Int.le_ceil _
    rw [div_le_iff₀ hvpos] at hceil
    exact_mod_cast hceil
  obtain ⟨k, hk⟩ : ∃ k : ℕ, c = k + 1 := ⟨(c - 1).toNat, by omega⟩
  have hTlt := lastTime_lt r
  have hFlt := r.finishDistance.toInt_lt
  refine ⟨T + k, by push_cast; omega, ?_⟩
  by_contra hopen
  have ho : (afterTurns r (3 * (T + k) + 2)).noWinner = 1 :=
    open_earlier (by omega) ((noWinner_binary r _).resolve_left hopen)
  have hgain := tortoise_gains hr hnn hT.symm k (by omega) ho
  have hlt := (turtle_moved ho).2
  rw [hk] at hway
  omega

theorem race_ends_example : ∃ t : ℕ, (t : ℤ) ≤ 6 ∧
    (afterTurns ⟨1, 3, 0, 2, 5, 10, [⟨'T', 1, -50⟩, ⟨'H', 3, -7⟩]⟩ (3 * (t + 1))).noWinner = 0 := by
  obtain ⟨t, ht, hend⟩ := race_ends ⟨1, 3, 0, 2, 5, 10, [⟨'T', 1, -50⟩, ⟨'H', 3, -7⟩]⟩ (by decide) (by decide)
    (by decide) (by decide)
  have hlast : lastTime ⟨1, 3, 0, 2, 5, 10, [⟨'T', 1, -50⟩, ⟨'H', 3, -7⟩]⟩ = 3 := by decide
  have hceil : ⌈(((10 : Int32).toInt : ℤ) : ℚ) / ((3 : Int32).toInt : ℤ)⌉ = 4 := by
    have h10 : (10 : Int32).toInt = 10 := rfl
    have h3 : (3 : Int32).toInt = 3 := rfl
    rw [h10, h3]
    norm_num
  rw [hlast, hceil] at ht
  exact ⟨t, by omega, hend⟩

end DecsLabs.HareTortoise
