/-
The cycle counters (clock.c): a reading is a pair of words, and `get_counter` subtracts the reading of `start_counter`
with a borrow from the upper word. On the Alpha the upper word is always 0.

The result is the number before its conversion to `double`. The test for a negative result is left out: it holds of no sum
of two unsigned words.

- `getCounter_value`: the subtraction is modulo `2^64`.
- `getCounter_elapsed`: what is returned for a given number of cycles, on both machines. On the Alpha, if the second reading
  is below the first, the upper word is borrowed from and the result is near `2^64`.
- `fcyc_alpha`: the `k`-best scheme over the Alpha counter passes over such results while there is a better one.
-/
import DecsLabs.Timing.Sampler

namespace DecsLabs.Timing

/-! ## Model -/

/-- `hi` and `lo` of one reading -/
structure Counter where
  hi : UInt32
  lo : UInt32
deriving DecidableEq, Repr

/-- the words of the 64-bit register that `rdtsc` reads, after `t` cycles -/
def accessCounter (t : ℕ) : Counter := ⟨UInt32.ofNat (t / 2 ^ 32), UInt32.ofNat t⟩

/-- on the Alpha, which keeps 32 bits of the cycles of the process -/
def counter (t : ℕ) : Counter := ⟨0, UInt32.ofNat t⟩

def getCounter (cyc ncyc : Counter) : ℕ :=
  let lo := ncyc.lo - cyc.lo
  let borrow : UInt32 := if lo > ncyc.lo then 1 else 0
  let hi := ncyc.hi - cyc.hi - borrow
  hi.toNat * (1 <<< 30) * 4 + lo.toNat

/-! ## The subtraction -/

def Counter.value (c : Counter) : ℕ := c.hi.toNat * 2 ^ 32 + c.lo.toNat

theorem sub_toNat (a b : UInt32) :
    (a - b).toNat = if b.toNat ≤ a.toNat then a.toNat - b.toNat else a.toNat + 2 ^ 32 - b.toNat := by
  have ha := a.toNat_lt
  have hb := b.toNat_lt
  rw [UInt32.toNat_sub]
  split_ifs <;> omega

/-- the test for a borrow -/
theorem borrows_iff (a b : UInt32) : a - b > a ↔ a.toNat < b.toNat := by
  have ha := a.toNat_lt
  have hb := b.toNat_lt
  rw [gt_iff_lt, UInt32.lt_iff_toNat_lt, sub_toNat]
  split_ifs <;> omega

theorem getCounter_value (cyc ncyc : Counter) : getCounter cyc ncyc = (ncyc.value + 2 ^ 64 - cyc.value) % 2 ^ 64 := by
  have hcl := cyc.lo.toNat_lt
  have hnl := ncyc.lo.toNat_lt
  have hch := cyc.hi.toNat_lt
  have hnh := ncyc.hi.toNat_lt
  have hone : (1 : UInt32).toNat = 1 := rfl
  have hzero : (0 : UInt32).toNat = 0 := rfl
  unfold getCounter Counter.value
  simp only [borrows_iff, Nat.one_shiftLeft]
  split_ifs with h
  · rw [sub_toNat (ncyc.hi - cyc.hi), sub_toNat ncyc.hi, sub_toNat ncyc.lo, hone, if_neg h.not_ge]
    split_ifs <;> omega
  · rw [sub_toNat (ncyc.hi - cyc.hi), sub_toNat ncyc.hi, sub_toNat ncyc.lo, hzero, if_pos (not_lt.1 h)]
    split_ifs <;> omega

/-! ## Cycles -/

theorem accessCounter_value (t : ℕ) : (accessCounter t).value = t % 2 ^ 64 := by
  have hhi : (UInt32.ofNat (t / 2 ^ 32)).toNat = t / 2 ^ 32 % 2 ^ 32 := UInt32.toNat_ofNat'
  have hlo : (UInt32.ofNat t).toNat = t % 2 ^ 32 := UInt32.toNat_ofNat'
  rw [Counter.value, accessCounter, hhi, hlo]
  omega

theorem counter_value (t : ℕ) : (counter t).value = t % 2 ^ 32 := by
  have hlo : (UInt32.ofNat t).toNat = t % 2 ^ 32 := UInt32.toNat_ofNat'
  have hzero : (0 : UInt32).toNat = 0 := rfl
  rw [Counter.value, counter, hlo, hzero]
  omega

/-- after `d` cycles the Alpha counter reads less than it did before -/
def Wraps (start d : ℕ) : Prop := 2 ^ 32 ≤ start % 2 ^ 32 + d % 2 ^ 32

instance (start d : ℕ) : Decidable (Wraps start d) := inferInstanceAs (Decidable (_ ≤ _))

/-- **The cycles between two readings.** With the 64-bit register they are right modulo `2^64`. With the 32 bits of the
Alpha they are right modulo `2^32` unless the second reading is below the first; then `2^64 - 2^32` is added. -/
theorem getCounter_elapsed (start d : ℕ) :
    getCounter (accessCounter start) (accessCounter (start + d)) = d % 2 ^ 64 ∧
    getCounter (counter start) (counter (start + d)) = if Wraps start d then 2 ^ 64 - 2 ^ 32 + d % 2 ^ 32 else d % 2 ^ 32 := by
  rw [getCounter_value, getCounter_value, accessCounter_value, accessCounter_value, counter_value, counter_value]
  refine ⟨by omega, ?_⟩
  split_ifs with h <;> unfold Wraps at h <;> omega

/-! ## Measurements -/

variable {α : Type} {round : ℕ → α} {start d : ℕ → ℕ} {i : ℕ}

/-- call `i` of the function begins at cycle `start i` and takes `d i` cycles; `round` is the conversion to `double` -/
def alphaTime (round : ℕ → α) (start d : ℕ → ℕ) (i : ℕ) : α :=
  round (getCounter (counter (start i)) (counter (start i + d i)))

theorem alphaTime_whole (hd : d i < 2 ^ 32) (h : ¬ Wraps (start i) (d i)) :
    alphaTime round start d i = round (d i) := by
  rw [alphaTime, (getCounter_elapsed _ _).2, if_neg h, Nat.mod_eq_of_lt hd]

theorem alphaTime_wraps (hd : d i < 2 ^ 32) (h : Wraps (start i) (d i)) :
    alphaTime round start d i = round (2 ^ 64 - 2 ^ 32 + d i) := by
  rw [alphaTime, (getCounter_elapsed _ _).2, if_pos h, Nat.mod_eq_of_lt hd]

/-- **`fcyc` over the Alpha counter.** For calls of less than `2^32` cycles it returns the least number of cycles of the
calls during which the counter has not wrapped, if there is one among those measured. If all have wrapped it returns the
least number and `2^64 - 2^32` more. -/
theorem fcyc_alpha [LinearOrder α] (p : Params α) (zero : α) (hround : Monotone round) (hk : 0 < p.kbest)
    (hd : ∀ i, d i < 2 ^ 32) :
    ∃ n c, fcyc p zero (alphaTime round start d) = some c ∧
      IsLeast {j | 0 < j ∧ Stops p (alphaTime round start d) j} n ∧
      ((∃ i < n, ¬ Wraps (start i) (d i)) → IsLeast {c | ∃ i < n, ¬ Wraps (start i) (d i) ∧ c = round (d i)} c) ∧
      ((∀ i < n, Wraps (start i) (d i)) → IsLeast {c | ∃ i < n, c = round (2 ^ 64 - 2 ^ 32 + d i)} c) := by
  obtain ⟨n, c, hc, hn, ⟨i, hi, hci⟩, hleast⟩ := fcyc_least p zero (alphaTime round start d) hk
  refine ⟨n, c, hc, hn, fun hwhole => ?_, fun hall => ⟨⟨i, hi, ?_⟩, ?_⟩⟩
  · have hbelow : ∀ j < n, ¬ Wraps (start j) (d j) → c ≤ round (d j) := by
      intro j hj hw
      calc c ≤ alphaTime round start d j := hleast ⟨j, hj, rfl⟩
        _ = round (d j) := alphaTime_whole (hd j) hw
    refine ⟨?_, ?_⟩
    · by_cases hw : Wraps (start i) (d i)
      · -- the least time is of a call that wrapped: a whole one rounds to the same
        obtain ⟨j, hj, hwj⟩ := hwhole
        have hle : d j ≤ 2 ^ 64 - 2 ^ 32 + d i := by
          have := hd j
          omega
        have hge : round (d j) ≤ c :=
          calc round (d j) ≤ round (2 ^ 64 - 2 ^ 32 + d i) := hround hle
            _ = alphaTime round start d i := (alphaTime_wraps (hd i) hw).symm
            _ = c := hci.symm
        exact ⟨j, hj, hwj, le_antisymm (hbelow j hj hwj) hge⟩
      · exact ⟨i, hi, hw, hci.trans (alphaTime_whole (hd i) hw)⟩
    · rintro _ ⟨j, hj, hw, rfl⟩
      exact hbelow j hj hw
  · rw [hci, alphaTime_wraps (hd i) (hall i hi)]
  · rintro _ ⟨j, hj, rfl⟩
    calc c ≤ alphaTime round start d j := hleast ⟨j, hj, rfl⟩
      _ = round (2 ^ 64 - 2 ^ 32 + d j) := alphaTime_wraps (hd j) (hall j hj)

/-- the first of the calls begins 1000 cycles before the counter wraps -/
def someStart (i : ℕ) : ℕ := 2 ^ 32 - 1000 + 5000 * i

theorem fcyc_alpha_example : (∀ i, someCycles i < 2 ^ 32) ∧ ∃ n c, fcyc defaults 0 (alphaTime id someStart someCycles) = some c ∧
    IsLeast {j | 0 < j ∧ Stops defaults (alphaTime id someStart someCycles) j} n ∧
    ((∃ i < n, ¬ Wraps (someStart i) (someCycles i)) →
      IsLeast {c | ∃ i < n, ¬ Wraps (someStart i) (someCycles i) ∧ c = someCycles i} c) := by
  have hd : ∀ i, someCycles i < 2 ^ 32 := by
    intro i
    unfold someCycles
    rcases i with _ | _ | _ | _ | _ | i <;> simp
  obtain ⟨n, c, hc, hn, hwhole, -⟩ := fcyc_alpha defaults 0 monotone_id (by decide) hd
  exact ⟨hd, n, c, hc, hn, hwhole⟩

end DecsLabs.Timing
