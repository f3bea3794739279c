/-
The measurement of a running time (fcyc.c): a function is timed until the `kbest` smallest times lie close together, or
until there are `maxsamples` of them; the smallest is returned.

Times are the elements of a linear order, which the doubles without NaN are. The comparison with `epsilon` is a parameter,
and so are the times; the two loops of `fcyc` differ only in where these come from. Reading outside of the array of the
`kbest` values stops the function.

- `insertionSort_eq`: the loop behind a new value is an ordered insertion.
- `Kept`, `addSample_kept`: the array has the smallest values so far in order.
- `fcyc_least`: how many samples are taken, and what is returned.
-/
import DecsLabs.Core.Smallest

namespace DecsLabs.Timing

variable {α : Type} [LinearOrder α]

/-! ## Model -/

/-- the parameters that the `set_fcyc_` functions set -/
structure Params (α : Type) where
  kbest : ℕ
  maxsamples : ℕ
  /-- `(1 + epsilon)*lo >= hi` -/
  close : α → α → Bool

structure Sampler (α : Type) where
  values : List α
  samplecount : ℕ
deriving DecidableEq, Repr

/-- `zero` is what `calloc` leaves in the array -/
def initSampler (p : Params α) (zero : α) : Sampler α := ⟨List.replicate p.kbest zero, 0⟩

/-- `while (pos > 0 && values[pos-1] > values[pos])` -/
def insertionSort (values : List α) : ℕ → List α
  | 0 => values
  | pos + 1 =>
    match values[pos]?, values[pos + 1]? with
    | some a, some b => if a > b then insertionSort ((values.set pos b).set (pos + 1) a) pos else values
    | _, _ => values

def addSample (p : Params α) (s : Sampler α) (val : α) : Option (Sampler α) :=
  if s.samplecount < p.kbest then
    some ⟨insertionSort (s.values.set s.samplecount val) s.samplecount, s.samplecount + 1⟩
  else
    match s.values[p.kbest - 1]? with
    | none => none
    | some worst =>
      if val < worst then some ⟨insertionSort (s.values.set (p.kbest - 1) val) (p.kbest - 1), s.samplecount + 1⟩
      else some ⟨s.values, s.samplecount + 1⟩

def hasConverged (p : Params α) (s : Sampler α) : Bool :=
  s.samplecount ≥ p.kbest &&
    match s.values[0]?, s.values[p.kbest - 1]? with
    | some lo, some hi => p.close lo hi
    | _, _ => false

theorem addSample_count {p : Params α} {s s' : Sampler α} {val : α} (h : addSample p s val = some s') :
    s'.samplecount = s.samplecount + 1 := by
  unfold addSample at h
  split_ifs at h with hk
  · cases h
    rfl
  · split at h
    · cases h
    · split_ifs at h <;> (cases h; rfl)

/-- the loop of `fcyc`; `time i` is the `i`-th measurement -/
def sampling (p : Params α) (time : ℕ → α) (s : Sampler α) : Option (Sampler α) :=
  match _h : addSample p s (time s.samplecount) with
  | none => none
  | some s' => if !hasConverged p s' && s'.samplecount < p.maxsamples then sampling p time s' else some s'
termination_by p.maxsamples - s.samplecount
decreasing_by
  have hcount := addSample_count _h
  simp_all
  omega

def fcyc (p : Params α) (zero : α) (time : ℕ → α) : Option α :=
  (sampling p time (initSampler p zero)).bind fun s => s.values[0]?

/-! ## The values -/

/-- the new value sinks to its place among those before it -/
theorem insertionSort_eq {s : List α} (hs : s.Pairwise (· ≤ ·)) (x : α) (rest : List α) :
    insertionSort (s ++ x :: rest) s.length = s.orderedInsert (· ≤ ·) x ++ rest := by
  induction s using List.reverseRecOn generalizing rest with
  | nil => rfl
  | append_singleton s y ih =>
    obtain ⟨hs', -, hle⟩ := List.pairwise_append.1 hs
    have hy : (s ++ [y] ++ x :: rest)[s.length]? = some y := by simp
    have hx : (s ++ [y] ++ x :: rest)[s.length + 1]? = some x := by simp
    rw [List.length_append, List.length_singleton, insertionSort, hy, hx]
    simp only
    split_ifs with hlt
    · have hswap : ((s ++ [y] ++ x :: rest).set s.length x).set (s.length + 1) y = s ++ x :: y :: rest := by
        simp
      rw [hswap, ih hs' (y :: rest), orderedInsert_last hlt]
      simp
    · have hall : ∀ b ∈ s ++ [y], b ≤ x := by
        intro b hb
        rcases List.mem_append.1 hb with hb | hb
        · exact (hle b hb y (by simp)).trans (not_lt.1 hlt)
        · rw [List.mem_singleton.1 hb]
          exact not_lt.1 hlt
      rw [orderedInsert_all hs hall]
      simp

variable {p : Params α} {zero : α} {time : ℕ → α} {s s' : Sampler α} {n : ℕ}

/-- the `kbest` smallest of the first `n` times -/
def best (p : Params α) (time : ℕ → α) (n : ℕ) : List α := smallest p.kbest ((List.range n).map time)

theorem best_length : (best p time n).length = min p.kbest n := by
  rw [best, smallest_length, List.length_map, List.length_range]

theorem best_pairwise : (best p time n).Pairwise (· ≤ ·) := smallest_pairwise _ _

theorem best_succ : best p time (n + 1) = ((best p time n).orderedInsert (· ≤ ·) (time n)).take p.kbest := by
  rw [best, List.range_succ, List.map_append, List.map_singleton, smallest_concat]
  rfl

structure Kept (p : Params α) (zero : α) (time : ℕ → α) (s : Sampler α) (n : ℕ) : Prop where
  count : s.samplecount = n
  values : s.values = best p time n ++ List.replicate (p.kbest - n) zero

theorem initSampler_kept : Kept p zero time (initSampler p zero) 0 := ⟨rfl, by simp [initSampler, best, smallest]⟩

/-- while the array is not full -/
theorem addSample_room (h : Kept p zero time s n) (hn : n < p.kbest) :
    ∃ s', addSample p s (time n) = some s' ∧ Kept p zero time s' (n + 1) := by
  have hlen : (best p time n).length = n := by rw [best_length, min_eq_right hn.le]
  have hset : s.values.set n (time n) = best p time n ++ time n :: List.replicate (p.kbest - (n + 1)) zero := by
    obtain ⟨j, hj⟩ : ∃ j, p.kbest - n = j + 1 := ⟨p.kbest - n - 1, by omega⟩
    have hrest : p.kbest - (n + 1) = j := by omega
    rw [h.values, hj, hrest, List.replicate_succ, List.set_append_right _ _ hlen.le, hlen, Nat.sub_self, List.set_cons_zero]
  have hsort := insertionSort_eq (s := best p time n) best_pairwise (time n) (List.replicate (p.kbest - (n + 1)) zero)
  rw [hlen] at hsort
  refine ⟨_, by rw [addSample, h.count, if_pos hn], rfl, ?_⟩
  have hwhole : best p time (n + 1) = (best p time n).orderedInsert (· ≤ ·) (time n) := by
    rw [best_succ, List.take_of_length_le]
    rw [List.orderedInsert_length, hlen]
    exact hn
  change insertionSort (s.values.set n (time n)) n = _
  rw [hset, hwhole]
  exact hsort

/-- when the array is full the largest value makes way for a smaller one -/
theorem addSample_full (h : Kept p zero time s n) (hk : 0 < p.kbest) (hn : p.kbest ≤ n) :
    ∃ s', addSample p s (time n) = some s' ∧ Kept p zero time s' (n + 1) := by
  have hlen : (best p time n).length = p.kbest := by rw [best_length, min_eq_left hn]
  have hvalues : s.values = best p time n := by
    rw [h.values, Nat.sub_eq_zero_of_le hn, List.replicate_zero, List.append_nil]
  have hnone : p.kbest - (n + 1) = 0 := by omega
  obtain ⟨q, worst, hq⟩ : ∃ q worst, best p time n = q ++ [worst] := by
    refine ⟨_, _, (List.dropLast_append_getLast ?_).symm⟩
    rw [← List.length_pos_iff, hlen]
    exact hk
  have hqlen : q.length = p.kbest - 1 := by
    rw [hq, List.length_append, List.length_singleton] at hlen
    omega
  have hpair : (best p time n).Pairwise (· ≤ ·) := best_pairwise
  have hlast : s.values[p.kbest - 1]? = some worst := by rw [hvalues, hq, ← hqlen]; simp
  rw [hq] at hpair
  obtain ⟨hqpair, -, hqle⟩ := List.pairwise_append.1 hpair
  unfold addSample
  rw [h.count, if_neg hn.not_gt, hlast]
  simp only
  split_ifs with hlt
  · have hset : s.values.set (p.kbest - 1) (time n) = q ++ [time n] := by rw [hvalues, hq, ← hqlen]; simp
    refine ⟨_, rfl, rfl, ?_⟩
    change insertionSort (s.values.set (p.kbest - 1) (time n)) (p.kbest - 1) = _
    rw [hset, ← hqlen, insertionSort_eq hqpair, hnone, best_succ, hq, orderedInsert_last hlt, List.replicate_zero]
    rw [List.take_left' (by rw [List.orderedInsert_length]; omega)]
  · have hall : ∀ b ∈ q ++ [worst], b ≤ time n := by
      intro b hb
      rcases List.mem_append.1 hb with hb | hb
      · exact (hqle b hb worst (by simp)).trans (not_lt.1 hlt)
      · rw [List.mem_singleton.1 hb]
        exact not_lt.1 hlt
    refine ⟨_, rfl, rfl, ?_⟩
    change s.values = _
    rw [hvalues, hnone, best_succ, hq, orderedInsert_all hpair hall, List.replicate_zero, List.append_nil]
    rw [List.take_left' (by rw [← hq, hlen])]

theorem addSample_kept (h : Kept p zero time s n) (hk : 0 < p.kbest) :
    ∃ s', addSample p s (time n) = some s' ∧ Kept p zero time s' (n + 1) := by
  rcases Nat.lt_or_ge n p.kbest with hn | hn
  · exact addSample_room h hn
  · exact addSample_full h hk hn

/-! ## The loop -/

/-- the first and the last of the `kbest` smallest are close -/
def Converges (p : Params α) (time : ℕ → α) (n : ℕ) : Prop :=
  p.kbest ≤ n ∧ ∃ lo hi, (best p time n)[0]? = some lo ∧ (best p time n)[p.kbest - 1]? = some hi ∧ p.close lo hi

/-- after `n` samples the loop ends -/
def Stops (p : Params α) (time : ℕ → α) (n : ℕ) : Prop := p.maxsamples ≤ n ∨ Converges p time n

theorem hasConverged_iff (h : Kept p zero time s n) : hasConverged p s ↔ Converges p time n := by
  unfold hasConverged Converges
  rw [h.count, Bool.and_eq_true, decide_eq_true_iff]
  apply and_congr_right
  intro hn
  have hvalues : s.values = best p time n := by
    rw [h.values, Nat.sub_eq_zero_of_le hn, List.replicate_zero, List.append_nil]
  rw [hvalues]
  cases (best p time n)[0]? <;> cases (best p time n)[p.kbest - 1]? <;> simp

theorem sampling_kept (hk : 0 < p.kbest) (h : Kept p zero time s n) :
    ∃ m s', sampling p time s = some s' ∧ Kept p zero time s' m ∧ IsLeast {j | n < j ∧ Stops p time j} m := by
  induction hleft : p.maxsamples - n using Nat.strong_induction_on generalizing n s with | _ left ih
  obtain ⟨s', hs', hkept⟩ := addSample_kept h hk
  have hstep : sampling p time s =
      if !hasConverged p s' && s'.samplecount < p.maxsamples then sampling p time s' else some s' := by
    rw [sampling, h.count]
    split
    · next hnone =>
      rw [hs'] at hnone
      cases hnone
    · next t hsome =>
      rw [hs'] at hsome
      cases hsome
      rfl
  have hgo : (!hasConverged p s' && s'.samplecount < p.maxsamples) = true ↔ ¬ Stops p time (n + 1) := by
    rw [Stops, ← hasConverged_iff hkept, hkept.count]
    simp [and_comm]
  rw [hstep]
  split_ifs with hc
  · have hlt : n + 1 < p.maxsamples := by
      by_contra hge
      exact hgo.1 hc (.inl (not_lt.1 hge))
    obtain ⟨m, t, ht, htk, hm, hleast⟩ := ih (p.maxsamples - (n + 1)) (by omega) hkept rfl
    refine ⟨m, t, ht, htk, ⟨Nat.lt_of_succ_lt hm.1, hm.2⟩, ?_⟩
    rintro j ⟨hj, hstop⟩
    rcases Nat.lt_or_ge (n + 1) j with hj' | hj'
    · exact hleast ⟨hj', hstop⟩
    · have he : j = n + 1 := le_antisymm hj' hj
      exact absurd (he ▸ hstop) (hgo.1 hc)
  · exact ⟨n + 1, s', rfl, hkept, ⟨Nat.lt_succ_self n, not_not.1 (hgo.not.1 hc)⟩, fun j hj => hj.1⟩

/-- **What `fcyc` returns.** It stops after the first samples, at least one, of which the `kbest` smallest lie close together
or which are `maxsamples`, and returns the least of them. -/
theorem fcyc_least (p : Params α) (zero : α) (time : ℕ → α) (hk : 0 < p.kbest) :
    ∃ n c, fcyc p zero time = some c ∧ IsLeast {j | 0 < j ∧ Stops p time j} n ∧ IsLeast {c | ∃ i < n, c = time i} c := by
  have hinit : Kept p zero time (initSampler p zero) 0 := initSampler_kept
  obtain ⟨n, s, hs, hkept, hn⟩ := sampling_kept hk hinit
  have hpos : 0 < (best p time n).length := by
    rw [best_length]
    exact lt_min hk hn.1.1
  obtain ⟨c, hc⟩ : ∃ c, (best p time n)[0]? = some c := ⟨_, List.getElem?_eq_getElem hpos⟩
  have hfcyc : fcyc p zero time = some c := by
    rw [fcyc, hs, Option.bind_some, hkept.values, List.getElem?_append_left hpos, hc]
  refine ⟨n, c, hfcyc, hn, ?_⟩
  have hleast := smallest_head hk hc
  have hset : {c | ∃ i < n, c = time i} = {y | y ∈ (List.range n).map time} := by
    ext y
    simp [eq_comm]
  rw [hset]
  exact hleast

/-- the default values `K`, `MAXSAMPLES` and `EPSILON` -/
def defaults : Params ℕ := ⟨3, 20, fun lo hi => 101 * lo ≥ 100 * hi⟩

def someCycles (i : ℕ) : ℕ := [1200, 1004, 1300, 1000, 1009].getD i 1500

theorem fcyc_least_example : 0 < defaults.kbest ∧ ∃ n c, fcyc defaults 0 someCycles = some c ∧
    IsLeast {j | 0 < j ∧ Stops defaults someCycles j} n ∧ IsLeast {c | ∃ i < n, c = someCycles i} c :=
  ⟨by decide, fcyc_least defaults 0 someCycles (by decide)⟩

end DecsLabs.Timing
