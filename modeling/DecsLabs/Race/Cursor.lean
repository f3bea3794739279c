/-
What the Randomizer's cursor consumes, for any array: entries out of order, repeated or negative times, any players. An
entry whose time the clock has passed is never consumed, and neither is any entry behind it.

- `Deliverable b l`: the times of `l` are not negative, strictly increasing and at most `b`.
- `Consumed`: the invariant of the cursor before a tick; `Consumed.tick`: one tick of an open race.
- `cursor_consumes`: the cursor stands behind the longest deliverable prefix for the last tick that found the race open.
-/
import DecsLabs.Race.Repositioning

namespace DecsLabs.HareTortoise

variable {r : Race} {n t : ℕ} {b : ℤ} {l : List Repositioning} {e : Repositioning}

/-! ## Deliverable prefixes -/

structure Deliverable (b : ℤ) (l : List Repositioning) : Prop where
  increasing : l.Pairwise fun e e' => e.time.toInt < e'.time.toInt
  nonneg : ∀ e ∈ l, 0 ≤ e.time.toInt
  bound : ∀ e ∈ l, e.time.toInt ≤ b

theorem deliverable_nil (b : ℤ) : Deliverable b [] := ⟨.nil, by simp, by simp⟩

theorem deliverable_snoc : Deliverable b (l ++ [e]) ↔
    Deliverable b l ∧ (∀ e' ∈ l, e'.time.toInt < e.time.toInt) ∧ 0 ≤ e.time.toInt ∧ e.time.toInt ≤ b := by
  constructor
  · intro h
    have hinc := List.pairwise_append.1 h.increasing
    refine ⟨⟨hinc.1, ?_, ?_⟩, ?_, h.nonneg e (by simp), h.bound e (by simp)⟩
    · intro e' he'
      exact h.nonneg e' (List.mem_append_left _ he')
    · intro e' he'
      exact h.bound e' (List.mem_append_left _ he')
    · intro e' he'
      exact hinc.2.2 e' he' e (by simp)
  · intro h
    obtain ⟨hl, hlast, h0, hb⟩ := h
    refine ⟨List.pairwise_append.2 ⟨hl.increasing, List.pairwise_singleton _ _, by simpa using hlast⟩, ?_, ?_⟩
    · intro e' he'
      rcases List.mem_append.1 he' with he' | he'
      · exact hl.nonneg e' he'
      · rwa [List.mem_singleton.1 he']
    · intro e' he'
      rcases List.mem_append.1 he' with he' | he'
      · exact hl.bound e' he'
      · rwa [List.mem_singleton.1 he']

theorem Deliverable.mono {c : ℤ} (h : Deliverable b l) (hbc : b ≤ c) : Deliverable c l :=
  ⟨h.increasing, h.nonneg, fun e he => (h.bound e he).trans hbc⟩

theorem Deliverable.take (h : Deliverable b l) (j : ℕ) : Deliverable b (l.take j) :=
  ⟨h.increasing.sublist (List.take_sublist j l), fun e he => h.nonneg e (List.mem_of_mem_take he),
    fun e he => h.bound e (List.mem_of_mem_take he)⟩

/-- a prefix that cannot be extended by one entry is the longest one -/
theorem isGreatest_take {k : ℕ} (hk : k ≤ l.length) (h : Deliverable b (l.take k))
    (hmax : k < l.length → ¬ Deliverable b (l.take (k + 1))) :
    IsGreatest {j | j ≤ l.length ∧ Deliverable b (l.take j)} k := by
  refine ⟨⟨hk, h⟩, ?_⟩
  intro j hj
  by_contra hlt
  have hkj : k + 1 ≤ j := by omega
  apply hmax (lt_of_lt_of_le hkj hj.1)
  have hprefix := hj.2.take (k + 1)
  rwa [List.take_take, min_eq_left hkj] at hprefix

/-! ## One turn -/

theorem turn_randomizer (r : Race) (c : Int32) (s : Track) :
    turn r .randomizer c s = if s.noWinner ≠ 0 then randomizerBody r c s else s := rfl

/-- the Randomizer's turn in an open race -/
theorem randomizer_open (ho : (afterTurns r (3 * t)).noWinner = 1) (ht : t < 2 ^ 31) :
    afterTurns r (3 * t + 1) =
      match r.reposition[(afterTurns r (3 * t)).arrayIndex]? with
      | some e =>
        if e.time.toInt = t then
          { applyEntry r e (afterTurns r (3 * t)) with arrayIndex := (afterTurns r (3 * t)).arrayIndex + 1 }
        else afterTurns r (3 * t)
      | none => afterTurns r (3 * t) := by
  rw [afterTurns_randomizer, turn_randomizer, if_pos (by simp [ho]), randomizerBody]
  cases r.reposition[(afterTurns r (3 * t)).arrayIndex]? with
  | none => rfl
  | some e => simp only [currTimeAt_eq (t := (t : ℤ)) (by omega) (by omega) e.time]

/-- the Randomizer's turn after the end of the race -/
theorem randomizer_over (ho : (afterTurns r (3 * t)).noWinner ≠ 1) : afterTurns r (3 * t + 1) = afterTurns r (3 * t) := by
  have hzero : (afterTurns r (3 * t)).noWinner = 0 := (noWinner_binary r (3 * t)).resolve_right ho
  rw [afterTurns_randomizer, turn_randomizer, if_neg (by simp [hzero])]

theorem cursor_le (hnm : n ≤ t) : (afterTurns r n).arrayIndex ≤ (afterTurns r t).arrayIndex := by
  induction t, hnm using Nat.le_induction with
  | base => exact le_rfl
  | succ m hm ih =>
    apply ih.trans
    rw [afterTurns]
    by_cases hx : playerOf m = .randomizer
    · rw [hx]
      exact randomizer_arrayIndex r _ _
    · rw [turn_arrayIndex hx]

/-- an entry is applied in an open race, at its time -/
theorem AppliedAt.time {i : ℕ} (h : AppliedAt r t i e) (he : r.reposition[i]? = some e) (ht : t < 2 ^ 31) :
    (t : ℤ) = e.time.toInt := by
  have hne : afterTurns r (3 * t + 1) ≠ afterTurns r (3 * t) := by
    intro heq
    have hcursor := congrArg Track.arrayIndex heq
    rw [h.2, h.1] at hcursor
    simp at hcursor
  have ho : (afterTurns r (3 * t)).noWinner = 1 := by
    by_contra ho
    exact hne (randomizer_over ho)
  by_contra htime
  apply hne
  rw [randomizer_open ho ht, h.1, he]
  exact if_neg (Ne.symm htime)

/-! ## The invariant -/

/-- what `k` entries have been consumed before tick `t`: all of a deliverable prefix, each at its tick -/
structure Consumed (r : Race) (t k : ℕ) : Prop where
  le : k ≤ r.reposition.length
  deliverable : Deliverable (t - 1) (r.reposition.take k)
  longest : k < r.reposition.length → ¬ Deliverable (t - 1) (r.reposition.take (k + 1))
  applied : ∀ i e, i < k → r.reposition[i]? = some e → ∃ u : ℕ, (u : ℤ) = e.time.toInt ∧ AppliedAt r u i e

theorem take_snoc {k : ℕ} (he : l[k]? = some e) : l.take (k + 1) = l.take k ++ [e] := by
  rw [List.take_add_one, he]
  rfl

/-- nothing is due before tick 0 -/
theorem consumed_zero (r : Race) : Consumed r 0 0 where
  le := Nat.zero_le _
  deliverable := deliverable_nil _
  longest hlen hdel := by
    rw [take_snoc (List.getElem?_eq_getElem hlen)] at hdel
    obtain ⟨-, -, h0, hb⟩ := deliverable_snoc.1 hdel
    rw [Nat.cast_zero] at hb
    omega
  applied i e hi := absurd hi (Nat.not_lt_zero i)

/-- the entry at the cursor is due: it is consumed, and the entry behind it would have to be later -/
theorem Consumed.advance {k : ℕ} (h : Consumed r t k) (he : r.reposition[k]? = some e) (htime : e.time.toInt = t)
    (ha : AppliedAt r t k e) : Consumed r (t + 1) (k + 1) := by
  have hlt : k < r.reposition.length := (List.getElem?_eq_some_iff.1 he).1
  have hbound : ((t + 1 : ℕ) : ℤ) - 1 = t := by push_cast; ring
  have htake : r.reposition.take (k + 1) = r.reposition.take k ++ [e] := take_snoc he
  refine ⟨hlt, ?_, ?_, ?_⟩
  · rw [htake, hbound, deliverable_snoc]
    refine ⟨h.deliverable.mono (by omega), ?_, by omega, htime.le⟩
    intro e' he'
    have := h.deliverable.bound e' he'
    omega
  · intro hlen hdel
    rw [take_snoc (List.getElem?_eq_getElem hlen), hbound] at hdel
    obtain ⟨-, hlast, -, hb⟩ := deliverable_snoc.1 hdel
    have := hlast e (by rw [htake]; simp)
    omega
  · intro i e' hi he'
    rcases Nat.lt_succ_iff_lt_or_eq.1 hi with hi | rfl
    · exact h.applied i e' hi he'
    · obtain rfl : e = e' := Option.some.inj (he.symm.trans he')
      exact ⟨t, htime.symm, ha⟩

/-- the entry at the cursor is not due: if it is to come it comes later, and otherwise never -/
theorem Consumed.wait {k : ℕ} (h : Consumed r t k) (he : ∀ e, r.reposition[k]? = some e → e.time.toInt ≠ t) :
    Consumed r (t + 1) k := by
  have hbound : ((t + 1 : ℕ) : ℤ) - 1 = t := by push_cast; ring
  refine ⟨h.le, h.deliverable.mono (by omega), ?_, h.applied⟩
  intro hlen hdel
  apply h.longest hlen
  rw [take_snoc (List.getElem?_eq_getElem hlen)] at hdel ⊢
  rw [hbound] at hdel
  obtain ⟨-, hlast, h0, hb⟩ := deliverable_snoc.1 hdel
  have hne := he _ (List.getElem?_eq_getElem hlen)
  exact deliverable_snoc.2 ⟨h.deliverable, hlast, h0, by omega⟩

/-- **One tick** of an open race. -/
theorem Consumed.tick (h : Consumed r t (afterTurns r (3 * t)).arrayIndex) (ho : (afterTurns r (3 * t)).noWinner = 1)
    (ht : t < 2 ^ 31) : Consumed r (t + 1) (afterTurns r (3 * t + 1)).arrayIndex := by
  have hturn := randomizer_open ho ht
  cases he : r.reposition[(afterTurns r (3 * t)).arrayIndex]? with
  | none =>
    simp only [he] at hturn
    rw [hturn]
    apply h.wait
    intro e he'
    rw [he] at he'
    cases he'
  | some e =>
    simp only [he] at hturn
    by_cases htime : e.time.toInt = t
    · rw [if_pos htime] at hturn
      have ha : AppliedAt r t (afterTurns r (3 * t)).arrayIndex e := ⟨rfl, hturn⟩
      have hadvance := h.advance he htime ha
      rwa [hturn]
    · rw [if_neg htime] at hturn
      rw [hturn]
      apply h.wait
      intro e' he'
      obtain rfl : e = e' := Option.some.inj (he.symm.trans he')
      exact htime

/-- **Ticks.** As long as the race is open. -/
theorem consumed_ticks {D : ℕ} (ho : (afterTurns r (3 * D)).noWinner = 1) (hD : D < 2 ^ 31) :
    Consumed r (D + 1) (afterTurns r (3 * D + 1)).arrayIndex := by
  have hbefore : ∀ t ≤ D, Consumed r t (afterTurns r (3 * t)).arrayIndex := by
    intro t
    induction t with
    | zero => exact fun _ => consumed_zero r
    | succ t ih =>
      intro ht
      have hopen : (afterTurns r (3 * t)).noWinner = 1 := open_earlier (by omega) ho
      rw [cursor_tick]
      exact (ih (by omega)).tick hopen (by omega)
  exact (hbefore D le_rfl).tick ho hD

/-! ## Main result -/

/-- the Randomizer's turn of tick `t` is among the first `n` turns, and finds the race open -/
def OpenAt (r : Race) (n t : ℕ) : Prop := 3 * t < n ∧ (afterTurns r (3 * t)).noWinner = 1

/-- every run with a turn has a last such tick -/
theorem exists_last_open (r : Race) (hn : 0 < n) : ∃ D, IsGreatest {t | OpenAt r n t} D := by
  have hzero : OpenAt r n 0 := ⟨hn, rfl⟩
  have hfinite : {t | OpenAt r n t}.Finite := by
    apply (Set.finite_lt_nat n).subset
    intro t ht
    exact lt_of_le_of_lt (Nat.le_mul_of_pos_left t (by decide)) ht.1
  obtain ⟨D, hD, hmax⟩ := Set.exists_max_image {t | OpenAt r n t} id hfinite ⟨0, hzero⟩
  exact ⟨D, hD, hmax⟩

/-- after that tick the cursor stays where it is -/
theorem cursor_final {D : ℕ} (hD : IsGreatest {t | OpenAt r n t} D) :
    (afterTurns r n).arrayIndex = (afterTurns r (3 * D + 1)).arrayIndex := by
  have hstays : ∀ m, 3 * D + 1 ≤ m → m ≤ n → (afterTurns r m).arrayIndex = (afterTurns r (3 * D + 1)).arrayIndex := by
    intro m hm
    induction m, hm using Nat.le_induction with
    | base => exact fun _ => rfl
    | succ m hm ih =>
      intro hmn
      rw [← ih (by omega), afterTurns]
      by_cases hx : playerOf m = .randomizer
      · -- the turn of a later tick
        have hm3 : m % 3 = 0 := by
          unfold playerOf at hx
          split at hx
          · assumption
          all_goals cases hx
        obtain ⟨t, rfl⟩ : ∃ t, m = 3 * t := ⟨m / 3, by omega⟩
        have hover : (afterTurns r (3 * t)).noWinner ≠ 1 := by
          intro ho
          have := hD.2 (show t ∈ {t | OpenAt r n t} from ⟨by omega, ho⟩)
          omega
        have hsame := randomizer_over hover
        rw [afterTurns] at hsame
        rw [hsame]
      · rw [turn_arrayIndex hx]
  have hlt : 3 * D < n := hD.1.1
  exact hstays n hlt le_rfl

/-- the cursor never passes the end of the array -/
theorem cursor_le_length (r : Race) (n : ℕ) : (afterTurns r n).arrayIndex ≤ r.reposition.length := by
  induction n with
  | zero => exact Nat.zero_le _
  | succ n ih =>
    rw [afterTurns]
    by_cases hx : playerOf n = .randomizer
    · rw [hx, turn_randomizer]
      split_ifs
      · unfold randomizerBody
        split
        · rename_i e he
          have hlt := (List.getElem?_eq_some_iff.1 he).1
          split_ifs
          · exact hlt
          · exact ih
        · exact ih
      · exact ih
    · rw [turn_arrayIndex hx]
      exact ih

/-- **What the cursor consumes.** Every run of at most 2^31 ticks has a last tick `D` with an open race, and: the
entries consumed are the longest prefix of the array with times that are not negative, strictly increasing and at most
`D`; each of them, and no other entry, is applied in the run, once, at the tick that is its time; entries are applied in
the order of the array; and the cursor stays in the array. -/
theorem cursor_consumes (r : Race) {n : ℕ} (hpos : 0 < n) (hn : n ≤ 3 * 2 ^ 31) : ∃ D, IsGreatest {t | OpenAt r n t} D ∧
    IsGreatest {j | j ≤ r.reposition.length ∧ Deliverable D (r.reposition.take j)} (afterTurns r n).arrayIndex ∧
    (∀ i e, r.reposition[i]? = some e → ∀ t : ℕ,
      3 * t < n ∧ AppliedAt r t i e ↔ i < (afterTurns r n).arrayIndex ∧ (t : ℤ) = e.time.toInt) ∧
    (∀ t u i j e e', AppliedAt r t i e → AppliedAt r u j e' → i < j → t < u) ∧
    ∀ m, (afterTurns r m).arrayIndex ≤ r.reposition.length := by
  obtain ⟨D, hD⟩ := exists_last_open r hpos
  refine ⟨D, hD, ?_⟩
  have hDn : 3 * D < n := hD.1.1
  have hfinal := cursor_final hD
  have hcons := consumed_ticks hD.1.2 (by omega)
  have hbound : ((D + 1 : ℕ) : ℤ) - 1 = D := by push_cast; ring
  rw [← hfinal] at hcons
  have hdel := hcons.deliverable
  have hlong := hcons.longest
  rw [hbound] at hdel hlong
  refine ⟨isGreatest_take hcons.le hdel hlong, ?_, ?_, cursor_le_length r⟩
  · intro i e he t
    constructor
    · intro h
      obtain ⟨ht, ha⟩ := h
      have hmono : (afterTurns r (3 * t + 1)).arrayIndex ≤ (afterTurns r n).arrayIndex := cursor_le (by omega)
      rw [ha.2] at hmono
      exact ⟨hmono, ha.time he (by omega)⟩
    · intro h
      obtain ⟨hi, htime⟩ := h
      obtain ⟨u, hu, ha⟩ := hcons.applied i e hi he
      obtain rfl : t = u := by omega
      refine ⟨?_, ha⟩
      have hmem : e ∈ r.reposition.take (afterTurns r n).arrayIndex := by
        apply List.mem_of_getElem? (i := i)
        rwa [List.getElem?_take_of_lt hi]
      have hle := hdel.bound e hmem
      omega
  · intro t u i j e e' ha hb hij
    by_contra hut
    have hmono := cursor_mono r (show u ≤ t by omega)
    rw [ha.1, hb.1] at hmono
    omega

/-- the entry of tick 2 is consumed; the one of tick 1 comes too late, and with it the one of tick 3 -/
theorem cursor_consumes_example :
    let r : Race := ⟨1, 1, 1, 1, 1, 100, [⟨'T', 2, 5⟩, ⟨'H', 1, 5⟩, ⟨'T', 3, 5⟩]⟩
    (afterTurns r 12).arrayIndex = 1 ∧ AppliedAt r 2 0 ⟨'T', 2, 5⟩ ∧ ¬ Deliverable 3 (r.reposition.take 2) := by
  intro r
  have hcursor : (afterTurns r 12).arrayIndex = 1 := by decide
  obtain ⟨D, hD, hprefix, honce, -⟩ := cursor_consumes r (n := 12) (by decide) (by decide)
  have hlast : D = 3 := by
    have hlt : 3 * D < 12 := hD.1.1
    have hle : 3 ≤ D := hD.2 ⟨by decide, by decide⟩
    omega
  refine ⟨hcursor, ((honce 0 ⟨'T', 2, 5⟩ rfl 2).2 ⟨by rw [hcursor]; decide, rfl⟩).2, ?_⟩
  intro hdel
  rw [hcursor, hlast] at hprefix
  have hle : 2 ≤ 1 := hprefix.2 ⟨by decide, hdel⟩
  exact absurd hle (by decide)

end DecsLabs.HareTortoise
