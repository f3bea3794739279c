/-
Delivery of the repositioning entries in the tick machine. The Randomizer keeps one cursor into the array, compares the
time of the entry under it with the current tick and advances it at most once in a tick.

- `Due`: the race reaches the entry while it is open: there is no winner at the start of the Randomizer's turn of its
  tick, nor after the entries of the same time that stand before it.
- `AppliedAt`: the Randomizer's turn of tick `t` moves the player of entry `i` and steps over it.
- `Lossless`: every due entry is applied, once, at its tick.
- `cursor_eq`: while no tick had a second entry to deliver, the cursor of an open race is the number of earlier entries.

An array of increasing times is delivered in full. Of two entries with the same time the second is not delivered, and
it stays under the cursor: no later entry is delivered either.
-/
import DecsLabs.Race.Sequential

namespace DecsLabs.HareTortoise

/-! ## Entries of a sorted array -/

/-- the entries are in the order of their times -/
def Sorted (r : Race) : Prop := r.reposition.Pairwise fun a b => a.time.toInt ≤ b.time.toInt

/-- the number of entries before time `t` -/
def before (r : Race) (t : ℤ) : ℕ := (r.reposition.filter fun e => e.time.toInt < t).length

def entriesAt (r : Race) (t : ℤ) : List Repositioning := r.reposition.filter fun e => e.time.toInt = t

/-- a list sorted by `f` is its elements below `t`, at `t` and above `t` -/
theorem sorted_split {α : Type*} (f : α → ℤ) {l : List α} (hs : l.Pairwise fun a b => f a ≤ f b) (t : ℤ) :
    l = (l.filter fun a => f a < t) ++ ((l.filter fun a => f a = t) ++ l.filter fun a => t < f a) := by
  induction l with
  | nil => rfl
  | cons a l ih =>
    obtain ⟨ha, hl⟩ := List.pairwise_cons.1 hs
    have ih := ih hl
    rcases lt_trichotomy (f a) t with h | h | h
    · simp only [List.filter_cons, h, h.ne, h.not_gt, decide_true, decide_false, if_true, List.cons_append]
      exact congrArg (a :: ·) ih
    · have hlt : l.filter (fun b => f b < t) = [] := by
        rw [List.filter_eq_nil_iff]
        intro b hb
        have := ha b hb
        simp only [decide_eq_true_eq]
        omega
      rw [hlt, List.nil_append] at ih
      simp only [List.filter_cons, h, lt_irrefl, decide_true, decide_false, if_true, List.cons_append, hlt]
      exact congrArg (a :: ·) ih
    · have hle : ∀ b ∈ l, t < f b := fun b hb => lt_of_lt_of_le h (ha b hb)
      have h1 : l.filter (fun b => f b < t) = [] :=
        List.filter_eq_nil_iff.2 fun b hb => by have := hle b hb; simp only [decide_eq_true_eq]; omega
      have h2 : l.filter (fun b => f b = t) = [] :=
        List.filter_eq_nil_iff.2 fun b hb => by have := hle b hb; simp only [decide_eq_true_eq]; omega
      rw [h1, h2, List.nil_append, List.nil_append] at ih
      simp only [List.filter_cons, h, h.ne', h.not_gt, decide_true, decide_false, if_true, h1, h2]
      exact congrArg (a :: ·) ih

theorem Sorted.split {r : Race} (hs : Sorted r) (t : ℤ) :
    r.reposition = (r.reposition.filter fun e => e.time.toInt < t) ++
      (entriesAt r t ++ r.reposition.filter fun e => t < e.time.toInt) :=
  sorted_split (fun e : Repositioning => e.time.toInt) hs t

theorem before_succ (r : Race) (t : ℤ) : before r (t + 1) = before r t + (entriesAt r t).length := by
  simp only [before, entriesAt]
  induction r.reposition with
  | nil => rfl
  | cons e l ih =>
    simp only [List.filter_cons, decide_eq_true_eq]
    split_ifs <;> simp only [List.length_cons, ih] <;> omega

theorem Sorted.get_before {r : Race} (hs : Sorted r) (t : ℤ) (j : ℕ) :
    r.reposition[before r t + j]? = (entriesAt r t ++ r.reposition.filter fun e => t < e.time.toInt)[j]? := by
  conv_lhs => rw [hs.split t]
  rw [List.getElem?_append_right (by simp [before])]
  simp [before]

/-- an entry at time `t` stands behind the entries before `t`, at its place among the entries at `t` -/
theorem Sorted.index {r : Race} (hs : Sorted r) {i : ℕ} {e : Repositioning} (he : r.reposition[i]? = some e) :
    ∃ j, i = before r e.time.toInt + j ∧ (entriesAt r e.time.toInt)[j]? = some e := by
  set t := e.time.toInt
  have hlt : before r t ≤ i := by
    by_contra hlt
    rw [hs.split t, List.getElem?_append_left (by simp only [before] at hlt; omega)] at he
    have := (List.mem_filter.1 (List.mem_of_getElem? he)).2
    simp [t] at this
  refine ⟨i - before r t, by omega, ?_⟩
  have hi : before r t + (i - before r t) = i := by omega
  rw [← hi, hs.get_before] at he
  by_cases hj : i - before r t < (entriesAt r t).length
  · rwa [List.getElem?_append_left hj] at he
  · rw [List.getElem?_append_right (by omega)] at he
    have := (List.mem_filter.1 (List.mem_of_getElem? he)).2
    simp [t] at this

/-- the entries of time `t` before the `j`-th of them -/
theorem Sorted.preceding {r : Race} (hs : Sorted r) {t : ℤ} {j : ℕ} (hj : j ≤ (entriesAt r t).length) :
    (r.reposition.take (before r t + j)).filter (fun e => e.time.toInt = t) = (entriesAt r t).take j := by
  conv_lhs => rw [hs.split t]
  rw [List.take_append, List.take_of_length_le (by simp [before])]
  have h : before r t + j - (r.reposition.filter fun e => e.time.toInt < t).length = j := by simp [before]
  rw [h, List.take_append_of_le_length hj, List.filter_append]
  have h1 : ((r.reposition.filter fun e => e.time.toInt < t).filter fun e => e.time.toInt = t) = [] := by
    rw [List.filter_eq_nil_iff]
    intro e he
    have := (List.mem_filter.1 he).2
    simp only [decide_eq_true_eq] at this ⊢
    omega
  rw [h1, List.nil_append, List.filter_eq_self]
  exact fun e he => (List.mem_filter.1 (List.mem_of_mem_take he)).2

/-! ## The flag and the cursor in a turn -/

/-- the entry takes its player to the finish -/
def Finishes (r : Race) (e : Repositioning) (s : Track) : Prop :=
  (e.player = 'H' ∧ 0 ≤ s.hareDistance + e.distance.toInt ∧
    r.finishDistance.toInt ≤ s.hareDistance + e.distance.toInt) ∨
  (e.player = 'T' ∧ 0 ≤ s.turtleDistance + e.distance.toInt ∧
    r.finishDistance.toInt ≤ s.turtleDistance + e.distance.toInt)

instance (r : Race) (e : Repositioning) (s : Track) : Decidable (Finishes r e s) := by
  unfold Finishes; infer_instance

theorem applyEntry_noWinner (r : Race) (e : Repositioning) (s : Track) :
    (applyEntry r e s).noWinner = if Finishes r e s then 0 else s.noWinner := by
  unfold applyEntry Finishes
  by_cases hH : e.player = 'H'
  · have hT : ¬ ('H' : Char) = 'T' := by decide
    simp only [hH, if_true, true_and, hT, false_and, or_false]
    split_ifs <;> first | rfl | omega
  · by_cases hT : e.player = 'T'
    · have hTH : ¬ ('T' : Char) = 'H' := by decide
      simp only [hT, hTH, if_true, if_false, true_and, false_and, false_or]
      split_ifs <;> first | rfl | omega
    · simp [hH, hT]

/-- a turn sets the flag to 0 or leaves it -/
theorem turn_noWinner (r : Race) (x : Player) (c : Int32) (s : Track) :
    (turn r x c s).noWinner = 0 ∨ (turn r x c s).noWinner = s.noWinner := by
  unfold turn
  split_ifs with ho
  · cases x with
    | randomizer =>
      simp only [body, randomizerBody]
      split
      · split_ifs
        · simp only [applyEntry_noWinner]; split_ifs <;> simp
        · exact .inr rfl
      · exact .inr rfl
    | turtle => simp only [body, turtleBody]; split_ifs <;> simp
    | hare => simp only [body, hareBody]; split_ifs <;> simp
  · cases x with
    | turtle => simp only [tieBody]; split_ifs <;> simp
    | _ => exact .inr rfl

theorem noWinner_binary (r : Race) (n : ℕ) : (afterTurns r n).noWinner = 0 ∨ (afterTurns r n).noWinner = 1 := by
  induction n with
  | zero => exact .inr rfl
  | succ n ih =>
    rcases turn_noWinner r (playerOf n) (currTimeAt (n / 3)) (afterTurns r n) with h | h
    · exact .inl h
    · rw [afterTurns, h]; exact ih

/-- a race that is open was open before -/
theorem open_earlier {r : Race} {n m : ℕ} (hnm : n ≤ m) (ho : (afterTurns r m).noWinner = 1) :
    (afterTurns r n).noWinner = 1 := by
  induction m, hnm using Nat.le_induction with
  | base => exact ho
  | succ m hm ih =>
    apply ih
    rcases turn_noWinner r (playerOf m) (currTimeAt (m / 3)) (afterTurns r m) with h | h
    · simp only [afterTurns] at ho; rw [h] at ho; exact absurd ho (by decide)
    · simp only [afterTurns] at ho; rw [← h]; exact ho

theorem turn_arrayIndex {r : Race} {x : Player} (hx : x ≠ .randomizer) (c : Int32) (s : Track) :
    (turn r x c s).arrayIndex = s.arrayIndex := by
  cases x with
  | randomizer => exact absurd rfl hx
  | turtle => simp only [turn, body, turtleBody, tieBody]; split_ifs <;> rfl
  | hare => simp only [turn, body, hareBody]; split_ifs <;> rfl

theorem randomizer_arrayIndex (r : Race) (c : Int32) (s : Track) :
    s.arrayIndex ≤ (turn r .randomizer c s).arrayIndex := by
  simp only [turn, body, randomizerBody]
  split_ifs
  · split
    · split_ifs <;> simp
    · exact le_rfl
  · exact le_rfl

theorem afterTurns_randomizer (r : Race) (t : ℕ) :
    afterTurns r (3 * t + 1) = turn r .randomizer (currTimeAt t) (afterTurns r (3 * t)) :=
  afterTurns_index r .randomizer t

/-- only the Randomizer's turn moves the cursor in a tick -/
theorem cursor_tick (r : Race) (t : ℕ) :
    (afterTurns r (3 * (t + 1))).arrayIndex = (afterTurns r (3 * t + 1)).arrayIndex := by
  rw [show 3 * (t + 1) = 3 * t + Player.hare.index + 1 from rfl, afterTurns_index, turn_arrayIndex (by decide),
    show 3 * t + Player.hare.index = 3 * t + Player.turtle.index + 1 from rfl, afterTurns_index,
    turn_arrayIndex (by decide)]
  rfl

theorem cursor_mono (r : Race) {t u : ℕ} (h : t ≤ u) :
    (afterTurns r (3 * t)).arrayIndex ≤ (afterTurns r (3 * u)).arrayIndex := by
  induction u, h using Nat.le_induction with
  | base => exact le_rfl
  | succ u hu ih =>
    rw [cursor_tick, afterTurns_randomizer]
    exact ih.trans (randomizer_arrayIndex r _ _)

/-! ## What the Randomizer delivers at a tick -/

/-- for a tick below 2^31 the int `curr_time` is the tick -/
theorem currTimeAt_eq {t : ℤ} (h0 : 0 ≤ t) (h : t < 2 ^ 31) (e : Int32) : e = currTimeAt t ↔ e.toInt = t := by
  rw [← Int32.toInt_inj, currTimeAt, Int32.toInt_ofInt_of_le (by omega) h]

/-- the Randomizer's turn of tick `t` when the cursor of an open race stands behind the entries before `t` -/
theorem randomizer_delivers {r : Race} (hs : Sorted r) (t : ℕ) (ho : (afterTurns r (3 * t)).noWinner = 1)
    (hc : (afterTurns r (3 * t)).arrayIndex = before r t) :
    afterTurns r (3 * t + 1) =
      match entriesAt r t with
      | [] => afterTurns r (3 * t)
      | e :: _ => { applyEntry r e (afterTurns r (3 * t)) with arrayIndex := before r t + 1 } := by
  have hget := hs.get_before t 0
  rw [Nat.add_zero] at hget
  rw [afterTurns_randomizer]
  simp only [turn, ho, ne_eq, one_ne_zero, not_false_eq_true, if_true, body, randomizerBody, hc, hget]
  cases he : entriesAt r t with
  | cons e l =>
    have hmem : e ∈ entriesAt r t := by rw [he]; exact List.mem_cons_self
    have ht : e.time.toInt = t := by simpa using (List.mem_filter.1 hmem).2
    have hlt := e.time.toInt_lt
    simp only [List.cons_append, List.getElem?_cons_zero]
    rw [if_pos ((currTimeAt_eq (by omega) (by omega) _).2 ht)]
  | nil =>
    simp only [List.nil_append]
    split
    · rename_i e hh
      have hgt : (t : ℤ) < e.time.toInt := by simpa using (List.mem_filter.1 (List.mem_of_getElem? hh)).2
      have hlt := e.time.toInt_lt
      rw [if_neg]
      intro heq
      have := (currTimeAt_eq (t := (t : ℤ)) (by omega) (by omega) _).1 heq
      omega
    · rfl

/-- at most one entry in a tick, or the first one ends the race: a condition on the array and on the state at the start
of the Randomizer's turns of an open race -/
def OneEntryATick (r : Race) : Prop :=
  ∀ t : ℕ, (afterTurns r (3 * t)).noWinner = 1 → ∀ e e' l, entriesAt r t = e :: e' :: l →
    Finishes r e (afterTurns r (3 * t))

/-- **The cursor.** While no tick had a second entry to deliver, the cursor of an open race is the number of entries
before the tick. -/
theorem cursor_eq {r : Race} (hs : Sorted r) (hnn : ∀ e ∈ r.reposition, 0 ≤ e.time.toInt) (h1 : OneEntryATick r)
    (t : ℕ) (ho : (afterTurns r (3 * t)).noWinner = 1) : (afterTurns r (3 * t)).arrayIndex = before r t := by
  induction t with
  | zero =>
    have : (r.reposition.filter fun e => e.time.toInt < ((0 : ℕ) : ℤ)) = [] := by
      rw [List.filter_eq_nil_iff]
      intro e he
      have := hnn e he
      simp only [Nat.cast_zero, decide_eq_true_eq]
      omega
    simp only [before, this, List.length_nil]
    rfl
  | succ t ih =>
    have hot : (afterTurns r (3 * t)).noWinner = 1 := open_earlier (by omega) ho
    have hot1 : (afterTurns r (3 * t + 1)).noWinner = 1 := open_earlier (by omega) ho
    have hc := ih hot
    have hd := randomizer_delivers hs t hot hc
    rw [cursor_tick]
    push_cast
    rw [before_succ]
    cases he : entriesAt r t with
    | nil => rw [he] at hd; simp only at hd; rw [hd, hc]; simp
    | cons e l =>
      rw [he] at hd
      cases l with
      | nil => simp [hd]
      | cons e' l =>
        -- a second entry: the first one has ended the race
        have hf := h1 t hot e e' l he
        rw [hd] at hot1
        simp only [applyEntry_noWinner, if_pos hf] at hot1
        exact absurd hot1 (by decide)

/-! ## Main result -/

/-- the race reaches entry `i` while it is open -/
def Due (r : Race) (i : ℕ) (e : Repositioning) : Prop :=
  r.reposition[i]? = some e ∧
  let s := afterTurns r (3 * e.time.toInt.toNat)
  s.noWinner = 1 ∧
  (((r.reposition.take i).filter fun e' => e'.time.toInt = e.time.toInt).foldl (fun s e' => applyEntry r e' s) s).noWinner
    = 1

instance (r : Race) (i : ℕ) (e : Repositioning) : Decidable (Due r i e) := inferInstanceAs (Decidable (_ ∧ _ ∧ _))

/-- the Randomizer's turn of tick `t` applies entry `i` and steps over it -/
def AppliedAt (r : Race) (t i : ℕ) (e : Repositioning) : Prop :=
  (afterTurns r (3 * t)).arrayIndex = i ∧
  afterTurns r (3 * t + 1) = { applyEntry r e (afterTurns r (3 * t)) with arrayIndex := i + 1 }

/-- every entry that is due is applied once, in the Randomizer's turn of its tick; an entry that is never applied was
not due -/
def Lossless (r : Race) : Prop :=
  ∀ i e, r.reposition[i]? = some e →
    (Due r i e → ∀ t : ℕ, AppliedAt r t i e ↔ (t : ℤ) = e.time.toInt) ∧ ((∀ t, ¬ AppliedAt r t i e) → ¬ Due r i e)

theorem applied_once {r : Race} {i t u : ℕ} {e : Repositioning} (ht : AppliedAt r t i e) (hu : AppliedAt r u i e) :
    t = u := by
  have key : ∀ {a b : ℕ}, AppliedAt r a i e → AppliedAt r b i e → ¬ a < b := by
    intro a b ha hb hab
    have h1 := cursor_mono r (show a + 1 ≤ b from hab)
    rw [cursor_tick, ha.2, hb.1] at h1
    simp only at h1
    omega
  have h1 := key ht hu
  have h2 := key hu ht
  omega

theorem foldl_applyEntry_over (r : Race) (l : List Repositioning) (s : Track) (h : s.noWinner = 0) :
    (l.foldl (fun s e => applyEntry r e s) s).noWinner = 0 := by
  induction l generalizing s with
  | nil => exact h
  | cons e l ih =>
    apply ih
    rw [applyEntry_noWinner]
    split_ifs
    · rfl
    · exact h

/-- if two entries are due in one tick, the race loses one of them -/
theorem oneEntryATick_of_lossless {r : Race} (hs : Sorted r) (hl : Lossless r) : OneEntryATick r := by
  intro t ho e e' l he
  by_contra hf
  have hmem : ∀ a ∈ entriesAt r t, a.time.toInt = t := fun a ha => by simpa using (List.mem_filter.1 ha).2
  have ht : e.time.toInt = t := hmem e (by rw [he]; simp)
  have ht' : e'.time.toInt = t := hmem e' (by rw [he]; simp)
  have h0 : r.reposition[before r t + 0]? = some e := by rw [hs.get_before]; simp [he]
  have h1 : r.reposition[before r t + 1]? = some e' := by rw [hs.get_before]; simp [he]
  have hp0 := hs.preceding (t := t) (j := 0) (by omega)
  have hp1 := hs.preceding (t := t) (j := 1) (by simp [he])
  have d0 : Due r (before r t + 0) e := by
    refine ⟨h0, ?_⟩
    simp only [ht, Int.toNat_natCast]
    rw [hp0]
    exact ⟨ho, ho⟩
  have d1 : Due r (before r t + 1) e' := by
    refine ⟨h1, ?_⟩
    simp only [ht', Int.toNat_natCast]
    rw [hp1, he]
    simpa [applyEntry_noWinner, hf] using ho
  -- both are applied at tick t, but the cursor stands at one index
  have a0 := ((hl _ e h0).1 d0 t).2 ht.symm
  have a1 := ((hl _ e' h1).1 d1 t).2 ht'.symm
  have := a0.1.symm.trans a1.1
  omega

theorem lossless_of_oneEntryATick {r : Race} (hs : Sorted r) (hnn : ∀ e ∈ r.reposition, 0 ≤ e.time.toInt)
    (h1 : OneEntryATick r) : Lossless r := by
  have applied : ∀ i e, Due r i e → AppliedAt r e.time.toInt.toNat i e := by
    rintro i e ⟨hi, ho, hfold⟩
    obtain ⟨j, hij, hj⟩ := hs.index hi
    have hT : ((e.time.toInt.toNat : ℕ) : ℤ) = e.time.toInt := Int.toNat_of_nonneg (hnn e (List.mem_of_getElem? hi))
    set t := e.time.toInt.toNat
    rw [← hT] at hij hj hfold
    have hc := cursor_eq hs hnn h1 t ho
    have hd := randomizer_delivers hs t ho hc
    cases j with
    | zero =>
      cases he : entriesAt r t with
      | nil => rw [he] at hj; cases hj
      | cons e0 l =>
        rw [he] at hj hd
        cases hj
        exact ⟨by rw [hc, hij, Nat.add_zero], by rw [hd, hij, Nat.add_zero]⟩
    | succ j =>
      -- an earlier entry of this tick has ended the race, so this one was not due
      exfalso
      obtain ⟨hjl, -⟩ := List.getElem?_eq_some_iff.1 hj
      have hp := hs.preceding (t := t) (j := j + 1) hjl.le
      rw [hij, hp] at hfold
      cases he : entriesAt r t with
      | nil => rw [he] at hj; cases hj
      | cons e0 l =>
        cases l with
        | nil => rw [he] at hj; cases hj
        | cons e1 l =>
          have hf := h1 t ho e0 e1 l he
          rw [he] at hfold
          simp only [List.take_succ_cons, List.foldl_cons] at hfold
          rw [foldl_applyEntry_over _ _ _ (by rw [applyEntry_noWinner, if_pos hf])] at hfold
          exact absurd hfold (by decide)
  intro i e hi
  have hT : ((e.time.toInt.toNat : ℕ) : ℤ) = e.time.toInt := Int.toNat_of_nonneg (hnn e (List.mem_of_getElem? hi))
  refine ⟨fun hdue t => ⟨fun ha => ?_, fun ht => ?_⟩, fun hno hdue => hno _ (applied i e hdue)⟩
  · rw [applied_once ha (applied i e hdue)]; exact hT
  · have : t = e.time.toInt.toNat := by omega
    rw [this]; exact applied i e hdue

/-- **Which races lose no repositioning.** For an array of non-negative times in non-decreasing order, every due entry
is applied, once and at its tick, exactly when no tick of the open race has a second entry, unless the first one ends
the race. -/
theorem repositioning_delivered_iff (r : Race) (hs : Sorted r) (hnn : ∀ e ∈ r.reposition, 0 ≤ e.time.toInt) :
    Lossless r ↔ OneEntryATick r :=
  ⟨oneEntryATick_of_lossless hs, lossless_of_oneEntryATick hs hnn⟩

theorem repositioning_delivered_example : Lossless ⟨1, 1, 1, 1, 5, 9, [⟨'T', 0, 2⟩, ⟨'H', 3, -4⟩]⟩ := by
  refine (repositioning_delivered_iff _ (by unfold Sorted; decide) (by decide)).2 ?_
  intro t _ e e' l he
  have hlen : (entriesAt ⟨1, 1, 1, 1, 5, 9, [⟨'T', 0, 2⟩, ⟨'H', 3, -4⟩]⟩ t).length ≤ 1 := by
    simp only [entriesAt, List.filter_cons, List.filter_nil]
    have h0 : (0 : Int32).toInt = 0 := by decide
    have h3 : (3 : Int32).toInt = 3 := by decide
    split_ifs with ha hb
    · simp only [h0, h3, decide_eq_true_eq] at ha hb; omega
    all_goals simp
  rw [he] at hlen
  simp at hlen

/-- Two entries at tick 0: the second one is due and is not applied at tick 0. -/
theorem repositioning_lost :
    let r : Race := ⟨1, 1, 1, 1, 5, 9, [⟨'T', 0, 2⟩, ⟨'H', 0, 3⟩]⟩
    Sorted r ∧ (∀ e ∈ r.reposition, 0 ≤ e.time.toInt) ∧ ¬ Lossless r := by
  intro r
  refine ⟨by unfold Sorted; decide, by decide, fun hl => ?_⟩
  have hdue : Due r 1 ⟨'H', 0, 3⟩ := by decide
  have ha := ((hl 1 ⟨'H', 0, 3⟩ rfl).1 hdue 0).2 (by decide)
  exact absurd ha.1 (by decide)

end DecsLabs.HareTortoise
