/-
Clients of one barrier that do nothing but wait: `n` threads with the same number of rounds, and any number of threads
with any numbers of calls.

- `phases_separate`: without spurious wake-ups nobody returns from a round that somebody has not entered.
- `spurious_return`: one spurious wake-up is enough to break that; the wait is an `if`, not a `while`.
- `generations`: the counter, the wait set and the released calls, for any number of clients.
-/
import DecsLabs.Barrier.Rendezvous

namespace DecsLabs.Barrier

open DecsLabs.Transition DecsLabs.Pthread

/-! ## Clients that only wait -/

/-- `r` calls of `barrier_wait` on the one barrier -/
def rounds (T : Type) (r : ℕ) : List (Cmd T Unit Unit) := List.replicate r (.wait ())

variable {T : Type}

/-- threads that run from the start, `t` with `r t` calls, and a barrier for `n` threads -/
def clients (n : ℕ) (r : T → ℕ) : ClientSt T Unit Unit :=
  initial (fun _ => n) (fun t => rounds T (r t)) fun _ => .run

/-- the calls that have not locked the mutex -/
def Point.toEnter {B O : Type} : Point T B O → ℕ
  | .ready k => k.length
  | .inside _ _ k => k.length

/-- the calls that have not decremented the counter -/
def Point.toArrive {B O : Type} : Point T B O → ℕ
  | .ready k => k.length
  | .inside _ .dec k => k.length + 1
  | .inside _ _ k => k.length

/-- the calls that have not returned -/
def Point.toReturn {B O : Type} : Point T B O → ℕ
  | .ready k => k.length
  | .inside _ _ k => k.length + 1

/-- the calls of `t` that have locked the mutex, with `r` calls in all -/
def entered (r : ℕ) (s : ClientSt T Unit Unit) (t : T) : ℕ := r - (s.pc t).toEnter

/-- the calls of `t` that have returned -/
def returned (r : ℕ) (s : ClientSt T Unit Unit) (t : T) : ℕ := r - (s.pc t).toReturn

theorem Point.rest_length {B O : Type} [DecidableEq B] (p : Point T B O) (m : Mode B) :
    p.toEnter ≤ (p.rest m).length ∧ (p.rest m).length ≤ p.toReturn := by
  cases p with
  | ready k => exact ⟨le_rfl, le_rfl⟩
  | inside b q k =>
    cases q <;> simp [Point.rest, toEnter, toReturn]
    split_ifs <;> simp

variable [DecidableEq T]

/-! ## Phase separation -/

variable [Fintype T]

/-- in the abstract machine, `n` threads that meet at a barrier of size `n` stay in step -/
theorem in_step {n : ℕ} (hn : Fintype.card T = n) {v v' : Meeting T Unit Unit} (h : MeetStep (fun _ => n) v v')
    (hv : ∃ j, ∀ t, v.rest t = rounds T j) : ∃ j, ∀ t, v'.rest t = rounds T j := by
  obtain ⟨j, hj⟩ := hv
  have hhead : ∀ t c k, v.rest t = c :: k → c = .wait () := by
    intro t c k hk
    have : c ∈ rounds T j := by rw [← hj t, hk]; simp
    exact (List.mem_replicate.1 this).2
  cases h with
  | meet b S hS hh =>
    have hall : S = Finset.univ := Finset.card_eq_iff_eq_univ S |>.1 (by rw [hS, hn])
    refine ⟨j - 1, fun t => ?_⟩
    simp [hall, hj, rounds]
  | print h => cases hhead _ _ _ h
  | create h _ => cases hhead _ _ _ h
  | join h => cases hhead _ _ _ h

/-- **Phase separation.** For `n` threads of `r` rounds each, in every run without spurious wake-ups: a thread that has
returned from `k` rounds finds all threads to have entered `k` rounds. -/
theorem phases_separate (n r : ℕ) (hn : 1 ≤ n) {s : ClientSt (Fin n) Unit Unit}
    (hs : ReachIf (step (code (Fin n) Unit Unit)) NoSpurious (clients n fun _ => r) s) (t u : Fin n) :
    returned r s t ≤ entered r s u := by
  have hm := meets_of_reach (fun _ => hn) (fun _ => .inl rfl) hs
  obtain ⟨j, hj⟩ : ∃ j, ∀ t, (view s).rest t = rounds (Fin n) j := by
    generalize view s = v at hm
    induction hm with
    | refl => exact ⟨r, fun _ => rfl⟩
    | tail _ h ih => exact in_step (Fintype.card_fin n) h ih
  have ht := ((s.pc t).rest_length (s.mode t)).2
  have hu := ((s.pc u).rest_length (s.mode u)).1
  have hjt := congrArg List.length (hj t)
  have hju := congrArg List.length (hj u)
  simp only [view, rounds, List.length_replicate] at hjt hju
  unfold returned entered
  omega

theorem phases_separate_example : ∃ s, ReachIf (step (code (Fin 2) Unit Unit)) NoSpurious (clients 2 fun _ => 2) s ∧
    returned 2 s 1 = 1 ∧ entered 2 s 1 = 2 ∧ returned 2 s 0 = 0 ∧ returned 2 s 1 ≤ entered 2 s 0 := by
  -- thread 0 sleeps, thread 1 arrives last, returns and is in its second round before thread 0 has the mutex
  let os : List (Op (Fin 2)) := List.replicate 4 (.exec 0) ++ List.replicate 7 (.exec 1)
  have hend : (runIf (step (code (Fin 2) Unit Unit)) (fun s o => NoSpurious s o) (clients 2 fun _ => 2) os).any
      (fun s => returned 2 s 1 = 1 ∧ entered 2 s 1 = 2 ∧ returned 2 s 0 = 0) = true := by decide +kernel
  obtain ⟨s, hrun, hs⟩ := (Option.any_eq_true ..).1 hend
  obtain ⟨h1, h2, h3⟩ := of_decide_eq_true hs
  have hreach := reachIf_of_runIf (fun _ _ h => of_decide_eq_true h) hrun
  exact ⟨s, hreach, h1, h2, h3, phases_separate 2 2 (by decide) hreach 1 0⟩

/-- a thread that wakes up by itself returns from its first round when the other has not entered it -/
theorem spurious_return : ∃ s, Reach (step (code (Fin 2) Unit Unit)) (clients 2 fun _ => 1) s ∧
    returned 1 s 0 = 1 ∧ entered 1 s 1 = 0 := by
  let os : List (Op (Fin 2)) := List.replicate 4 (.exec 0) ++ [.spurious 0, .resume 0, .exec 0]
  have hend : (run (step (code (Fin 2) Unit Unit)) (clients 2 fun _ => 1) os).any
      (fun s => returned 1 s 0 = 1 ∧ entered 1 s 1 = 0) = true := by decide +kernel
  obtain ⟨s, hrun, hs⟩ := (Option.any_eq_true ..).1 hend
  exact ⟨s, reach_of_run hrun, of_decide_eq_true hs⟩

/-! ## Generations -/

/-- the calls that have decremented the counter -/
def arrivals (r : T → ℕ) (s : ClientSt T Unit Unit) : ℕ := ∑ t, (r t - (s.pc t).toArrive)

/-- the calls of `t` that have returned, or have been woken and only wait for the mutex -/
def releasedOf (r : T → ℕ) (s : ClientSt T Unit Unit) (t : T) : ℕ :=
  returned (r t) s t + if s.mode t = .woken then 1 else 0

def released (r : T → ℕ) (s : ClientSt T Unit Unit) : ℕ := ∑ t, releasedOf r s t

omit [Fintype T] in
theorem toReturn_step {s s' : ClientSt T Unit Unit} (h : ClientStep s s') (t : T) :
    (s'.pc t).toReturn ≤ (s.pc t).toReturn := by
  cases h with
  | sleep | exit => exact le_rfl
  | @enter u | @dec u | @early u | @last u | @resume u | @broadcast u | @reset u | @leave u | @print u | @create u
  | @join u =>
    by_cases htu : t = u
    · subst htu; simp [*, Point.toReturn]
    · simp [goto_pc_of_ne _ _ htu]

omit [Fintype T] in
/-- scripts of waits stay scripts of waits -/
theorem meets_rounds {n : Unit → ℕ} {v v' : Meeting T Unit Unit} (h : Meets n v v')
    (hv : ∀ t, ∃ j, v.rest t = rounds T j) (t : T) : ∃ j, v'.rest t = rounds T j := by
  induction h with
  | refl => exact hv t
  | tail _ hs ih =>
    obtain ⟨j, hj⟩ := ih
    rcases hs.rest t with h | h
    · exact ⟨j, by rw [h, hj]⟩
    · exact ⟨j - 1, by rw [h, hj]; simp [rounds]⟩

omit [DecidableEq T] [Fintype T] in
theorem leftOf_rounds {v : Meeting T Unit Unit} {t : T} {j : ℕ} (h : v.rest t = rounds T j) :
    leftOf v () t = (v.rest t).length := by
  rw [leftOf, h, List.countP_eq_length]
  intro c hc
  rw [(List.mem_replicate.1 hc).2]
  rfl

omit [DecidableEq T] in
/-- while the mutex is free a thread is between two calls, sleeps or has been woken -/
theorem free_cases {n : Unit → ℕ} {s : ClientSt T Unit Unit} (h : Known n s) (hf : s.owner () = none) (t : T) :
    (∃ k, s.pc t = .ready k ∧ s.mode t ≠ .waiting () ∧ s.mode t ≠ .woken) ∨
      ∃ k, s.pc t = .inside () .wait k ∧ (s.mode t = .waiting () ∨ s.mode t = .woken) := by
  cases hm : s.mode t with
  | waiting b =>
    obtain ⟨k, hk⟩ := waits_at h.owned hm
    exact .inr ⟨k, hk, .inl rfl⟩
  | woken =>
    obtain ⟨b, k, hk⟩ := woken_at h.owned hm
    exact .inr ⟨k, hk, .inr rfl⟩
  | exited => exact .inl ⟨[], h.exited t hm, by simp, by simp⟩
  | run | unborn =>
    cases hp : s.pc t with
    | ready k => exact .inl ⟨k, rfl, by simp, by simp⟩
    | inside b p k =>
      -- a thread inside that runs would hold the mutex, and an unborn thread is not inside
      first
      | have := (owner_inside h.owned (b := b)).2 ⟨hm, p, k, hp⟩
        rw [hf] at this
        cases this
      | have := h.owned.unborn t hm
        simp [hp, held] at this

omit [DecidableEq T] in
/-- the calls of one thread: those that have arrived are released or asleep, and the others are left -/
theorem free_calls {n : Unit → ℕ} {r : T → ℕ} {s : ClientSt T Unit Unit} (h : Known n s) (hf : s.owner () = none)
    {t : T} (hr : (s.pc t).toReturn ≤ r t) :
    r t - (s.pc t).toArrive = releasedOf r s t + (if s.mode t = .waiting () then 1 else 0) ∧
      releasedOf r s t + ((view s).rest t).length = r t := by
  rcases free_cases h hf t with ⟨k, hp, hm, hm'⟩ | ⟨k, hp, hm | hm⟩
  · simp [releasedOf, returned, view, hp, hm, hm', Point.toArrive, Point.toReturn, Point.rest] at hr ⊢
    omega
  · simp [releasedOf, returned, view, hp, hm, Point.toArrive, Point.toReturn, Point.rest] at hr ⊢
    omega
  · simp [releasedOf, returned, view, hp, hm, Point.toArrive, Point.toReturn, Point.rest] at hr ⊢
    omega

/-- **Generations.** For any number of threads with any numbers of calls, in every state with the mutex free: of `A`
arrivals `A % n` are asleep and all others released, in `A / n` generations of `n` calls of different threads. -/
theorem generations (n : ℕ) (hn : 1 ≤ n) (r : T → ℕ) {s : ClientSt T Unit Unit}
    (hs : ReachIf (step (code T Unit Unit)) NoSpurious (clients n r) s) (hf : s.owner () = none) :
    (1 ≤ (s.mem.barrier ()).count ∧ (s.mem.barrier ()).count ≤ n) ∧
    waiting s () = arrivals r s % n ∧
    (s.mem.barrier ()).count = n - (arrivals r s % n : ℕ) ∧
    released r s = n * (arrivals r s / n) ∧
    ∀ t, releasedOf r s t ≤ arrivals r s / n := by
  have hk := known (fun _ => hn) (fun _ => .inl rfl) hs
  have hret : ∀ t, (s.pc t).toReturn ≤ r t := by
    refine hs.invariant (I := fun s => ∀ t, (s.pc t).toReturn ≤ r t)
      (fun t => by simp [clients, initial, Point.toReturn, rounds]) ?_
    exact fun _ _ _ _ h hns hst t => (toReturn_step (client_step hns hst) t).trans (h t)
  have hcalls := fun t => free_calls hk hf (hret t)
  -- the waits still to pass are those of whole meetings
  have hm : Meets _ (view (clients n r)) (view s) := meets_of_reach (fun _ => hn) (fun _ => .inl rfl) hs
  obtain ⟨g, hsum, hone⟩ := passed_meets hm ()
  simp only at hsum
  have hleft : ∀ t, leftOf (view s) () t = ((view s).rest t).length := by
    intro t
    obtain ⟨j, hj⟩ := meets_rounds hm (fun t => ⟨r t, rfl⟩) t
    exact leftOf_rounds hj
  have hinit : ∀ t, leftOf (view (clients n r)) () t = r t := fun t => by
    rw [leftOf_rounds (j := r t) rfl]
    exact List.length_replicate
  have hrel : released r s = n * g := by
    have h1 : released r s + left (view s) () = ∑ t, r t := by
      rw [released, left, ← Finset.sum_add_distrib]
      exact Finset.sum_congr rfl fun t _ => by rw [hleft, (hcalls t).2]
    have h2 : left (view (clients n r)) () = ∑ t, r t :=
      Finset.sum_congr rfl fun t _ => hinit t
    omega
  have harr : arrivals r s = n * g + waiting s () := by
    rw [← hrel, arrivals, released, waiting, Finset.card_filter, ← Finset.sum_add_distrib]
    exact Finset.sum_congr rfl fun t _ => (hcalls t).1
  have hdue := (hk.account ()).due
  rw [show stageAt s () = none by simp [stageAt, hf]] at hdue
  obtain ⟨hcount, hlt⟩ := hdue
  have hmod : arrivals r s % n = waiting s () := by rw [harr, Nat.mul_add_mod, Nat.mod_eq_of_lt hlt]
  have hdiv : arrivals r s / n = g := by
    rw [harr, Nat.mul_add_div (by omega), Nat.div_eq_of_lt hlt, add_zero]
  rw [hmod, hdiv]
  refine ⟨⟨by omega, by omega⟩, rfl, hcount, hrel, fun t => ?_⟩
  have h1 := hone t
  have h2 := (hcalls t).2
  rw [hleft, hinit] at h1
  omega

theorem generations_example : ∃ s, ReachIf (step (code (Fin 3) Unit Unit)) NoSpurious (clients 2 fun _ => 1) s ∧
    s.owner () = none ∧ arrivals (fun _ => 1) s = 3 ∧ waiting s () = 1 ∧ released (fun _ => 1) s = 2 := by
  -- thread 2 arrives and sleeps when thread 0 has been woken and has not returned
  let os : List (Op (Fin 3)) := List.replicate 4 (.exec 0) ++ List.replicate 6 (.exec 1) ++ List.replicate 4 (.exec 2)
  have hend : (runIf (step (code (Fin 3) Unit Unit)) (fun s o => NoSpurious s o) (clients 2 fun _ => 1) os).any
      (fun s => s.owner () = none ∧ arrivals (fun _ => 1) s = 3) = true := by decide +kernel
  obtain ⟨s, hrun, hs⟩ := (Option.any_eq_true ..).1 hend
  obtain ⟨hfree, harr⟩ := of_decide_eq_true hs
  have hreach := reachIf_of_runIf (fun _ _ h => of_decide_eq_true h) hrun
  obtain ⟨-, hwait, -, hrel, -⟩ := generations 2 (by decide) (fun _ => 1) hreach hfree
  rw [harr] at hwait hrel
  exact ⟨s, hreach, hfree, harr, hwait, hrel⟩

end DecsLabs.Barrier
