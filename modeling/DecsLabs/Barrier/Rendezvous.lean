/-
What a barrier is for: `n` threads meet. In the abstract machine a thread is the rest of its script; the threads of a
set of size `n b` whose next command is a wait at `b` pass it together, in one step. There are no counters, no mutexes
and no wait sets.

- `meet_step`: the broadcast of the last arrival is the meeting; every other step of `barrier_wait` is not seen.
- `passed_meets`: the number of waits that threads have passed at a barrier is a multiple of its size.
-/
import DecsLabs.Barrier.Accounting

namespace DecsLabs.Barrier

open DecsLabs.Transition DecsLabs.Pthread

variable {T B O : Type}

/-! ## The abstract machine -/

@[ext]
structure Meeting (T B O : Type) where
  rest : T → List (Cmd T B O)
  /-- the threads that have been created -/
  born : T → Prop
  printed : List O

variable [DecidableEq T]

inductive MeetStep (n : B → ℕ) (v : Meeting T B O) : Meeting T B O → Prop
  | meet (b : B) (S : Finset T) (hS : S.card = n b) (h : ∀ t ∈ S, ∃ k, v.rest t = .wait b :: k) :
    MeetStep n v { v with rest := fun t => if t ∈ S then (v.rest t).tail else v.rest t }
  | print {t o k} (h : v.rest t = .print o :: k) :
    MeetStep n v { v with rest := Function.update v.rest t k, printed := v.printed ++ [o] }
  | create {t u k} (h : v.rest t = .create u :: k) (hu : ¬ v.born u) :
    MeetStep n v { v with rest := Function.update v.rest t k, born := fun x => x = u ∨ v.born x }
  | join {t u k} (h : v.rest t = .join u :: k) : MeetStep n v { v with rest := Function.update v.rest t k }

theorem MeetStep.rest {n : B → ℕ} {v v' : Meeting T B O} (h : MeetStep n v v') (t : T) :
    v'.rest t = v.rest t ∨ v'.rest t = (v.rest t).tail := by
  cases h with
  | meet b S hS hh =>
    by_cases ht : t ∈ S
    · exact .inr (if_pos ht)
    · exact .inl (if_neg ht)
  | @print u _ k h | @create u _ k h | @join u _ k h =>
    by_cases htu : t = u
    · subst htu; exact .inr (by simp [h])
    · exact .inl (Function.update_of_ne htu _ _)

/-- the runs of the abstract machine -/
inductive Meets (n : B → ℕ) (v : Meeting T B O) : Meeting T B O → Prop
  | refl : Meets n v v
  | tail {w w' : Meeting T B O} : Meets n v w → MeetStep n w w' → Meets n v w'

/-! ## The view -/

/-- the rest of the script of a thread: a thread that has been woken, or has sent the broadcast, has passed its wait -/
def Point.rest [DecidableEq B] (m : Mode B) : Point T B O → List (Cmd T B O)
  | .ready k => k
  | .inside b p k =>
    match p with
    | .dec | .test | .broadcast => .wait b :: k
    | .wait => if m = .woken then k else .wait b :: k
    | .reset | .unlock => k

variable [DecidableEq B]

def view (s : ClientSt T B O) : Meeting T B O where
  rest t := (s.pc t).rest (s.mode t)
  born t := s.mode t ≠ .unborn
  printed := s.mem.printed

omit [DecidableEq T] in
theorem rest_of_ne_woken {p : Point T B O} {m m' : Mode B} (h : m ≠ .woken) (h' : m' ≠ .woken) :
    p.rest m = p.rest m' := by
  cases p with
  | ready k => rfl
  | inside b q k => cases q <;> simp [Point.rest, h, h']

omit [DecidableEq T] in
theorem waits_at {s : ClientSt T B O} (h : ClientOwned s) {t : T} {b : B} (hm : s.mode t = .waiting b) :
    ∃ k, s.pc t = .inside b .wait k := by
  obtain ⟨l, p, hc⟩ := h.atWait.waiting t b hm
  cases hp : s.pc t with
  | ready k => rcases k with _ | ⟨c | c | c | c, k⟩ <;> simp [hp, code, clientCode] at hc
  | inside b' q k =>
    cases q <;> simp [hp, code, clientCode, barrierWait] at hc
    exact ⟨k, by rw [hc.1]⟩

omit [DecidableEq T] in
theorem woken_at {s : ClientSt T B O} (h : ClientOwned s) {t : T} (hm : s.mode t = .woken) :
    ∃ b k, s.pc t = .inside b .wait k := by
  obtain ⟨c, l, p, hc⟩ := h.atWait.woken t hm
  cases hp : s.pc t with
  | ready k => rcases k with _ | ⟨c | c | c | c, k⟩ <;> simp [hp, code, clientCode] at hc
  | inside b' q k =>
    cases q <;> simp [hp, code, clientCode, barrierWait] at hc
    exact ⟨b', k, rfl⟩

omit [DecidableEq B] in
theorem born_update {f : T → Mode B} {t : T} {m : Mode B} (h : f t ≠ .unborn) (hm : m ≠ .unborn) (u : T) :
    Function.update f t m u ≠ .unborn ↔ f u ≠ .unborn := by
  by_cases hut : u = t
  · subst hut; simp [h, hm]
  · simp [hut]

/-- `s'` is `s` after a move of `t` to `p` that creates no thread and ends no wait of the others -/
structure Moved (s s' : ClientSt T B O) (t : T) (p : Point T B O) : Prop where
  pc : s'.pc = Function.update s.pc t p
  others : ∀ u, u ≠ t → (s.pc u).rest (s'.mode u) = (s.pc u).rest (s.mode u)
  born : ∀ u, s'.mode u ≠ .unborn ↔ s.mode u ≠ .unborn

theorem Moved.same {s s' : ClientSt T B O} {t : T} {p : Point T B O} (hp : s'.pc = Function.update s.pc t p)
    (hm : s'.mode = s.mode) : Moved s s' t p := ⟨hp, fun u _ => by rw [hm], fun u => by rw [hm]⟩

theorem Moved.view {s s' : ClientSt T B O} {t : T} {p : Point T B O} {k : List (Cmd T B O)} (h : Moved s s' t p)
    (hk : p.rest (s'.mode t) = k) :
    view s' = ⟨Function.update (view s).rest t k, (view s).born, s'.mem.printed⟩ := by
  refine Meeting.ext ?_ (funext fun u => propext (h.born u)) rfl
  funext u
  simp only [Barrier.view, h.pc]
  by_cases hut : u = t
  · subst hut; simp [hk]
  · simp [hut, h.others u hut]

theorem Moved.stay {s s' : ClientSt T B O} {t : T} {p : Point T B O} (h : Moved s s' t p)
    (hk : p.rest (s'.mode t) = (s.pc t).rest (s.mode t)) (ho : s'.mem.printed = s.mem.printed) :
    Barrier.view s' = Barrier.view s := by
  rw [h.view hk, ho]
  exact Meeting.ext (Function.update_eq_self t (Barrier.view s).rest) rfl rfl

/-- a move that changes no mode and, as the abstract machine sees it, no rest -/
theorem view_stay {s s' : ClientSt T B O} {t : T} {p : Point T B O} (hp : s'.pc = Function.update s.pc t p)
    (hm : s'.mode = s.mode) (hk : p.rest (s.mode t) = (s.pc t).rest (s.mode t)) (ho : s'.mem.printed = s.mem.printed) :
    view s' = view s := (Moved.same hp hm).stay (by rw [hm]; exact hk) ho

/-- a move that ends or begins a sleep of the thread that makes it -/
theorem view_mode {s s' : ClientSt T B O} {t : T} {p : Point T B O} {m : Mode B}
    (hp : s'.pc = Function.update s.pc t p) (hm : s'.mode = Function.update s.mode t m) (h : s.mode t ≠ .unborn)
    (h' : m ≠ .unborn) (hk : p.rest m = (s.pc t).rest (s.mode t)) (ho : s'.mem.printed = s.mem.printed) :
    view s' = view s := by
  have hmove : Moved s s' t p :=
    ⟨hp, fun u hu => by simp [hm, hu], fun u => by rw [hm]; exact born_update h h' u⟩
  exact hmove.stay (by rw [hm, Function.update_self]; exact hk) ho

/-- a move that changes no mode and passes one command of `t` -/
theorem meet_of_pass {n : B → ℕ} {s s' : ClientSt T B O} {t : T} {k : List (Cmd T B O)}
    (hp : s'.pc = Function.update s.pc t (.ready k)) (hm : s'.mode = s.mode)
    (h : MeetStep n (view s) ⟨Function.update (view s).rest t k, (view s).born, s'.mem.printed⟩) :
    MeetStep n (view s) (view s') := by
  rw [(Moved.same hp hm).view rfl]
  exact h

variable [Fintype T]

/-- the thread that broadcasts meets the waiters -/
theorem broadcast_meets {n : B → ℕ} {s : ClientSt T B O} (h : Known n s) {t : T} {b : B} {k : List (Cmd T B O)}
    (hr : s.mode t = .run) (hp : s.pc t = .inside b .broadcast k) :
    MeetStep n (view s) (view { s.goto t (.inside b .reset k) with
      mode := fun u => if s.mode u = .waiting b then .woken else s.mode u }) := by
  have hw : waiting s b + 1 = n b := by
    have := (h.account b).due
    rwa [stageAt_inside h.owned hr hp] at this
  let W := Finset.univ.filter fun u => s.mode u = .waiting b
  have htW : t ∉ W := by simp [W, hr]
  have hcard : (insert t W).card = n b := by rw [Finset.card_insert_of_notMem htW]; exact hw
  have hheads : ∀ u ∈ insert t W, ∃ k', (view s).rest u = .wait b :: k' := by
    intro u hu
    rcases Finset.mem_insert.1 hu with rfl | hu
    · exact ⟨k, by simp [view, hp, Point.rest]⟩
    · have hmu : s.mode u = .waiting b := by simpa [W] using hu
      obtain ⟨k', hk'⟩ := waits_at h.owned hmu
      exact ⟨k', by simp [view, hk', hmu, Point.rest]⟩
  have hview : view { s.goto t (.inside b .reset k) with
      mode := fun u => if s.mode u = .waiting b then .woken else s.mode u } =
      { view s with rest := fun u => if u ∈ insert t W then ((view s).rest u).tail else (view s).rest u } := by
    refine Meeting.ext (funext fun u => ?_) (funext fun u => ?_) rfl
    swap
    · by_cases hmu : s.mode u = .waiting b <;> simp [view, hmu]
    by_cases hut : u = t
    · subst hut; simp [view, hp, Point.rest]
    · by_cases hmu : s.mode u = .waiting b
      · obtain ⟨k', hk'⟩ := waits_at h.owned hmu
        simp [view, W, hut, hmu, hk', goto_pc_of_ne, Point.rest]
      · simp [view, W, hut, hmu, goto_pc_of_ne]
  rw [hview]
  exact .meet b (insert t W) hcard hheads

/-- **Simulation.** A step of the clients is a step of the abstract machine or is not seen. -/
theorem meet_step {n : B → ℕ} {s s' : ClientSt T B O} (h : Known n s) (hs : ClientStep s s') :
    view s' = view s ∨ MeetStep n (view s) (view s') := by
  cases hs with
  | @enter t b k hr hp hf => exact .inl (view_stay rfl rfl (by simp [hp, Point.rest]) rfl)
  | @dec t b k hr hp => exact .inl (view_stay rfl rfl (by simp [hp, Point.rest]) rfl)
  | @early t b k hr hp h0 => exact .inl (view_stay rfl rfl (by simp [hp, hr, Point.rest]) rfl)
  | @last t b k hr hp h0 => exact .inl (view_stay rfl rfl (by simp [hp, Point.rest]) rfl)
  | @reset t b k hr hp => exact .inl (view_stay rfl rfl (by simp [hp, Point.rest]) rfl)
  | @leave t b k hr hp => exact .inl (view_stay rfl rfl (by simp [hp, Point.rest]) rfl)
  | @sleep t b k hr hp =>
    exact .inl (view_mode (p := s.pc t) (by simp) rfl (by simp [hr]) (by simp)
      (rest_of_ne_woken (by simp) (by simp [hr])) rfl)
  | @resume t b k hm hp hf =>
    exact .inl (view_mode rfl rfl (by simp [hm]) (by simp) (by simp [hp, hm, Point.rest]) rfl)
  | @exit t hr hp =>
    exact .inl (view_mode (p := s.pc t) (by simp) rfl (by simp [hr]) (by simp)
      (rest_of_ne_woken (by simp) (by simp [hr])) rfl)
  | @broadcast t b k hr hp => exact .inr (broadcast_meets h hr hp)
  | @print t o k hr hp => exact .inr (meet_of_pass rfl rfl (.print (by simp [view, hp, Point.rest])))
  | @join t u k hr hp hu => exact .inr (meet_of_pass rfl rfl (.join (u := u) (by simp [view, hp, Point.rest])))
  | @create t u k hr hp hu =>
    have hstep := MeetStep.create (n := n) (v := view s) (t := t) (u := u) (k := k)
      (by simp [view, hp, Point.rest]) (by simp [view, hu])
    refine .inr ?_
    convert hstep using 1
    refine Meeting.ext (funext fun v => ?_) (funext fun v => ?_) rfl
    · by_cases hvt : v = t
      · subst hvt; simp [view, Point.rest]
      · by_cases hvu : v = u
        · subst hvu
          simp only [view, goto_pc_of_ne _ _ hvt, Function.update_of_ne hvt]
          exact rest_of_ne_woken (by simp) (by simp [hu])
        · simp [view, goto_pc_of_ne _ _ hvt, hvt, hvu]
    · by_cases hvu : v = u
      · subst hvu; simp [view]
      · simp [view, hvu]

/-- **Refinement.** What the threads have passed and printed, they pass and print in the abstract machine. -/
theorem meets_of_reach {n : B → ℕ} (hn : ∀ b, 1 ≤ n b) {script : T → List (Cmd T B O)} {mode : T → Mode B}
    (hm : ∀ t, mode t = .run ∨ mode t = .unborn) {s : ClientSt T B O}
    (hs : ReachIf (step (code T B O)) NoSpurious (initial n script mode) s) :
    Meets n (view (initial n script mode)) (view s) := by
  induction hs with
  | init => exact .refl
  | step hr hns hst ih =>
    rcases meet_step (known hn hm hr) (client_step hns hst) with h | h
    · rw [h]; exact ih
    · exact ih.tail h

/-! ## Counting passed waits -/

/-- the waits at `b` that `t` has still to pass -/
def leftOf (v : Meeting T B O) (b : B) (t : T) : ℕ := (v.rest t).countP fun c => c.isWait b

def left (v : Meeting T B O) (b : B) : ℕ := ∑ t, leftOf v b t

omit [Fintype T] in
theorem leftOf_update {v : Meeting T B O} {t : T} {c : Cmd T B O} {k : List (Cmd T B O)} (h : v.rest t = c :: k) (b : B)
    (hc : c.isWait b = false) (p : T → Prop) (l : List O) :
    leftOf ⟨Function.update v.rest t k, p, l⟩ b = leftOf v b := by
  funext u
  unfold leftOf
  by_cases hut : u = t
  · subst hut; simp [h, hc]
  · simp [hut]

/-- `g` meetings at `b` lead from `v` to `v'`: they pass `n b` waits each, and at most one of each thread -/
def Passed (n : B → ℕ) (b : B) (g : ℕ) (v v' : Meeting T B O) : Prop :=
  left v' b + n b * g = left v b ∧ ∀ t, leftOf v b t ≤ leftOf v' b t + g

omit [DecidableEq T] in
theorem Passed.of_eq {n : B → ℕ} {b : B} {v v' : Meeting T B O} (h : leftOf v' b = leftOf v b) :
    Passed n b 0 v v' := by
  refine ⟨?_, fun t => ?_⟩
  · simp [left, h]
  · rw [h]; exact le_rfl

omit [DecidableEq T] in
theorem Passed.trans {n : B → ℕ} {b : B} {g g' : ℕ} {v w x : Meeting T B O} (h : Passed n b g v w)
    (h' : Passed n b g' w x) : Passed n b (g + g') v x := by
  refine ⟨?_, fun t => ?_⟩
  · have h1 := h.1
    have h2 := h'.1
    rw [mul_add]
    omega
  · have h1 := h.2 t
    have h2 := h'.2 t
    omega

/-- a meeting at a barrier passes as many waits there as its size, and none elsewhere -/
theorem passed_meet {n : B → ℕ} {v : Meeting T B O} {c : B} {S : Finset T} (hS : S.card = n c)
    (hh : ∀ t ∈ S, ∃ k, v.rest t = .wait c :: k) (b : B) :
    Passed n b (if c = b then 1 else 0) v { v with rest := fun t => if t ∈ S then (v.rest t).tail else v.rest t } := by
  have hone : ∀ t, leftOf v b t =
      leftOf { v with rest := fun t => if t ∈ S then (v.rest t).tail else v.rest t } b t +
        if t ∈ S then (if c = b then 1 else 0) else 0 := by
    intro t
    by_cases ht : t ∈ S
    · obtain ⟨k, hk⟩ := hh t ht
      simp [leftOf, ht, hk, List.countP_cons, Cmd.isWait]
    · simp [leftOf, ht]
  refine ⟨?_, fun t => ?_⟩
  · rw [left, left, Finset.sum_congr rfl fun t _ => hone t, Finset.sum_add_distrib]
    by_cases hcb : c = b
    · subst hcb; simp [hS]
    · simp [hcb]
  · rw [hone t]
    split_ifs <;> omega

theorem passed_step {n : B → ℕ} {v v' : Meeting T B O} (h : MeetStep n v v') (b : B) : ∃ g, Passed n b g v v' := by
  cases h with
  | meet c S hS hh => exact ⟨_, passed_meet hS hh b⟩
  | print h => exact ⟨0, .of_eq (leftOf_update h b rfl _ _)⟩
  | create h _ => exact ⟨0, .of_eq (leftOf_update h b rfl _ _)⟩
  | join h => exact ⟨0, .of_eq (leftOf_update h b rfl _ _)⟩

/-- **Whole meetings.** The waits passed at `b` are those of a whole number of meetings. -/
theorem passed_meets {n : B → ℕ} {v v' : Meeting T B O} (h : Meets n v v') (b : B) : ∃ g, Passed n b g v v' := by
  induction h with
  | refl => exact ⟨0, .of_eq rfl⟩
  | tail _ hs ih =>
    obtain ⟨g, hg⟩ := ih
    obtain ⟨g', hg'⟩ := passed_step hs b
    exact ⟨g + g', hg.trans hg'⟩

end DecsLabs.Barrier
