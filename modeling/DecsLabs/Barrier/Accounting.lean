/-
Accounting of a barrier: its counter, its wait set and the stage of the thread that holds its mutex, for any number of
clients. Nothing is assumed about the scripts of the clients, only that nobody wakes up without a broadcast.

- `Due`: what the counter and the number of waiters are at each stage of `barrier_wait`. When the mutex is free the
  counter is what is left of `n` after the waiters, and there are fewer than `n` of them.
- `account_step`: every step keeps it, for every barrier.
- `broadcast_waiters`: the thread that broadcasts finds the other `n - 1` waiting.
-/
import DecsLabs.Barrier.Threads

namespace DecsLabs.Barrier

open DecsLabs.Transition DecsLabs.Pthread

variable {T B O : Type} [DecidableEq B]

/-! ## Model of the account -/

/-- the stage of the thread that holds the mutex of `b` -/
def stageAt (s : ClientSt T B O) (b : B) : Option Stage :=
  match s.owner b with
  | none => none
  | some t =>
    match s.pc t with
    | .inside _ p _ => some p
    | .ready _ => none

/-- `n` threads to a generation, `w` of them waiting, counter `c` -/
def Due (n w : ℕ) (c : ℤ) : Option Stage → Prop
  | none | some .dec | some .unlock => c = n - w ∧ w < n
  | some .test => c = n - w - 1 ∧ w < n
  | some .wait => c = n - w - 1 ∧ w + 1 < n
  | some .broadcast => w + 1 = n
  | some .reset => w = 0

variable [Fintype T]

/-- the size of the wait set of `b` -/
def waiting (s : ClientSt T B O) (b : B) : ℕ := (Finset.univ.filter fun t => s.mode t = .waiting b).card

structure Account (n : B → ℕ) (s : ClientSt T B O) (b : B) : Prop where
  initial : (s.mem.barrier b).threadCountInitial = n b
  due : Due (n b) (waiting s b) (s.mem.barrier b).count (stageAt s b)

theorem initial_account {n : B → ℕ} (hn : ∀ b, 1 ≤ n b) (script : T → List (Cmd T B O)) {mode : T → Mode B}
    (hm : ∀ t, mode t = .run ∨ mode t = .unborn) (b : B) : Account n (initial n script mode) b := by
  have hw : waiting (initial n script mode) b = 0 := by
    rw [waiting, Finset.card_eq_zero, Finset.filter_eq_empty_iff]
    intro t _ h
    rcases hm t with e | e <;> simp [Barrier.initial, e] at h
  have := hn b
  exact ⟨rfl, by rw [hw]; simp [Barrier.initial, stageAt, Due, barrierInit]; omega⟩

/-! ## How the wait set changes -/

variable [DecidableEq T]

theorem waiting_of_ne {s s' : ClientSt T B O} {t : T} {v : Mode B} {c : B} (hm : s'.mode = Function.update s.mode t v)
    (h1 : s.mode t ≠ .waiting c) (h2 : v ≠ .waiting c) : waiting s' c = waiting s c := by
  unfold waiting
  rw [hm]
  congr 1
  ext u
  by_cases hut : u = t
  · subst hut; simp [h1, h2]
  · simp [hut]

theorem waiting_sleep {s s' : ClientSt T B O} {t : T} {c : B} (hm : s'.mode = Function.update s.mode t (.waiting c))
    (h : s.mode t ≠ .waiting c) : waiting s' c = waiting s c + 1 := by
  have : (Finset.univ.filter fun u => s'.mode u = .waiting c) =
      insert t (Finset.univ.filter fun u => s.mode u = .waiting c) := by
    rw [hm]
    ext u
    by_cases hut : u = t
    · subst hut; simp
    · simp [hut]
  rw [waiting, this, Finset.card_insert_of_notMem (by simp [h])]
  rfl

omit [DecidableEq T] in
theorem waiting_broadcast {s s' : ClientSt T B O} {b : B}
    (hm : s'.mode = fun u => if s.mode u = .waiting b then .woken else s.mode u) (c : B) :
    waiting s' c = if c = b then 0 else waiting s c := by
  unfold waiting
  rw [hm]
  split_ifs with hc
  · subst hc
    rw [Finset.card_eq_zero, Finset.filter_eq_empty_iff]
    intro u _
    by_cases hu : s.mode u = .waiting c <;> simp [hu]
  · congr 1
    ext u
    by_cases hu : s.mode u = .waiting b
    · simp [hu, Ne.symm hc]
    · simp [hu]

/-! ## Every step keeps the account -/

abbrev ClientOwned (s : ClientSt T B O) : Prop := Owned (code T B O) (fun _ => held) s

omit [Fintype T] [DecidableEq T] in
theorem owner_inside {s : ClientSt T B O} (h : ClientOwned s) {b : B} {t : T} :
    s.owner b = some t ↔ s.mode t = .run ∧ ∃ p k, s.pc t = .inside b p k := by
  rw [h.owner b t]
  refine and_congr_right fun _ => ?_
  cases hp : s.pc t with
  | ready k => simp [held]
  | inside b' p k => simp [held, eq_comm]

omit [Fintype T] [DecidableEq T] in
theorem stageAt_inside {s : ClientSt T B O} (h : ClientOwned s) {b : B} {t : T} {p : Stage} {k : List (Cmd T B O)}
    (hr : s.mode t = .run) (hp : s.pc t = .inside b p k) : stageAt s b = some p := by
  simp only [stageAt, (owner_inside h).2 ⟨hr, p, k, hp⟩, hp]

omit [Fintype T] [DecidableEq B] in
/-- a move of a thread that does not hold the mutex of `b` is not seen in the stage of `b` -/
theorem stageAt_other {s s' : ClientSt T B O} {b : B} {t : T} {p : Point T B O} (ho : s'.owner b = s.owner b)
    (hp : s'.pc = Function.update s.pc t p) (ht : s.owner b ≠ some t) : stageAt s' b = stageAt s b := by
  unfold stageAt
  rw [ho, hp]
  cases hu : s.owner b with
  | none => rfl
  | some u =>
    have hut : u ≠ t := by rintro rfl; exact ht hu
    simp [hut]

omit [DecidableEq T] in
theorem Account.of_eq {n : B → ℕ} {s s' : ClientSt T B O} {b : B} (h : Account n s b)
    (hb : s'.mem.barrier b = s.mem.barrier b) (hw : waiting s' b = waiting s b) (hs : stageAt s' b = stageAt s b) :
    Account n s' b := ⟨by rw [hb]; exact h.initial, by rw [hb, hw, hs]; exact h.due⟩

omit [DecidableEq T] in
theorem Account.of_due {n : B → ℕ} {s' : ClientSt T B O} {c : B} {w : ℕ} {x : ℤ} {p : Option Stage}
    (hb : s'.mem.barrier c = ⟨n c, x⟩) (hw : waiting s' c = w) (hs : stageAt s' c = p) (hd : Due (n c) w x p) :
    Account n s' c := ⟨by rw [hb], by rw [hb, hw, hs]; exact hd⟩

omit [Fintype T] [DecidableEq T] in
theorem owner_ne_of_inside {s : ClientSt T B O} (h : ClientOwned s) {b c : B} {t : T} {p : Stage}
    {k : List (Cmd T B O)} (hp : s.pc t = .inside b p k) (hc : c ≠ b) : s.owner c ≠ some t := by
  intro e
  obtain ⟨-, p', k', h'⟩ := (owner_inside h).1 e
  rw [hp] at h'
  cases h'
  exact hc rfl

omit [Fintype T] [DecidableEq T] in
theorem owner_ne_of_ready {s : ClientSt T B O} (h : ClientOwned s) {t : T} {k : List (Cmd T B O)}
    (hp : s.pc t = .ready k) (c : B) : s.owner c ≠ some t := by
  intro e
  obtain ⟨-, p', k', h'⟩ := (owner_inside h).1 e
  rw [hp] at h'
  cases h'

/-- **The account.** Every step that nobody takes by itself keeps the account of every barrier. -/
theorem account_step {n : B → ℕ} (hn : ∀ b, 1 ≤ n b) {s s' : ClientSt T B O} (ho : ClientOwned s)
    (ho' : ClientOwned s') (h : ∀ b, Account n s b) (hs : ClientStep s s') (c : B) : Account n s' c := by
  have hd := (h c).due
  have hb : s.mem.barrier c = ⟨n c, (s.mem.barrier c).count⟩ := by rw [← (h c).initial]
  cases hs with
  | @enter t b k hr hp hf =>
    by_cases hc : c = b
    · subst hc
      rw [show stageAt s c = none by simp [stageAt, hf]] at hd
      exact .of_due hb rfl (stageAt_inside ho' hr (goto_pc_self ..)) hd
    · exact (h c).of_eq rfl rfl (stageAt_other (by simp [hc]) rfl (owner_ne_of_ready ho hp c))
  | @dec t b k hr hp =>
    by_cases hc : c = b
    · subst hc
      rw [stageAt_inside ho hr hp] at hd
      refine .of_due (w := waiting s c) (x := (s.mem.barrier c).count - 1) ?_ rfl
        (stageAt_inside ho' hr (goto_pc_self ..)) ?_
      · simp only [Function.update_self]; rw [hb]
      · exact ⟨by rw [hd.1], hd.2⟩
    · exact (h c).of_eq (by simp [hc]) rfl (stageAt_other rfl rfl (owner_ne_of_inside ho hp hc))
  | @early t b k hr hp h0 =>
    by_cases hc : c = b
    · subst hc
      rw [stageAt_inside ho hr hp] at hd
      obtain ⟨h1, h2⟩ := hd
      exact .of_due (w := waiting s c) hb rfl (stageAt_inside ho' hr (goto_pc_self ..)) ⟨h1, by omega⟩
    · exact (h c).of_eq rfl rfl (stageAt_other rfl rfl (owner_ne_of_inside ho hp hc))
  | @last t b k hr hp h0 =>
    by_cases hc : c = b
    · subst hc
      rw [stageAt_inside ho hr hp] at hd
      obtain ⟨h1, h2⟩ := hd
      exact .of_due (w := waiting s c) hb rfl (stageAt_inside ho' hr (goto_pc_self ..)) (by simp only [Due]; omega)
    · exact (h c).of_eq rfl rfl (stageAt_other rfl rfl (owner_ne_of_inside ho hp hc))
  | @sleep t b k hr hp =>
    by_cases hc : c = b
    · subst hc
      rw [stageAt_inside ho hr hp] at hd
      obtain ⟨h1, h2⟩ := hd
      refine .of_due (p := none) hb (waiting_sleep rfl (by simp [hr])) (by simp [stageAt]) ⟨?_, h2⟩
      rw [h1]; push_cast; ring
    · exact (h c).of_eq rfl (waiting_of_ne rfl (by simp [hr]) (by simpa using Ne.symm hc))
        (stageAt_other (p := s.pc t) (by simp [hc]) (by simp) (owner_ne_of_inside ho hp hc))
  | @resume t b k hm hp hf =>
    by_cases hc : c = b
    · subst hc
      rw [show stageAt s c = none by simp [stageAt, hf]] at hd
      exact .of_due hb (waiting_of_ne rfl (by simp [hm]) (by simp)) (stageAt_inside ho' (by simp) (goto_pc_self ..)) hd
    · exact (h c).of_eq rfl (waiting_of_ne rfl (by simp [hm]) (by simp))
        (stageAt_other (by simp [hc]) rfl (owner_ne_of_inside ho hp hc))
  | @broadcast t b k hr hp =>
    by_cases hc : c = b
    · subst hc
      refine .of_due hb ((waiting_broadcast rfl c).trans (if_pos rfl))
        (stageAt_inside ho' (by simp [hr]) (goto_pc_self ..)) ?_
      rfl
    · exact (h c).of_eq rfl ((waiting_broadcast rfl c).trans (if_neg hc))
        (stageAt_other rfl rfl (owner_ne_of_inside ho hp hc))
  | @reset t b k hr hp =>
    by_cases hc : c = b
    · subst hc
      rw [stageAt_inside ho hr hp] at hd
      have hw : waiting s c = 0 := hd
      refine .of_due (x := n c) ?_ hw (stageAt_inside ho' hr (goto_pc_self ..)) ⟨by simp, hn c⟩
      simp only [Function.update_self]; rw [hb]
    · exact (h c).of_eq (by simp [hc]) rfl (stageAt_other rfl rfl (owner_ne_of_inside ho hp hc))
  | @leave t b k hr hp =>
    by_cases hc : c = b
    · subst hc
      rw [stageAt_inside ho hr hp] at hd
      exact .of_due (p := none) hb rfl (by simp [stageAt]) hd
    · exact (h c).of_eq rfl rfl (stageAt_other (by simp [hc]) rfl (owner_ne_of_inside ho hp hc))
  | @print t o k hr hp => exact (h c).of_eq rfl rfl (stageAt_other rfl rfl (owner_ne_of_ready ho hp c))
  | @create t u k hr hp hu =>
    exact (h c).of_eq rfl (waiting_of_ne rfl (by simp [hu]) (by simp))
      (stageAt_other rfl rfl (owner_ne_of_ready ho hp c))
  | @join t u k hr hp hu => exact (h c).of_eq rfl rfl (stageAt_other rfl rfl (owner_ne_of_ready ho hp c))
  | @exit t hr hp =>
    exact (h c).of_eq rfl (waiting_of_ne rfl (by simp [hr]) (by simp))
      (stageAt_other (p := s.pc t) rfl (by simp) (owner_ne_of_ready ho hp c))

/-- what is known of every state that clients reach without spurious wake-ups -/
structure Known (n : B → ℕ) (s : ClientSt T B O) : Prop where
  owned : ClientOwned s
  account : ∀ b, Account n s b
  exited : ∀ t, s.mode t = .exited → s.pc t = .ready []

omit [Fintype T] [DecidableEq T] in
/-- a thread leaves when its script is done -/
theorem exit_ready {p : Point T B O} (h : clientCode p = .exit) : p = .ready [] := by
  cases p with
  | inside b q k => cases q <;> cases h
  | ready k =>
    cases k with
    | nil => rfl
    | cons c k => cases c <;> cases h

theorem Known.step {n : B → ℕ} (hn : ∀ b, 1 ≤ n b) {s s' : ClientSt T B O} {o : Op T} (h : Known n s)
    (hns : NoSpurious s o) (hs : step (code T B O) s o = some s') : Known n s' :=
  have ho' := disciplined.owned_step h.owned (step_move hs)
  have hc := client_step hns hs
  ⟨ho', account_step hn h.owned ho' h.account hc, fun t ht => by
    obtain ⟨hp, he⟩ := (step_move hs).exited ht
    exact hp.trans (he.elim (h.exited t) exit_ready)⟩

theorem known {n : B → ℕ} (hn : ∀ b, 1 ≤ n b) {script : T → List (Cmd T B O)} {mode : T → Mode B}
    (hm : ∀ t, mode t = .run ∨ mode t = .unborn) {s : ClientSt T B O}
    (hs : ReachIf (step (code T B O)) NoSpurious (initial n script mode) s) : Known n s := by
  refine hs.invariant ⟨initial_owned n script hm, initial_account hn script hm, fun t h => ?_⟩
    fun _ _ _ _ h hns hst => h.step hn hns hst
  rcases hm t with e | e <;> simp [Barrier.initial, e] at h

end DecsLabs.Barrier
