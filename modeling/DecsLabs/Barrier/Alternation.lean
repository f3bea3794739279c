/-
Two barriers that make two threads take turns (assignment-2, 2_barrier, barrier-testcase5.c), with the loop bound 10 of
the test replaced by any `L`.

- `Pairing`: which waits meet is decided by the rests of the three scripts. The first wait of thread 1 at `b1` meets the
  one of `main`, and every other one meets thread 2.
- `pairing_step`: every step of the abstract machine keeps it.
- `alternation`: what is printed, that no state is stuck before the end, and that every run ends.
-/
import DecsLabs.Barrier.Progress

namespace DecsLabs.Barrier

open DecsLabs.Transition DecsLabs.Pthread

/-! ## Model -/

inductive Client where
  | main
  | thread1
  | thread2
deriving DecidableEq, Repr

instance : Fintype Client := ⟨{.main, .thread1, .thread2}, by rintro (_ | _ | _) <;> decide⟩

inductive Bar where
  | b1
  | b2
deriving DecidableEq, Repr

inductive Out where
  | hii
  | hello
deriving DecidableEq, Repr

/-- `ThreadRoutine` with `id` 1: the loop and the wait after it -/
def threadRoutine1 : ℕ → List (Cmd Client Bar Out)
  | 0 => [.wait .b1]
  | i + 1 => .wait .b1 :: .print .hii :: .wait .b2 :: threadRoutine1 i

/-- `ThreadRoutine` with `id` 2 -/
def threadRoutine2 : ℕ → List (Cmd Client Bar Out)
  | 0 => []
  | i + 1 => .wait .b2 :: .print .hello :: .wait .b1 :: threadRoutine2 i

def mainScript : List (Cmd Client Bar Out) :=
  [.create .thread1, .create .thread2, .wait .b1, .join .thread1, .join .thread2]

def script (L : ℕ) : Client → List (Cmd Client Bar Out)
  | .main => mainScript
  | .thread1 => threadRoutine1 L
  | .thread2 => threadRoutine2 L

/-- `main` runs, the other threads have not been created -/
def start (L : ℕ) : ClientSt Client Bar Out :=
  initial (fun _ => 2) (script L) fun t => if t = .main then .run else .unborn

def greetings (L : ℕ) : List Out := (List.replicate L [.hii, .hello]).flatten

theorem greetings_succ (i : ℕ) : greetings (i + 1) = greetings i ++ [.hii, .hello] := by
  simp [greetings, List.replicate_succ']

theorem greetings_isPrefix {i j : ℕ} (h : i ≤ j) : greetings i <+: greetings j := by
  obtain ⟨d, rfl⟩ := Nat.exists_eq_add_of_le h
  exact ⟨greetings d, by
    rw [greetings, greetings, greetings, ← List.flatten_append, List.replicate_append_replicate]⟩

/-! ## Who meets whom -/

/-- the rests of the two threads and what they have printed, once `main` has passed its wait -/
inductive Turn (L : ℕ) : List (Cmd Client Bar Out) → List (Cmd Client Bar Out) → List Out → Prop
  | opened {i j : ℕ} (h : i + j = L) : Turn L (threadRoutine1 j).tail (threadRoutine2 j) (greetings i)
  | hii {i j : ℕ} (h : i + (j + 1) = L) :
    Turn L (.wait .b2 :: threadRoutine1 j) (threadRoutine2 (j + 1)) (greetings i ++ [.hii])
  | crossed {i j : ℕ} (h : i + (j + 1) = L) :
    Turn L (threadRoutine1 j) (.print .hello :: .wait .b1 :: threadRoutine2 j) (greetings i ++ [.hii])
  | hello {i j : ℕ} (h : i + (j + 1) = L) :
    Turn L (threadRoutine1 j) (.wait .b1 :: threadRoutine2 j) (greetings (i + 1))

/-- the number of threads created before `t` -/
def Client.index : Client → ℕ
  | .main => 0
  | .thread1 => 1
  | .thread2 => 2

inductive Pairing (L : ℕ) (v : Meeting Client Bar Out) : Prop
  | creating (k : ℕ) (hk : k ≤ 2) (hm : v.rest .main = mainScript.drop k) (hb : ∀ t, v.born t ↔ t.index ≤ k)
    (h1 : v.rest .thread1 = threadRoutine1 L) (h2 : v.rest .thread2 = threadRoutine2 L) (hp : v.printed = [])
  | running (hm : v.rest .main <:+ [.join .thread1, .join .thread2]) (hb : ∀ t, v.born t)
    (ht : Turn L (v.rest .thread1) (v.rest .thread2) v.printed)

theorem Turn.printed_isPrefix {L : ℕ} {k1 k2 : List (Cmd Client Bar Out)} {l : List Out} (h : Turn L k1 k2 l) :
    l <+: greetings L := by
  cases h with
  | opened h => exact greetings_isPrefix (by omega)
  | @hii i j h | @crossed i j h =>
    refine List.IsPrefix.trans ⟨[.hello], ?_⟩ (greetings_isPrefix (i := i + 1) (by omega))
    simp [greetings_succ]
  | hello h => exact greetings_isPrefix (by omega)

/-- when thread 1 has nothing left to do, everything has been printed -/
theorem Turn.printed_end {L : ℕ} {k1 k2 : List (Cmd Client Bar Out)} {l : List Out} (h : Turn L k1 k2 l)
    (hk : k1 = []) : l = greetings L := by
  cases h with
  | @opened i j h =>
    cases j with
    | zero => rw [← h, add_zero]
    | succ j => cases hk
  | hii h => cases hk
  | @crossed i j h | @hello i j h => cases j <;> cases hk

theorem Pairing.printed_isPrefix {L : ℕ} {v : Meeting Client Bar Out} (h : Pairing L v) :
    v.printed <+: greetings L := by
  cases h with
  | creating k hk hm hb h1 h2 hp => rw [hp]; exact ⟨_, rfl⟩
  | running hm hb ht => exact ht.printed_isPrefix

theorem pair_cases : ∀ S : Finset Client, S.card = 2 → S = {.main, .thread1} ∨ S = {.main, .thread2} ∨
    S = {.thread1, .thread2} := by
  decide

theorem threadRoutine1_head (L : ℕ) : ∃ k, threadRoutine1 L = .wait .b1 :: k := by
  cases L with
  | zero => exact ⟨_, rfl⟩
  | succ i => exact ⟨_, rfl⟩

/-- at the beginning only `main` and thread 1 can meet -/
theorem creating_step {n : Bar → ℕ} (hn : ∀ b, n b = 2) {L k : ℕ} {v v' : Meeting Client Bar Out} (hk : k ≤ 2)
    (hm : v.rest .main = mainScript.drop k) (hb : ∀ t, v.born t ↔ t.index ≤ k)
    (h1 : v.rest .thread1 = threadRoutine1 L) (h2 : v.rest .thread2 = threadRoutine2 L) (hp : v.printed = [])
    (h : MeetStep n v v') : Pairing L v' := by
  obtain ⟨k1, e1⟩ := threadRoutine1_head L
  have hnot1 : ∀ c k, v.rest .thread1 = c :: k → c = .wait .b1 := by
    intro c k hc
    rw [h1, e1] at hc
    exact (List.cons.inj hc).1.symm
  have hnot2 : ∀ c k, v.rest .thread2 = c :: k → c = .wait .b2 := by
    intro c k hc
    rw [h2] at hc
    cases L with
    | zero => cases hc
    | succ i => exact (List.cons.inj hc).1.symm
  cases h with
  | meet b S hS hh =>
    rcases pair_cases S (hS.trans (hn b)) with rfl | rfl | rfl
    · -- the wait of `main` is its third command
      obtain ⟨km, hkm⟩ := hh .main (by simp)
      rw [hm] at hkm
      interval_cases k <;> simp [mainScript] at hkm
      refine .running ?_ ?_ ?_
      · simp [hm, mainScript]
      · intro t
        rw [hb t]
        cases t <;> simp [Client.index]
      · simp only [h1, h2, hp]
        exact .opened (Nat.zero_add L)
    · obtain ⟨km, hkm⟩ := hh .main (by simp)
      obtain ⟨k2, hk2⟩ := hh .thread2 (by simp)
      cases hnot2 _ _ hk2
      rw [hm] at hkm
      interval_cases k <;> simp [mainScript] at hkm
    · obtain ⟨k1, hk1⟩ := hh .thread1 (by simp)
      obtain ⟨k2, hk2⟩ := hh .thread2 (by simp)
      cases hnot1 _ _ hk1
      cases hnot2 _ _ hk2
  | @print t o k' h =>
    cases t with
    | main => rw [hm] at h; interval_cases k <;> simp [mainScript] at h
    | thread1 => cases hnot1 _ _ h
    | thread2 => cases hnot2 _ _ h
  | @join t u k' h =>
    cases t with
    | main => rw [hm] at h; interval_cases k <;> simp [mainScript] at h
    | thread1 => cases hnot1 _ _ h
    | thread2 => cases hnot2 _ _ h
  | @create t u k' h hu =>
    cases t with
    | thread1 => cases hnot1 _ _ h
    | thread2 => cases hnot2 _ _ h
    | main =>
      rw [hm] at h
      have hu' : u.index = k + 1 ∧ k ≤ 1 ∧ k' = mainScript.drop (k + 1) := by
        interval_cases k <;> simp [mainScript] at h
        · obtain ⟨rfl, rfl⟩ := h; simp [Client.index, mainScript]
        · obtain ⟨rfl, rfl⟩ := h; simp [Client.index, mainScript]
      obtain ⟨hui, hk1, rfl⟩ := hu'
      refine .creating (k + 1) (by omega) (by simp) (fun t => ?_) (by simp [h1]) (by simp [h2]) hp
      show t = u ∨ v.born t ↔ _
      rw [hb t]
      have : t = u ↔ t.index = k + 1 := by
        rw [← hui]
        cases t <;> cases u <;> simp [Client.index]
      rw [this]
      omega

/-- later only the two threads can meet, when the rests of both begin with a wait at the same barrier -/
theorem running_step {n : Bar → ℕ} (hn : ∀ b, n b = 2) {L : ℕ} {v v' : Meeting Client Bar Out}
    (hm : v.rest .main <:+ [.join .thread1, .join .thread2]) (hb : ∀ t, v.born t)
    (ht : Turn L (v.rest .thread1) (v.rest .thread2) v.printed) (h : MeetStep n v v') : Pairing L v' := by
  have hmain : ∀ c k, v.rest .main = c :: k → ∃ u, c = .join u := by
    intro c k hc
    have hc' : c ∈ [Cmd.join Client.thread1, .join .thread2] := hm.subset (by rw [hc]; simp)
    rcases List.mem_cons.1 hc' with rfl | hc'
    · exact ⟨_, rfl⟩
    · exact ⟨_, List.mem_singleton.1 hc'⟩
  cases h with
  | create h hu => exact absurd (hb _) hu
  | meet b S hS hh =>
    have hno : ∀ {b}, (∃ k, v.rest .main = .wait b :: k) → False := by
      rintro b ⟨k, hk⟩
      obtain ⟨u, hu⟩ := hmain _ _ hk
      cases hu
    rcases pair_cases S (hS.trans (hn b)) with rfl | rfl | rfl
    · exact (hno (hh .main (by simp))).elim
    · exact (hno (hh .main (by simp))).elim
    · obtain ⟨k1, hk1⟩ := hh .thread1 (by simp)
      obtain ⟨k2, hk2⟩ := hh .thread2 (by simp)
      refine .running (by simpa using hm) hb ?_
      simp only [Finset.mem_insert, Finset.mem_singleton, true_or, or_true, if_true]
      generalize v.rest .thread1 = r1, v.rest .thread2 = r2, v.printed = l at ht hk1 hk2 ⊢
      cases ht with
      | @opened i j h => cases j <;> simp [threadRoutine1] at hk1
      | @hii i j h => exact .crossed h
      | @crossed i j h => cases hk2
      | @hello i j h => exact .opened (by omega)
  | @join t u k h =>
    cases t with
    | main =>
      refine .running ?_ hb (by simpa using ht)
      rw [h] at hm
      simpa using (List.suffix_cons (.join u) k).trans hm
    | thread1 =>
      generalize v.rest .thread1 = r1, v.rest .thread2 = r2, v.printed = l at ht h
      cases ht with
      | @opened i j _ => cases j <;> simp [threadRoutine1] at h
      | @hii i j _ => cases h
      | @crossed i j _ | @hello i j _ => cases j <;> simp [threadRoutine1] at h
    | thread2 =>
      generalize v.rest .thread1 = r1, v.rest .thread2 = r2, v.printed = l at ht h
      cases ht with
      | @opened i j _ => cases j <;> simp [threadRoutine2] at h
      | @hii i j _ | @crossed i j _ | @hello i j _ => cases h
  | @print t o k h =>
    cases t with
    | main =>
      obtain ⟨u, hu⟩ := hmain _ _ h
      cases hu
    | thread1 =>
      refine .running (by simpa using hm) hb ?_
      simp only [Function.update_self, ne_eq, reduceCtorEq, not_false_eq_true, Function.update_of_ne]
      generalize v.rest .thread1 = r1, v.rest .thread2 = r2, v.printed = l at ht h ⊢
      cases ht with
      | @opened i j hij =>
        cases j with
        | zero => cases h
        | succ j => cases h; exact .hii hij
      | @hii i j _ => cases h
      | @crossed i j _ | @hello i j _ => cases j <;> simp [threadRoutine1] at h
    | thread2 =>
      refine .running (by simpa using hm) hb ?_
      simp only [Function.update_self, ne_eq, reduceCtorEq, not_false_eq_true, Function.update_of_ne]
      generalize v.rest .thread1 = r1, v.rest .thread2 = r2, v.printed = l at ht h ⊢
      cases ht with
      | @opened i j _ => cases j <;> simp [threadRoutine2] at h
      | @hii i j _ | @hello i j _ => cases h
      | @crossed i j hij =>
        cases h
        have := Turn.hello hij
        rw [greetings_succ] at this
        simpa using this

/-- every step of the abstract machine keeps the pairing -/
theorem pairing_step {n : Bar → ℕ} (hn : ∀ b, n b = 2) {L : ℕ} {v v' : Meeting Client Bar Out} (hv : Pairing L v)
    (h : MeetStep n v v') : Pairing L v' := by
  cases hv with
  | creating k hk hm hb h1 h2 hp => exact creating_step hn hk hm hb h1 h2 hp h
  | running hm hb ht => exact running_step hn hm hb ht h

/-! ## Whole runs -/

theorem start_mode (t : Client) : (if t = .main then Mode.run else .unborn : Mode Bar) = .run ∨
    (if t = .main then Mode.run else .unborn : Mode Bar) = .unborn := by
  split_ifs <;> simp

theorem pairing_start (L : ℕ) : Pairing L (view (start L)) := by
  refine .creating 0 (by decide) rfl (fun t => ?_) rfl rfl rfl
  cases t <;> simp [view, start, initial, Client.index]

theorem pairing {L : ℕ} {s : ClientSt Client Bar Out}
    (hs : ReachIf (step (code Client Bar Out)) NoSpurious (start L) s) :
    Known (fun _ => 2) s ∧ Pairing L (view s) := by
  refine ⟨known (fun _ => by decide) start_mode hs, ?_⟩
  have hm := meets_of_reach (fun _ => by decide) start_mode hs
  generalize view s = v at hm
  induction hm with
  | refl => exact pairing_start L
  | tail _ h ih => exact pairing_step (fun _ => rfl) ih h

/-- a state without a step is the end -/
theorem stuck_exited {L : ℕ} {s : ClientSt Client Bar Out} (hk : Known (fun _ => 2) s) (hp : Pairing L (view s))
    (hno : ∀ t, ¬ Enabled (code Client Bar Out) s t) (t : Client) : s.mode t = .exited := by
  have hstuck := fun t => stuck_cases hk hno t
  have hpair : ∀ {b : Bar} {t u : Client}, t ≠ u → s.mode t = .waiting b → s.mode u = .waiting b → False :=
    fun htu => not_two_asleep hk hno rfl htu
  cases hp with
  | creating k hk2 hm hb h1 h2 hp =>
    have hmain := (hb .main).2 (Nat.zero_le k)
    exfalso
    obtain ⟨k1, e1⟩ := threadRoutine1_head L
    interval_cases k
    · have := (hb .thread1).1 ((hstuck .main).of_create hmain hm)
      simp [Client.index] at this
    · have := (hb .thread2).1 ((hstuck .main).of_create hmain hm)
      simp [Client.index] at this
    · -- `main` and thread 1 would both sleep at `b1`
      refine hpair (t := .main) (u := .thread1) (by decide) ((hstuck .main).of_wait hmain hm) ?_
      exact (hstuck .thread1).of_wait ((hb .thread1).2 (by decide)) (h1.trans e1)
  | running hm hb ht =>
    have hwait : ∀ {t b k}, (view s).rest t = .wait b :: k → s.mode t = .waiting b := fun {t b k} h =>
      (hstuck t).of_wait (hb t) h
    have hprint : ∀ {t o k}, (view s).rest t ≠ .print o :: k := fun {t} => (hstuck t).not_print (hb t)
    have hend : ∀ {t}, (view s).rest t = [] → s.mode t = .exited := fun {t} h => (hstuck t).of_nil (hb t) h
    generalize e1 : (view s).rest .thread1 = r1, e2 : (view s).rest .thread2 = r2, (view s).printed = l at ht
    cases ht with
    | @hii i j h => exact (hpair (by decide) (hwait e1) (hwait e2)).elim
    | @crossed i j h => exact (hprint e2).elim
    | @hello i j h =>
      obtain ⟨k1, hk1⟩ := threadRoutine1_head j
      exact (hpair (by decide) (hwait (e1.trans hk1)) (hwait e2)).elim
    | @opened i j h =>
      cases j with
      | succ j => exact (hprint e1).elim
      | zero =>
        have h1 := hend e1
        have h2 := hend e2
        have h0 : s.mode .main = .exited := by
          generalize em : (view s).rest .main = rm at hm
          cases rm with
          | nil => exact hend em
          | cons c k =>
            -- `main` does not wait for a thread that has exited
            have hc : c ∈ [Cmd.join Client.thread1, .join .thread2] := hm.subset (by simp)
            have hjoin : ∀ u, c = .join u → s.mode u ≠ .exited := by
              rintro u rfl
              exact (hstuck .main).of_join (hb .main) em
            rcases List.mem_cons.1 hc with hc | hc
            · exact (hjoin _ hc h1).elim
            · exact (hjoin _ (List.mem_singleton.1 hc) h2).elim
        cases t with
        | main => exact h0
        | thread1 => exact h1
        | thread2 => exact h2

theorem exited_printed {L : ℕ} {s : ClientSt Client Bar Out} (hk : Known (fun _ => 2) s) (hp : Pairing L (view s))
    (hend : ∀ t, s.mode t = .exited) : s.mem.printed = greetings L := by
  have hrest : ∀ t, (view s).rest t = [] := fun t => by simp [view, hk.exited t (hend t), Point.rest]
  cases hp with
  | creating k hk2 hm hb h1 h2 hp =>
    obtain ⟨k1, e1⟩ := threadRoutine1_head L
    rw [hrest, e1] at h1
    cases h1
  | running hm hb ht =>
    exact ht.printed_end (hrest .thread1)

/-- **Alternation.** For every `L` and every run without spurious wake-ups: what has been printed is a prefix of `L`
pairs of greetings; a state in which a thread has not exited has a step; the runs from it are bounded; and when all
threads have exited, all `L` pairs have been printed. -/
theorem alternation (L : ℕ) {s : ClientSt Client Bar Out}
    (hs : ReachIf (step (code Client Bar Out)) NoSpurious (start L) s) :
    s.mem.printed <+: greetings L ∧
    ((∃ t, s.mode t ≠ .exited) → ∃ t, Enabled (code Client Bar Out) s t) ∧
    (∃ N, ∀ os s', run (step (code Client Bar Out)) s os = some s' → os.length ≤ N) ∧
    ((∀ t, s.mode t = .exited) → s.mem.printed = greetings L) := by
  obtain ⟨hk, hp⟩ := pairing hs
  refine ⟨?_, ?_, ⟨work s, ?_⟩, ?_⟩
  · exact hp.printed_isPrefix
  · intro ht
    by_contra hno
    obtain ⟨t, ht⟩ := ht
    exact ht (stuck_exited hk hp (not_exists.1 hno) t)
  · intro os s' h
    exact run_bounded h
  · exact exited_printed hk hp

/-- `m` steps of `t` -/
def steps (t : Client) (m : ℕ) : List (Op Client) := List.replicate m (.exec t)

/-- a whole run for `L = 1` -/
def oneTurnTrace : List (Op Client) :=
  [steps .main 6, steps .thread1 6, [.resume .main], steps .main 1, steps .thread1 5, steps .thread2 6,
    [.resume .thread1], steps .thread1 5, steps .thread2 7, [.resume .thread1], steps .thread1 2, steps .main 1,
    steps .thread2 1, steps .main 2].flatten

theorem alternation_example : ∃ s, ReachIf (step (code Client Bar Out)) NoSpurious (start 1) s ∧
    (∀ t, s.mode t = .exited) ∧ s.mem.printed = [.hii, .hello] := by
  have hend : (runIf (step (code Client Bar Out)) (fun s o => NoSpurious s o) (start 1) oneTurnTrace).any
      (fun s => ∀ t, s.mode t = .exited) = true := by decide +kernel
  obtain ⟨s, hrun, hs⟩ := (Option.any_eq_true ..).1 hend
  have hreach := reachIf_of_runIf (fun _ _ h => of_decide_eq_true h) hrun
  have hexit : ∀ t, s.mode t = .exited := of_decide_eq_true hs
  exact ⟨s, hreach, hexit, (alternation 1 hreach).2.2.2 hexit⟩

end DecsLabs.Barrier
