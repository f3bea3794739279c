/-
When clients of barriers stop: what is true of a state in which no thread can take a step, and why every run ends.

- `stuck_cases`: a thread of such a state has not been created, has exited, sleeps at a barrier, or creates or joins a
  thread that has been created or has not exited.
- `few_asleep`: fewer threads sleep at a barrier than it is initialised for.
- `run_bounded`: scripts have no loops, so every step brings the end nearer, spurious wake-ups included.
-/
import DecsLabs.Barrier.Rendezvous

namespace DecsLabs.Barrier

open DecsLabs.Transition DecsLabs.Pthread

variable {T B O : Type} [DecidableEq T] [DecidableEq B] [Fintype T]

/-! ## States without a step -/

inductive Stuck (s : ClientSt T B O) (t : T) : Prop
  | unborn (h : s.mode t = .unborn)
  | exited (h : s.mode t = .exited) (hk : (view s).rest t = [])
  | asleep {b k} (h : s.mode t = .waiting b) (hk : (view s).rest t = .wait b :: k)
  | create {u k} (hk : (view s).rest t = .create u :: k) (hu : s.mode u ≠ .unborn)
  | join {u k} (hk : (view s).rest t = .join u :: k) (hu : s.mode u ≠ .exited)

theorem all_unlocked {s : ClientSt T B O} (h : ClientOwned s) (hno : ∀ t, ¬ Enabled (code T B O) s t) (b : B) :
    s.owner b = none := unlocked disciplined (fun _ => Nat.zero_lt_one) h (fun u _ _ => hno u) b

theorem stuck_cases {n : B → ℕ} {s : ClientSt T B O} (h : Known n s) (hno : ∀ t, ¬ Enabled (code T B O) s t) (t : T) :
    Stuck s t := by
  rcases blocked_unlocked h.owned (all_unlocked h.owned hno) (hno t) with hm | hm | ⟨b, hm⟩ | ⟨hr, hcase⟩
  · exact .unborn hm
  · exact .exited hm (by simp [view, h.exited t hm, Point.rest])
  · obtain ⟨k, hk⟩ := waits_at h.owned hm
    exact .asleep (k := k) hm (by simp [view, hk, hm, Point.rest])
  · -- a running thread that cannot move stands before a `create` or a `join`
    cases hp : s.pc t with
    | inside b p k => cases p <;> simp [hp, code, clientCode, barrierWait] at hcase
    | ready k =>
      rcases k with _ | ⟨c | c | u | u, k⟩ <;> simp [hp, code, clientCode] at hcase
      · exact .create (u := u) (k := k) (by simp [view, hp, Point.rest]) hcase
      · exact .join (u := u) (k := k) (by simp [view, hp, Point.rest]) hcase

theorem few_asleep {n : B → ℕ} {s : ClientSt T B O} (h : Known n s) (hno : ∀ t, ¬ Enabled (code T B O) s t) (b : B) :
    waiting s b < n b := by
  have hdue := (h.account b).due
  rw [show stageAt s b = none by simp [stageAt, all_unlocked h.owned hno b]] at hdue
  exact hdue.2

omit [DecidableEq T] [Fintype T] in
theorem Stuck.of_wait {s : ClientSt T B O} {t : T} {b : B} {k : List (Cmd T B O)} (h : Stuck s t)
    (hb : (view s).born t) (hk : (view s).rest t = .wait b :: k) : s.mode t = .waiting b := by
  cases h with
  | unborn h => exact absurd h hb
  | asleep h hk' =>
    rw [hk] at hk'
    cases hk'
    exact h
  | exited _ hk' | create hk' _ | join hk' _ => simp [hk] at hk'

omit [DecidableEq T] [Fintype T] in
theorem Stuck.of_nil {s : ClientSt T B O} {t : T} (h : Stuck s t) (hb : (view s).born t) (hk : (view s).rest t = []) :
    s.mode t = .exited := by
  cases h with
  | unborn h => exact absurd h hb
  | exited h _ => exact h
  | asleep _ hk' | create hk' _ | join hk' _ => simp [hk] at hk'

omit [DecidableEq T] [Fintype T] in
theorem Stuck.not_print {s : ClientSt T B O} {t : T} {o : O} {k : List (Cmd T B O)} (h : Stuck s t)
    (hb : (view s).born t) : (view s).rest t ≠ .print o :: k := by
  intro hk
  cases h with
  | unborn h => exact absurd h hb
  | exited _ hk' | asleep _ hk' | create hk' _ | join hk' _ => simp [hk] at hk'

omit [DecidableEq T] [Fintype T] in
theorem Stuck.of_join {s : ClientSt T B O} {t u : T} {k : List (Cmd T B O)} (h : Stuck s t) (hb : (view s).born t)
    (hk : (view s).rest t = .join u :: k) : s.mode u ≠ .exited := by
  cases h with
  | unborn h => exact absurd h hb
  | join hk' hu =>
    rw [hk] at hk'
    cases hk'
    exact hu
  | exited _ hk' | asleep _ hk' | create hk' _ => simp [hk] at hk'

omit [DecidableEq T] [Fintype T] in
theorem Stuck.of_create {s : ClientSt T B O} {t u : T} {k : List (Cmd T B O)} (h : Stuck s t) (hb : (view s).born t)
    (hk : (view s).rest t = .create u :: k) : (view s).born u := by
  cases h with
  | unborn h => exact absurd h hb
  | create hk' hu =>
    rw [hk] at hk'
    cases hk'
    exact hu
  | exited _ hk' | asleep _ hk' | join hk' _ => simp [hk] at hk'

theorem not_two_asleep {n : B → ℕ} {s : ClientSt T B O} (h : Known n s) (hno : ∀ t, ¬ Enabled (code T B O) s t) {b : B}
    (hb : n b = 2) {t u : T} (htu : t ≠ u) (ht : s.mode t = .waiting b) (hu : s.mode u = .waiting b) : False := by
  have hfew := few_asleep h hno b
  have htwo : 2 ≤ waiting s b := by
    rw [waiting, ← Finset.card_pair htu]
    apply Finset.card_le_card
    intro v hv
    rcases Finset.mem_insert.1 hv with rfl | hv
    · simp [ht]
    · simp [Finset.mem_singleton.1 hv, hu]
  omega

/-! ## Every run ends -/

/-- the steps that a point is away from the end, ten for each command -/
def Point.work : Point T B O → ℕ
  | .ready k => 10 * k.length
  | .inside _ p k => 10 * k.length +
    match p with
    | .dec => 9
    | .test => 8
    | .wait | .broadcast => 7
    | .reset => 6
    | .unlock => 1

/-- a thread that sleeps has still to be woken, and one that runs may yet sleep or exit -/
def modeWork : Mode B → ℕ
  | .unborn | .run => 3
  | .waiting _ => 2
  | .woken => 1
  | .exited => 0

def workOf (s : ClientSt T B O) (t : T) : ℕ := (s.pc t).work + modeWork (s.mode t)

def work (s : ClientSt T B O) : ℕ := ∑ t, workOf s t

omit [DecidableEq B] in
theorem work_lt {s s' : ClientSt T B O} {t : T} (ht : workOf s' t < workOf s t)
    (hu : ∀ u, u ≠ t → workOf s' u ≤ workOf s u) : work s' < work s := by
  refine Finset.sum_lt_sum (fun u _ => ?_) ⟨t, Finset.mem_univ t, ht⟩
  by_cases hut : u = t
  · subst hut; exact ht.le
  · exact hu u hut

theorem work_client {s s' : ClientSt T B O} (h : ClientStep s s') : work s' < work s := by
  cases h with
  | @sleep t | @exit t =>
    refine work_lt (t := t) ?_ fun u hu => ?_
    · simp [workOf, modeWork, *]
    · simp [workOf, hu]
  | @broadcast t b k hr hp =>
    refine work_lt (t := t) ?_ fun u hu => ?_
    · simp [workOf, Point.work, modeWork, hr, hp]
    · simp only [workOf, goto_pc_of_ne _ _ hu]
      split_ifs with hw <;> simp [modeWork, *]
  | @create t v k hr hp hv =>
    refine work_lt (t := t) ?_ fun u hu => ?_
    · by_cases htv : t = v
      · subst htv; simp [workOf, Point.work, modeWork, hp, hv]
      · simp [workOf, Point.work, hp, htv]
    · simp only [workOf, goto_pc_of_ne _ _ hu]
      by_cases huv : u = v
      · subst huv; simp [modeWork, hv]
      · simp [huv]
  | @enter t | @dec t | @early t | @last t | @resume t | @reset t | @leave t | @print t | @join t =>
    refine work_lt (t := t) ?_ fun u hu => ?_
    · simp [workOf, Point.work, modeWork, *] <;> omega
    · simp [workOf, goto_pc_of_ne _ _ hu, hu]

theorem work_step {s s' : ClientSt T B O} {o : Op T} (h : step (code T B O) s o = some s') : work s' < work s := by
  by_cases hns : NoSpurious s o
  · exact work_client (client_step hns h)
  · simp only [NoSpurious, not_forall, not_not] at hns
    obtain ⟨t, rfl⟩ := hns
    cases step_move h with
    | spurious hw =>
      refine work_lt (t := t) ?_ fun u hu => ?_
      · simp [workOf, modeWork, hw]
      · simp [workOf, hu]

/-- **Bounded runs.** -/
theorem run_bounded {s s' : ClientSt T B O} {os : List (Op T)} (h : run (step (code T B O)) s os = some s') :
    os.length ≤ work s :=
  le_of_add_le_left (run_measure work (fun _ _ _ => work_step) h)

end DecsLabs.Barrier
