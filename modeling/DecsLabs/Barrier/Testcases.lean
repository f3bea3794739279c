/-
The tests of the barrier that work on shared data (assignment-2, 2_barrier, barrier-testcase1.c to barrier-testcase4.c),
with their constants replaced by parameters. Sums are integers without a bound: the parameters are to be such that no `int`
(in barrier-testcase4.c, no `long`) overflows, as with the constants of the sources.

- `sums_printed`: every thread increments its cell of an array and thread 0 prints the sum, round after round (one round
  in barrier-testcase1.c, two in barrier-testcase2.c).
- `nobody_early`: a thread that comes to the second barrier late is waited for (barrier-testcase3.c).
- `pairs_printed`: four threads add up a quarter of an array each and meet in pairs (barrier-testcase4.c).
-/
import DecsLabs.Barrier.Routines

namespace DecsLabs.Barrier

open DecsLabs.Transition DecsLabs.Pthread

/-! ## What a routine does where -/

section
variable {B X O : Type} [DecidableEq B]

/-- `P` holds of every statement of a routine and of the waits behind it -/
def Each (P : Act X O → (B → ℕ) → Prop) : List (Stmt B X O) → Prop
  | [] => True
  | .act a :: k => P a (fun b => calls b k) ∧ Each P k
  | .wait _ :: k => Each P k

theorem Each.suffix {P : Act X O → (B → ℕ) → Prop} {k l : List (Stmt B X O)} {a : Act X O} (h : Each P l)
    (hs : .act a :: k <:+ l) : P a fun b => calls b k := by
  induction l with
  | nil => simp at hs
  | cons c l ih =>
    rcases List.suffix_cons_iff.1 hs with heq | htail
    · cases heq
      exact h.1
    · cases c with
      | act b => exact ih h.2 htail
      | wait b => exact ih h htail

@[simp] theorem calls_acts (b : B) (l : List (Act X O)) (k : List (Stmt B X O)) :
    calls b (l.map .act ++ k) = calls b k := by
  induction l with
  | nil => rfl
  | cons a l ih => exact ih

@[simp] theorem calls_only_acts (b : B) (l : List (Act X O)) : calls b (l.map .act : List (Stmt B X O)) = 0 := by
  simpa [calls] using calls_acts b l []

theorem each_acts {P : Act X O → (B → ℕ) → Prop} {l : List (Act X O)} {k : List (Stmt B X O)} :
    Each P (l.map .act ++ k) ↔ (∀ a ∈ l, P a fun b => calls b k) ∧ Each P k := by
  induction l with
  | nil => simp
  | cons a l ih => simp [Each, ih, and_assoc]

/-- the waits of a routine with one barrier are in order -/
theorem callKeys_unit (k : List (Stmt Unit X O)) : (callKeys (fun _ j => -(j : ℤ)) k).Pairwise (· < ·) := by
  have hbehind : ∀ k : List (Stmt Unit X O), ∀ x ∈ callKeys (fun _ j => -(j : ℤ)) k, -(calls () k : ℤ) < x := by
    intro k
    induction k with
    | nil => simp [callKeys]
    | cons c k ih =>
      intro x hx
      cases c with
      | act a => exact ih x hx
      | wait b =>
        obtain rfl : b = () := rfl
        rw [calls, if_pos rfl]
        rcases List.mem_cons.1 hx with rfl | hx
        · push_cast
          omega
        · have hlt := ih x hx
          push_cast
          omega
  induction k with
  | nil => exact List.Pairwise.nil
  | cons c k ih =>
    cases c with
    | act a => exact ih
    | wait b => exact List.pairwise_cons.2 ⟨hbehind k, ih⟩

end

/-- `m` steps of `t` -/
def turns {T : Type} (t : T) (m : ℕ) : List (Op T) := List.replicate m (.exec t)

/-! ## Sums over an array -/

section
variable {n : ℕ}

/-- `array[id] += c` -/
def increment (id : Fin n) (c : ℤ) : List (Act (Fin n) ℕ) := [.load id, .add c, .store id]

/-- thread 0 adds up the array and prints the sum, the `j`-th one; `sum = 0` is an initialisation in the first round -/
def sumUp (j : ℕ) (id : Fin n) : List (Act (Fin n) ℕ) :=
  if (id : ℕ) = 0 then .clear :: (List.finRange n).map .gather ++ [.printSum j] else []

/-- `ThreadRoutine`, one round for each increment -/
def sumRoutine (id : Fin n) : List ℤ → ℕ → List (Stmt Unit (Fin n) ℕ)
  | [], _ => []
  | [c], j => (increment id c).map .act ++ .wait () :: (sumUp j id).map .act
  | c :: c' :: cs, j =>
    (increment id c).map .act ++ .wait () :: ((sumUp j id).map .act ++ .wait () :: sumRoutine id (c' :: cs) (j + 1))

/-- the program: `[1]` in barrier-testcase1.c, `[1, 10]` in barrier-testcase2.c -/
def sumTest (n : ℕ) (cs : List ℤ) : Team (Option (Fin n)) Unit (Entry (Option (Fin n)) (Fin n) ℕ) :=
  testTeam (fun _ => n) fun id => sumRoutine id cs 1

/-- the sums that `n` threads print from round `j` on, when every cell is `a` before it -/
def sums (n : ℕ) : List ℤ → ℕ → ℤ → List (ℕ × Option ℤ)
  | [], _, _ => []
  | c :: cs, j, a => (j, some (n * (a + c))) :: sums n cs (j + 1) (a + c)

theorem calls_sum (id : Fin n) (cs : List ℤ) (j : ℕ) : calls () (sumRoutine id cs j) = 2 * cs.length - 1 := by
  induction cs generalizing j with
  | nil => rfl
  | cons c cs ih =>
    cases cs with
    | nil => simp [sumRoutine, calls]
    | cons c' cs =>
      rw [sumRoutine, calls_acts, calls, calls_acts, calls, ih]
      simp only [List.length_cons, if_true]
      omega

/-- a thread accesses its own cell with an odd number of waits behind, and only reads with an even number -/
def SumPlace (id : Fin n) (a : Act (Fin n) ℕ) (left : Unit → ℕ) : Prop :=
  ∀ x, a.target = some x ∨ a.reads = some x → x = id ∧ Odd (left ()) ∨ a.target = none ∧ Even (left ())

theorem sum_place (id : Fin n) (cs : List ℤ) (j : ℕ) : Each (SumPlace id) (sumRoutine id cs j) := by
  have hinc : ∀ (c : ℤ) (left : Unit → ℕ), Odd (left ()) → ∀ a ∈ increment id c, SumPlace id a left := by
    intro c left hleft a ha
    simp only [increment, List.mem_cons, List.not_mem_nil, or_false] at ha
    rcases ha with rfl | rfl | rfl <;> simp [SumPlace, Act.target, Act.reads, hleft]
  have hsum : ∀ (j : ℕ) (left : Unit → ℕ), Even (left ()) → ∀ a ∈ sumUp j id, SumPlace id a left := by
    intro j left hleft a ha
    simp only [sumUp] at ha
    split_ifs at ha
    · simp only [List.mem_append, List.mem_cons, List.mem_map, List.not_mem_nil, or_false] at ha
      rcases ha with (rfl | ⟨x, -, rfl⟩) | rfl <;> simp [SumPlace, Act.target, Act.reads, hleft]
    · simp at ha
  induction cs generalizing j with
  | nil => trivial
  | cons c cs ih =>
    cases cs with
    | nil =>
      have hlast : Each (SumPlace id) ((sumUp j id).map .act : List (Stmt Unit (Fin n) ℕ)) := by
        rw [← List.append_nil (List.map _ _), each_acts]
        exact ⟨hsum j _ (by simp [calls]), trivial⟩
      exact each_acts.2 ⟨hinc c _ (by simp [calls]), hlast⟩
    | cons c' cs =>
      refine each_acts.2 ⟨hinc c _ ?_, each_acts.2 ⟨hsum j _ ?_, ih (j + 1)⟩⟩
      · simp only [calls, calls_acts, calls_sum, List.length_cons, if_true]
        exact ⟨cs.length + 1, by omega⟩
      · simp only [calls, calls_sum, List.length_cons, if_true]
        exact ⟨cs.length + 1, by omega⟩

theorem sum_regular (hn : 0 < n) (cs : List ℤ) : (sumTest n cs).Regular Prod.fst fun _ j => -(j : ℤ) := by
  refine regular_of (fun _ => hn) (fun b i hi => ?_) (fun b i j _ _ => ?_) fun i => callKeys_unit _
  · have hall : (Finset.univ.filter fun i => 0 < calls b (sumRoutine (n := n) i cs 1)) = Finset.univ := by
      refine Finset.filter_true_of_mem fun j _ => ?_
      rw [calls_sum] at hi ⊢
      exact hi
    rw [hall, Finset.card_univ, Fintype.card_fin]
  · rw [calls_sum, calls_sum]

/-- a cell that one thread writes, another accesses with another number of waits behind -/
theorem SumPlace.separate {i j : Fin n} (hij : i ≠ j) {a b : Act (Fin n) ℕ} {l l' : Unit → ℕ} (ha : SumPlace i a l)
    (hb : SumPlace j b l') {x : Fin n} (hx : a.target = some x) (hy : b.target = some x ∨ b.reads = some x) :
    l () ≠ l' () := by
  intro he
  rcases ha x (.inl hx) with ⟨rfl, hodd⟩ | ⟨hnone, -⟩
  · rcases hb x hy with ⟨rfl, -⟩ | ⟨-, heven⟩
    · exact hij rfl
    · rw [he] at hodd
      exact (Nat.not_even_iff_odd.2 hodd) heven
  · rw [hx] at hnone
    cases hnone

theorem sum_raceFree (cs : List ℤ) : (sumTest n cs).RaceFree := by
  refine raceFree_of fun i j hij a k b k' hk hk' hc => ?_
  have ha := (sum_place i cs 1).suffix hk
  have hb := (sum_place j cs 1).suffix hk'
  have hpos : ∀ i : Fin n, 0 < calls () (sumRoutine i cs 1) := by
    intro i
    rw [calls_sum]
    cases cs with
    | nil => simp [sumRoutine] at hk
    | cons c cs =>
      simp only [List.length_cons]
      omega
  refine ⟨(), hpos i, hpos j, ?_⟩
  obtain ⟨x, ⟨hax, hbx⟩ | ⟨hbx, hax⟩⟩ := hc
  · exact ha.separate hij hb hax hbx.symm
  · exact (hb.separate hij.symm ha hbx (.inr hax)).symm

/-! ### The outcome -/

theorem runActs_append {T X O : Type} [DecidableEq T] [DecidableEq X] (t : T) (d : Data T X O) (l l' : List (Act X O)) :
    runActs t d (l ++ l') = runActs t (runActs t d l) l' := List.foldl_append

theorem run_increment (id : Fin n) (c : ℤ) (d : Data (Option (Fin n)) (Fin n) ℕ) :
    (runActs (some id) d (increment id c)).cell = Function.update d.cell id (d.cell id + c) ∧
      ∀ t, ((runActs (some id) d (increment id c)).loc t).out = (d.loc t).out := by
  refine ⟨by simp [runActs, increment, exec, Act.target, Act.next], fun t => ?_⟩
  by_cases ht : t = some id <;> simp [runActs, increment, exec, Act.next, ht]

/-- the increments of all threads, one after the other -/
theorem run_increments (c : ℤ) (ts : List (Fin n)) (hn : ts.Nodup) (d : Data (Option (Fin n)) (Fin n) ℕ) :
    (∀ x, (ts.foldl (fun d i => runActs (some i) d (increment i c)) d).cell x = d.cell x + if x ∈ ts then c else 0) ∧
      ∀ t, ((ts.foldl (fun d i => runActs (some i) d (increment i c)) d).loc t).out = (d.loc t).out := by
  induction ts generalizing d with
  | nil => simp
  | cons i ts ih =>
    obtain ⟨hi, hts⟩ := List.nodup_cons.1 hn
    obtain ⟨hcell, hout⟩ := run_increment i c d
    obtain ⟨hcells, houts⟩ := ih hts (runActs (some i) d (increment i c))
    refine ⟨fun x => ?_, fun t => by rw [List.foldl_cons, houts, hout]⟩
    rw [List.foldl_cons, hcells, hcell]
    by_cases hx : x = i
    · subst hx
      simp [hi]
    · simp [hx]

/-- adding up a list of cells -/
theorem run_gather {X O T : Type} [DecidableEq T] [DecidableEq X] (t : T) (xs : List X) (d : Data T X O) :
    runActs t d (xs.map .gather) =
      { d with loc := Function.update d.loc t { d.loc t with sum := (d.loc t).sum + (xs.map d.cell).sum } } := by
  induction xs generalizing d with
  | nil => simp [runActs]
  | cons x xs ih =>
    have hone : runActs t d ((x :: xs).map .gather) = runActs t (exec d (t, 0, .gather x)) (xs.map .gather) := rfl
    rw [hone, ih]
    simp [exec, Act.target, Act.next, add_assoc]

theorem run_sumUp (id : Fin n) (hid : (id : ℕ) = 0) (j : ℕ) {a : ℤ} {d : Data (Option (Fin n)) (Fin n) ℕ}
    (hd : ∀ x, d.cell x = a) : (runActs (some id) d (sumUp j id)).cell = d.cell ∧
      ∀ t, ((runActs (some id) d (sumUp j id)).loc t).out =
        (d.loc t).out ++ if t = some id then [(j, some (n * a))] else [] := by
  have hcells : (List.finRange n).map d.cell = List.replicate n a := by
    rw [List.eq_replicate_iff]
    simp [hd]
  have hrun : runActs (some id) d (sumUp j id) =
      exec (runActs (some id) (exec d (some id, 0, .clear)) ((List.finRange n).map .gather)) (some id, 0, .printSum j) := by
    rw [sumUp, if_pos hid, List.cons_append, runActs, List.foldl_cons, List.foldl_append]
    rfl
  rw [hrun, run_gather]
  refine ⟨by simp [exec, Act.target], fun t => ?_⟩
  have hcell : (exec d (some id, 0, (.clear : Act (Fin n) ℕ))).cell = d.cell := rfl
  by_cases ht : t = some id
  · subst ht
    rw [hcell, hcells]
    simp [exec, Act.next]
  · simp [exec, ht]

variable {v : Meeting (Option (Fin n)) Unit (Entry (Option (Fin n)) (Fin n) ℕ)}

/-- one round: all increments, the wait, and the sum -/
theorem round_run (hn : 0 < n) (c : ℤ) (j : ℕ) {k : Fin n → List (Stmt Unit (Fin n) ℕ)}
    (hv : Ahead v fun i => (increment i c).map .act ++ .wait () :: ((sumUp j i).map .act ++ k i)) :
    ∃ v', Meets (fun _ => n) v v' ∧ Ahead v' k ∧
      ∀ d a, (∀ x, (dataOf d v).cell x = a) → (∀ x, (dataOf d v').cell x = a + c) ∧
        ∀ t, ((dataOf d v').loc t).out =
          ((dataOf d v).loc t).out ++ if t = some ⟨0, hn⟩ then [(j, some (n * (a + c)))] else [] := by
  obtain ⟨v1, hv1, h1, hdata1⟩ := meets_each (fun _ => n) hv fun i => rfl
  obtain ⟨v2, hv2, h2, hdata2⟩ := meets_wait (fun _ => n) h1 (b := ()) (S := Finset.univ) (by simp) fun i _ => rfl
  obtain ⟨v3, hv3, h3, hdata3⟩ := meets_acts (fun _ => n) h2 (i := ⟨0, hn⟩) (if_pos (Finset.mem_univ _))
  have hk : Function.update (fun i => if i ∈ Finset.univ then (sumUp j i).map .act ++ k i else
      .wait () :: ((sumUp j i).map .act ++ k i)) ⟨0, hn⟩ (k ⟨0, hn⟩) = k := by
    funext i
    by_cases hi : i = ⟨0, hn⟩
    · subst hi
      simp
    · -- the other threads have nothing to do in this part
      have hzero : (i : ℕ) ≠ 0 := fun h => hi (Fin.ext h)
      simp [hi, sumUp, hzero]
  rw [hk] at h3
  refine ⟨v3, (hv1.trans hv2).trans hv3, h3, fun d a hd => ?_⟩
  obtain ⟨hcell, hout⟩ := run_increments c (List.finRange n) (List.nodup_finRange n) (dataOf d v)
  rw [← hdata1 d, ← hdata2 d] at hcell hout
  have hsame : ∀ x, (dataOf d v2).cell x = a + c := fun x => by rw [hcell, hd, if_pos (List.mem_finRange x)]
  obtain ⟨hcell', hout'⟩ := run_sumUp ⟨0, hn⟩ rfl j hsame
  rw [← hdata3 d] at hcell' hout'
  exact ⟨fun x => by rw [hcell', hsame], fun t => by rw [hout', hout]⟩

/-- the abstract run, round after round -/
theorem sum_run (hn : 0 < n) (cs : List ℤ) (j : ℕ) (hv : Ahead v fun i => sumRoutine i cs j) :
    ∃ v', Meets (fun _ => n) v v' ∧ Ahead v' (fun _ => []) ∧
      ∀ d a, (∀ x, (dataOf d v).cell x = a) → (∀ x, (dataOf d v').cell x = a + cs.sum) ∧
        ∀ t, ((dataOf d v').loc t).out = ((dataOf d v).loc t).out ++ if t = some ⟨0, hn⟩ then sums n cs j a else [] := by
  induction cs generalizing j v with
  | nil => exact ⟨v, .refl, hv, fun d a hd => ⟨by simpa using hd, fun t => by simp [sums]⟩⟩
  | cons c cs ih =>
    cases cs with
    | nil =>
      obtain ⟨v1, hv1, h1, hdata⟩ := round_run hn c j (k := fun _ => []) (by simpa [sumRoutine] using hv)
      refine ⟨v1, hv1, h1, fun d a hd => ?_⟩
      obtain ⟨hcell, hout⟩ := hdata d a hd
      exact ⟨by simpa using hcell, by simpa [sums] using hout⟩
    | cons c' cs =>
      obtain ⟨v1, hv1, h1, hdata1⟩ := round_run hn c j hv
      obtain ⟨v2, hv2, h2, hdata2⟩ := meets_wait (fun _ => n) h1 (b := ()) (S := Finset.univ) (by simp)
        fun i _ => rfl
      obtain ⟨v3, hv3, h3, hdata3⟩ := ih (j + 1) (by simpa using h2)
      refine ⟨v3, (hv1.trans hv2).trans hv3, h3, fun d a hd => ?_⟩
      obtain ⟨hcell1, hout1⟩ := hdata1 d a hd
      rw [← hdata2 d] at hcell1 hout1
      obtain ⟨hcell3, hout3⟩ := hdata3 d (a + c) hcell1
      refine ⟨fun x => ?_, fun t => ?_⟩
      · have hsum : (c :: c' :: cs).sum = c + (c' :: cs).sum := List.sum_cons
        rw [hcell3, hsum, add_assoc]
      · rw [hout3, hout1, List.append_assoc]
        split_ifs <;> rfl

/-- **Sums.** For every number of threads, every list of increments and every run without spurious wake-ups: thread 0
prints the sums of the array after each round, and nobody else prints; before the end there is a step; runs are bounded;
and at the end every cell is the sum of the increments. -/
theorem sums_printed (hn : 0 < n) (cs : List ℤ) {s : TestSt n Unit (Fin n) ℕ}
    (hs : ReachIf (testStep n Unit (Fin n) ℕ) NoSpurious (sumTest n cs).start s) :
    Live s ∧ Bounded s ∧
    (∀ t, ((dataOf (zeroed ..) (view s)).loc t).out <+: if t = some ⟨0, hn⟩ then sums n cs 1 0 else []) ∧
    ((∀ t, s.mode t = .exited) →
      (∀ t, ((dataOf (zeroed ..) (view s)).loc t).out = if t = some ⟨0, hn⟩ then sums n cs 1 0 else []) ∧
      ∀ x, (dataOf (zeroed ..) (view s)).cell x = cs.sum) := by
  have hp := sum_regular hn cs
  obtain ⟨v, hv, hahead, hlog⟩ := meets_main hp
  obtain ⟨w, hw, hend, hdata⟩ := sum_run hn cs 1 hahead
  have hstart : dataOf (zeroed ..) v = zeroed .. := by
    rw [dataOf, hlog]
    rfl
  obtain ⟨hcell, hout⟩ := hdata (zeroed ..) 0 fun x => by rw [hstart]; rfl
  rw [hstart] at hout
  obtain ⟨hlive, hbounded, hbegin, hfinal⟩ := race_free hp (sum_raceFree cs) (hv.trans hw) hend.nil (zeroed ..) hs
  refine ⟨hlive, hbounded, fun t => ?_, fun hexit => ⟨fun t => ?_, fun x => ?_⟩⟩
  · have hpre := hbegin t
    rwa [hout] at hpre
  · rw [hfinal hexit, hout]
    rfl
  · rw [hfinal hexit, hcell, zero_add]

theorem sums_printed_example : ∃ s, ReachIf (testStep 2 Unit (Fin 2) ℕ) NoSpurious (sumTest 2 [1]).start s ∧
    (∀ t, s.mode t = .exited) ∧ ((dataOf (zeroed ..) (view s)).loc (some 0)).out = [(1, some 2)] := by
  -- thread 0 is first at the barrier and sleeps until thread 1 has incremented its cell
  let os : List (Op (Option (Fin 2))) :=
    turns none 2 ++ turns (some 0) 7 ++ turns (some 1) 10 ++ [.resume (some 0)] ++ turns (some 0) 6 ++ turns none 3
  have hend : (runIf (testStep 2 Unit (Fin 2) ℕ) (fun s o => NoSpurious s o) (sumTest 2 [1]).start os).any
      (fun s => ∀ t, s.mode t = .exited) = true := by decide +kernel
  obtain ⟨s, hrun, hs⟩ := (Option.any_eq_true ..).1 hend
  have hreach := reachIf_of_runIf (fun _ _ h => of_decide_eq_true h) hrun
  have hexit : ∀ t, s.mode t = .exited := of_decide_eq_true hs
  exact ⟨s, hreach, hexit, ((sums_printed (n := 2) (by decide) [1] hreach).2.2.2 hexit).1 (some 0)⟩

/-- barrier-testcase2.c -/
example : sums 1000 [1, 10] 1 0 = [(1, some 1000), (2, some 11000)] := rfl

end

/-! ## A thread that comes late -/

section
variable {n : ℕ}

inductive Msg where
  /-- "I am going to wait for 5s" -/
  | goingToWait
  /-- "I am calling barrier_wait()" -/
  | calling
  | looksGood
  /-- "How I crossed the barrier before Thread 0 invokes barrier_wait()?" -/
  | crossedEarly
deriving DecidableEq, Repr

/-- `ThreadRoutine` of barrier-testcase3.c; the one cell is `error`. The `exit(1)` behind the message of an early crossing
is left out. -/
def lateRoutine (id : Fin n) : List (Stmt Unit Unit Msg) :=
  if (id : ℕ) = 0 then
    .wait () :: ([.text .goingToWait, .const 0, .store (), .text .calling].map .act ++ .wait () :: [.act (.text .looksGood)])
  else .wait () :: .wait () :: [.load (), .check .crossedEarly].map .act

def lateTest (n : ℕ) : Team (Option (Fin n)) Unit (Entry (Option (Fin n)) Unit Msg) :=
  testTeam (fun _ => n) lateRoutine

/-- `error` is 1 at the start -/
def lateStart (n : ℕ) : Data (Option (Fin n)) Unit Msg := ⟨fun _ => 1, fun _ => ⟨0, 0, []⟩⟩

theorem calls_late (id : Fin n) : calls () (lateRoutine id) = 2 := by
  unfold lateRoutine
  split_ifs <;> rfl

theorem late_regular (hn : 0 < n) : (lateTest n).Regular Prod.fst fun _ j => -(j : ℤ) := by
  refine regular_of (fun _ => hn) (fun b i hi => ?_) (fun b i j _ _ => ?_) fun i => callKeys_unit _
  · have hall : (Finset.univ.filter fun i => 0 < calls b (lateRoutine (n := n) i)) = Finset.univ := by
      refine Finset.filter_true_of_mem fun j _ => ?_
      rw [calls_late]
      decide
    rw [hall, Finset.card_univ, Fintype.card_fin]
  · rw [calls_late, calls_late]

/-- thread 0 writes before its second wait, the others read behind theirs -/
def LatePlace (id : Fin n) (a : Act Unit Msg) (left : Unit → ℕ) : Prop :=
  (a.target ≠ none → (id : ℕ) = 0 ∧ left () = 1) ∧ (a.reads ≠ none → left () = 0)

theorem late_place (id : Fin n) : Each (LatePlace id) (lateRoutine id) := by
  unfold lateRoutine
  split_ifs with hid <;> simp [Each, LatePlace, Act.target, Act.reads, calls, hid]

theorem late_raceFree : (lateTest n).RaceFree := by
  refine raceFree_of fun i j hij a k b k' hk hk' hc => ⟨(), by simp [calls_late], by simp [calls_late], ?_⟩
  have ha : LatePlace i a fun b => calls b k := (late_place i).suffix hk
  have hb : LatePlace j b fun b => calls b k' := (late_place j).suffix hk'
  obtain ⟨x, ⟨hax, hbx | hbx⟩ | ⟨hbx, hax⟩⟩ := hc
  · have hone : calls () k = 1 := (ha.1 (by simp [hax])).2
    have hzero : calls () k' = 0 := hb.2 (by simp [hbx])
    omega
  · exact absurd (Fin.ext ((ha.1 (by simp [hax])).1.trans (hb.1 (by simp [hbx])).1.symm)) hij
  · have hone : calls () k' = 1 := (hb.1 (by simp [hbx])).2
    have hzero : calls () k = 0 := ha.2 (by simp [hax])
    omega

/-- what is left for a thread behind the second wait -/
def lateEnd (id : Fin n) : List (Act Unit Msg) :=
  if (id : ℕ) = 0 then [.text .looksGood] else [.load (), .check .crossedEarly]

/-- with `error` at 0 only thread 0 has something to say -/
theorem run_late (i : Fin n) (d : Data (Option (Fin n)) Unit Msg) (hd : d.cell () = 0) :
    (runActs (some i) d (lateEnd i)).cell () = 0 ∧ ∀ t, ((runActs (some i) d (lateEnd i)).loc t).out =
      (d.loc t).out ++ if t = some i ∧ (i : ℕ) = 0 then [(.looksGood, none)] else [] := by
  unfold lateEnd
  split_ifs with hi
  · refine ⟨by simp [runActs, exec, Act.target, hd], fun t => ?_⟩
    by_cases ht : t = some i <;> simp [runActs, exec, Act.next, ht, hi]
  · refine ⟨by simp [runActs, exec, Act.target, hd], fun t => ?_⟩
    by_cases ht : t = some i <;> simp [runActs, exec, Act.next, Act.target, ht, hi, hd]

theorem run_lates (ts : List (Fin n)) (hn : ts.Nodup) (d : Data (Option (Fin n)) Unit Msg) (hd : d.cell () = 0)
    (t : Option (Fin n)) : ((ts.foldl (fun d i => runActs (some i) d (lateEnd i)) d).loc t).out =
      (d.loc t).out ++ if ∃ i ∈ ts, t = some i ∧ (i : ℕ) = 0 then [(.looksGood, none)] else [] := by
  induction ts generalizing d with
  | nil => simp
  | cons i ts ih =>
    obtain ⟨hi, hts⟩ := List.nodup_cons.1 hn
    obtain ⟨hcell, hout⟩ := run_late i d hd
    rw [List.foldl_cons, ih hts _ hcell, hout, List.append_assoc]
    by_cases ht : t = some i
    · subst ht
      simp [hi]
    · simp [ht]

/-- what thread 0 does between the waits -/
def lateBetween (id : Fin n) : List (Act Unit Msg) :=
  if (id : ℕ) = 0 then [.text .goingToWait, .const 0, .store (), .text .calling] else []

theorem lateRoutine_eq (id : Fin n) : lateRoutine id =
    .wait () :: ((lateBetween id).map .act ++ .wait () :: ((lateEnd id).map .act ++ [])) := by
  simp only [lateRoutine, lateBetween, lateEnd]
  split_ifs <;> rfl

/-- the abstract run: both meetings of all threads, and what they do behind them -/
theorem late_run (hn : 0 < n) {v : Meeting (Option (Fin n)) Unit (Entry (Option (Fin n)) Unit Msg)}
    (hv : Ahead v lateRoutine) :
    ∃ v', Meets (fun _ => n) v v' ∧ Ahead v' (fun _ => []) ∧
      ∀ d t, ((dataOf d v').loc t).out = ((dataOf d v).loc t).out ++
        if t = some ⟨0, hn⟩ then [(.goingToWait, none), (.calling, none), (.looksGood, none)] else [] := by
  obtain ⟨v1, hv1, h1, hdata1⟩ := meets_wait (fun _ => n) hv (b := ()) (S := Finset.univ) (by simp)
    fun i _ => lateRoutine_eq i
  obtain ⟨v2, hv2, h2, hdata2⟩ := meets_acts (fun _ => n) h1 (i := ⟨0, hn⟩) (if_pos (Finset.mem_univ _))
  have hall : ∀ i : Fin n, i ∈ Finset.univ → Function.update (fun i => if i ∈ Finset.univ then
      (lateBetween i).map .act ++ .wait () :: ((lateEnd i).map .act ++ []) else lateRoutine i) ⟨0, hn⟩
      (.wait () :: ((lateEnd ⟨0, hn⟩).map .act ++ [])) i = .wait () :: ((lateEnd i).map .act ++ []) := by
    intro i _
    by_cases hi : i = ⟨0, hn⟩
    · subst hi
      exact Function.update_self ..
    · have hzero : (i : ℕ) ≠ 0 := fun h => hi (Fin.ext h)
      simp [hi, lateBetween, hzero]
  obtain ⟨v3, hv3, h3, hdata3⟩ := meets_wait (fun _ => n) h2 (b := ()) (S := Finset.univ) (by simp) hall
  obtain ⟨v4, hv4, h4, hdata4⟩ := meets_each (fun _ => n) h3 (k := fun _ => []) fun i => if_pos (Finset.mem_univ i)
  refine ⟨v4, ((hv1.trans hv2).trans hv3).trans hv4, h4, fun d t => ?_⟩
  have hbetween : dataOf d v3 = runActs (some ⟨0, hn⟩) (dataOf d v)
      [.text .goingToWait, .const 0, .store (), .text .calling] := by
    rw [hdata3, hdata2, hdata1]
    rfl
  have hcell : (dataOf d v3).cell () = 0 := by
    rw [hbetween]
    simp [runActs, exec, Act.target, Act.next]
  rw [hdata4, run_lates _ (List.nodup_finRange n) _ hcell, hbetween]
  by_cases ht : t = some ⟨0, hn⟩
  · subst ht
    simp [runActs, exec, Act.next]
  · have hno : ¬ ∃ i ∈ List.finRange n, t = some i ∧ (i : ℕ) = 0 := by
      rintro ⟨i, -, rfl, hi⟩
      exact ht (congrArg some (Fin.ext hi))
    rw [if_neg hno, if_neg ht]
    simp [runActs, exec, ht]

/-- **Nobody crosses early.** For every number of threads and every run without spurious wake-ups: no thread complains,
thread 0 prints its three messages, before the end there is a step, and runs are bounded. -/
theorem nobody_early (hn : 0 < n) {s : TestSt n Unit Unit Msg}
    (hs : ReachIf (testStep n Unit Unit Msg) NoSpurious (lateTest n).start s) :
    Live s ∧ Bounded s ∧
    (∀ t, ((dataOf (lateStart n) (view s)).loc t).out <+:
      if t = some ⟨0, hn⟩ then [(.goingToWait, none), (.calling, none), (.looksGood, none)] else []) ∧
    ((∀ t, s.mode t = .exited) → ∀ t, ((dataOf (lateStart n) (view s)).loc t).out =
      if t = some ⟨0, hn⟩ then [(.goingToWait, none), (.calling, none), (.looksGood, none)] else []) := by
  have hp := late_regular hn
  obtain ⟨v, hv, hahead, hlog⟩ := meets_main hp
  obtain ⟨w, hw, hend, hout⟩ := late_run hn hahead
  have hstart : dataOf (lateStart n) v = lateStart n := by
    rw [dataOf, hlog]
    rfl
  have hout := hout (lateStart n)
  rw [hstart] at hout
  obtain ⟨hlive, hbounded, hbegin, hfinal⟩ := race_free hp late_raceFree (hv.trans hw) hend.nil (lateStart n) hs
  refine ⟨hlive, hbounded, fun t => ?_, fun hexit t => ?_⟩
  · have hpre := hbegin t
    rwa [hout] at hpre
  · rw [hfinal hexit, hout]
    rfl

theorem nobody_early_example : ∃ s, ReachIf (testStep 2 Unit Unit Msg) NoSpurious (lateTest 2).start s ∧
    (∀ t, s.mode t = .exited) ∧ ((dataOf (lateStart 2) (view s)).loc (some 1)).out = [] := by
  -- thread 1 is at the second barrier before thread 0 has written `error`
  let os : List (Op (Option (Fin 2))) :=
    turns none 2 ++ turns (some 0) 4 ++ turns (some 1) 10 ++ [.resume (some 0)] ++ turns (some 0) 13 ++
      [.resume (some 1)] ++ turns (some 1) 4 ++ turns none 3
  have hend : (runIf (testStep 2 Unit Unit Msg) (fun s o => NoSpurious s o) (lateTest 2).start os).any
      (fun s => ∀ t, s.mode t = .exited) = true := by decide +kernel
  obtain ⟨s, hrun, hs⟩ := (Option.any_eq_true ..).1 hend
  have hreach := reachIf_of_runIf (fun _ _ h => of_decide_eq_true h) hrun
  have hexit : ∀ t, s.mode t = .exited := of_decide_eq_true hs
  exact ⟨s, hreach, hexit, (nobody_early (n := 2) (by decide) hreach).2.2.2 hexit (some 1)⟩

end

/-! ## Four threads in pairs -/

section
variable {m : ℕ}

inductive Pair where
  | barrier1
  | barrier2
  | barrier3
deriving DecidableEq, Repr

inductive Cell where
  | array (i : ℕ)
  | sum (id : Fin 4)
deriving DecidableEq, Repr

/-- the loop over a quarter of `m` elements -/
def quarter (m : ℕ) (id : Fin 4) : List (Act Cell Unit) :=
  (List.range m).flatMap fun j => [.load (.sum id), .plus (.array (id * m + j)), .store (.sum id)]

/-- `sum[a] = sum[a] + sum[b]` -/
def addSum (a b : Fin 4) : List (Act Cell Unit) := [.load (.sum a), .plus (.sum b), .store (.sum a)]

/-- `printf("\nSum: %ld \n", sum[0])` -/
def report : List (Act Cell Unit) := [.load (.sum 0), .printTemp ()]

/-- `ThreadRoutine` of barrier-testcase4.c after its loop -/
def pairUp : Fin 4 → List (Stmt Pair Cell Unit)
  | 0 => .wait .barrier1 :: ((addSum 0 1).map .act ++ .wait .barrier3 ::
      (addSum 0 2 ++ report).map .act)
  | 1 => [.wait .barrier1]
  | 2 => .wait .barrier2 :: ((addSum 2 3).map .act ++ [.wait .barrier3])
  | 3 => [.wait .barrier2]

def pairRoutine (m : ℕ) (id : Fin 4) : List (Stmt Pair Cell Unit) := (quarter m id).map .act ++ pairUp id

def pairTest (m : ℕ) : Team (Option (Fin 4)) Pair (Entry (Option (Fin 4)) Cell Unit) :=
  testTeam (fun _ => 2) (pairRoutine m)

/-- `main` has filled the array -/
def filled (a : ℕ → ℤ) : Data (Option (Fin 4)) Cell Unit where
  cell
    | .array i => a i
    | .sum _ => 0
  loc _ := ⟨0, 0, []⟩

theorem calls_pair (b : Pair) (id : Fin 4) : calls b (pairRoutine m id) = calls b (pairUp id) := calls_acts ..

/-- the barrier behind which the sum of a thread is read by another -/
def handOver : Fin 4 → Pair
  | 0 => .barrier3
  | 1 => .barrier1
  | 2 => .barrier3
  | 3 => .barrier2

/-- a thread writes its own sum, the threads other than 0 before they hand it over, and reads the sums of others behind -/
def PairPlace (id : Fin 4) (a : Act Cell Unit) (left : Pair → ℕ) : Prop :=
  (∀ x, a.target = some x → x = .sum id ∧ (id ≠ 0 → left (handOver id) = 1)) ∧
    ∀ i, a.reads = some (.sum i) → i = id ∨
      i ≠ 0 ∧ left (handOver i) = 0 ∧ 0 < calls (handOver i) (pairUp id)

theorem handOver_once : ∀ id : Fin 4, id ≠ 0 → calls (handOver id) (pairUp id) = 1 := by decide

theorem pair_place (id : Fin 4) : Each (PairPlace id) (pairRoutine m id) := by
  have hquarter : ∀ a ∈ quarter m id, PairPlace id a fun b => calls b (pairUp id) := by
    intro a ha
    simp only [quarter, List.mem_flatMap, List.mem_cons, List.not_mem_nil, or_false] at ha
    obtain ⟨j, -, rfl | rfl | rfl⟩ := ha
    · simp [PairPlace, Act.target, Act.reads, eq_comm]
    · simp [PairPlace, Act.target, Act.reads]
    · exact ⟨fun x hx => ⟨(Option.some.inj hx).symm, handOver_once id⟩, by simp [Act.reads]⟩
  refine each_acts.2 ⟨hquarter, ?_⟩
  fin_cases id <;> simp [pairUp, addSum, report, Each, PairPlace, Act.target, Act.reads, calls, handOver]

/-- the third barrier comes last -/
def pairRank : Pair → ℕ → ℤ
  | .barrier1, _ | .barrier2, _ => 0
  | .barrier3, _ => 1

theorem pair_regular (m : ℕ) : (pairTest m).Regular Prod.fst pairRank := by
  refine regular_of (fun _ => by decide) (fun b i _ => ?_) (fun b i j hi hj => ?_) fun i => ?_
  · simp only [calls_pair]
    cases b <;> decide
  · rw [calls_pair] at hi hj ⊢
    rw [calls_pair]
    revert i j
    cases b <;> decide
  · rw [pairRoutine, callKeys_acts]
    fin_cases i <;> simp [pairUp, report, callKeys, pairRank]

/-- the sum that one thread reads and another writes is handed over at a barrier -/
theorem PairPlace.separate {i j : Fin 4} (hij : i ≠ j) {a b : Act Cell Unit} {l l' : Pair → ℕ} (ha : PairPlace i a l)
    (hb : PairPlace j b l') {x : Cell} (hx : a.target = some x) (hy : b.reads = some x ∨ b.target = some x) :
    ∃ c, 0 < calls c (pairUp i) ∧ 0 < calls c (pairUp j) ∧ l c ≠ l' c := by
  obtain ⟨rfl, hleft⟩ := ha.1 x hx
  rcases hy with hy | hy
  · rcases hb.2 i hy with h | ⟨hi, hzero, huse⟩
    · exact absurd h hij
    · refine ⟨handOver i, by rw [handOver_once i hi]; decide, huse, ?_⟩
      rw [hleft hi, hzero]
      decide
  · exact absurd (Cell.sum.inj (hb.1 _ hy).1) hij

theorem pair_raceFree (m : ℕ) : (pairTest m).RaceFree := by
  refine raceFree_of fun i j hij a k b k' hk hk' hc => ?_
  have ha : PairPlace i a fun b => calls b k := (pair_place i).suffix hk
  have hb : PairPlace j b fun b => calls b k' := (pair_place j).suffix hk'
  simp only [calls_pair]
  obtain ⟨x, ⟨hax, hbx⟩ | ⟨hbx, hax⟩⟩ := hc
  · exact ha.separate hij hb hax hbx
  · obtain ⟨c, hj, hi, hne⟩ := hb.separate hij.symm ha hbx (.inl hax)
    exact ⟨c, hi, hj, hne.symm⟩

/-! ### The outcome -/

/-- `t` adds `y` to its sum `x` -/
theorem run_add (x : Fin 4) (y : Cell) (t : Option (Fin 4)) (d : Data (Option (Fin 4)) Cell Unit) :
    (runActs t d [.load (.sum x), .plus y, .store (.sum x)]).cell =
        Function.update d.cell (.sum x) (d.cell (.sum x) + d.cell y) ∧
      ∀ u, ((runActs t d [.load (.sum x), .plus y, .store (.sum x)]).loc u).out = (d.loc u).out := by
  refine ⟨by simp [runActs, exec, Act.target, Act.next], fun u => ?_⟩
  by_cases hu : u = t <;> simp [runActs, exec, Act.next, hu]

theorem run_quarter (m : ℕ) (id : Fin 4) (js : List ℕ) (d : Data (Option (Fin 4)) Cell Unit) :
    let d' := runActs (some id) d
      (js.flatMap fun j => [.load (.sum id), .plus (.array (id * m + j)), .store (.sum id)])
    d'.cell = Function.update d.cell (.sum id) (d.cell (.sum id) + (js.map fun j => d.cell (.array (id * m + j))).sum) ∧
      ∀ u, (d'.loc u).out = (d.loc u).out := by
  induction js generalizing d with
  | nil => simp [runActs]
  | cons j js ih =>
    obtain ⟨hcell, hout⟩ := run_add id (.array (id * m + j)) (some id) d
    obtain ⟨hcells, houts⟩ := ih (runActs (some id) d [.load (.sum id), .plus (.array (id * m + j)), .store (.sum id)])
    simp only [List.flatMap_cons, runActs_append]
    refine ⟨?_, fun u => by rw [houts, hout]⟩
    rw [hcells, hcell]
    simp [add_assoc]

/-- the sum of a quarter -/
def quarterSum (m : ℕ) (a : ℕ → ℤ) (id : Fin 4) : ℤ := ((List.range m).map fun j => a (id * m + j)).sum

theorem quarterSum_eq (m : ℕ) (a : ℕ → ℤ) (id : Fin 4) :
    quarterSum m a id = ∑ j ∈ Finset.range m, a (id * m + j) := (Multiset.sum_coe _).symm

/-- the quarters make up the array -/
theorem quarterSum_total (m : ℕ) (a : ℕ → ℤ) :
    quarterSum m a 0 + quarterSum m a 1 + (quarterSum m a 2 + quarterSum m a 3) = ∑ i ∈ Finset.range (4 * m), a i := by
  have hsplit : 4 * m = m + m + m + m := by omega
  have h1 : ∀ j, a (1 * m + j) = a (m + j) := fun j => by rw [one_mul]
  have h2 : ∀ j, a (2 * m + j) = a (m + m + j) := fun j => by rw [two_mul]
  have h3 : ∀ j, a (3 * m + j) = a (m + m + m + j) := fun j => by rw [show 3 * m = m + m + m by omega]
  simp only [quarterSum_eq]
  rw [hsplit, Finset.sum_range_add, Finset.sum_range_add, Finset.sum_range_add]
  simp only [Fin.val_zero, Fin.val_one, Fin.val_two, zero_mul, zero_add, h1, h2, show ((3 : Fin 4) : ℕ) = 3 from rfl, h3]
  ring

theorem run_quarters (a : ℕ → ℤ) (ts : List (Fin 4)) (hn : ts.Nodup) (d : Data (Option (Fin 4)) Cell Unit)
    (hd : ∀ i, d.cell (.array i) = a i) :
    let d' := ts.foldl (fun d i => runActs (some i) d (quarter m i)) d
    (∀ i, d'.cell (.sum i) = d.cell (.sum i) + if i ∈ ts then quarterSum m a i else 0) ∧
      ∀ u, (d'.loc u).out = (d.loc u).out := by
  induction ts generalizing d with
  | nil => simp
  | cons j ts ih =>
    obtain ⟨hj, hts⟩ := List.nodup_cons.1 hn
    obtain ⟨hcell, hout⟩ := run_quarter m j (List.range m) d
    obtain ⟨hcells, houts⟩ := ih hts (runActs (some j) d (quarter m j)) fun i => by
      rw [quarter, hcell]
      simpa using hd i
    refine ⟨fun i => ?_, fun u => by rw [List.foldl_cons, houts, quarter, hout]⟩
    rw [List.foldl_cons, hcells, quarter, hcell]
    by_cases hij : i = j
    · subst hij
      simp [hj, hd, quarterSum]
    · simp [hij]

/-- the abstract run: all quarters, both pairs, and the last sum -/
theorem pair_run {v : Meeting (Option (Fin 4)) Pair (Entry (Option (Fin 4)) Cell Unit)}
    (hv : Ahead v (pairRoutine m)) :
    ∃ v', Meets (fun _ => 2) v v' ∧ Ahead v' (fun _ => []) ∧
      ∀ d, dataOf d v' = runActs (some 0) (runActs (some 2) (runActs (some 0)
        ((List.finRange 4).foldl (fun d i => runActs (some i) d (quarter m i)) (dataOf d v)) (addSum 0 1)) (addSum 2 3))
        (addSum 0 2 ++ report) := by
  obtain ⟨v1, hv1, h1, hdata1⟩ := meets_each (fun _ => 2) hv fun i => rfl
  -- threads 0 and 1 meet, then threads 2 and 3
  obtain ⟨v2, hv2, h2, hdata2⟩ := meets_wait (fun _ => 2) h1 (b := .barrier1) (S := {0, 1}) rfl
    (k := fun i => (pairUp i).tail) (by decide)
  obtain ⟨v3, hv3, h3, hdata3⟩ := meets_wait (fun _ => 2) h2 (b := .barrier2) (S := {2, 3}) rfl
    (k := fun i => (pairUp i).tail) (by decide)
  -- threads 0 and 2 add the sums of the others to theirs and meet
  obtain ⟨v4, hv4, h4, hdata4⟩ := meets_acts (fun _ => 2) h3 (i := 0) (l := addSum 0 1)
    (k := .wait .barrier3 :: (addSum 0 2 ++ report).map .act) rfl
  obtain ⟨v5, hv5, h5, hdata5⟩ := meets_acts (fun _ => 2) h4 (i := 2) (l := addSum 2 3)
    (k := [.wait .barrier3]) rfl
  obtain ⟨v6, hv6, h6, hdata6⟩ := meets_wait (fun _ => 2) h5 (b := .barrier3) (S := {0, 2}) rfl
    (k := fun i => if i = 0 then (addSum 0 2 ++ report).map .act else []) (by decide)
  obtain ⟨v7, hv7, h7, hdata7⟩ := meets_acts (fun _ => 2) h6 (i := 0) (l := addSum 0 2 ++ report) (k := []) rfl
  refine ⟨v7, (((((hv1.trans hv2).trans hv3).trans hv4).trans hv5).trans hv6).trans hv7, ?_, fun d => ?_⟩
  · convert h7 using 1
    decide
  · rw [hdata7, hdata6, hdata5, hdata4, hdata3, hdata2, hdata1]

theorem run_report (d : Data (Option (Fin 4)) Cell Unit) (t : Option (Fin 4)) :
    ((runActs (some 0) d report).loc t).out =
      (d.loc t).out ++ if t = some 0 then [((), some (d.cell (.sum 0)))] else [] := by
  by_cases ht : t = some 0 <;> simp [runActs, report, exec, Act.target, Act.next, ht]

/-- what the abstract run prints -/
theorem pair_outcome (m : ℕ) (a : ℕ → ℤ) (t : Option (Fin 4)) :
    ((runActs (some 0) (runActs (some 2) (runActs (some 0)
        ((List.finRange 4).foldl (fun d i => runActs (some i) d (quarter m i)) (filled a)) (addSum 0 1)) (addSum 2 3))
        (addSum 0 2 ++ report)).loc t).out =
      if t = some 0 then [((), some (∑ i ∈ Finset.range (4 * m), a i))] else [] := by
  obtain ⟨hsum, hout⟩ := run_quarters (m := m) a (List.finRange 4) (List.nodup_finRange 4) (filled a) fun i => rfl
  generalize (List.finRange 4).foldl (fun d i => runActs (some i) d (quarter m i)) (filled a) = d1 at hsum hout ⊢
  have hquarter : ∀ i, d1.cell (.sum i) = quarterSum m a i := by
    intro i
    rw [hsum i, if_pos (List.mem_finRange i)]
    exact zero_add _
  obtain ⟨hcell2, hout2⟩ := run_add 0 (.sum 1) (some 0) d1
  obtain ⟨hcell3, hout3⟩ := run_add 2 (.sum 3) (some 2) (runActs (some 0) d1 (addSum 0 1))
  obtain ⟨hcell4, hout4⟩ := run_add 0 (.sum 2) (some 0) (runActs (some 2) (runActs (some 0) d1 (addSum 0 1)) (addSum 2 3))
  have htotal : (runActs (some 0) (runActs (some 2) (runActs (some 0) d1 (addSum 0 1)) (addSum 2 3)) (addSum 0 2)).cell
      (.sum 0) = ∑ i ∈ Finset.range (4 * m), a i := by
    simp only [addSum] at hcell3 hcell4 ⊢
    rw [hcell4, hcell3, hcell2, ← quarterSum_total]
    simp [hquarter]
  have hsilent : ((runActs (some 0) (runActs (some 2) (runActs (some 0) d1 (addSum 0 1)) (addSum 2 3))
      (addSum 0 2)).loc t).out = [] := by
    simp only [addSum] at hout3 hout4 ⊢
    rw [hout4, hout3, hout2, hout]
    rfl
  rw [runActs_append, run_report, hsilent, htotal, List.nil_append]

/-- **Sum in pairs.** For every array of four quarters and every run without spurious wake-ups: thread 0 prints the sum of
the array and nobody else prints; before the end there is a step, and runs are bounded. -/
theorem pairs_printed (m : ℕ) (a : ℕ → ℤ) {s : TestSt 4 Pair Cell Unit}
    (hs : ReachIf (testStep 4 Pair Cell Unit) NoSpurious (pairTest m).start s) :
    Live s ∧ Bounded s ∧
    (∀ t, ((dataOf (filled a) (view s)).loc t).out <+:
      if t = some 0 then [((), some (∑ i ∈ Finset.range (4 * m), a i))] else []) ∧
    ((∀ t, s.mode t = .exited) → ∀ t, ((dataOf (filled a) (view s)).loc t).out =
      if t = some 0 then [((), some (∑ i ∈ Finset.range (4 * m), a i))] else []) := by
  have hp := pair_regular m
  obtain ⟨v, hv, hahead, hlog⟩ := meets_main hp
  obtain ⟨w, hw, hend, hdata⟩ := pair_run hahead
  have hstart : dataOf (filled a) v = filled a := by
    rw [dataOf, hlog]
    rfl
  have hout : ∀ t, ((dataOf (filled a) w).loc t).out =
      if t = some 0 then [((), some (∑ i ∈ Finset.range (4 * m), a i))] else [] := by
    intro t
    rw [hdata, hstart]
    exact pair_outcome m a t
  obtain ⟨hlive, hbounded, hbegin, hfinal⟩ := race_free hp (pair_raceFree m) (hv.trans hw) hend.nil (filled a) hs
  refine ⟨hlive, hbounded, fun t => ?_, fun hexit t => ?_⟩
  · rw [← hout]
    exact hbegin t
  · rw [hfinal hexit, hout]

theorem pairs_printed_example : ∃ s, ReachIf (testStep 4 Pair Cell Unit) NoSpurious (pairTest 1).start s ∧
    (∀ t, s.mode t = .exited) ∧ ((dataOf (filled fun _ => 2) (view s)).loc (some 0)).out = [((), some 8)] := by
  -- threads 0 and 2 sleep at their first barriers, and thread 2 also at the third
  let os : List (Op (Option (Fin 4))) :=
    turns none 4 ++ turns (some 0) 7 ++ turns (some 2) 7 ++ turns (some 3) 10 ++ turns (some 1) 10 ++
      [.resume (some 2)] ++ turns (some 2) 8 ++ [.resume (some 0)] ++ turns (some 0) 10 ++ [.resume (some 2)] ++
      turns (some 2) 2 ++ turns (some 0) 6 ++ turns none 5
  have hend : (runIf (testStep 4 Pair Cell Unit) (fun s o => NoSpurious s o) (pairTest 1).start os).any
      (fun s => ∀ t, s.mode t = .exited) = true := by decide +kernel
  obtain ⟨s, hrun, hs⟩ := (Option.any_eq_true ..).1 hend
  have hreach := reachIf_of_runIf (fun _ _ h => of_decide_eq_true h) hrun
  have hexit : ∀ t, s.mode t = .exited := of_decide_eq_true hs
  exact ⟨s, hreach, hexit, (pairs_printed 1 (fun _ => 2) hreach).2.2.2 hexit (some 0)⟩

end

/-! ## Any two runs -/

section
variable {T B X O : Type} [DecidableEq T] [DecidableEq B] [DecidableEq X] [Fintype T]

end

end DecsLabs.Barrier
