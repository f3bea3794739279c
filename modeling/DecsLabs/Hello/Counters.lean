/-
The two programs of the first part of assignment 2 as fork-join programs: threads.c (`n` threads increment one counter)
and nlocks.c (as many threads as cells, each of which increments its own cell while `main` increments all of them).

- `threads_prints`: for every `n` and in every interleaving threads.c prints `n`, or nothing for `n = 0`.
- `nlocks_prints`: for every number of cells and of rounds, nlocks.c prints twice the number of rounds for each cell.

The sources have `n` up to the largest `int`, and 10 cells with 1000 rounds; twice the number of rounds has to be an `int`.
-/
import DecsLabs.Hello.Workers

namespace DecsLabs.Hello

open DecsLabs.Transition DecsLabs.Pthread

/-! ## threads.c -/

/-- `count_incrementor`: the one cell is `counter` -/
def countIncrementor : List Unit := [()]

/-- threads.c for `n` threads; for none it returns at once, and the mutex is initialised statically -/
def threads (n : ℕ) : Program (Fin n) Unit where
  workers := List.finRange n
  nodup := List.nodup_finRange n
  complete := List.mem_finRange
  initialised := []
  cells _ := countIncrementor
  own := []
  destroyed := if n = 0 then [] else [()]
  prints := if n = 0 then [] else [()]

theorem threads_total (n : ℕ) : (threads n).total () = n := by
  rw [total_eq]
  simp [threads, countIncrementor]

/-- **threads.c.** In every run: the counter and the writes to it that are still to do make up `n`; what is printed is
`n`, or nothing if `n = 0` or the end is not reached; before the end there is a step; runs are bounded; and the mutex is
destroyed when it is free and the threads have exited. -/
theorem threads_prints (n : ℕ) {s : WorkerSt (Option (Fin n)) Unit}
    (hs : Reach (step (code (Option (Fin n)) Unit)) (start (threads n)) s) :
    s.mem.data () + ∑ t, ((s.pc t).toWrite () : ℤ) = n ∧
    s.mem.printed <+: (if n = 0 then [] else [(n : ℤ)]) ∧
    ((∃ t, s.mode t ≠ .exited) → ∃ t, Enabled (code (Option (Fin n)) Unit) s t) ∧
    (∃ N, ∀ os s', run (step (code (Option (Fin n)) Unit)) s os = some s' → os.length ≤ N) ∧
    ((∀ t, s.mode t = .exited) → s.mem.printed = if n = 0 then [] else [(n : ℤ)]) ∧
    ∀ k, s.pc none = .ready (.mutexDestroy () :: k) → s.owner () = none ∧ ∀ w, s.mode (some w) = .exited := by
  have hprints : (threads n).prints.map (fun x => ((threads n).total x : ℤ)) = if n = 0 then [] else [(n : ℤ)] := by
    have htotal : (fun x => ((threads n).total x : ℤ)) = fun _ => (n : ℤ) := funext fun _ => congrArg _ (threads_total n)
    rw [htotal, threads]
    split_ifs <;> rfl
  have hrun := printed_totals hs
  rw [hprints] at hrun
  obtain ⟨hbegin, hlive, hbounded, hend⟩ := hrun
  refine ⟨?_, hbegin, hlive, hbounded, hend, fun k hpc => ?_⟩
  · rw [incremented hs (), threads_total]
  · have hw := (mutex_unused hs).2 hpc
    exact ⟨unlocked hs hpc (fun w => by simp [hw w]) (), hw⟩

/-- `m` steps of `t` -/
def steps {T : Type} (t : T) (m : ℕ) : List (Op T) := List.replicate m (.exec t)

theorem threads_prints_example : ∃ s, Reach (step (code (Option (Fin 2)) Unit)) (start (threads 2)) s ∧
    (∀ t, s.mode t = .exited) ∧ s.mem.printed = [2] := by
  -- the second thread has the mutex first
  let os : List (Op (Option (Fin 2))) :=
    steps none 2 ++ steps (some 1) 4 ++ steps (some 0) 5 ++ steps (some 1) 1 ++ steps none 5
  have hend : (run (step (code (Option (Fin 2)) Unit)) (start (threads 2)) os).any
      (fun s => ∀ t, s.mode t = .exited) = true := by decide +kernel
  obtain ⟨s, hrun, hs⟩ := (Option.any_eq_true ..).1 hend
  have hexit : ∀ t, s.mode t = .exited := of_decide_eq_true hs
  exact ⟨s, reach_of_run hrun, hexit, (threads_prints 2 (reach_of_run hrun)).2.2.2.2.1 hexit⟩

/-! ## nlocks.c -/

/-- `array_data_incrementor` for `r` rounds -/
def arrayDataIncrementor {N : ℕ} (r : ℕ) (threadId : Fin N) : List (Fin N) := List.replicate r threadId

/-- nlocks.c for `N` cells and `r` rounds; the source has ten and a thousand -/
def nlocks (N r : ℕ) : Program (Fin N) (Fin N) where
  workers := List.finRange N
  nodup := List.nodup_finRange N
  complete := List.mem_finRange
  initialised := List.finRange N
  cells := arrayDataIncrementor r
  own := (List.replicate r (List.finRange N)).flatten
  destroyed := List.finRange N
  prints := List.finRange N

theorem nlocks_total (N r : ℕ) (j : Fin N) : (nlocks N r).total j = 2 * r := by
  have hown : (List.replicate r (List.finRange N)).flatten.count j = r := by
    have hone : (List.finRange N).count j = 1 := List.count_eq_one_of_mem (List.nodup_finRange N) (List.mem_finRange j)
    rw [List.count_flatten, List.map_replicate, List.sum_replicate, hone, smul_eq_mul, mul_one]
  have hworkers : ∑ w : Fin N, (arrayDataIncrementor r w).count j = r := by
    simp [arrayDataIncrementor, List.count_replicate]
  calc (nlocks N r).total j = (List.replicate r (List.finRange N)).flatten.count j +
        ∑ w, (arrayDataIncrementor r w).count j := total_eq _ j
    _ = 2 * r := by rw [hown, hworkers, two_mul]

/-- **nlocks.c.** In every run: each cell and the writes to it that are still to do make up twice the number of rounds;
this is what is printed for each cell, as far as the run has come; before the end there is a step; runs are bounded;
and the mutexes are initialised before the first thread is created and destroyed, all free, after the last has exited. -/
theorem nlocks_prints (N r : ℕ) {s : WorkerSt (Option (Fin N)) (Fin N)}
    (hs : Reach (step (code (Option (Fin N)) (Fin N))) (start (nlocks N r)) s) :
    (∀ j, s.mem.data j + ∑ t, ((s.pc t).toWrite j : ℤ) = 2 * r) ∧
    s.mem.printed <+: List.replicate N (2 * r : ℤ) ∧
    ((∃ t, s.mode t ≠ .exited) → ∃ t, Enabled (code (Option (Fin N)) (Fin N)) s t) ∧
    (∃ B, ∀ os s', run (step (code (Option (Fin N)) (Fin N))) s os = some s' → os.length ≤ B) ∧
    ((∀ t, s.mode t = .exited) → s.mem.printed = List.replicate N (2 * r : ℤ)) ∧
    ∀ j k, (s.pc none = .ready (.mutexInit j :: k) → ∀ w, s.mode (some w) = .unborn) ∧
      (s.pc none = .ready (.mutexDestroy j :: k) → (∀ i, s.owner i = none) ∧ ∀ w, s.mode (some w) = .exited) := by
  have hprints : (nlocks N r).prints.map (fun j => ((nlocks N r).total j : ℤ)) = List.replicate N (2 * r : ℤ) := by
    have htotal : (fun j => ((nlocks N r).total j : ℤ)) = fun _ => (2 * r : ℤ) := by
      funext j
      rw [nlocks_total]
      push_cast
      rfl
    rw [htotal, List.map_const', nlocks, List.length_finRange]
  have hrun := printed_totals hs
  rw [hprints] at hrun
  obtain ⟨hbegin, hlive, hbounded, hend⟩ := hrun
  refine ⟨fun j => ?_, hbegin, hlive, hbounded, hend, fun j k => ⟨(mutex_unused hs).1, fun hpc => ?_⟩⟩
  · rw [incremented hs j, nlocks_total]
    push_cast
    rfl
  · have hw := (mutex_unused hs).2 hpc
    exact ⟨unlocked hs hpc fun w => by simp [hw w], hw⟩

theorem nlocks_prints_example : ∃ s, Reach (step (code (Option (Fin 2)) (Fin 2))) (start (nlocks 2 1)) s ∧
    (∀ t, s.mode t = .exited) ∧ s.mem.printed = [2, 2] := by
  -- `main` increments the first cell before its thread and the second one after it
  let os : List (Op (Option (Fin 2))) :=
    steps none 8 ++ steps (some 0) 5 ++ steps (some 1) 5 ++ steps none 11
  have hend : (run (step (code (Option (Fin 2)) (Fin 2))) (start (nlocks 2 1)) os).any
      (fun s => ∀ t, s.mode t = .exited) = true := by decide +kernel
  obtain ⟨s, hrun, hs⟩ := (Option.any_eq_true ..).1 hend
  have hexit : ∀ t, s.mode t = .exited := of_decide_eq_true hs
  exact ⟨s, reach_of_run hrun, hexit, (nlocks_prints 2 1 (reach_of_run hrun)).2.2.2.2.1 hexit⟩

end DecsLabs.Hello
