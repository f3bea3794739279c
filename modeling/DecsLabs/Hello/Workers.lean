/-
The programs of the first part of assignment 2 (threads.c, nlocks.c): `main` creates workers that increment shared
cells, each cell under a mutex of its own, may increment cells itself, joins the workers and prints the cells.

A thread is a script of calls, its loops unrolled. `data[x] += 1` under the mutex of `x` is four steps: lock, read,
write, unlock; the value read stays in the thread between the two accesses. `pthread_mutex_init` and
`pthread_mutex_destroy` change nothing that the other calls see; what matters is when they are called. The cells are
integers without a bound: they stay at most as large as the number of increments in the scripts, and that number is taken to
be an `int`.

- `incremented`: in every interleaving a cell is the number of writes to it that are done. None is lost.
- `live`, `prints`: no state before the end is without a step; what is printed are the numbers of increments in the
  scripts, in the order in which `main` prints them.
- `destroy_unused`: a mutex that is destroyed is free, and no other thread is left.
-/
import DecsLabs.Core.Outline

namespace DecsLabs.Hello

open DecsLabs.Transition DecsLabs.Pthread

variable {T W X : Type}

/-! ## Model -/

inductive Cmd (T X : Type) where
  | mutexInit (x : X)
  | create (t : T)
  /-- `pthread_mutex_lock(&m_lock[x]); data[x] += 1; pthread_mutex_unlock(&m_lock[x]);` -/
  | increment (x : X)
  | join (t : T)
  | mutexDestroy (x : X)
  /-- `printf("%d\n", data[x])` -/
  | print (x : X)
deriving DecidableEq, Repr

inductive Point (T X : Type) where
  | ready (k : List (Cmd T X))
  /-- the mutex of `x` is locked -/
  | load (x : X) (k : List (Cmd T X))
  /-- `v` has been read from the cell `x` -/
  | store (x : X) (v : ℤ) (k : List (Cmd T X))
  | unlock (x : X) (k : List (Cmd T X))
deriving DecidableEq, Repr

structure Mem (X : Type) where
  data : X → ℤ
  printed : List ℤ

def workerCode [DecidableEq X] : Point T X → Instr T X Empty (Mem X) (Point T X)
  | .ready [] => .exit
  | .ready (.mutexInit _ :: k) | .ready (.mutexDestroy _ :: k) => .act fun m => (m, .ready k)
  | .ready (.create t :: k) => .create t (.ready k)
  | .ready (.join t :: k) => .join t (.ready k)
  | .ready (.increment x :: k) => .lock x (.load x k)
  | .ready (.print x :: k) => .act fun m => ({ m with printed := m.printed ++ [m.data x] }, .ready k)
  | .load x k => .act fun m => (m, .store x (m.data x) k)
  | .store x v k => .act fun m => ({ m with data := Function.update m.data x (v + 1) }, .unlock x k)
  | .unlock x k => .unlock x (.ready k)

def code (T X : Type) [DecidableEq X] : Code T X Empty (Mem X) (fun _ : T => Point T X) := fun _ => workerCode

/-- a program: the cells that each worker and `main` increment, and what `main` does before and after -/
structure Program (W X : Type) where
  workers : List W
  nodup : workers.Nodup
  complete : ∀ w, w ∈ workers
  initialised : List X
  cells : W → List X
  own : List X
  destroyed : List X
  prints : List X

/-- `main` is `none` -/
def Program.script (p : Program W X) : Option W → List (Cmd (Option W) X)
  | some w => (p.cells w).map .increment
  | none => p.initialised.map .mutexInit ++ p.workers.map (fun w => .create (some w)) ++ p.own.map .increment ++
      p.workers.map (fun w => .join (some w)) ++ p.destroyed.map .mutexDestroy ++ p.prints.map .print

abbrev WorkerSt (T X : Type) : Type := St T X Empty (Mem X) (fun _ : T => Point T X)

/-- the cells are global variables; `main` runs -/
def start (p : Program W X) : WorkerSt (Option W) X where
  mem := ⟨fun _ => 0, []⟩
  pc t := .ready (p.script t)
  mode t := if t.isNone then .run else .unborn
  owner _ := none

/-! ## Points -/

/-- the commands after the one that a thread is in -/
def Point.rest : Point T X → List (Cmd T X)
  | .ready k | .load _ k | .store _ _ k | .unlock _ k => k

def held : Point T X → List X
  | .ready _ => []
  | .load x _ | .store x _ _ | .unlock x _ => [x]

/-- the writes to the cell `x` that a thread has still to do -/
def Point.toWrite [DecidableEq T] [DecidableEq X] (x : X) : Point T X → ℕ
  | .ready k | .unlock _ k => k.count (.increment x)
  | .load y k | .store y _ k => k.count (.increment x) + if y = x then 1 else 0

/-- the instructions that a thread is away from the end of its script -/
def Point.work : Point T X → ℕ
  | .ready k => 4 * k.length
  | .load _ k => 4 * k.length + 3
  | .store _ _ k => 4 * k.length + 2
  | .unlock _ k => 4 * k.length + 1

/-- the order in which the commands of a script come -/
def Cmd.phase : Cmd T X → ℕ
  | .mutexInit _ => 0
  | .create _ => 1
  | .increment _ => 2
  | .join _ => 3
  | .mutexDestroy _ => 4
  | .print _ => 5

/-- the rest of a script, and the value that a thread has read while it holds the mutex -/
def Holds (p : Program W X) (t : Option W) (q : Point (Option W) X) (m : Mem X) : Prop :=
  q.rest <:+ p.script t ∧ ∀ x v k, q = .store x v k → m.data x = v

variable [DecidableEq X]

theorem disciplined : Disciplined (code T X) (fun _ => 0) (fun _ => held) := by
  intro t q
  simp only [code]
  cases q with
  | ready k =>
    cases k with
    | nil => simp [workerCode, Fits, held]
    | cons c k => cases c <;> simp [workerCode, Fits, held]
  | load x k => simp [workerCode, Fits, held]
  | store x v k => simp [workerCode, Fits, held]
  | unlock x k => simp [workerCode, Fits, held]

theorem descends : Descends (code T X) (fun _ => Point.work) := by
  intro t q m q' h
  simp only [code] at h
  cases q with
  | ready k =>
    cases k with
    | nil => simp [workerCode, Instr.next] at h
    | cons c k =>
      cases c <;> simp [workerCode, Instr.next] at h <;> subst h <;> simp only [Point.work, List.length_cons] <;> omega
  | load x k | store x v k | unlock x k =>
    simp [workerCode, Instr.next] at h
    subst h
    simp [Point.work]

/-- the instruction of a thread carries on in its script, and writes only to the cell whose mutex it holds -/
theorem outline (p : Program W X) : Outline (code (Option W) X) (fun _ => held) (Holds p) where
  step := by
    intro t q m q' h hnext
    obtain ⟨hrest, hread⟩ := h
    simp only [code] at hnext ⊢
    cases q with
    | ready k =>
      cases k with
      | nil => simp [workerCode, Instr.next] at hnext
      | cons c k =>
        have hk : k <:+ p.script t := (List.suffix_cons c k).trans hrest
        cases c <;> simp [workerCode, Instr.next] at hnext <;> subst hnext <;> exact ⟨hk, by simp⟩
    | load x k | store x v k | unlock x k =>
      simp [workerCode, Instr.next] at hnext
      subst hnext
      exact ⟨hrest, by simp [workerCode, Instr.effect]⟩
  wait := by
    intro t q c l q' hc
    cases c
  stable := by
    intro t u q r m htu hdis h
    refine ⟨h.1, ?_⟩
    rintro x v k rfl
    have hx : x ∉ held r := hdis x (by simp [held])
    have hv := h.2 x v k rfl
    rw [← hv]
    simp only [code]
    cases r with
    | ready k' =>
      cases k' with
      | nil => rfl
      | cons c k' => cases c <;> rfl
    | load y k' | unlock y k' => rfl
    | store y v' k' =>
      have hxy : x ≠ y := by simpa [held] using hx
      simp [workerCode, Instr.effect, hxy]

variable [DecidableEq W]

/-- a write puts into the cell what the thread has one less to do -/
theorem tally (p : Program W X) (x : X) :
    Tally (code (Option W) X) (Holds p) (fun m => m.data x) fun _ q => -(q.toWrite x : ℤ) := by
  intro t q m q' h hnext
  simp only [code] at hnext ⊢
  cases q with
  | ready k =>
    cases k with
    | nil => simp [workerCode, Instr.next] at hnext
    | cons c k =>
      cases c <;> simp [workerCode, Instr.next] at hnext <;> subst hnext <;>
        simp [workerCode, Instr.effect, Point.toWrite, List.count_cons]
  | load y k | unlock y k =>
    simp [workerCode, Instr.next] at hnext
    subst hnext
    simp [workerCode, Instr.effect, Point.toWrite]
  | store y v k =>
    simp [workerCode, Instr.next] at hnext
    subst hnext
    have hv := h.2 y v k rfl
    by_cases hxy : y = x
    · subst hxy
      simp [workerCode, Instr.effect, Point.toWrite, hv]
    · simp [workerCode, Instr.effect, Point.toWrite, hxy, Ne.symm hxy]

/-! ## Order of a script -/

omit [DecidableEq X] [DecidableEq W] in
theorem script_sorted (p : Program W X) (t : Option W) :
    (p.script t).Pairwise fun c d => c.phase ≤ d.phase := by
  have hall : ∀ (n : ℕ) {α : Type} (l : List α), l.Pairwise fun _ _ => n ≤ n := fun n α l =>
    List.pairwise_of_forall fun _ _ => le_rfl
  cases t with
  | some w => simpa [Program.script, List.pairwise_map, Cmd.phase] using hall 0 (p.cells w)
  | none =>
    simp only [Program.script, List.pairwise_append, List.pairwise_map, List.mem_append, List.mem_map, Cmd.phase, hall,
      true_and]
    grind [Cmd.phase]

omit [DecidableEq X] [DecidableEq W] in
theorem Holds.sorted {p : Program W X} {t : Option W} {q : Point (Option W) X} {m : Mem X} (h : Holds p t q m) :
    q.rest.Pairwise fun c d => c.phase ≤ d.phase := (script_sorted p t).sublist h.1.sublist

omit [DecidableEq X] [DecidableEq W] in
/-- a worker does nothing but increments -/
theorem worker_phase {p : Program W X} {w : W} {c : Cmd (Option W) X} (hc : c ∈ p.script (some w)) : c.phase = 2 := by
  obtain ⟨x, -, rfl⟩ := List.mem_map.1 hc
  rfl

omit [DecidableEq X] [DecidableEq W] in
theorem create_mem {p : Program W X} {t u : Option W} (h : .create u ∈ p.script t) : t = none ∧ ∃ w, u = some w := by
  cases t with
  | some w => exact absurd (worker_phase h) (by simp [Cmd.phase])
  | none =>
    simp [Program.script] at h
    obtain ⟨w, -, rfl⟩ := h
    exact ⟨rfl, w, rfl⟩

omit [DecidableEq X] [DecidableEq W] in
theorem join_mem {p : Program W X} {t u : Option W} (h : .join u ∈ p.script t) : t = none ∧ ∃ w, u = some w := by
  cases t with
  | some w => exact absurd (worker_phase h) (by simp [Cmd.phase])
  | none =>
    simp [Program.script] at h
    obtain ⟨w, -, rfl⟩ := h
    exact ⟨rfl, w, rfl⟩

theorem count_map_zero {α : Type} (f : α → Cmd (Option W) X) {b : Cmd (Option W) X} (hf : ∀ a, f a ≠ b) (l : List α) :
    (l.map f).count b = 0 := by
  rw [List.count_eq_zero]
  intro hmem
  obtain ⟨a, -, ha⟩ := List.mem_map.1 hmem
  exact hf a ha

theorem create_once (p : Program W X) (u : Option W) : (p.script none).count (.create u) ≤ 1 := by
  have hone : (p.workers.map fun w => (.create (some w) : Cmd (Option W) X)).Nodup :=
    p.nodup.map fun v w h => Option.some.inj (Cmd.create.inj h)
  have hle := List.nodup_iff_count_le_one.1 hone (.create u)
  simp only [Program.script, List.count_append]
  rw [count_map_zero .mutexInit (by simp), count_map_zero .increment (by simp),
    count_map_zero (fun w => .join (some w)) (by simp), count_map_zero .mutexDestroy (by simp),
    count_map_zero .print (by simp)]
  omega

/-! ## Creating and joining -/

/-- the workers that `main` has still to create -/
def todo (q : Point (Option W) X) : Set (Option W) := {t | t ≠ none ∧ .create t ∈ q.rest}

/-- the workers for which `main` has no `pthread_join` left -/
def joined (q : Point (Option W) X) : Set (Option W) := {t | t ≠ none ∧ .join t ∉ q.rest}

omit [DecidableEq W] in
/-- where a thread creates another -/
theorem create_at {t u : T} {q q' : Point T X} (h : code T X t q = .create u q') :
    ∃ k, q = .ready (.create u :: k) ∧ q' = .ready k := by
  cases q with
  | ready k => rcases k with _ | ⟨c | c | c | c | c | c, k⟩ <;> simp_all [code, workerCode]
  | load x k | store x v k | unlock x k => simp [code, workerCode] at h

omit [DecidableEq W] in
theorem join_at {t u : T} {q q' : Point T X} (h : code T X t q = .join u q') :
    ∃ k, q = .ready (.join u :: k) ∧ q' = .ready k := by
  cases q with
  | ready k => rcases k with _ | ⟨c | c | c | c | c | c, k⟩ <;> simp_all [code, workerCode]
  | load x k | store x v k | unlock x k => simp [code, workerCode] at h

omit [DecidableEq W] in
theorem exit_at {t : T} {q : Point T X} (h : code T X t q = .exit) : q = .ready [] := by
  cases q with
  | ready k => rcases k with _ | ⟨c | c | c | c | c | c, k⟩ <;> simp_all [code, workerCode]
  | load x k | store x v k | unlock x k => simp [code, workerCode] at h

omit [DecidableEq W] in
/-- an instruction passes the first command of the rest, or none -/
theorem rest_next {t : T} {q q' : Point T X} {m : Mem X} (h : (code T X t q).next m = some q') :
    q'.rest = q.rest ∨ ∃ c, q = .ready (c :: q'.rest) := by
  simp only [code] at h
  cases q with
  | ready k =>
    cases k with
    | nil => simp [workerCode, Instr.next] at h
    | cons c k => cases c <;> simp [workerCode, Instr.next] at h <;> subst h <;> simp [Point.rest]
  | load x k | store x v k | unlock x k =>
    simp [workerCode, Instr.next] at h
    subst h
    exact .inl rfl

theorem forkJoin (p : Program W X) : ForkJoin (code (Option W) X) (Holds p) none todo joined where
  others := by
    intro t q m ht h u q'
    refine ⟨fun hc => ?_, fun hc => ?_⟩
    · obtain ⟨k, rfl, -⟩ := create_at hc
      exact ht (create_mem (h.1.subset (List.mem_cons_self ..))).1
    · obtain ⟨k, rfl, -⟩ := join_at hc
      exact ht (join_mem (h.1.subset (List.mem_cons_self ..))).1
  noWait := by
    intro t q c
    cases c
  root_born := by simp [todo]
  create := by
    intro q m u q' h hc
    obtain ⟨k, rfl, rfl⟩ := create_at hc
    obtain ⟨-, w, rfl⟩ := create_mem (h.1.subset (List.mem_cons_self ..))
    have hnot : Cmd.create (some w) ∉ k := by
      have hle := (h.1.sublist.count_le (.create (some w))).trans (create_once p (some w))
      simp only [Point.rest, List.count_cons_self] at hle
      exact List.count_eq_zero.1 (by omega)
    refine ⟨by simp [todo, Point.rest], Set.ext fun t => ?_⟩
    by_cases ht : t = some w
    · subst ht
      simp [todo, Point.rest, hnot]
    · simp [todo, Point.rest, ht]
  keep := by
    intro q m q' hnext hno
    rcases rest_next hnext with hsame | ⟨c, hc⟩
    · simp [todo, hsame]
    · have hne : ∀ u, c ≠ .create u := by
        rintro u rfl
        exact hno u _ (by rw [hc]; rfl)
      ext t
      have hrest : q.rest = c :: q'.rest := by rw [hc]; rfl
      simp [todo, hrest, Ne.symm (hne t)]
  join := by
    intro q m u q' h hc
    obtain ⟨k, rfl, rfl⟩ := join_at hc
    obtain ⟨-, w, rfl⟩ := join_mem (h.1.subset (List.mem_cons_self ..))
    refine ⟨by simp, fun hu => ?_⟩
    -- a `create` does not come after a `join`
    have hle := (List.pairwise_cons.1 h.sorted).1 (.create (some w)) (by simpa [todo, Point.rest] using hu)
    simp [Cmd.phase] at hle
  joined := by
    intro q m q' u hnext hu
    rcases rest_next hnext with hsame | ⟨c, hc⟩
    · exact .inl (by simpa [joined, hsame] using hu)
    · by_cases hcu : c = .join u
      · subst hcu
        exact .inr ⟨_, by rw [hc]; rfl⟩
      · have hrest : q.rest = c :: q'.rest := by rw [hc]; rfl
        exact .inl (by simpa [joined, hrest, Ne.symm hcu] using hu)
  exit := by
    intro q hc
    simp [todo, exit_at hc, Point.rest]

/-! ## Whole runs -/

section
variable [Fintype W] {p : Program W X} {s : WorkerSt (Option W) X}

omit [Fintype W] [DecidableEq W] in
theorem start_owned (p : Program W X) : Owned (code (Option W) X) (fun _ => held) (start p) where
  owner x t := by simp [start, held]
  unborn t _ := by simp [start, held]
  atWait := by
    refine ⟨fun t c => ?_, fun t h => ?_⟩
    · cases c
    · cases t <;> simp [start] at h

omit [Fintype W] [DecidableEq W] [DecidableEq X] in
theorem start_not_exited (p : Program W X) (t : Option W) : (start p).mode t ≠ .exited := by
  cases t <;> simp [start]

omit [DecidableEq X] [DecidableEq W] [Fintype W] in
theorem start_forked (p : Program W X) : Forked none todo joined (start p) where
  unborn t := by
    cases t with
    | none => simp [start, todo]
    | some w => simp [start, todo, Point.rest, Program.script, p.complete w]
  exited t ht := by
    obtain ⟨hne, hnot⟩ := ht
    cases t with
    | none => exact absurd rfl hne
    | some w => exact absurd (by simp [start, Point.rest, Program.script, p.complete w]) hnot

theorem owned (hs : Reach (step (code (Option W) X)) (start p) s) : Owned (code (Option W) X) (fun _ => held) s :=
  disciplined.owned (start_owned p) hs

theorem exited_end (hs : Reach (step (code (Option W) X)) (start p) s) {t : Option W} (ht : s.mode t = .exited) :
    s.pc t = .ready [] := exit_at (exited_at (start_not_exited p) hs t ht)

theorem holds (hs : Reach (step (code (Option W) X)) (start p) s) (t : Option W) : Holds p t (s.pc t) s.mem :=
  (outline p).reach disciplined (start_owned p) (start_not_exited p) (fun t => ⟨List.suffix_rfl, by simp [start]⟩) hs t

theorem forked (hs : Reach (step (code (Option W) X)) (start p) s) : Forked none todo joined s :=
  (forkJoin p).reach (fun _ h => holds h) (start_forked p) hs

/-- the number of increments of the cell `x` in the scripts -/
def Program.total (p : Program W X) (x : X) : ℕ := ∑ t, (p.script t).count (.increment x)

omit [Fintype W] in
theorem count_increment (p : Program W X) (t : Option W) (x : X) :
    (p.script t).count (.increment x) = (t.elim p.own p.cells).count x := by
  have hinj : Function.Injective (Cmd.increment : X → Cmd (Option W) X) := fun _ _ h => Cmd.increment.inj h
  cases t with
  | some w => exact List.count_map_of_injective (p.cells w) Cmd.increment hinj x
  | none =>
    simp only [Program.script, List.count_append]
    rw [count_map_zero .mutexInit (by simp), count_map_zero (fun w => .create (some w)) (by simp),
      count_map_zero (fun w => .join (some w)) (by simp), count_map_zero .mutexDestroy (by simp),
      count_map_zero .print (by simp), List.count_map_of_injective p.own Cmd.increment hinj x]
    simp

/-- the increments of `main` and those of the workers -/
theorem total_eq (p : Program W X) (x : X) : p.total x = p.own.count x + ∑ w, (p.cells w).count x := by
  simp [Program.total, count_increment, Fintype.sum_option]

/-- **No lost update.** The writes that are done and those still to do make up the total. -/
theorem incremented (hs : Reach (step (code (Option W) X)) (start p) s) (x : X) :
    s.mem.data x + ∑ t, ((s.pc t).toWrite x : ℤ) = p.total x := by
  have hsum := (tally p x).reach (fun _ h => holds h) hs
  simp only [Finset.sum_neg_distrib, sub_neg_eq_add] at hsum
  rw [hsum]
  simp [start, Point.toWrite, Program.total]

/-- behind its joins `main` is alone -/
theorem alone (hs : Reach (step (code (Option W) X)) (start p) s) {c : Cmd (Option W) X} {k : List (Cmd (Option W) X)}
    (hpc : s.pc none = .ready (c :: k)) (hc : 4 ≤ c.phase) (w : W) : s.mode (some w) = .exited := by
  have hsorted := (holds hs none).sorted
  rw [hpc] at hsorted
  apply (forked hs).exited
  rw [hpc]
  refine ⟨by simp, fun hmem => ?_⟩
  rcases List.mem_cons.1 hmem with rfl | hmem
  · simp [Cmd.phase] at hc
  · have hle := (List.pairwise_cons.1 hsorted).1 _ hmem
    exact absurd (hc.trans hle) (by simp [Cmd.phase])

/-- the value that `main` prints -/
theorem printed_value (hs : Reach (step (code (Option W) X)) (start p) s) {x : X} {k : List (Cmd (Option W) X)}
    (hpc : s.pc none = .ready (.print x :: k)) : s.mem.data x = p.total x := by
  have hnone : ∀ t, (s.pc t).toWrite x = 0 := by
    intro t
    cases t with
    | some w =>
      rw [exited_end hs (alone hs hpc (by simp [Cmd.phase]) w)]
      rfl
    | none =>
      have hsorted := (holds hs none).sorted
      rw [hpc] at hsorted ⊢
      apply List.count_eq_zero.2
      intro hmem
      rcases List.mem_cons.1 hmem with h | hmem
      · cases h
      · have hle := (List.pairwise_cons.1 hsorted).1 _ hmem
        simp [Cmd.phase] at hle
  simpa [hnone] using incremented hs x

/-- the cells that are printed in the rest of a script -/
def toPrint (k : List (Cmd T X)) : List X :=
  k.filterMap fun c =>
    match c with
    | .print x => some x
    | _ => none

omit [DecidableEq W] [Fintype W] in
/-- what an instruction prints -/
theorem next_printed {t : T} {q q' : Point T X} {m : Mem X} (h : (code T X t q).next m = some q') :
    ((code T X t q).effect m).printed = m.printed ∧ toPrint q'.rest = toPrint q.rest ∨
      ∃ x, q = .ready (.print x :: q'.rest) ∧ ((code T X t q).effect m).printed = m.printed ++ [m.data x] := by
  simp only [code] at h ⊢
  cases q with
  | ready k =>
    cases k with
    | nil => simp [workerCode, Instr.next] at h
    | cons c k =>
      cases c <;> simp [workerCode, Instr.next] at h <;> subst h <;> simp [workerCode, Instr.effect, toPrint, Point.rest]
  | load x k | store x v k | unlock x k =>
    simp [workerCode, Instr.next] at h
    subst h
    simp [workerCode, Instr.effect, toPrint, Point.rest]

/-- what has been printed and what is still to be printed -/
theorem printed_split (hs : Reach (step (code (Option W) X)) (start p) s) :
    s.mem.printed ++ (toPrint (s.pc none).rest).map (fun x => (p.total x : ℤ)) =
      p.prints.map fun x => (p.total x : ℤ) := by
  induction hs with
  | init =>
    simp [start, toPrint, Point.rest, Program.script, List.filterMap_append, List.filterMap_map]
  | @step s s' o hr _ hst ih =>
    rcases (step_move hst).advance with ⟨hpc, hmem⟩ | ⟨q, hnext, hpc, hmem, -⟩
    · rw [hpc, hmem]
      exact ih
    · rw [hmem]
      generalize o.thread = t at hnext hpc ⊢
      cases t with
      | none =>
        rw [hpc, Function.update_self]
        rcases next_printed hnext with ⟨hsame, hrest⟩ | ⟨x, hat, hout⟩
        · rw [hsame, hrest]
          exact ih
        · have hval := printed_value hr hat
          rw [hout, hval, ← ih, hat]
          simp [toPrint, Point.rest]
      | some w =>
        have hkeep : ((code (Option W) X (some w) (s.pc (some w))).effect s.mem).printed = s.mem.printed := by
          rcases next_printed hnext with ⟨hsame, -⟩ | ⟨x, hat, -⟩
          · exact hsame
          · -- a worker has nothing to print
            have hmem := (holds hr (some w)).1
            rw [hat] at hmem
            exact absurd (worker_phase (hmem.subset (List.mem_cons_self ..))) (by simp [Cmd.phase])
        rw [hkeep, hpc, Function.update_of_ne (by simp)]
        exact ih

/-- while a mutex is initialised no worker has been created, and when it is destroyed all have exited; no mutex is
locked -/
theorem mutex_unused (hs : Reach (step (code (Option W) X)) (start p) s) {x : X} {k : List (Cmd (Option W) X)} :
    (s.pc none = .ready (.mutexInit x :: k) → ∀ w, s.mode (some w) = .unborn) ∧
    (s.pc none = .ready (.mutexDestroy x :: k) → ∀ w, s.mode (some w) = .exited) := by
  refine ⟨fun hpc w => ?_, fun hpc w => alone hs hpc (by simp [Cmd.phase]) w⟩
  rw [(forked hs).unborn, hpc]
  refine ⟨by simp, ?_⟩
  obtain ⟨pre, hpre⟩ := (holds hs none).1
  rw [hpc] at hpre
  have hmem : Cmd.create (some w) ∈ p.script none := by simp [Program.script, p.complete w]
  have hsorted := script_sorted p none
  rw [← hpre] at hmem hsorted
  rcases List.mem_append.1 hmem with hbefore | hafter
  · have hle := (List.pairwise_append.1 hsorted).2.2 _ hbefore _ (List.mem_cons_self ..)
    simp [Cmd.phase] at hle
  · exact hafter

/-- when no worker is running and `main` is between two calls, no mutex is locked -/
theorem unlocked (hs : Reach (step (code (Option W) X)) (start p) s) {k : List (Cmd (Option W) X)}
    (hpc : s.pc none = .ready k) (hw : ∀ w, s.mode (some w) ≠ .run) (x : X) : s.owner x = none := by
  by_contra hne
  obtain ⟨t, ht⟩ := Option.ne_none_iff_exists'.1 hne
  obtain ⟨hr, hx⟩ := ((owned hs).owner x t).1 ht
  cases t with
  | none => simp [hpc, held] at hx
  | some w => exact hw w hr

/-- **Every run.** What has been printed is the beginning of the list of totals. A state in which a thread has not
exited has a step; the runs from it are bounded; and when all threads have exited, all totals have been printed. -/
theorem printed_totals (hs : Reach (step (code (Option W) X)) (start p) s) :
    s.mem.printed <+: p.prints.map (fun x => (p.total x : ℤ)) ∧
    ((∃ t, s.mode t ≠ .exited) → ∃ t, Enabled (code (Option W) X) s t) ∧
    (∃ N, ∀ os s', run (step (code (Option W) X)) s os = some s' → os.length ≤ N) ∧
    ((∀ t, s.mode t = .exited) → s.mem.printed = p.prints.map fun x => (p.total x : ℤ)) := by
  refine ⟨⟨_, printed_split hs⟩, ?_, ⟨_, fun os s' h => descends.run_bounded h⟩, ?_⟩
  · intro ht
    by_contra hno
    obtain ⟨t, ht⟩ := ht
    exact ht ((forkJoin p).live disciplined (fun _ => Nat.zero_lt_one) (owned hs) (fun t => exited_at (start_not_exited p) hs t)
      (holds hs) (forked hs) (not_exists.1 hno) t)
  · intro hend
    have hsplit := printed_split hs
    rw [exited_end hs (hend none)] at hsplit
    simpa [toPrint, Point.rest] using hsplit

end

end DecsLabs.Hello
