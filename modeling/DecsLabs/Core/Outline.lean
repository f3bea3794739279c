/-
Proof rules for programs whose threads share memory under mutexes: assertions at the points of the threads, sums over
the threads, bounded runs, and threads that one thread creates and joins. Nothing here is about a particular program.

- `Outline code held holds`: `holds t p` is an assertion about the memory for the point `p` of the thread `t`. The
  instructions of `t` carry it from point to point, and those of another thread keep it unless both hold a mutex in
  common. `Outline.reach`: then it is so at the point of every thread, in every reachable state.
- `Tally code holds total share`: an instruction changes a `total` of the memory by as much as the `share` of its thread.
  `Tally.reach`: then the total is that of the beginning and what the threads have added to their shares.
- `Descends code left`: no instruction leads back. `Descends.run_bounded`: then every run ends.
- `ForkJoin code holds root todo joined`: `root` creates every thread once, joins it afterwards, and the others do neither.
  `ForkJoin.live`: if no instruction waits, a state in which no thread can take a step is one in which all have exited.
-/
import DecsLabs.Core.Discipline

namespace DecsLabs.Pthread

open DecsLabs.Transition

variable {T L C S : Type} {P : T → Type} {code : Code T L C S P} {held : ∀ t, P t → List L} {rank : L → ℕ}

/-! ## What a step does to the points and the memory -/

section
variable [DecidableEq T] [DecidableEq L] [DecidableEq C] {s s' : St T L C S P} {o : Op T}

/-- a step leaves the points and the memory as they are, or it executes the instruction of its thread -/
theorem Move.advance (h : Move code s o s') : s'.pc = s.pc ∧ s'.mem = s.mem ∨
    ∃ q, (code o.thread (s.pc o.thread)).next s.mem = some q ∧ s'.pc = Function.update s.pc o.thread q ∧
      s'.mem = (code o.thread (s.pc o.thread)).effect s.mem ∧ (s.mode o.thread = .run ∨ s'.mem = s.mem) := by
  cases h with
  | wait | exit | spurious => exact .inl ⟨rfl, rfl⟩
  | resume hr hc =>
    right
    rw [Op.thread, hc]
    exact ⟨_, rfl, rfl, rfl, .inr rfl⟩
  | act hr hc | lock hr hc | unlock hr hc | signal hr hc | broadcast hr hc | create hr hc | join hr hc | wake hr hc =>
    right
    rw [Op.thread, hc]
    exact ⟨_, rfl, rfl, rfl, .inl hr⟩

variable [Fintype T]

/-- a thread that has left stands at an `exit` -/
theorem exited_at {ok : St T L C S P → Op T → Prop} {s0 : St T L C S P} (h0 : ∀ t, s0.mode t ≠ .exited)
    (hs : ReachIf (step code) ok s0 s) (t : T) (ht : s.mode t = .exited) : code t (s.pc t) = .exit := by
  revert t
  apply hs.invariant (I := fun s => ∀ t, s.mode t = .exited → code t (s.pc t) = .exit)
  · intro t ht
    exact absurd ht (h0 t)
  intro s o s' _ ih _ hst t ht
  obtain ⟨hpc, hcase⟩ := (step_move hst).exited ht
  rw [hpc]
  rcases hcase with hm | hc
  · exact ih t hm
  · exact hc

end

/-! ## Assertions -/

/-- the memory changes for `t` only by its own instructions while it holds the mutexes of its point -/
structure Outline (code : Code T L C S P) (held : ∀ t, P t → List L) (holds : ∀ t, P t → S → Prop) : Prop where
  step : ∀ {t p m q}, holds t p m → (code t p).next m = some q → holds t q ((code t p).effect m)
  /-- nothing is asserted at a wait, where the mutex is given away -/
  wait : ∀ {t p c l q}, code t p = .wait c l q → ∀ m, holds t p m
  stable : ∀ {t u p q m}, t ≠ u → (∀ l ∈ held t p, l ∉ held u q) → holds t p m → holds t p ((code u q).effect m)

section
variable [DecidableEq T] [DecidableEq L] [DecidableEq C] [Fintype T] {holds : ∀ t, P t → S → Prop}
  {ok : St T L C S P → Op T → Prop} {s0 s : St T L C S P}

omit [DecidableEq T] [DecidableEq L] [DecidableEq C] [Fintype T] in
/-- two threads, of which one runs, stand at points with no mutex in common, unless the other is at a wait -/
theorem Owned.disjoint (hd : Disciplined code rank held) (h : Owned code held s)
    (hx : ∀ t, s.mode t = .exited → code t (s.pc t) = .exit) {t u : T} (htu : t ≠ u) (hu : s.mode u = .run) :
    (∀ l ∈ held t (s.pc t), l ∉ held u (s.pc u)) ∨ ∃ c l q, code t (s.pc t) = .wait c l q := by
  cases ht : s.mode t with
  | waiting c =>
    obtain ⟨l, q, hc⟩ := h.atWait.waiting t c ht
    exact .inr ⟨c, l, q, hc⟩
  | woken => exact .inr (h.atWait.woken t ht)
  | unborn => exact .inl (by simp [h.unborn t ht])
  | exited =>
    have hnone : held t (s.pc t) = [] := hd.fits (hx t ht)
    exact .inl (by simp [hnone])
  | run => exact .inl fun l hlt hlu => htu (h.unique ht hlt hu hlu)

omit [Fintype T] in
theorem Outline.move (ho : Outline code held holds) (hd : Disciplined code rank held) (h : Owned code held s)
    (hx : ∀ t, s.mode t = .exited → code t (s.pc t) = .exit) (hold : ∀ t, holds t (s.pc t) s.mem)
    {o : Op T} {s' : St T L C S P} (hm : Move code s o s') (t : T) : holds t (s'.pc t) s'.mem := by
  rcases hm.advance with ⟨hpc, hmem⟩ | ⟨q, hnext, hpc, hmem, hrun⟩
  · rw [hpc, hmem]
    exact hold t
  · by_cases ht : t = o.thread
    · subst ht
      rw [hpc, hmem, Function.update_self]
      exact ho.step (hold _) hnext
    · rw [hpc, Function.update_of_ne ht]
      rcases hrun with hr | hsame
      · rcases h.disjoint hd hx ht hr with hdis | ⟨c, l, q', hc⟩
        · rw [hmem]
          exact ho.stable ht hdis (hold t)
        · exact ho.wait hc _
      · rw [hsame]
        exact hold t

/-- **Assertions.** What an outline asserts at the point of a thread is so in every reachable state. -/
theorem Outline.reach (ho : Outline code held holds) (hd : Disciplined code rank held) (h0 : Owned code held s0)
    (hx0 : ∀ t, s0.mode t ≠ .exited) (hold : ∀ t, holds t (s0.pc t) s0.mem) (hs : ReachIf (Pthread.step code) ok s0 s) (t : T) :
    holds t (s.pc t) s.mem := by
  revert t
  apply hs.invariant (I := fun s => ∀ t, holds t (s.pc t) s.mem) hold
  intro s o s' hr ih _ hst
  exact ho.move hd (hd.owned h0 hr) (exited_at hx0 hr) ih (step_move hst)

end

/-! ## Sums over the threads -/

/-- an instruction changes the total of the memory by what it changes in the share of its thread -/
def Tally {A : Type} [AddCommGroup A] (code : Code T L C S P) (holds : ∀ t, P t → S → Prop) (total : S → A)
    (share : ∀ t, P t → A) : Prop :=
  ∀ t p m q, holds t p m → (code t p).next m = some q → total ((code t p).effect m) - total m = share t q - share t p

section
variable [DecidableEq T] [Fintype T]

/-- the sum when one thread has moved -/
theorem sum_update_sub {A : Type} [AddCommGroup A] (share : ∀ t, P t → A) (pc : ∀ t, P t) (t : T) (q : P t) :
    ∑ u, share u (Function.update pc t q u) - ∑ u, share u (pc u) = share t q - share t (pc t) := by
  rw [← Finset.sum_sub_distrib, Finset.sum_eq_single t]
  · rw [Function.update_self]
  · intro u _ hut
    rw [Function.update_of_ne hut, sub_self]
  · exact fun h => absurd (Finset.mem_univ t) h

variable [DecidableEq L] [DecidableEq C] {holds : ∀ t, P t → S → Prop} {A : Type} [AddCommGroup A] {total : S → A}
  {share : ∀ t, P t → A} {s s' : St T L C S P} {o : Op T}

/-- what is in the memory beside the shares stays the same -/
theorem Tally.move (h : Tally code holds total share) (hold : ∀ t, holds t (s.pc t) s.mem) (hm : Move code s o s') :
    total s'.mem - ∑ t, share t (s'.pc t) = total s.mem - ∑ t, share t (s.pc t) := by
  rcases hm.advance with ⟨hpc, hmem⟩ | ⟨q, hnext, hpc, hmem, -⟩
  · rw [hpc, hmem]
  · have hone := h _ _ _ _ (hold o.thread) hnext
    have hsum := sum_update_sub share s.pc o.thread q
    rw [hpc, hmem, sub_eq_sub_iff_sub_eq_sub, hone, hsum]

/-- **Totals.** What the memory has gained is what the threads have added to their shares. -/
theorem Tally.reach {ok : St T L C S P → Op T → Prop} {s0 : St T L C S P} (h : Tally code holds total share)
    (hold : ∀ s, ReachIf (step code) ok s0 s → ∀ t, holds t (s.pc t) s.mem) (hs : ReachIf (step code) ok s0 s) :
    total s.mem - ∑ t, share t (s.pc t) = total s0.mem - ∑ t, share t (s0.pc t) := by
  induction hs with
  | init => rfl
  | step hr _ hst ih => exact (h.move (hold _ hr) (step_move hst)).trans ih

end

/-! ## Bounded runs -/

/-- every instruction brings its thread nearer to the end -/
def Descends (code : Code T L C S P) (left : ∀ t, P t → ℕ) : Prop :=
  ∀ t p m q, (code t p).next m = some q → left t q < left t p

/-- a thread that sleeps has still to be woken, and one that runs may yet sleep or exit -/
def Mode.left : Mode C → ℕ
  | .unborn | .run => 3
  | .waiting _ => 2
  | .woken => 1
  | .exited => 0

def stepsLeft (left : ∀ t, P t → ℕ) (s : St T L C S P) (t : T) : ℕ := 3 * left t (s.pc t) + (s.mode t).left

section
variable [DecidableEq T] [DecidableEq L] [DecidableEq C] [Fintype T] {left : ∀ t, P t → ℕ} {s s' : St T L C S P} {o : Op T}

omit [DecidableEq C] [Fintype T] in
theorem Mode.left_update (f : T → Mode C) (t u : T) (m : Mode C) (h : m.left ≤ (f t).left) :
    (Function.update f t m u).left ≤ (f u).left := by
  by_cases hut : u = t
  · subst hut
    simpa using h
  · rw [Function.update_of_ne hut]

omit [DecidableEq L] [DecidableEq C] in
/-- a step that advances its thread and brings no mode further from the end -/
theorem stepsLeft_goto (hd : Descends code left) {t : T} {p : P t} {mode : T → Mode C} {owner : L → Option T} {m : S}
    (hp : (code t (s.pc t)).next s.mem = some p) (hm : ∀ u, (mode u).left ≤ (s.mode u).left + if u = t then 2 else 0) :
    ∑ u, stepsLeft left { s.goto t p with mem := m, mode := mode, owner := owner } u < ∑ u, stepsLeft left s u := by
  have hlt := hd t _ _ _ hp
  refine Finset.sum_lt_sum (fun u _ => ?_) ⟨t, Finset.mem_univ t, ?_⟩
  · have hmu := hm u
    by_cases hut : u = t
    · subst hut
      simp only [stepsLeft, goto_pc_self, if_true] at hmu ⊢
      omega
    · simp only [stepsLeft, goto_pc_of_ne s p hut, hut, if_false] at hmu ⊢
      omega
  · have hmt := hm t
    simp only [stepsLeft, goto_pc_self, if_true] at hmt ⊢
    omega

omit [DecidableEq L] [DecidableEq C] in
/-- a step that changes only the mode of one thread -/
theorem stepsLeft_mode {t : T} {m : Mode C} {owner : L → Option T} (hm : m.left < (s.mode t).left) :
    ∑ u, stepsLeft left { s with mode := Function.update s.mode t m, owner := owner } u < ∑ u, stepsLeft left s u := by
  refine Finset.sum_lt_sum (fun u _ => ?_) ⟨t, Finset.mem_univ t, ?_⟩
  · exact Nat.add_le_add_left (Mode.left_update s.mode t u m hm.le) _
  · simpa [stepsLeft] using hm

theorem Descends.move (hd : Descends code left) (h : Move code s o s') :
    ∑ t, stepsLeft left s' t < ∑ t, stepsLeft left s t := by
  have hnext : ∀ {t : T} {p : P t} {i : Instr T L C S (P t)}, code t (s.pc t) = i → i.next s.mem = some p →
      (code t (s.pc t)).next s.mem = some p := fun hc hi => by rw [hc, hi]
  cases h with
  | wait hr hc | exit hr hc => exact stepsLeft_mode (by simp [Mode.left, hr])
  | spurious hw => exact stepsLeft_mode (by simp [Mode.left, hw])
  | act hr hc | lock hr hc | unlock hr hc | signal hr hc | join hr hc =>
    exact stepsLeft_goto hd (hnext hc rfl) fun u => Nat.le_add_right _ _
  | @broadcast t c p hr hc =>
    refine stepsLeft_goto hd (hnext hc rfl) fun u => ?_
    split_ifs with hw <;> simp [Mode.left, *]
  | @create t u p hr hc hu =>
    refine stepsLeft_goto hd (hnext hc rfl) fun v => (Mode.left_update s.mode u v _ ?_).trans (Nat.le_add_right _ _)
    simp [Mode.left, hu]
  | @wake t u c l p hr hc hu =>
    refine stepsLeft_goto hd (hnext hc rfl) fun v => (Mode.left_update s.mode u v _ ?_).trans (Nat.le_add_right _ _)
    simp [Mode.left, hu]
  | @resume t c l p hr hc ho =>
    refine stepsLeft_goto hd (hnext hc rfl) fun v => ?_
    by_cases hvt : v = t
    · subst hvt
      simp [Mode.left, hr]
    · simp [hvt]

/-- **Bounded runs.** -/
theorem Descends.run_bounded (hd : Descends code left) {os : List (Op T)} (h : run (step code) s os = some s') :
    os.length ≤ ∑ t, stepsLeft left s t :=
  le_of_add_le_left (run_measure (fun s => ∑ t, stepsLeft left s t) (fun _ _ _ hst => hd.move (step_move hst)) h)

end

/-! ## Threads that are created and joined -/

/-- `todo` are the threads that `root` has still to create, `joined` those it has waited for -/
structure ForkJoin (code : Code T L C S P) (holds : ∀ t, P t → S → Prop) (root : T) (todo joined : P root → Set T) :
    Prop where
  others : ∀ {t p m}, t ≠ root → holds t p m → ∀ u q, code t p ≠ .create u q ∧ code t p ≠ .join u q
  noWait : ∀ {t p} c l q, code t p ≠ .wait c l q
  root_born : ∀ {p}, root ∉ todo p
  create : ∀ {p m u q}, holds root p m → code root p = .create u q → u ∈ todo p ∧ todo q = todo p \ {u}
  keep : ∀ {p m q}, (code root p).next m = some q → (∀ u q', code root p ≠ .create u q') → todo q = todo p
  join : ∀ {p m u q}, holds root p m → code root p = .join u q → u ≠ root ∧ u ∉ todo p
  joined : ∀ {p m q u}, (code root p).next m = some q → u ∈ joined q → u ∈ joined p ∨ ∃ q', code root p = .join u q'
  exit : ∀ {p}, code root p = .exit → todo p = ∅

/-- the state agrees with what `root` has created and joined -/
structure Forked (root : T) (todo joined : P root → Set T) (s : St T L C S P) : Prop where
  unborn : ∀ t, s.mode t = .unborn ↔ t ∈ todo (s.pc root)
  exited : ∀ t ∈ joined (s.pc root), s.mode t = .exited

section
variable [DecidableEq T] [DecidableEq L] [DecidableEq C] {holds : ∀ t, P t → S → Prop} {root : T}
  {todo joined : P root → Set T} {s s' : St T L C S P} {o : Op T}

/-- a thread that has exited does nothing any more -/
theorem Move.stays (h : Move code s o s') {u : T} (hu : s.mode u = .exited) : s'.mode u = .exited := by
  have hkeep : ∀ {t : T} {m : Mode C}, s.mode t ≠ .exited → Function.update s.mode t m u = .exited := by
    intro t m ht
    have hut : u ≠ t := by
      intro e
      exact ht (e ▸ hu)
    rw [Function.update_of_ne hut, hu]
  cases h with
  | act | lock | unlock | signal | join => exact hu
  | broadcast hr hc => simp [hu]
  | wait hr hc => exact hkeep (by simp [hr])
  | exit hr hc => exact hkeep (by simp [hr])
  | create hr hc hv => exact hkeep (by simp [hv])
  | wake hr hc hv => exact hkeep (by simp [hv])
  | resume hr hc ho => exact hkeep (by simp [hr])
  | spurious hw => exact hkeep (by simp [hw])

/-- a step creates a thread, or brings none into being -/
theorem Move.create_or (h : Move code s o s') :
    (∃ t u q, code t (s.pc t) = .create u q ∧ s.mode u = .unborn ∧
      s' = { s.goto t q with mode := Function.update s.mode u .run }) ∨
    (∀ u, s'.mode u = .unborn ↔ s.mode u = .unborn) ∧
      (s'.pc = s.pc ∨ ∃ t q, (code t (s.pc t)).next s.mem = some q ∧ (∀ u q', code t (s.pc t) ≠ .create u q') ∧
        s'.pc = Function.update s.pc t q) := by
  have hne : ∀ {t : T} {m : Mode C} (u : T), s.mode t ≠ .unborn → m ≠ .unborn →
      (Function.update s.mode t m u = .unborn ↔ s.mode u = .unborn) := by
    intro t m u ht hm
    by_cases hut : u = t
    · subst hut
      simp [ht, hm]
    · simp [hut]
  cases h with
  | create hr hc hu => exact .inl ⟨_, _, _, hc, hu, rfl⟩
  | wait hr hc => exact .inr ⟨fun u => hne u (by simp [hr]) (by simp), .inl rfl⟩
  | exit hr hc => exact .inr ⟨fun u => hne u (by simp [hr]) (by simp), .inl rfl⟩
  | spurious hw => exact .inr ⟨fun u => hne u (by simp [hw]) (by simp), .inl rfl⟩
  | act hr hc | lock hr hc | unlock hr hc | signal hr hc | join hr hc =>
    exact .inr ⟨fun u => Iff.rfl, .inr ⟨_, _, by rw [hc]; rfl, by simp [hc], rfl⟩⟩
  | @broadcast t c p hr hc =>
    refine .inr ⟨fun u => ?_, .inr ⟨_, _, by rw [hc]; rfl, by simp [hc], rfl⟩⟩
    by_cases hw : s.mode u = .waiting c <;> simp [hw]
  | wake hr hc hv =>
    exact .inr ⟨fun u => hne u (by simp [hv]) (by simp), .inr ⟨_, _, by rw [hc]; rfl, by simp [hc], rfl⟩⟩
  | resume hr hc ho =>
    exact .inr ⟨fun u => hne u (by simp [hr]) (by simp), .inr ⟨_, _, by rw [hc]; rfl, by simp [hc], rfl⟩⟩

/-- a thread that passes a `join` finds the other to have exited -/
theorem Move.has_exited (h : Move code s o s') {t u : T} {q : P t} (hc : code t (s.pc t) = .join u q)
    (hp : s'.pc t ≠ s.pc t) : s.mode u = .exited := by
  have ho : t = o.thread := by
    by_contra ht
    exact hp (h.pc_of_ne ht)
  subst ho
  cases h with
  | join hr hc' hu =>
    obtain ⟨rfl, -⟩ := Instr.join.inj (hc'.symm.trans hc)
    exact hu
  | wait | exit | spurious => exact absurd rfl hp
  | act _ hc' | lock _ hc' | unlock _ hc' | signal _ hc' | broadcast _ hc' | create _ hc' | wake _ hc' | resume _ hc' =>
    exact absurd (hc'.symm.trans hc) (by simp)

theorem ForkJoin.unborn_move (hf : ForkJoin code holds root todo joined) (hold : ∀ t, holds t (s.pc t) s.mem)
    (h : Forked root todo joined s) (hm : Move code s o s') (t : T) :
    s'.mode t = .unborn ↔ t ∈ todo (s'.pc root) := by
  rcases hm.create_or with ⟨r, u, q, hc, hu, rfl⟩ | ⟨hmode, hpc⟩
  · obtain rfl : r = root := by
      by_contra hne
      exact (hf.others hne (hold r) u q).1 hc
    rw [goto_pc_self, (hf.create (hold r) hc).2, Set.mem_sdiff, Set.mem_singleton_iff, ← h.unborn t]
    by_cases htu : t = u
    · subst htu
      simp
    · simp [htu]
  · rw [hmode t, h.unborn t]
    rcases hpc with hpc | ⟨r, q, hnext, hno, hpc⟩
    · rw [hpc]
    · by_cases hr : r = root
      · subst hr
        rw [hpc, Function.update_self, hf.keep hnext hno]
      · rw [hpc, Function.update_of_ne (Ne.symm hr)]

theorem ForkJoin.exited_move (hf : ForkJoin code holds root todo joined) (h : Forked root todo joined s)
    (hm : Move code s o s') (t : T) (ht : t ∈ joined (s'.pc root)) : s'.mode t = .exited := by
  apply hm.stays
  by_cases hpc : s'.pc root = s.pc root
  · exact h.exited t (hpc ▸ ht)
  · have ho : root = o.thread := by
      by_contra hne
      exact hpc (hm.pc_of_ne hne)
    rcases hm.pc_self ho.symm with hsame | hnext
    · exact absurd hsame hpc
    · rcases hf.joined hnext ht with hold | ⟨q, hc⟩
      · exact h.exited t hold
      · exact hm.has_exited hc hpc

variable [Fintype T]

theorem ForkJoin.reach (hf : ForkJoin code holds root todo joined) {ok : St T L C S P → Op T → Prop} {s0 : St T L C S P}
    (hold : ∀ s, ReachIf (step code) ok s0 s → ∀ t, holds t (s.pc t) s.mem) (h0 : Forked root todo joined s0)
    (hs : ReachIf (step code) ok s0 s) : Forked root todo joined s := by
  apply hs.invariant h0
  intro s o s' hr ih _ hst
  exact ⟨hf.unborn_move (hold s hr) ih (step_move hst), hf.exited_move ih (step_move hst)⟩

/-- **No deadlock.** A state in which nothing can move is one in which every thread has exited. -/
theorem ForkJoin.live (hf : ForkJoin code holds root todo joined) (hd : Disciplined code rank held) {B : ℕ}
    (hB : ∀ l, rank l < B) (ho : Owned code held s) (hx : ∀ t, s.mode t = .exited → code t (s.pc t) = .exit)
    (hold : ∀ t, holds t (s.pc t) s.mem) (h : Forked root todo joined s) (hno : ∀ t, ¬ Enabled code s t) (t : T) : s.mode t = .exited := by
  have hfree := unlocked hd hB ho fun u _ _ => hno u
  -- a thread other than `root` does not wait for anything, and has been created or is still to be
  have hother : ∀ u, u ≠ root → u ∉ todo (s.pc root) → s.mode u = .exited := by
    intro u hu hborn
    rcases blocked_unlocked ho hfree (hno u) with hm | hm | ⟨c, hm⟩ | ⟨-, ⟨v, q, hc, -⟩ | ⟨v, q, hc, -⟩⟩
    · exact absurd ((h.unborn u).1 hm) hborn
    · exact hm
    · obtain ⟨l, q, hc⟩ := ho.atWait.waiting u c hm
      exact absurd hc (hf.noWait c l q)
    · exact absurd hc (hf.others hu (hold u) v q).1
    · exact absurd hc (hf.others hu (hold u) v q).2
  have hroot : s.mode root = .exited := by
    rcases blocked_unlocked ho hfree (hno root) with hm | hm | ⟨c, hm⟩ | ⟨-, ⟨v, q, hc, hv⟩ | ⟨v, q, hc, hv⟩⟩
    · exact absurd ((h.unborn root).1 hm) hf.root_born
    · exact hm
    · obtain ⟨l, q, hc⟩ := ho.atWait.waiting root c hm
      exact absurd hc (hf.noWait c l q)
    · exact absurd ((h.unborn v).2 (hf.create (hold root) hc).1) hv
    · exact absurd (hother v (hf.join (hold root) hc).1 (hf.join (hold root) hc).2) hv
  by_cases ht : t = root
  · rw [ht, hroot]
  · apply hother t ht
    rw [hf.exit (hx root hroot)]
    exact Set.notMem_empty t

end

end DecsLabs.Pthread
