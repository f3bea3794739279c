/-
Lock discipline: a static annotation of a program's points with the mutexes held there, checked instruction by
instruction, decides who owns every mutex in every reachable state. Nothing here is about a particular program.

- `Disciplined code rank held`: every lock, unlock, wait and signal fits the annotation; mutexes are taken in
  increasing `rank`; a wait holds only its own mutex; a thread that creates, joins or exits holds none.
- `Owned`: a mutex is owned by the running thread whose point holds it, and by no other.
- `Disciplined.owned`: `Owned` in every reachable state, whatever the interleaving, spurious wake-ups included.
- `owner_chain`, `not_blocked_cycle`: from the owner of a mutex, the owner of the mutex that it is blocked on, and so
  on, is a thread that can take a step; no cycle of threads is blocked on each other's mutexes.
- `owner_enabled`: if some mutex is owned, the owner of some mutex can take a step. So a state in which nothing can move
  has only waiting, unborn, exited and joining threads.
-/
import DecsLabs.Core.Pthread

namespace DecsLabs.Pthread

open DecsLabs.Transition

variable {T L C S : Type} {P : T → Type}

/-! ## The annotation -/

/-- the instruction at `p` takes and releases mutexes as the annotation `held` says -/
def Fits {Q : Type} (rank : L → ℕ) (held : Q → List L) (p : Q) : Instr T L C S Q → Prop
  | .act f => ∀ m l, l ∈ held (f m).2 ↔ l ∈ held p
  | .lock l q => (∀ l' ∈ held p, rank l' < rank l) ∧ ∀ l', l' ∈ held q ↔ l' = l ∨ l' ∈ held p
  | .unlock l q => l ∈ held p ∧ ∀ l', l' ∈ held q ↔ l' ≠ l ∧ l' ∈ held p
  | .wait _ l q => (∀ l', l' ∈ held p ↔ l' = l) ∧ ∀ l', l' ∈ held q ↔ l' = l
  | .signal _ l q => l ∈ held p ∧ ∀ l', l' ∈ held q ↔ l' ∈ held p
  | .broadcast _ q => ∀ l', l' ∈ held q ↔ l' ∈ held p
  | .create _ q => held p = [] ∧ held q = []
  | .join _ q => held p = [] ∧ held q = []
  | .exit => held p = []

def Disciplined (code : Code T L C S P) (rank : L → ℕ) (held : ∀ t, P t → List L) : Prop :=
  ∀ t p, Fits rank (held t) p (code t p)

/-- the annotation describes the state -/
structure Owned (code : Code T L C S P) (held : ∀ t, P t → List L) (s : St T L C S P) : Prop where
  owner : ∀ l t, s.owner l = some t ↔ s.mode t = .run ∧ l ∈ held t (s.pc t)
  unborn : ∀ t, s.mode t = .unborn → held t (s.pc t) = []
  atWait : AtWait code s

variable {code : Code T L C S P} {rank : L → ℕ} {held : ∀ t, P t → List L}

theorem Disciplined.fits (hd : Disciplined code rank held) {t : T} {p : P t} {i : Instr T L C S (P t)}
    (hc : code t p = i) : Fits rank (held t) p i := hc ▸ hd t p

theorem Owned.unique {s : St T L C S P} (h : Owned code held s) {l : L} {t u : T} (ht : s.mode t = .run)
    (hlt : l ∈ held t (s.pc t)) (hu : s.mode u = .run) (hlu : l ∈ held u (s.pc u)) : t = u := by
  have h1 := (h.owner l t).2 ⟨ht, hlt⟩
  have h2 := (h.owner l u).2 ⟨hu, hlu⟩
  rw [h1] at h2
  exact Option.some.inj h2

/-- waking waiters changes nothing that the annotation speaks about -/
theorem Owned.rouse {s : St T L C S P} (h : Owned code held s) {mode : T → Mode C}
    (hm : ∀ u, mode u = s.mode u ∨ mode u = .woken ∧ ∃ c, s.mode u = .waiting c) :
    Owned code held { s with mode := mode } := by
  refine ⟨fun l u => ?_, fun u hu => ?_, ⟨fun u c hu => ?_, fun u hu => ?_⟩⟩
  · rw [h.owner l u]
    rcases hm u with e | ⟨e, c, ec⟩ <;> simp [*]
  all_goals simp only at hu
  · rcases hm u with e | ⟨e, c, ec⟩ <;> simp [e] at hu
    exact h.unborn u hu
  · rcases hm u with e | ⟨e, c', ec⟩ <;> simp [e] at hu
    exact h.atWait.waiting u c hu
  · rcases hm u with e | ⟨e, c, ec⟩
    · exact h.atWait.woken u (e ▸ hu)
    · obtain ⟨l, p, hc⟩ := h.atWait.waiting u c ec
      exact ⟨c, l, p, hc⟩

/-- A step that changes only `t` and the mutexes that `t` owns. What remains to be shown is about `t` alone. -/
theorem Owned.update {s s' : St T L C S P} (h : Owned code held s) {t : T} (hpc : ∀ u, u ≠ t → s'.pc u = s.pc u)
    (hmode : ∀ u, u ≠ t → s'.mode u = s.mode u) (hother : ∀ l u, u ≠ t → (s'.owner l = some u ↔ s.owner l = some u))
    (hself : ∀ l, s'.owner l = some t ↔ s'.mode t = .run ∧ l ∈ held t (s'.pc t)) (hborn : s'.mode t ≠ .unborn)
    (hwaiting : ∀ c, s'.mode t = .waiting c → ∃ l p, code t (s'.pc t) = .wait c l p) (hwoken : s'.mode t ≠ .woken) :
    Owned code held s' := by
  refine ⟨fun l u => ?_, fun u hu => ?_, ⟨fun u c hu => ?_, fun u hu => ?_⟩⟩
  · by_cases hut : u = t
    · subst hut
      exact hself l
    · rw [hother l u hut, hmode u hut, hpc u hut]
      exact h.owner l u
  · have hut : u ≠ t := by
      intro he
      exact hborn (he ▸ hu)
    rw [hpc u hut]
    exact h.unborn u (hmode u hut ▸ hu)
  · by_cases hut : u = t
    · subst hut
      exact hwaiting c hu
    · rw [hpc u hut]
      exact h.atWait.waiting u c (hmode u hut ▸ hu)
  · have hut : u ≠ t := by
      intro he
      exact hwoken (he ▸ hu)
    rw [hpc u hut]
    exact h.atWait.woken u (hmode u hut ▸ hu)

variable [DecidableEq T]

/-- a step that changes only the point of the running thread `t`, to one that holds the same mutexes -/
theorem Owned.goto {s : St T L C S P} (h : Owned code held s) {t : T} {p : P t} (hr : s.mode t = .run)
    (hp : ∀ l, l ∈ held t p ↔ l ∈ held t (s.pc t)) (m : S) : Owned code held { s.goto t p with mem := m } := by
  refine h.update (t := t) (fun u hut => goto_pc_of_ne s p hut) (fun _ _ => rfl) (fun _ _ _ => Iff.rfl) (fun l => ?_)
    (by simp [hr]) (by simp [hr]) (by simp [hr])
  simpa [hp] using h.owner l t

variable [DecidableEq L] [DecidableEq C]

omit [DecidableEq T] in
/-- the owner of one mutex changes, from or to `t` -/
theorem owner_others {owner : L → Option T} {l : L} {t : T} {w : Option T} (hw : ∀ u, u ≠ t → w ≠ some u)
    (ho : ∀ u, u ≠ t → owner l ≠ some u) (l' : L) (u : T) (hut : u ≠ t) :
    Function.update owner l w l' = some u ↔ owner l' = some u := by
  by_cases hl : l' = l
  · subst hl
    simp [hw u hut, ho u hut]
  · rw [Function.update_of_ne hl]

/-! ## One step -/

theorem Disciplined.owned_step (hd : Disciplined code rank held) {s s' : St T L C S P} {o : Op T}
    (h : Owned code held s) (hm : Move code s o s') : Owned code held s' := by
  cases hm with
  | act hr hc => exact h.goto hr (hd.fits hc _) _
  | @lock t l p hr hc ho =>
    refine h.update (t := t) (fun u hut => goto_pc_of_ne s p hut) (fun _ _ => rfl)
      (owner_others (by simp +contextual [eq_comm]) (by simp [ho])) (fun l' => ?_) (by simp [hr]) (by simp [hr])
      (by simp [hr])
    by_cases hl : l' = l
    · subst hl
      simp [hr, (hd.fits hc).2]
    · simpa [hr, hl, (hd.fits hc).2] using h.owner l' t
  | @unlock t l p hr hc =>
    have hown : s.owner l = some t := (h.owner l t).2 ⟨hr, (hd.fits hc).1⟩
    refine h.update (t := t) (fun u hut => goto_pc_of_ne s p hut) (fun _ _ => rfl)
      (owner_others (by simp) (by simp +contextual [hown, eq_comm])) (fun l' => ?_) (by simp [hr]) (by simp [hr])
      (by simp [hr])
    by_cases hl : l' = l
    · subst hl
      simp [(hd.fits hc).2]
    · simpa [hr, hl, (hd.fits hc).2] using h.owner l' t
  | @wait t c l p hr hc =>
    have hown : s.owner l = some t := (h.owner l t).2 ⟨hr, ((hd.fits hc).1 l).2 rfl⟩
    refine h.update (t := t) (fun _ _ => rfl) (fun u hut => Function.update_of_ne hut ..)
      (owner_others (by simp) (by simp +contextual [hown, eq_comm])) (fun l' => ?_) (by simp) (fun c' hc' => ?_) (by simp)
    · by_cases hl : l' = l
      · subst hl
        simp
      · have hno := h.owner l' t
        simp only [hr, (hd.fits hc).1, hl, and_false, iff_false] at hno
        simp [hl, hno]
    · simp only [Function.update_self, Mode.waiting.injEq] at hc'
      subst hc'
      exact ⟨l, p, hc⟩
  | signal hr hc hn => exact h.goto hr (hd.fits hc).2 _
  | @broadcast t c p hr hc =>
    refine (h.goto hr (hd.fits hc) s.mem).rouse fun u => ?_
    by_cases hu : s.mode u = .waiting c <;> simp [hu]
  | @create t u p hr hc hu =>
    obtain ⟨hp, hq⟩ := hd.fits hc
    have hut : u ≠ t := by
      intro he
      rw [he, hr] at hu
      cases hu
    have hg := h.goto hr (p := p) (by simp [hp, hq]) s.mem
    refine hg.update (t := u) (fun _ _ => rfl) (fun v hvu => Function.update_of_ne hvu ..) (fun _ _ _ => Iff.rfl)
      (fun l => ?_) (by simp) (by simp) (by simp)
    have hno := h.owner l u
    simp only [hu, reduceCtorEq, false_and, iff_false] at hno
    simp [hno, goto_pc_of_ne s p hut, h.unborn u hu]
  | join hr hc hu =>
    obtain ⟨hp, hq⟩ := hd.fits hc
    exact h.goto hr (by simp [hp, hq]) _
  | @exit t hr hc =>
    refine h.update (t := t) (fun _ _ => rfl) (fun u hut => Function.update_of_ne hut ..) (fun _ _ _ => Iff.rfl)
      (fun l => ?_) (by simp) (by simp) (by simp)
    have hno := h.owner l t
    simp only [show held t (s.pc t) = [] from hd.fits hc, List.not_mem_nil, and_false, iff_false] at hno
    simp [hno]
  | @wake t u c l p hr hc hu =>
    refine (h.goto hr (hd.fits hc).2 s.mem).rouse fun v => ?_
    by_cases hvu : v = u
    · subst hvu; simp [hu]
    · simp [hvu]
  | @resume t c l p hr hc ho =>
    refine h.update (t := t) (fun u hut => goto_pc_of_ne s p hut) (fun u hut => Function.update_of_ne hut ..)
      (owner_others (by simp +contextual [eq_comm]) (by simp [ho])) (fun l' => ?_) (by simp) (by simp) (by simp)
    by_cases hl : l' = l
    · subst hl
      simp [(hd.fits hc).2]
    · have hno := h.owner l' t
      simp only [hr, reduceCtorEq, false_and, iff_false] at hno
      simp [hl, hno, (hd.fits hc).2]
  | @spurious t c hw =>
    refine h.rouse fun v => ?_
    by_cases hvt : v = t
    · subst hvt; simp [hw]
    · simp [hvt]

variable [Fintype T]

/-- **Ownership.** In every reachable state the annotation says who owns which mutex. -/
theorem Disciplined.owned (hd : Disciplined code rank held) {ok : St T L C S P → Op T → Prop} {s0 s : St T L C S P}
    (h0 : Owned code held s0) (hs : ReachIf (step code) ok s0 s) : Owned code held s :=
  hs.invariant h0 fun _ _ _ _ h _ hst => hd.owned_step h (step_move hst)

/-! ## No cycle of blocked threads -/

/-- `t` is blocked on a mutex that `u` owns -/
def BlockedOn (code : Code T L C S P) (s : St T L C S P) (t u : T) : Prop :=
  ∃ l p, s.mode t = .run ∧ code t (s.pc t) = .lock l p ∧ s.owner l = some u

omit [DecidableEq T] [DecidableEq L] [DecidableEq C] [Fintype T] in
/-- a thread is blocked on one thread at most -/
theorem BlockedOn.unique {s : St T L C S P} {t u v : T} (hu : BlockedOn code s t u) (hv : BlockedOn code s t v) :
    u = v := by
  obtain ⟨l, p, -, hc, ho⟩ := hu
  obtain ⟨l', p', -, hc', ho'⟩ := hv
  rw [hc] at hc'
  cases hc'
  exact Option.some.inj (ho.symm.trans ho')

/-- **An owner can move.** Following the chain of blocked owners from the owner of a mutex, one comes to an owner that is
enabled: each takes a mutex of higher rank than those it holds, and an owner is neither waiting nor joining. -/
theorem owner_chain (hd : Disciplined code rank held) {B : ℕ} (hB : ∀ l, rank l < B) {s : St T L C S P}
    (h : Owned code held s) {l : L} {t : T} (hl : s.owner l = some t) :
    ∃ u l', Relation.ReflTransGen (BlockedOn code s) t u ∧ s.owner l' = some u ∧ Enabled code s u := by
  generalize hn : B - rank l = n
  induction n using Nat.strongRecOn generalizing l t with
  | ind n ih =>
    obtain ⟨hr, hh⟩ := (h.owner l t).1 hl
    by_cases he : Enabled code s t
    · exact ⟨t, l, .refl, hl, he⟩
    · cases blocked_cases he with
      | @lock l' p _ hc ho =>
        obtain ⟨u, hu⟩ := Option.ne_none_iff_exists'.1 ho
        have h1 := (hd.fits hc).1 l hh
        have h2 := hB l'
        obtain ⟨v, l'', hchain, hv⟩ := ih (B - rank l') (by omega) hu rfl
        exact ⟨v, l'', hchain.head ⟨l', p, hr, hc, hu⟩, hv⟩
      | create _ hc => simp [(hd.fits hc).1] at hh
      | join _ hc => simp [(hd.fits hc).1] at hh
      | unborn hm => simp [hr] at hm
      | exited hm => simp [hr] at hm
      | waiting hm => simp [hr] at hm
      | resume hm => simp [hr] at hm

theorem owner_enabled (hd : Disciplined code rank held) {B : ℕ} (hB : ∀ l, rank l < B) {s : St T L C S P}
    (h : Owned code held s) {l : L} {t : T} (hl : s.owner l = some t) :
    ∃ u l', s.owner l' = some u ∧ Enabled code s u := by
  obtain ⟨u, l', -, hu⟩ := owner_chain hd hB h hl
  exact ⟨u, l', hu⟩

omit [DecidableEq T] [DecidableEq L] [DecidableEq C] [Fintype T] in
/-- the mutexes that a chain of blocked threads stands at are of increasing rank -/
theorem blocked_rank (hd : Disciplined code rank held) {s : St T L C S P} (h : Owned code held s) {t u : T}
    (hchain : Relation.TransGen (BlockedOn code s) t u) {l : L} {p : P u} (hu : code u (s.pc u) = .lock l p) :
    ∃ l' p', code t (s.pc t) = .lock l' p' ∧ rank l' < rank l := by
  have hnext : ∀ {v w : T} {l : L} {p : P w}, BlockedOn code s v w → code w (s.pc w) = .lock l p →
      ∃ l' p', code v (s.pc v) = .lock l' p' ∧ rank l' < rank l := by
    intro v w l p hb hw
    obtain ⟨l', p', -, hc, ho⟩ := hb
    exact ⟨l', p', hc, (hd.fits hw).1 l' ((h.owner l' w).1 ho).2⟩
  induction hchain generalizing l with
  | single hb => exact hnext hb hu
  | tail _ hb ih =>
    obtain ⟨l', p', hc, hlt⟩ := hnext hb hu
    obtain ⟨l'', p'', hc', hlt'⟩ := ih hc
    exact ⟨l'', p'', hc', hlt'.trans hlt⟩

omit [DecidableEq T] [DecidableEq L] [DecidableEq C] [Fintype T] in
/-- **No cycle.** -/
theorem not_blocked_cycle (hd : Disciplined code rank held) {s : St T L C S P} (h : Owned code held s) (t : T) :
    ¬ Relation.TransGen (BlockedOn code s) t t := by
  intro hcycle
  obtain ⟨u, hb, -⟩ := Relation.TransGen.head'_iff.1 hcycle
  obtain ⟨l, p, -, hc, -⟩ := hb
  obtain ⟨l', p', hc', hlt⟩ := blocked_rank hd h hcycle hc
  rw [hc] at hc'
  cases hc'
  exact absurd hlt (lt_irrefl _)

/-- in a state where no owner of a mutex can move, every mutex is free -/
theorem unlocked (hd : Disciplined code rank held) {B : ℕ} (hB : ∀ l, rank l < B) {s : St T L C S P}
    (h : Owned code held s) (hno : ∀ u l, s.owner l = some u → ¬ Enabled code s u) (l : L) : s.owner l = none := by
  by_contra hne
  obtain ⟨u, hu⟩ := Option.ne_none_iff_exists'.1 hne
  obtain ⟨v, l', hv, he⟩ := owner_enabled hd hB h hu
  exact hno v l' hv he

/-- in a state where every mutex is free, a thread that is not enabled is not blocked on a mutex -/
theorem blocked_unlocked {s : St T L C S P} (h : Owned code held s) (hfree : ∀ l, s.owner l = none) {t : T}
    (ht : ¬ Enabled code s t) :
    s.mode t = .unborn ∨ s.mode t = .exited ∨ (∃ c, s.mode t = .waiting c) ∨
      s.mode t = .run ∧ ((∃ u p, code t (s.pc t) = .create u p ∧ s.mode u ≠ .unborn) ∨
        ∃ u p, code t (s.pc t) = .join u p ∧ s.mode u ≠ .exited) := by
  cases blocked_cases ht with
  | unborn hm => exact .inl hm
  | exited hm => exact .inr (.inl hm)
  | waiting hm => exact .inr (.inr (.inl ⟨_, hm⟩))
  | lock _ _ ho => exact absurd (hfree _) ho
  | resume hm hc =>
    obtain ⟨c, l, p, e⟩ := h.atWait.woken t hm
    exact absurd (hfree l) (hc c l p e)
  | create hm hc hu => exact .inr (.inr (.inr ⟨hm, .inl ⟨_, _, hc, hu⟩⟩))
  | join hm hc hu => exact .inr (.inr (.inr ⟨hm, .inr ⟨_, _, hc, hu⟩⟩))

end DecsLabs.Pthread
