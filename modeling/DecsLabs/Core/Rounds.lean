/-
Bounded runs of threads that work in rounds: a thread that sleeps until it is called has nothing to do by itself, and the
signal that wakes it pays for its next round. Nothing here is about a particular program.

- `Rounds code holds left rest`: `left t p m` bounds the steps that `t` takes from the point `p` by itself, up to the
  sleep that ends its round, and `rest t p m` what it keeps while it sleeps at `p`. Every instruction takes a step away,
  and a signal leaves enough for the round of the thread that it wakes.
- `Rounds.move`: a step that is no spurious wake-up takes one from the sum over the threads.
- `Rounds.run_bounded`: so a run is no longer than the sum in its first state.
-/
import DecsLabs.Core.Discipline

namespace DecsLabs.Pthread

open DecsLabs.Transition

variable {T L C S : Type} {P : T → Type} {code : Code T L C S P} {holds : ∀ t, P t → S → Prop}
  {left rest : ∀ t, P t → S → ℕ}

structure Rounds (code : Code T L C S P) (holds : ∀ t, P t → S → Prop) (left rest : ∀ t, P t → S → ℕ) : Prop where
  advance : ∀ {t p m q}, holds t p m → (code t p).next m = some q → (∀ c l q', code t p ≠ .wait c l q') →
    left t q ((code t p).effect m) < left t p m
  sleep : ∀ {t p m c l q}, code t p = .wait c l q → rest t p m < left t p m
  /-- the caller pays for the round of the thread that it wakes, and for its return from the wait -/
  call : ∀ {t p m c l q u p' l' q'}, holds t p m → code t p = .signal c l q → code u p' = .wait c l' q' →
    left t q m + (left u q' m + 1) < left t p m + rest u p' m
  exit : ∀ {t p m}, code t p = .exit → 0 < left t p m
  frame : ∀ {t u p p' m}, t ≠ u → left u p' ((code t p).effect m) ≤ left u p' m ∧
    rest u p' ((code t p).effect m) ≤ rest u p' m
  noBroadcast : ∀ {t p c q}, code t p ≠ .broadcast c q

/-- what a thread has left when it is woken at the instruction -/
def Instr.afterWait {Q : Type} (f : Q → ℕ) : Instr T L C S Q → ℕ
  | .wait _ _ q => f q + 1
  | _ => 0

/-- the steps that `t` has to go -/
def toGo (code : Code T L C S P) (left rest : ∀ t, P t → S → ℕ) (s : St T L C S P) (t : T) : ℕ :=
  match s.mode t with
  | .unborn | .run => left t (s.pc t) s.mem
  | .waiting _ => rest t (s.pc t) s.mem
  | .woken => (code t (s.pc t)).afterWait fun q => left t q s.mem
  | .exited => 0

theorem Instr.afterWait_mono {Q : Type} {f g : Q → ℕ} (h : ∀ q, f q ≤ g q) (i : Instr T L C S Q) :
    i.afterWait f ≤ i.afterWait g := by
  cases i with
  | wait c l q => exact Nat.succ_le_succ (h q)
  | _ => exact le_rfl

section
variable {s s' : St T L C S P} {t u : T} {p : P t}

theorem toGo_run (h : s.mode t = .run) : toGo code left rest s t = left t (s.pc t) s.mem := by
  rw [toGo, h]

/-- a thread that does not move, while another executes the instruction at `p` or none -/
theorem Rounds.toGo_le (hr : Rounds code holds left rest) (htu : t ≠ u) (hpc : s'.pc u = s.pc u)
    (hmode : s'.mode u = s.mode u ∨ s.mode u = .unborn ∧ s'.mode u = .run)
    (hmem : s'.mem = (code t p).effect s.mem) : toGo code left rest s' u ≤ toGo code left rest s u := by
  have hleft : ∀ q, left u q s'.mem ≤ left u q s.mem := by
    intro q
    rw [hmem]
    exact (hr.frame htu).1
  rcases hmode with hm | ⟨hm, hm'⟩
  · unfold toGo
    rw [hm, hpc]
    cases s.mode u with
    | unborn | run => exact hleft _
    | waiting c =>
      rw [hmem]
      exact (hr.frame htu).2
    | woken => exact Instr.afterWait_mono hleft _
    | exited => exact le_rfl
  · rw [toGo_run hm', toGo, hm, hpc]
    exact hleft _

end

section
variable [DecidableEq T] [Fintype T] {f g : T → ℕ} {t u : T}

theorem sum_lt_of_one (h : ∀ v, v ≠ t → f v ≤ g v) (ht : f t < g t) : ∑ v, f v < ∑ v, g v := by
  apply Finset.sum_lt_sum
  · intro v _
    by_cases hv : v = t
    · subst hv
      exact ht.le
    · exact h v hv
  · exact ⟨t, Finset.mem_univ t, ht⟩

theorem sum_lt_of_two (htu : u ≠ t) (h : ∀ v, v ≠ t → v ≠ u → f v ≤ g v) (ht : f t + f u < g t + g u) :
    ∑ v, f v < ∑ v, g v := by
  have hsplit : ∀ k : T → ℕ, ∑ v, k v = k t + k u + ∑ v ∈ (Finset.univ.erase t).erase u, k v := by
    intro k
    rw [← Finset.add_sum_erase _ k (Finset.mem_univ t),
      ← Finset.add_sum_erase _ k (Finset.mem_erase.2 ⟨htu, Finset.mem_univ u⟩), add_assoc]
  have hrest : ∑ v ∈ (Finset.univ.erase t).erase u, f v ≤ ∑ v ∈ (Finset.univ.erase t).erase u, g v := by
    apply Finset.sum_le_sum
    intro v hv
    rw [Finset.mem_erase, Finset.mem_erase] at hv
    exact h v hv.2.1 hv.1
  rw [hsplit f, hsplit g]
  omega

end

section
variable [DecidableEq T] [DecidableEq L] [DecidableEq C] [Fintype T] {s s' : St T L C S P} {o : Op T}

omit [DecidableEq L] [DecidableEq C] in
/-- an instruction that is neither a wait nor a signal that is heard -/
theorem Rounds.advance_lt (hr : Rounds code holds left rest) {t : T} {q : P t} (hold : holds t (s.pc t) s.mem)
    (hrun : s.mode t = .run) (hq : (code t (s.pc t)).next s.mem = some q)
    (hwait : ∀ c l q', code t (s.pc t) ≠ .wait c l q') (hpc : s'.pc = (s.goto t q).pc)
    (hmem : s'.mem = (code t (s.pc t)).effect s.mem)
    (hmode : ∀ v, s'.mode v = s.mode v ∨ s.mode v = .unborn ∧ s'.mode v = .run) :
    ∑ v, toGo code left rest s' v < ∑ v, toGo code left rest s v := by
  refine sum_lt_of_one (t := t) (fun v hv => ?_) ?_
  · have hv' : s'.pc v = s.pc v := by
      rw [hpc]
      exact goto_pc_of_ne s q hv
    exact hr.toGo_le (Ne.symm hv) hv' (hmode v) hmem
  · have hrun' : s'.mode t = .run := by
      rcases hmode t with h | h
      · rw [h, hrun]
      · exact h.2
    rw [toGo_run hrun', toGo_run hrun, hpc, goto_pc_self, hmem]
    exact hr.advance hold hq hwait

/-- **Steps.** -/
theorem Rounds.move (hr : Rounds code holds left rest) (hw : AtWait code s)
    (hold : ∀ t, s.mode t = .run → holds t (s.pc t) s.mem) (hns : NoSpurious s o) (h : Move code s o s') :
    ∑ t, toGo code left rest s' t < ∑ t, toGo code left rest s t := by
  -- the threads that a sleeping or leaving thread leaves alone
  have hstay : ∀ {t : T} {m : Mode C} (owner : L → Option T), ∀ v, v ≠ t →
      toGo code left rest { s with owner := owner, mode := Function.update s.mode t m } v =
        toGo code left rest s v := by
    intro t m owner v hv
    simp only [toGo, Function.update_of_ne hv]
  cases h with
  | @act t f hrun hc =>
    exact hr.advance_lt (hold t hrun) hrun (by rw [hc]; rfl) (by simp [hc]) rfl (by rw [hc]; rfl) fun v => .inl rfl
  | @lock t l p hrun hc _ | @unlock t l p hrun hc | @join t l p hrun hc _ =>
    exact hr.advance_lt (hold t hrun) hrun (by rw [hc]; rfl) (by simp [hc]) rfl (by rw [hc]; rfl) fun v => .inl rfl
  | @signal t c l p hrun hc hn =>
    exact hr.advance_lt (hold t hrun) hrun (by rw [hc]; rfl) (by simp [hc]) rfl (by rw [hc]; rfl) fun v => .inl rfl
  | @create t u p hrun hc hu =>
    refine hr.advance_lt (hold t hrun) hrun (by rw [hc]; rfl) (by simp [hc]) rfl (by rw [hc]; rfl) fun v => ?_
    by_cases hv : v = u
    · subst hv
      exact .inr ⟨hu, Function.update_self ..⟩
    · exact .inl (Function.update_of_ne hv ..)
  | broadcast hrun hc => exact absurd hc hr.noBroadcast
  | @wait t c l p hrun hc =>
    refine sum_lt_of_one (t := t) (fun v hv => (hstay _ v hv).le) ?_
    rw [toGo_run hrun]
    simpa [toGo] using hr.sleep hc
  | @exit t hrun hc =>
    refine sum_lt_of_one (t := t) (fun v hv => (hstay s.owner v hv).le) ?_
    rw [toGo_run hrun]
    simpa [toGo] using hr.exit hc
  | @wake t u c l p hrun hc hu =>
    obtain ⟨l', q', hcu⟩ := hw.waiting u c hu
    have hut : u ≠ t := by
      intro e
      rw [e, hrun] at hu
      cases hu
    refine sum_lt_of_two hut (fun v hvt hvu => ?_) ?_
    · simp only [toGo, Function.update_of_ne hvu, goto_pc_of_ne s p hvt, goto_mem, le_refl]
    · have hcall := hr.call (hold t hrun) hc hcu
      simpa [toGo, hrun, hu, Function.update_of_ne hut.symm, goto_pc_of_ne s p hut, hcu, Instr.afterWait] using hcall
  | @resume t c l p hm hc ho =>
    refine sum_lt_of_one (t := t) (fun v hv => ?_) ?_
    · simp only [toGo, Function.update_of_ne hv, goto_pc_of_ne s p hv, goto_mem, le_refl]
    · simp [toGo, hm, hc, Instr.afterWait]
  | spurious hw => exact absurd rfl (hns _)

/-- **Bounded runs.** -/
theorem Rounds.run_bounded (hr : Rounds code holds left rest) {s0 : St T L C S P} {os : List (Op T)}
    (hw : ∀ s, ReachIf (step code) NoSpurious s0 s → AtWait code s)
    (hold : ∀ s, ReachIf (step code) NoSpurious s0 s → ∀ t, s.mode t = .run → holds t (s.pc t) s.mem)
    (hok : ∀ o ∈ os, ∀ t, o ≠ .spurious t) (h : run (step code) s0 os = some s) :
    os.length ≤ ∑ t, toGo code left rest s0 t := by
  have hstep : ∀ s o s', ReachIf (step code) NoSpurious s0 s → NoSpurious s o → step code s o = some s' →
      ∑ t, toGo code left rest s' t < ∑ t, toGo code left rest s t :=
    fun s o s' hs hns hst => hr.move (hw s hs) (hold s hs) hns (step_move hst)
  have halong : Along (step code) NoSpurious s0 os := along_of_forall (fun o ho _ => hok o ho) s0
  exact le_of_add_le_left (run_measure_if (fun s => ∑ t, toGo code left rest s t) hstep .init halong h)

end

end DecsLabs.Pthread
