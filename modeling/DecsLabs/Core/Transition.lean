/-
Labelled transition systems with a partial step function: finite runs, the states reachable by steps that meet a
condition, and the proof rules for them. Nothing here is about a particular program.

- `ReachIf step ok s0 s`: `s` is reached from `s0` by steps that each satisfy `ok` on the state before the step.
  `ok` is how an assumption about the environment (no spurious wake-up) or a condition on a step is stated.
- `ReachIf.invariant`: a predicate that holds initially and is preserved by the admitted steps holds in every
  reachable state. The preservation step may use facts already known of reachable states.
- `reach_of_run`, `reachIf_of_run`: a concrete trace reaches its last state, for witnesses.
- `Along step Q s os`: every step of a trace satisfies `Q` on the state before it. `along_congr` and `along_iff` compare
  two such conditions step by step, the second one with what is known of the states on the way.
- `Recorded step event ok s0 s l`: `s` is reached by steps of which `l` records what is seen, in order.
  `Recorded.invariant` is the invariant rule for a state together with the record of its run.
- `run_measure_if`: if every admitted step decreases a measure, runs are no longer than the measure of their first state;
  `run_measure` is the case in which all steps are admitted.
-/
import Mathlib.Tactic

namespace DecsLabs.Transition

variable {σ ι : Type*} {step : σ → ι → Option σ} {ok : σ → ι → Prop} {s0 : σ}

/-! ## Runs and reachable states -/

/-- the state after the labels `os`, or `none` if one of them is not enabled -/
def run (step : σ → ι → Option σ) (s : σ) : List ι → Option σ
  | [] => some s
  | o :: os => (step s o).bind fun t => run step t os

theorem run_append (os os' : List ι) (s : σ) : run step s (os ++ os') = (run step s os).bind fun t => run step t os' := by
  induction os generalizing s with
  | nil => rfl
  | cons o os ih =>
    rw [List.cons_append, run, run, Option.bind_assoc]
    exact congrArg _ (funext ih)

/-- as `run`, but also stops at the first step that does not satisfy the condition `c` -/
def runIf (step : σ → ι → Option σ) (c : σ → ι → Bool) (s : σ) : List ι → Option σ
  | [] => some s
  | o :: os => if c s o then (step s o).bind fun t => runIf step c t os else none

inductive ReachIf (step : σ → ι → Option σ) (ok : σ → ι → Prop) (s0 : σ) : σ → Prop
  | init : ReachIf step ok s0 s0
  | step {s t : σ} {o : ι} : ReachIf step ok s0 s → ok s o → step s o = some t → ReachIf step ok s0 t

/-- reachable by any steps -/
abbrev Reach (step : σ → ι → Option σ) (s0 : σ) : σ → Prop := ReachIf step (fun _ _ => True) s0

theorem ReachIf.mono {ok' : σ → ι → Prop} (h : ∀ s o, ok s o → ok' s o) {s : σ} (hs : ReachIf step ok s0 s) :
    ReachIf step ok' s0 s := by
  induction hs with
  | init => exact .init
  | step _ ho hst ih => exact .step ih (h _ _ ho) hst

theorem ReachIf.trans {s t : σ} (hs : ReachIf step ok s0 s) (ht : ReachIf step ok s t) : ReachIf step ok s0 t := by
  induction ht with
  | init => exact hs
  | step _ ho hst ih => exact .step ih ho hst

/-- **Invariant rule.** -/
theorem ReachIf.invariant {I : σ → Prop} (h0 : I s0)
    (hI : ∀ s o t, ReachIf step ok s0 s → I s → ok s o → step s o = some t → I t) {s : σ}
    (hs : ReachIf step ok s0 s) : I s := by
  induction hs with
  | init => exact h0
  | step hr ho hst ih => exact hI _ _ _ hr ih ho hst

/-! ## Traces -/

theorem reachIf_of_runIf {c : σ → ι → Bool} (hc : ∀ s o, c s o = true → ok s o) {os : List ι} {s t : σ}
    (h : runIf step c s os = some t) : ReachIf step ok s t := by
  induction os generalizing s with
  | nil => cases h; exact .init
  | cons o os ih =>
    simp only [runIf] at h
    split_ifs at h with hco
    obtain ⟨u, hu, hrest⟩ := Option.bind_eq_some_iff.1 h
    exact (ReachIf.step .init (hc s o hco) hu).trans (ih hrest)

theorem reach_of_run {os : List ι} {s t : σ} (h : run step s os = some t) : Reach step s t := by
  induction os generalizing s with
  | nil => cases h; exact .init
  | cons o os ih =>
    obtain ⟨u, hu, hrest⟩ := Option.bind_eq_some_iff.1 h
    exact (ReachIf.step .init trivial hu).trans (ih hrest)

/-- every step of the trace `os` from `s` satisfies `Q` on the state before it; a step that is not enabled ends it -/
def Along (step : σ → ι → Option σ) (Q : σ → ι → Prop) (s : σ) : List ι → Prop
  | [] => True
  | o :: os => Q s o ∧ ∀ t, step s o = some t → Along step Q t os

instance instDecidableAlong {Q : σ → ι → Prop} [∀ s o, Decidable (Q s o)] (s : σ) (os : List ι) : Decidable (Along step Q s os) :=
  match os with
  | [] => .isTrue trivial
  | o :: os =>
    match h : step s o with
    | none => decidable_of_iff (Q s o) ⟨fun hq => ⟨hq, fun t ht => by rw [h] at ht; cases ht⟩, And.left⟩
    | some t =>
      have : Decidable (Along step Q t os) := instDecidableAlong t os
      decidable_of_iff (Q s o ∧ Along step Q t os)
        ⟨fun hq => ⟨hq.1, fun u hu => by rw [h] at hu; cases hu; exact hq.2⟩, fun hq => ⟨hq.1, hq.2 t h⟩⟩

theorem along_iff {I : σ → Prop} {P Q : σ → ι → Prop} (hI : ∀ s o t, I s → ok s o → step s o = some t → I t)
    (hPQ : ∀ s o, I s → (P s o ↔ Q s o)) {s : σ} (hs : I s) {os : List ι} (hok : Along step ok s os) :
    Along step P s os ↔ Along step Q s os := by
  induction os generalizing s with
  | nil => exact Iff.rfl
  | cons o os ih =>
    apply and_congr (hPQ s o hs)
    apply forall_congr'
    intro t
    exact imp_congr_right fun ht => ih (hI s o t hs hok.1 ht) (hok.2 t ht)

theorem along_congr {P Q : σ → ι → Prop} (hPQ : ∀ s o, P s o ↔ Q s o) (s : σ) (os : List ι) :
    Along step P s os ↔ Along step Q s os := by
  induction os generalizing s with
  | nil => exact Iff.rfl
  | cons o os ih =>
    apply and_congr (hPQ s o)
    apply forall_congr'
    intro t
    exact imp_congr_right fun _ => ih t

theorem along_append {Q : σ → ι → Prop} {s : σ} {os os' : List ι} (h : Along step Q s (os ++ os')) :
    Along step Q s os := by
  induction os generalizing s with
  | nil => trivial
  | cons o os ih => exact ⟨h.1, fun t ht => ih (h.2 t ht)⟩

/-! ## Records -/

section
variable {ε : Type*} {event : σ → ι → Option ε}

/-- `s` is reached by steps that satisfy `ok`, and `l` are the events of these steps -/
inductive Recorded (step : σ → ι → Option σ) (event : σ → ι → Option ε) (ok : σ → ι → Prop) (s0 : σ) :
    σ → List ε → Prop
  | init : Recorded step event ok s0 s0 []
  | step {s t : σ} {l : List ε} {o : ι} : Recorded step event ok s0 s l → ok s o → step s o = some t →
    Recorded step event ok s0 t (l ++ (event s o).toList)

theorem Recorded.reach {s : σ} {l : List ε} (h : Recorded step event ok s0 s l) : ReachIf step ok s0 s := by
  induction h with
  | init => exact .init
  | step _ ho hst ih => exact .step ih ho hst

/-- every reachable state has a record -/
theorem ReachIf.recorded {s : σ} (h : ReachIf step ok s0 s) : ∃ l, Recorded step event ok s0 s l := by
  induction h with
  | init => exact ⟨[], .init⟩
  | step _ ho hst ih =>
    obtain ⟨l, hl⟩ := ih
    exact ⟨_, .step hl ho hst⟩

/-- **Invariant rule**, with the record. -/
theorem Recorded.invariant {I : σ → List ε → Prop} (h0 : I s0 [])
    (hI : ∀ s l o t, Recorded step event ok s0 s l → I s l → ok s o → step s o = some t →
      I t (l ++ (event s o).toList)) {s : σ} {l : List ε} (h : Recorded step event ok s0 s l) : I s l := by
  induction h with
  | init => exact h0
  | step hr ho hst ih => exact hI _ _ _ _ hr ih ho hst

/-- the record of a trace -/
def record (step : σ → ι → Option σ) (event : σ → ι → Option ε) (s : σ) : List ι → List ε
  | [] => []
  | o :: os => (event s o).toList ++ ((step s o).map fun t => record step event t os).getD []

theorem Recorded.of_runIf {c : σ → ι → Bool} (hc : ∀ s o, c s o = true → ok s o) {os : List ι} {s t : σ} {l : List ε}
    (hs : Recorded step event ok s0 s l) (h : runIf step c s os = some t) :
    Recorded step event ok s0 t (l ++ record step event s os) := by
  induction os generalizing s l with
  | nil =>
    cases h
    simpa [record] using hs
  | cons o os ih =>
    simp only [runIf] at h
    split_ifs at h with hco
    obtain ⟨u, hu, hrest⟩ := Option.bind_eq_some_iff.1 h
    have hnext := ih (hs.step (hc s o hco) hu) hrest
    simpa [record, hu] using hnext

end

/-! ## Termination -/

theorem along_of_forall {Q : σ → ι → Prop} {os : List ι} (h : ∀ o ∈ os, ∀ s, Q s o) (s : σ) : Along step Q s os := by
  induction os generalizing s with
  | nil => trivial
  | cons o os ih => exact ⟨h o (by simp) s, fun t _ => ih (fun o ho => h o (by simp [ho])) t⟩

theorem Along.reach {os : List ι} {s t : σ} (hok : Along step ok s os) (h : run step s os = some t) : ReachIf step ok s t := by
  induction os generalizing s with
  | nil => cases h; exact .init
  | cons o os ih =>
    obtain ⟨u, hu, hrest⟩ := Option.bind_eq_some_iff.1 h
    exact (ReachIf.step .init hok.1 hu).trans (ih (hok.2 u hu) hrest)

/-- **Bounded runs.** A measure that every admitted step decreases bounds the length of every run of such steps. -/
theorem run_measure_if (μ : σ → ℕ) (hμ : ∀ s o t, ReachIf step ok s0 s → ok s o → step s o = some t → μ t < μ s)
    {os : List ι} {s t : σ} (hs : ReachIf step ok s0 s) (hok : Along step ok s os) (h : run step s os = some t) :
    os.length + μ t ≤ μ s := by
  induction os generalizing s with
  | nil => cases h; simp
  | cons o os ih =>
    obtain ⟨u, hu, hrest⟩ := Option.bind_eq_some_iff.1 h
    have h1 := hμ s o u hs hok.1 hu
    have h2 := ih (hs.step hok.1 hu) (hok.2 u hu) hrest
    simp only [List.length_cons]
    omega

/-- the same for a measure that every step decreases -/
theorem run_measure (μ : σ → ℕ) (hμ : ∀ s o t, step s o = some t → μ t < μ s) {os : List ι} {s t : σ}
    (h : run step s os = some t) : os.length + μ t ≤ μ s := by
  have hok : Along step (fun _ _ => True) s os := along_of_forall (fun _ _ _ => trivial) s
  exact run_measure_if μ (fun s o t _ _ hst => hμ s o t hst) .init hok h

end DecsLabs.Transition
