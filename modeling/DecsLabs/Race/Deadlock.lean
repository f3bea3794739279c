/-
Deadlock of the race. The handshake signals without a predicate: a signal that finds nobody waiting is lost. The
Reporter then waits for an answer to a call that was not heard, and the player it called waits for a call.

- `race_live`: in every run in which each call of the Reporter finds its player waiting, and each shutdown signal finds
  its player not on the way to its wait, some thread can move until all have left.
- `lost_call`: a run in which the Randomizer is preempted after its first answer, and everybody waits for ever.
-/
import DecsLabs.Race.Refinement

namespace DecsLabs.HareTortoise

open DecsLabs.Transition DecsLabs.Pthread

/-! ## Runs that lose no call -/

/-- between a test of `no_winner` that has found no winner and the wait for the next call -/
def PlayerPc.Committed {x : Player} : PlayerPc x → Prop
  | .reachedTest | .mainAcquire | .setReached | .firstAcquire | .mainSignal | .mainRelease | .acquire | .wait => True
  | _ => False

instance {x : Player} (p : PlayerPc x) : Decidable p.Committed := by
  unfold PlayerPc.Committed; split <;> infer_instance

/-- The Reporter calls no player that is not waiting, and dismisses none that is on its way to its wait. -/
def CallsHeard (s : RaceSt) (o : Op Thread) : Prop :=
  NoSpurious s o ∧ ∀ x, o = .exec .report →
    (s.pc .report = .signal x → s.mode (.player x) = .waiting (.reporterToPlayer x)) ∧
    (s.pc .report = .shutSignal x → ¬ (s.mode (.player x) = .run ∧ (s.pc (.player x) : PlayerPc x).Committed))

instance (s : RaceSt) (o : Op Thread) : Decidable (CallsHeard s o) := by
  unfold CallsHeard
  have (x : Player) : Decidable (s.pc .report = .signal x) := inferInstanceAs (Decidable ((_ : ReportPc) = _))
  have (x : Player) : Decidable (s.pc .report = .shutSignal x) := inferInstanceAs (Decidable ((_ : ReportPc) = _))
  infer_instance

theorem committed_of_coming {s : RaceSt} {x : Player} (h : (view s).role x = .coming) :
    s.mode (.player x) = .run ∧ (s.pc (.player x) : PlayerPc x).Committed := by
  simp only [view] at h
  cases hm : s.mode (.player x) with
  | run =>
    refine ⟨rfl, ?_⟩
    rw [hm] at h
    cases hp : s.pc (.player x) <;> simp [hp, roleOf] at h <;> trivial
  | _ => rw [hm] at h; simp [roleOf] at h

/-- a signal of the Reporter to `x` is lost or finds `x` asleep -/
theorem report_signals {r : Race} {s s' : RaceSt} {o : Op Thread} {x : Player} {l : Lock} {p : ReportPc}
    (ho : Owned (code r) held s) (hns : NoSpurious s o) (hs : step (code r) s o = some s')
    (hc : code r .report (s.pc .report) = .signal (.reporterToPlayer x) l p) (hp : s'.pc .report ≠ s.pc .report) :
    o = .exec .report ∨ (view s).role x = .asleep := by
  have ht : o.thread = .report := by
    by_contra ht
    exact hp ((step_move hs).pc_of_ne (Ne.symm ht))
  cases o with
  | exec t => cases ht; exact .inl rfl
  | wake t u =>
    cases ht
    simp only [step, hc] at hs
    split_ifs at hs with hg
    obtain ⟨rfl, -⟩ := waits_on ho.atWait hg.2
    exact .inr (by simp [view, hg.2, roleOf])
  | resume t => cases ht; simp [step, hc] at hs
  | spurious t => exact absurd rfl (hns t)

theorem CallsHeard.heard {r : Race} {s s' : RaceSt} {o : Op Thread} (h : CallsHeard s o) (ho : Owned (code r) held s)
    (hs : step (code r) s o = some s') : Heard (view s) (view s') := by
  refine ⟨fun x h1 h2 => ?_, fun x h1 h2 => ?_⟩
  all_goals
    have h1 : s.pc .report = _ := h1
    have h2 : s'.pc .report = _ := h2
    have hs' := report_signals (x := x) ho h.1 hs (by rw [h1]; rfl) (by rw [h1, h2]; simp)
  · rcases hs' with e | e
    · have hm := (h.2 x e).1 h1
      simp [view, hm, roleOf]
    · exact e
  · rcases hs' with e | e
    · exact fun hc => (h.2 x e).2 h1 (committed_of_coming hc)
    · simp [e]

/-! ## Main result -/

/-- what is known of every state of a run that loses no call -/
structure Live (r : Race) (s : RaceSt) : Prop where
  known : Known r s
  paced : s.mode .report ≠ .unborn → Paced (view s)
  alive : s.pc .report ≠ .crash

theorem ReportPc.next_crash {r : Race} {w : ℤ} {p : ReportPc} (hd : r.printingDelay ≠ 0)
    (h : p.next r w = some .crash) : p = .crash := by
  unfold next at h
  split at h <;> simp only [Option.some.injEq, reduceCtorEq] at h
  all_goals first | rfl | (split_ifs at h; contradiction) | split_ifs at h

theorem alive_step {r : Race} (hd : r.printingDelay ≠ 0) {s s' : RaceSt} (ho : Owned (code r) held s)
    (h : s.pc .report ≠ .crash) (hs : RaceStep r s s') : s'.pc .report ≠ .crash := by
  rcases hs with hm | hr | ⟨x, hp⟩
  · have : s'.pc .report = s.pc .report := by cases hm <;> rfl
    rwa [this]
  · cases hr with
    | quiet w l hr hq =>
      intro hc
      simp only [goto_pc_self] at hc
      subst hc
      exact h (ReportPc.next_crash hd hq)
    | await w hr hp => exact h
    | exit hr hp => exact h
    | _ => simp
  · rw [(hp.frame ho.atWait).pc _ (by simp)]
    exact h

theorem Live.step {r : Race} (hr : r.Valid) (hd : r.printingDelay ≠ 0) {s s' : RaceSt} {o : Op Thread} (h : Live r s)
    (hok : CallsHeard s o) (hs : step (code r) s o = some s') : Live r s' := by
  have hstep := race_step hok.1 hs
  have hk := h.known
  refine ⟨hk.step hr hok.1 hs, fun hb => ?_, ?_⟩
  · by_cases hu : s.mode .report = .unborn
    · obtain ⟨hv, -⟩ := create_report_view hk.owned hu hstep hb
      have hf := hk.startup.fresh hu
      have hw := hf.noWinner
      rw [hv]
      refine ⟨fun x he => ?_, fun x hx => ?_⟩
      · have := he.1
        simp [view, hf.report] at this
      · simp [View.Dismissed, view, hf.report, hw] at hx
    · rcases view_step hk.startup hk.owned hu hstep with hv | hv
      · rw [hv]; exact h.paced hu
      · exact (h.paced hu).step (hk.inv hu) hv (hok.heard hk.owned hs)
  · exact alive_step hd hk.owned h.alive hstep

theorem live {r : Race} (hr : r.Valid) (hd : r.printingDelay ≠ 0) {s : RaceSt}
    (hs : ReachIf (step (code r)) CallsHeard initial s) : Live r s :=
  hs.invariant ⟨known hr .init, fun hb => absurd rfl hb, by simp [initial]⟩
    fun _ _ _ _ h hok hst => h.step hr hd hok hst

/-- once the Reporter is created, `main` holds no lock -/
theorem main_holds_nothing {r : Race} {s : RaceSt} (h : Startup r s) (hb : s.mode .report ≠ .unborn) :
    mainHeld (s.pc .main) = [] := by
  have hst := h.reporter.not.1 hb
  cases hp : s.pc .main with
  | testReached x | wait x | release x =>
    have := x.index_lt
    simp only [hp, MainPc.stage] at hst
    omega
  | _ => rfl

/-- when no race thread can move, each of them waits or has left -/
theorem stuck_cases {r : Race} {s : RaceSt} (h : Startup r s) (ho : Owned (code r) held s)
    (hb : s.mode .report ≠ .unborn) (hn : ∀ t, t ≠ .main → ¬ Enabled (code r) s t) {t : Thread} (ht : t ≠ .main) :
    s.mode t = .exited ∨ ∃ c, s.mode t = .waiting c := by
  have hfree : ∀ u l, s.owner l = some u → ¬ Enabled (code r) s u := by
    intro u l hl
    refine hn u ?_
    rintro rfl
    have := ((ho.owner l .main).1 hl).2
    rw [show held .main (s.pc .main) = [] from main_holds_nothing h hb] at this
    cases this
  refine (others_blocked ho (unlocked (disciplined r) lockRank_lt ho hfree) ht (hn t ht)).resolve_left fun e => ?_
  have hst := h.reporter.not.1 hb
  cases t with
  | main => exact ht rfl
  | report => exact hb e
  | player x =>
    have := (h.player x).1 e
    have := x.index_lt
    omega

/-- when all have left, `main` joins them -/
theorem main_joins {r : Race} {s : RaceSt} (h : Known r s) (hall : ∀ t, t ≠ .main → s.mode t = .exited) :
    s.mode .main = .exited ∨ Enabled (code r) s .main := by
  have hst := h.startup.reporter.not.1 (by simp [hall .report (by simp)])
  have hwait : ∀ x, s.pc .main ≠ .wait x := by
    intro x e
    have := x.index_lt
    simp only [e, MainPc.stage] at hst
    omega
  have hcode : ∀ {c l p}, mainCode (s.pc .main) ≠ .wait c l p := by
    intro c l p e
    unfold mainCode at e
    split at e <;> cases e
    exact hwait _ ‹_›
  have hrun : s.mode .main = .exited ∨ s.mode .main = .run := by
    cases hm : s.mode .main with
    | unborn => exact absurd hm h.startup.main
    | run => exact .inr rfl
    | exited => exact .inl rfl
    | waiting c =>
      obtain ⟨l, p, hc⟩ := h.owned.atWait.waiting .main c hm
      exact absurd hc hcode
    | woken =>
      obtain ⟨c, l, p, hc⟩ := h.owned.atWait.woken .main hm
      exact absurd hc hcode
  refine hrun.imp_right fun hm => .inl ?_
  have hx := fun x : Player => x.index_lt
  cases hp : s.pc .main with
  | joinPlayer x => cases x <;> simp [step, hm, hp, code, mainCode, exec, hall]
  | joinReport | ret | done w => simp [step, hm, hp, code, mainCode, exec, hall]
  | init todo | createReport => simp [hp, MainPc.stage] at hst
  | create x | acquire x | testReached x | wait x | release x =>
    have := hx x
    simp only [hp, MainPc.stage] at hst
    omega

/-- **The race does not get stuck.** In every run that loses no call, from the creation of the Reporter on: until all
four threads have left, one of them can take a step; the Reporter does not wait for a player that waits for it or has
left; when the Reporter has left, no player waits for it; and when all have left, `main` can finish its joins. -/
theorem race_live (r : Race) (hf : 0 < r.finishDistance.toInt) (hv : 0 ≤ r.tortoiseSpeed.toInt)
    (hh : 0 ≤ r.hareSpeed.toInt) (hd : 0 < r.printingDelay.toInt) {s : RaceSt}
    (hs : ReachIf (step (code r)) CallsHeard initial s) (hb : s.mode .report ≠ .unborn) :
    ((∃ t, t ≠ .main ∧ s.mode t ≠ .exited) → ∃ t, t ≠ .main ∧ Enabled (code r) s t) ∧
    (∀ x, s.mode .report = .waiting (.playerToReporter x) →
      s.mode (.player x) ≠ .waiting (.reporterToPlayer x) ∧ s.mode (.player x) ≠ .exited) ∧
    (s.mode .report = .exited → ∀ x, s.mode (.player x) ≠ .waiting (.reporterToPlayer x)) ∧
    ((∀ t, t ≠ .main → s.mode t = .exited) → s.mode .main = .exited ∨ Enabled (code r) s .main) ∧
    s.pc .report ≠ .crash := by
  have hr : r.Valid := ⟨hf, hv, hh⟩
  have hl := live hr (by rintro e; simp [e] at hd) hs
  have hk := hl.known
  have hp := hl.paced hb
  -- a player that sleeps or has left is not awake
  have hcalled : ∀ x, s.mode .report = .waiting (.playerToReporter x) → ((view s).role x).Awake := fun x hm =>
    hp.engaged x ⟨(waits_on hk.owned.atWait hm).2, .inr hm⟩
  have hwait : ∀ x, s.mode .report = .waiting (.playerToReporter x) →
      s.mode (.player x) ≠ .exited ∧ ∀ c, s.mode (.player x) ≠ .waiting c := by
    intro x hm
    have := hcalled x hm
    refine ⟨fun e => ?_, fun c e => ?_⟩ <;> simp [view, e, roleOf, Role.Awake] at this
  have hleft : s.mode .report = .exited → ∀ x c, s.mode (.player x) ≠ .waiting c := by
    intro he x c e
    have hpc := hk.startup.exited he
    have := (hp.dismissed x (by simp [View.Dismissed, view, hpc])).2
    simp [view, e, roleOf] at this
  refine ⟨?_, fun x hm => ⟨(hwait x hm).2 _, (hwait x hm).1⟩, fun he x => hleft he x _, main_joins hk, hl.alive⟩
  rintro ⟨u, hu, hue⟩
  by_contra hno
  push Not at hno
  have hst : ∀ t, t ≠ .main → s.mode t = .exited ∨ ∃ c, s.mode t = .waiting c := fun t =>
    stuck_cases hk.startup hk.owned hb hno
  rcases hst .report (by simp) with he | ⟨c, hc⟩
  · rcases u with _ | _ | x
    · exact hu rfl
    · exact hue he
    · rcases hst _ hu with e | ⟨c, e⟩
      · exact hue e
      · exact hleft he x c e
  · have hw := waits_on hk.owned.atWait hc
    cases c with
    | playerToReporter x =>
      rcases hst (.player x) (by simp) with e | ⟨c, e⟩
      · exact (hwait x hc).1 e
      · exact (hwait x hc).2 c e
    | _ => cases hw.1

theorem race_live_example : ∃ s : RaceSt, ReachIf (step (code ⟨1, 1, 1, 1, 1, 100, []⟩)) CallsHeard initial s ∧
    s.mode .report = .waiting (.playerToReporter .randomizer) ∧
    ∃ t, t ≠ .main ∧ Enabled (code ⟨1, 1, 1, 1, 1, 100, []⟩) s t := by
  have hend : (runIf (step (code ⟨1, 1, 1, 1, 1, 100, []⟩)) (fun s o => decide (CallsHeard s o)) initial
      (initTrace ++ steps .report 4 ++ (handshakeTrace .randomizer 0 5).take 3)).map
      (fun s => s.mode .report) = some (.waiting (.playerToReporter .randomizer)) := by decide +kernel
  obtain ⟨s, hrun, hm⟩ := Option.map_eq_some_iff.1 hend
  have hs := reachIf_of_runIf (fun _ _ => of_decide_eq_true) hrun
  have h := race_live ⟨1, 1, 1, 1, 1, 100, []⟩ (by decide) (by decide) (by decide) (by decide) hs (by simp [hm])
  exact ⟨s, hs, hm, h.1 ⟨.report, by simp, by simp [hm]⟩⟩

/-- The Randomizer is preempted after its first answer and before it tests `no_winner` again; the Turtle and the Hare
take their turns, the Reporter calls the Randomizer for tick 1 and waits for an answer, and the Randomizer waits for a
call. -/
def lostCallTrace : List (Op Thread) :=
  initTrace ++ steps .report 4 ++ handshakeTrace .randomizer 0 1 ++ steps .report 1 ++ handshakeTrace .turtle 5 5 ++
    handshakeTrace .hare 11 5 ++ steps .report 8 ++ steps (.player .randomizer) 4

/-- No thread of the race can move, `main` included, and nobody has left. -/
theorem lost_call : ∃ s : RaceSt, ReachIf (step (code ⟨1, 1, 1, 1, 1, 100, []⟩)) NoSpurious initial s ∧
    (∀ t, s.mode t ≠ .unborn ∧ s.mode t ≠ .exited) ∧ (∀ t, ¬ Enabled (code ⟨1, 1, 1, 1, 1, 100, []⟩) s t) ∧
    s.mode .report = .waiting (.playerToReporter .randomizer) ∧
    s.mode (.player .randomizer) = .waiting (.reporterToPlayer .randomizer) := by
  have hend : (runIf (step (code ⟨1, 1, 1, 1, 1, 100, []⟩)) solicited initial lostCallTrace).any (fun s =>
      (∀ t, s.mode t ≠ .unborn ∧ s.mode t ≠ .exited) ∧ (∀ t, ¬ Enabled (code ⟨1, 1, 1, 1, 1, 100, []⟩) s t) ∧
      s.mode .report = .waiting (.playerToReporter .randomizer) ∧
      s.mode (.player .randomizer) = .waiting (.reporterToPlayer .randomizer)) = true := by decide +kernel
  obtain ⟨s, hrun, hs⟩ := (Option.any_eq_true ..).1 hend
  exact ⟨s, reachIf_of_runIf noSpurious_of_solicited hrun, of_decide_eq_true hs⟩

end DecsLabs.HareTortoise
