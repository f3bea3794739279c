/-
What the Reporter prints. The positions are printed after the Randomizer's turn, at the ticks that the printing delay
divides; a tick is begun only while there is no winner.

- `reportLines`: the lines that the sequential race has for its first ticks.
- `printed_step`, `begun_step`: what a step prints, and which ticks are begun.
- `report_printed`: the lines of every run are those of the sequential race, and when the Reporter has left they are those
  of all ticks up to the one that ends the race.
-/
import DecsLabs.Core.Outline
import DecsLabs.Race.Refinement

namespace DecsLabs.HareTortoise

open DecsLabs.Transition DecsLabs.Pthread

/-! ## Lines -/

/-- the line of tick `t` -/
def reportLine (r : Race) (t : ℕ) : ℤ × ℤ × ℤ :=
  ((sequential r (3 * t + 1)).hareDistance, (sequential r (3 * t + 1)).turtleDistance, t)

/-- the lines of the first `n` ticks -/
def reportLines (r : Race) (n : ℕ) : List (ℤ × ℤ × ℤ) :=
  ((List.range n).filter fun t : ℕ => (t : ℤ).tmod r.printingDelay.toInt = 0).map (reportLine r)

theorem reportLines_succ (r : Race) (n : ℕ) : reportLines r (n + 1) =
    reportLines r n ++ if (n : ℤ).tmod r.printingDelay.toInt = 0 then [reportLine r n] else [] := by
  unfold reportLines
  rw [List.range_succ, List.filter_append, List.map_append]
  split_ifs with h <;> simp [h]

/-- 1 if the line of tick `clock_tick` has been printed or passed over -/
def ReportPc.printed : ReportPc → ℤ
  | .clockRelease | .acquire .randomizer | .signal .randomizer | .wait .randomizer | .release .randomizer | .print
  | .crash => 0
  | _ => 1

/-- as `printed`, but 2 if the next tick is about to begin -/
def ReportPc.begun : ReportPc → ℤ
  | .clockAcquire | .clockInc => 2
  | _ => 1

/-- the ticks whose lines have been printed or passed over -/
def ticksPrinted (s : RaceSt) : ℕ := (s.mem.clockTick + (s.pc .report : ReportPc).printed).toNat

/-- the ticks that have begun or are about to begin -/
def ticksBegun (s : RaceSt) : ℕ := (s.mem.clockTick + (s.pc .report : ReportPc).begun).toNat

/-! ## Instructions -/

/-- only the Reporter moves the clock and prints -/
theorem report_frame (r : Race) {t : Thread} (ht : t ≠ .report) (p : Pc t) (m : Mem) :
    ((code r t p).effect m).clockTick = m.clockTick ∧ ((code r t p).effect m).printed = m.printed := by
  cases t with
  | report => exact absurd rfl ht
  | main =>
    cases p with
    | init todo => rcases todo with _ | ⟨l | c, todo⟩ <;> exact ⟨rfl, rfl⟩
    | release x | joinPlayer x => cases x <;> exact ⟨rfl, rfl⟩
    | _ => exact ⟨rfl, rfl⟩
  | player x =>
    cases p with
    | block a b => cases b <;> exact ⟨rfl, rfl⟩
    | _ => exact ⟨rfl, rfl⟩

section
variable {r : Race} {m : Mem} {p q : ReportPc}

/-- the lines and the ticks before and after an instruction of the Reporter -/
structure Unreported (r : Race) (m : Mem) (p q : ReportPc) : Prop where
  lines : ((reportCode r p).effect m).printed = m.printed
  printed : ((reportCode r p).effect m).clockTick + q.printed = m.clockTick + p.printed

theorem unreported (h : (reportCode r p).next m = some q) (hp : p ≠ .print) : Unreported r m p q := by
  cases p with
  | print => exact absurd rfl hp
  | release x | shutRelease x => cases x <;> (cases h; exact ⟨rfl, rfl⟩)
  | acquire x | signal x | wait x | shutAcquire x | shutSignal x => cases h; cases x <;> exact ⟨rfl, rfl⟩
  | loopTest | endTest =>
    cases h
    simp only
    split_ifs <;> exact ⟨rfl, rfl⟩
  | clockInc =>
    cases h
    exact ⟨rfl, by simp [reportCode, Instr.effect, ReportPc.printed]⟩
  | exit => cases h
  | _ =>
    cases h
    exact ⟨rfl, rfl⟩

theorem begun_next (h : (reportCode r p).next m = some q) : p = .loopTest ∧ m.track.noWinner ≠ 0 ∧ q = .clockAcquire ∨
    ((reportCode r p).effect m).clockTick + q.begun = m.clockTick + p.begun := by
  cases p with
  | loopTest =>
    cases h
    simp only
    split_ifs with ho
    · exact .inl ⟨trivial, ho, rfl⟩
    · exact .inr rfl
  | release x | shutRelease x => right; cases x <;> (cases h; rfl)
  | endTest =>
    right
    cases h
    simp only
    split_ifs <;> rfl
  | print =>
    right
    cases h
    simp only [reportCode, Instr.effect]
    split_ifs <;> rfl
  | clockInc =>
    right
    cases h
    simp only [reportCode, Instr.effect, ReportPc.begun]
    ring
  | exit => cases h
  | _ =>
    right
    cases h
    rfl

end

/-! ## Runs -/

variable {r : Race} {s s' : RaceSt} {o : Op Thread}

structure Reported (r : Race) (s : RaceSt) : Prop where
  printed : s.mem.printed = reportLines r (ticksPrinted s)
  begun : ∀ t < ticksBegun s, (sequential r (3 * t)).noWinner ≠ 0

/-- the track at the loop test and at the print of tick `clock_tick` -/
theorem settled_at (hr : r.Valid) (hk : Known r s) (hb : s.mode .report ≠ .unborn)
    (hp : ∀ x, s.pc .report ≠ .wait x) :
    s.mem.track = sequential r (turnsAt (s.pc .report) (s.mode .report) s.mem.clockTick).toNat := by
  rw [sequential_eq hr]
  exact (hk.inv hb).between (View.not_engaged hp)

theorem Reported.print (hr : r.Valid) (h : Reported r s) (hk : Known r s) (hb : s.mode .report ≠ .unborn)
    (hp : s.pc .report = .print) {q : ReportPc} (hq : (reportCode r .print).next s.mem = some q) :
    ((reportCode r .print).effect s.mem).printed =
      reportLines r (((reportCode r .print).effect s.mem).clockTick + q.printed).toNat := by
  have hclock : 0 ≤ s.mem.clockTick := (hk.inv hb).inTick (by simp [view, hp, ReportPc.InTick])
  obtain ⟨t, ht⟩ := Int.eq_ofNat_of_zero_le hclock
  have htrack : s.mem.track = sequential r (3 * t + 1) := by
    rw [settled_at hr hk hb (by simp [hp]), hp, ht]
    rfl
  have hlines : s.mem.printed = reportLines r t := by
    rw [h.printed, ticksPrinted, hp, ht]
    rfl
  simp only [reportCode, Instr.next, Instr.effect, Option.some.injEq] at hq ⊢
  split_ifs at hq ⊢ with hd hdvd
  · subst hq
    rw [hlines, ht]
    rfl
  all_goals
    subst hq
    rw [ht] at hdvd ⊢
    change _ = reportLines r (t + 1)
    rw [reportLines_succ]
  · rw [if_pos hdvd, hlines, htrack]
    rfl
  · rw [if_neg hdvd, hlines, List.append_nil]

/-- an instruction of the Reporter -/
theorem Reported.advance (hr : r.Valid) (h : Reported r s) (hk : Known r s) (hb : s.mode .report ≠ .unborn) {q : ReportPc}
    (hq : (reportCode r (s.pc .report)).next s.mem = some q) (hpc : s'.pc .report = q)
    (hmem : s'.mem = (reportCode r (s.pc .report)).effect s.mem) : Reported r s' := by
  constructor
  · rw [ticksPrinted, hpc, hmem]
    by_cases hp : s.pc .report = .print
    · rw [hp] at hq ⊢
      exact h.print hr hk hb hp hq
    · have hu := unreported hq hp
      rw [hu.lines, hu.printed]
      exact h.printed
  · intro t ht
    rw [ticksBegun, hpc, hmem] at ht
    rcases begun_next hq with ⟨hp, ho, rfl⟩ | hsame
    · rcases Nat.lt_or_ge t (ticksBegun s) with hlt | hge
      · exact h.begun t hlt
      · -- the new tick begins in the track at the loop test
        have htrack := settled_at hr hk hb (by simp [hp])
        have htick : (turnsAt (s.pc .report) (s.mode .report) s.mem.clockTick).toNat = 3 * t := by
          have hlo : -1 ≤ s.mem.clockTick := (hk.inv hb).clock
          simp only [ticksBegun, hp, ReportPc.begun, reportCode, Instr.effect] at ht hge
          simp only [hp, turnsAt]
          omega
        rw [htrack, htick] at ho
        exact ho
    · rw [hsame] at ht
      exact h.begun t ht

theorem Reported.step (hr : r.Valid) (h : Reported r s) (hs : ReachIf (step (code r)) NoSpurious initial s)
    (hst : step (code r) s o = some s') : Reported r s' := by
  have hmove := step_move hst
  rcases hmove.advance with ⟨hpc, hmem⟩ | ⟨q, hnext, hpc, hmem, -⟩
  · exact ⟨by rw [ticksPrinted, hpc, hmem]; exact h.printed, by rw [ticksBegun, hpc, hmem]; exact h.begun⟩
  · have hborn := hmove.born
    by_cases ho : o.thread = .report
    · generalize o.thread = t at q hnext hpc hmem hborn ho
      subst ho
      exact h.advance hr (known hr hs) hborn hnext (by rw [hpc, Function.update_self]) hmem
    · have hp : s'.pc .report = s.pc .report := hmove.pc_of_ne (Ne.symm ho)
      obtain ⟨hclock, hlines⟩ := report_frame r ho (s.pc o.thread) s.mem
      rw [← hmem] at hclock hlines
      refine ⟨?_, ?_⟩
      · rw [ticksPrinted, hp, hclock, hlines]
        exact h.printed
      · rw [ticksBegun, hp, hclock]
        exact h.begun

theorem reported (hr : r.Valid) (hs : ReachIf (step (code r)) NoSpurious initial s) : Reported r s :=
  hs.invariant ⟨rfl, fun t ht => absurd ht (Nat.not_lt_zero t)⟩ fun _ _ _ hs h _ hst => h.step hr hs hst

/-- **The lines of the Reporter.** In every run without spurious wake-ups they are those of the sequential race, for all
ticks that the printing delay divides and whose print has been passed. When the Reporter has left these are the ticks up to
the first at whose end the sequential race is over. -/
theorem report_printed (r : Race) (hf : 0 < r.finishDistance.toInt) (hv : 0 ≤ r.tortoiseSpeed.toInt)
    (hh : 0 ≤ r.hareSpeed.toInt) {s : RaceSt} (hs : ReachIf (step (code r)) NoSpurious initial s) :
    s.mem.printed = reportLines r (ticksPrinted s) ∧
    (s.mode .report = .exited → IsLeast {n | (sequential r (3 * n)).noWinner = 0} (ticksPrinted s)) := by
  have hr : r.Valid := ⟨hf, hv, hh⟩
  have hreport := reported hr hs
  refine ⟨hreport.printed, fun he => ?_⟩
  have hk := known hr hs
  have hb : s.mode .report ≠ .unborn := by simp [he]
  have hp : s.pc .report = .exit := hk.startup.exited he
  have hlo : -1 ≤ s.mem.clockTick := (hk.inv hb).clock
  have htrack := settled_at hr hk hb (by simp [hp])
  have hover : s.mem.track.noWinner = 0 := by
    apply (hk.inv hb).shut
    rw [show (view s).report = .exit from hp]
    trivial
  have hsame : ticksPrinted s = ticksBegun s := by rw [ticksPrinted, ticksBegun, hp]; rfl
  constructor
  · have hturns : (turnsAt (s.pc .report) (s.mode .report) s.mem.clockTick).toNat = 3 * ticksPrinted s := by
      simp only [ticksPrinted, hp, turnsAt, ReportPc.printed]
      omega
    rw [htrack, hturns] at hover
    exact hover
  · intro n hn
    by_contra hlt
    rw [hsame] at hlt
    exact hreport.begun n (not_le.1 hlt) hn

theorem report_printed_example : ∃ s : RaceSt, ReachIf (step (code ⟨1, 5, 2, 3, 1, 5, []⟩)) NoSpurious initial s ∧
    s.mode .report = .exited ∧ s.mem.printed = [(0, 0, 0)] := by
  have hend : (runIf (step (code ⟨1, 5, 2, 3, 1, 5, []⟩)) solicited initial oneTickTrace).map
      (fun s => (s.mode .report, ticksPrinted s)) = some (.exited, 1) := by decide +kernel
  obtain ⟨s, hrun, he⟩ := Option.map_eq_some_iff.1 hend
  obtain ⟨hm, ht⟩ := Prod.mk.inj he
  have hs := reachIf_of_runIf noSpurious_of_solicited hrun
  have h := report_printed ⟨1, 5, 2, 3, 1, 5, []⟩ (by decide) (by decide) (by decide) hs
  refine ⟨s, hs, hm, ?_⟩
  rw [h.1, ht]
  decide

end DecsLabs.HareTortoise
