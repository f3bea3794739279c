/-
The main loop of the driver over its traces: each is checked, and one that passes is replayed by `eval_mm_util` and, as
often as the timing asks for it, by `eval_mm_speed`. The package and its memory go on from one trace to the next.

The arrays of a trace hold at first what `malloc` has left in them. Of the results the times are left out.

- `validOp_keeps`, `evalMmValid_keeps`: a check leaves the limits of the memory and the length of the arrays, also when it
  fails, and it reaches no assertion when the sizes are above 0.
- `evalTrace_judges`: one round of the loop.
- `every_trace_judged`: the loop comes to its end, and each trace is counted once.
- `mm_passes`, `mm_session`: on mm.c, for traces without reallocations, all of the results follow from the requests.
-/
import DecsLabs.Malloc.TraceReplays
import DecsLabs.Malloc.Utilisation

namespace DecsLabs.Malloc

open DecsLabs.Transition

variable {σ ν : Type}

/-! ## Model -/

/-- a trace that has been read, the arrays with what is in them, and the calls of `eval_mm_speed` for its timing -/
structure Task where
  ops : List TraceOp
  slots : List Slot
  calls : ℕ

structure Session (σ : Type) where
  machine : Machine σ
  ranges : List Range
  errors : ℕ
  /-- `mm_stats` so far: for a valid trace the two numbers of which `util` is the ratio -/
  stats : List (Option (Int32 × UInt32))

/-- how the driver is ended inside of the loop -/
inductive Abort where
  | assertion
  | exit (e : Exit)
deriving DecidableEq, Repr

/-- `eval_mm_util` with all that it leaves -/
def utilTally (pkg : Package σ) (ops : List TraceOp) (m : Machine σ) (slots : List Slot) : Except Exit (Tally σ) :=
  let (r, m) := pkg.mmInit m.reset
  if r < 0 then .error (.appError "mm_init failed in eval_mm_util")
  else ops.foldlM (utilOp pkg) ⟨m, slots, 0, 0⟩

/-- `fsecs(eval_mm_speed, &speed_params)` -/
def speedRuns (pkg : Package σ) (ops : List TraceOp) : ℕ → Machine σ → List Slot → Except Exit (Machine σ)
  | 0, m, _ => .ok m
  | k + 1, m, slots => (evalMmSpeed pkg ops m slots).bind fun s => speedRuns pkg ops k s.1 s.2

def evalTrace (pkg : Package σ) (s : Session σ) (t : Task) : Except Abort (Session σ) :=
  match evalMmValid pkg t.ops ⟨s.machine, s.ranges, t.slots⟩ with
  | (some (_, .assertion), _) => .error .assertion
  | (some (_, .outOfBounds), _) => .error (.exit .outOfBounds)
  | (some (_, .complaint _), d) => .ok ⟨d.machine, d.ranges, s.errors + 1, s.stats ++ [none]⟩
  | (none, d) =>
    match utilTally pkg t.ops d.machine d.slots with
    | .error e => .error (.exit e)
    | .ok u =>
      match speedRuns pkg t.ops t.calls u.machine u.slots with
      | .error e => .error (.exit e)
      | .ok m => .ok ⟨m, d.ranges, s.errors, s.stats ++ [some (u.maxTotalSize, memHeapsize u.machine.heap)]⟩

def evalTraces (pkg : Package σ) (s : Session σ) (ts : List Task) : Except Abort (Session σ) := ts.foldlM (evalTrace pkg) s

variable {pkg : Package σ} {view : Machine σ → ν} {d d' : Driver σ} {op : TraceOp} {ops : List TraceOp} {m : Machine σ}
  {slots : List Slot} {t : Task} {s : Session σ}

theorem evalMmUtil_tally : evalMmUtil pkg ops m slots =
    (utilTally pkg ops m slots).map fun t => (t.maxTotalSize, memHeapsize t.machine.heap) := by
  unfold evalMmUtil utilTally
  dsimp only
  split_ifs <;> rfl

/-! ## The check -/

theorem addRange_positive {h : Heap} {ranges : List Range} {lo : UInt32} {size : Int32} (hsize : size > 0) :
    addRange h ranges lo size ≠ .error .assertion := by
  unfold addRange
  dsimp only
  rw [if_neg (not_not.2 hsize)]
  cases ranges.find? (Range.overlaps lo (lo + size.toUInt32 - 1)) with
  | some p => split_ifs <;> simp
  | none => split_ifs <;> simp

theorem validOp_keeps (hb : BlindAt pkg view d op) (hop : Positive op) :
    (validOp pkg d op).1 ≠ some .assertion ∧ (validOp pkg d op).2.machine.reset.heap = d.machine.reset.heap := by
  cases op with
  | alloc index size =>
    have hlimits := (hb.call (.malloc size.toUInt32) rfl d.machine rfl).2.2
    rw [Package.call] at hlimits
    rcases hcall : pkg.mmMalloc d.machine size.toUInt32 with ⟨p, m⟩
    rw [hcall] at hlimits
    have hadd : addRange m.heap d.ranges p size ≠ .error .assertion := addRange_positive hop
    simp only [validOp, hcall]
    by_cases hp : p = null
    · simpa [hp] using hlimits
    rw [if_neg hp]
    cases hresult : addRange m.heap d.ranges p size with
    | error e =>
      rw [hresult] at hadd
      exact ⟨fun h => hadd (congrArg Except.error (Option.some.inj h)), hlimits⟩
    | ok ranges =>
      cases entry d.slots index with
      | none => exact ⟨by simp, hlimits⟩
      | some old => exact ⟨by simp, hlimits⟩
  | realloc index size =>
    cases hold : entry d.slots index with
    | none => simp [validOp, hold]
    | some old =>
      have hc : callFor d.slots (.realloc index size) = some (.realloc old.block size.toUInt32) := by
        simp only [callFor, hold, Option.map_some]
      have hlimits := (hb.call _ hc d.machine rfl).2.2
      rw [Package.call] at hlimits
      rcases hcall : pkg.mmRealloc d.machine old.block size.toUInt32 with ⟨p, m⟩
      rw [hcall] at hlimits
      have hadd : addRange m.heap (removeRange d.ranges old.block) p size ≠ .error .assertion := addRange_positive hop
      simp only [validOp, hold, hcall]
      by_cases hp : p = null
      · simpa [hp] using hlimits
      rw [if_neg hp]
      cases hresult : addRange m.heap (removeRange d.ranges old.block) p size with
      | error e =>
        rw [hresult] at hadd
        exact ⟨fun h => hadd (congrArg Except.error (Option.some.inj h)), hlimits⟩
      | ok ranges =>
        dsimp only
        split_ifs
        · exact ⟨by simp, hlimits⟩
        · exact ⟨by simp, hlimits⟩
  | free index =>
    cases hold : entry d.slots index with
    | none => simp [validOp, hold]
    | some old =>
      have hc : callFor d.slots (.free index) = some (.free old.block) := by
        simp only [callFor, hold, Option.map_some]
      have hlimits := (hb.call _ hc d.machine rfl).2.2
      simp only [validOp, hold]
      exact ⟨by simp, hlimits⟩

/-- what a check leaves, whether the trace passes or not -/
structure Keeps (d : Driver σ) (r : Option (ℕ × Stop) × Driver σ) : Prop where
  limits : r.2.machine.reset.heap = d.machine.reset.heap
  length : r.2.slots.length = d.slots.length
  complains : ∀ i e, r.1 = some (i, e) → ∃ c, e = .complaint c

theorem validOps_keeps (hb : Along (validStep pkg) (BlindAt pkg view) d ops) {k : ℕ}
    (hops : ∀ op ∈ ops, InArray d.slots.length op.index ∧ Positive op) :
    Keeps d (validOps pkg k ops d) := by
  induction ops generalizing d k with
  | nil => exact ⟨rfl, rfl, fun i e h => by cases h⟩
  | cons op ops ih =>
    obtain ⟨⟨hindex, hpos⟩, hrest⟩ := List.forall_mem_cons.1 hops
    have hinside : (validOp pkg d op).1 ≠ some .outOfBounds ∧ _ := validOp_inside hindex
    have hkeeps := validOp_keeps hb.1 hpos
    rw [validOps]
    rcases hstep : validOp pkg d op with ⟨_ | e, d1⟩
    · have hnextBlind := hb.2 d1 (by rw [validStep, hstep])
      rw [hstep] at hinside hkeeps
      have hnext := ih hnextBlind (k := k + 1) (hinside.2.symm ▸ hrest)
      exact ⟨hnext.limits.trans hkeeps.2, hnext.length.trans hinside.2, hnext.complains⟩
    · rw [hstep] at hinside hkeeps
      refine ⟨hkeeps.2, hinside.2, fun i e' h => ?_⟩
      cases h
      cases e with
      | complaint c => exact ⟨c, rfl⟩
      | assertion => exact absurd rfl hkeeps.1
      | outOfBounds => exact absurd rfl hinside.1

theorem evalMmValid_keeps (hb : Blind pkg view d ops) (hops : ∀ op ∈ ops, InArray d.slots.length op.index ∧ Positive op) :
    Keeps d (evalMmValid pkg ops d) := by
  have hinit : (pkg.mmInit d.machine.reset).2.reset.heap = d.machine.reset.heap := (hb.init _ rfl).2.2
  unfold evalMmValid
  dsimp only
  split_ifs
  · refine ⟨hinit, rfl, fun i e h => ?_⟩
    cases h
    exact ⟨_, rfl⟩
  · have h := validOps_keeps hb.calls (k := 0) hops
    exact ⟨h.limits.trans hinit, h.length, h.complains⟩

/-! ## The replays -/

theorem utilTally_accepted (hb : Blind pkg view d ops) (hbal : Balanced ops) (hacc : evalMmValid pkg ops d = (none, d'))
    (hm : m.reset.heap = d.machine.reset.heap) (hlength : slots.length = d.slots.length) :
    ∃ u, utilTally pkg ops m slots = .ok u ∧ u.machine.reset.heap = d.machine.reset.heap ∧
      u.slots.length = d.slots.length := by
  obtain ⟨hinit, u, s, hutil, hagree, -, -⟩ := accepted_runs hb hbal hacc hm hlength
  refine ⟨u, ?_, hagree.limits, hagree.length'⟩
  simp only [utilTally, if_neg hinit]
  exact hutil

theorem speedRuns_accepted (hb : Blind pkg view d ops) (hbal : Balanced ops)
    (hacc : evalMmValid pkg ops d = (none, d')) (k : ℕ) (hm : m.reset.heap = d.machine.reset.heap) (hlength : slots.length = d.slots.length) :
    ∃ m', speedRuns pkg ops k m slots = .ok m' ∧ m'.reset.heap = d.machine.reset.heap := by
  induction k generalizing m slots with
  | zero => exact ⟨m, rfl, hm⟩
  | succ k ih =>
    obtain ⟨hinit, u, s, -, hagree, hspeed, hs⟩ := accepted_runs hb hbal hacc hm hlength
    have hfirst : evalMmSpeed pkg ops m slots = .ok s := by
      simp only [evalMmSpeed, if_neg hinit]
      exact hspeed
    have hlimits : s.1.reset.heap = d.machine.reset.heap := by
      rw [hs.machine_eq]
      exact hagree.limits
    obtain ⟨m', hm', hlimits'⟩ := ih hlimits (hs.length.trans hagree.length')
    refine ⟨m', ?_, hlimits'⟩
    rw [speedRuns, hfirst]
    exact hm'

/-! ## The loop -/

/-- requests of sizes above 0, balanced, with indices in the arrays -/
structure Task.Ready (t : Task) : Prop where
  balanced : Balanced t.ops
  ops : ∀ op ∈ t.ops, InArray t.slots.length op.index ∧ Positive op

instance (n : ℕ) (index : Int32) : Decidable (InArray n index) := inferInstanceAs (Decidable (_ ∧ _))

instance : DecidablePred Positive := fun op =>
  match op with
  | .alloc _ size => inferInstanceAs (Decidable (size > 0))
  | .realloc _ size => inferInstanceAs (Decidable (size > 0))
  | .free _ => inferInstanceAs (Decidable True)

/-- one more result -/
def Session.judged (s : Session σ) (m : Machine σ) (ranges : List Range) (v : Option (Int32 × UInt32)) : Session σ :=
  ⟨m, ranges, s.errors + if v.isSome then 0 else 1, s.stats ++ [v]⟩

/-- the trace passes the check in the session `s`, and `r` is what `eval_mm_util` then finds -/
def PassesIn (pkg : Package σ) (s : Session σ) (t : Task) (r : Int32 × UInt32) : Prop :=
  ∃ d, evalMmValid pkg t.ops ⟨s.machine, s.ranges, t.slots⟩ = (none, d) ∧ evalMmUtil pkg t.ops d.machine d.slots = .ok r

theorem evalTrace_judges (hb : Blind pkg view ⟨s.machine, s.ranges, t.slots⟩ t.ops) (ht : t.Ready) :
    ∃ m ranges v, evalTrace pkg s t = .ok (s.judged m ranges v) ∧ m.reset.heap = s.machine.reset.heap ∧
      ∀ r, v = some r ↔ PassesIn pkg s t r := by
  have hkeeps : Keeps ⟨s.machine, s.ranges, t.slots⟩ _ := evalMmValid_keeps hb ht.ops
  unfold evalTrace PassesIn
  rcases hvalid : evalMmValid pkg t.ops ⟨s.machine, s.ranges, t.slots⟩ with ⟨_ | ⟨i, e⟩, d⟩
  · rw [hvalid] at hkeeps
    obtain ⟨u, hu, hlimits, hlength⟩ := utilTally_accepted hb ht.balanced hvalid hkeeps.limits hkeeps.length
    obtain ⟨m, hm, hlimits'⟩ := speedRuns_accepted hb ht.balanced hvalid t.calls hlimits hlength
    have hutil : evalMmUtil pkg t.ops d.machine d.slots = .ok (u.maxTotalSize, memHeapsize u.machine.heap) := by
      rw [evalMmUtil_tally, hu]
      rfl
    refine ⟨m, d.ranges, some (u.maxTotalSize, memHeapsize u.machine.heap), ?_, hlimits', fun r => ⟨?_, ?_⟩⟩
    · simp only [hu, hm]
      rfl
    · rintro ⟨⟩
      exact ⟨d, rfl, hutil⟩
    · rintro ⟨d', hd, hr⟩
      cases hd
      rw [hutil] at hr
      cases hr
      rfl
  · rw [hvalid] at hkeeps
    obtain ⟨c, rfl⟩ := hkeeps.complains i e rfl
    refine ⟨d.machine, d.ranges, none, rfl, hkeeps.limits, fun r => ⟨?_, ?_⟩⟩
    · rintro ⟨⟩
    · rintro ⟨d', hd, -⟩
      cases hd

/-- the session after the traces `ts` -/
structure Totals (m : Machine σ) (ts : List Task) (s : Session σ) : Prop where
  limits : s.machine.reset.heap = m.reset.heap
  judged : s.stats.length = ts.length
  errors : s.errors = s.stats.countP Option.isNone

theorem Totals.step {ts : List Task} (hb : Blind pkg view ⟨s.machine, s.ranges, t.slots⟩ t.ops) (h : Totals m ts s)
    (ht : t.Ready) :
    ∃ s', evalTrace pkg s t = .ok s' ∧ Totals m (ts ++ [t]) s' ∧ s.stats <+: s'.stats ∧
      ∀ r, s'.stats[ts.length]? = some (some r) ↔ PassesIn pkg s t r := by
  obtain ⟨m', ranges, v, heval, hlimits, hv⟩ := evalTrace_judges hb ht
  refine ⟨_, heval, ⟨hlimits.trans h.limits, ?_, ?_⟩, List.prefix_append _ _, fun r => ?_⟩
  · simp [Session.judged, h.judged]
  · cases v <;> simp [Session.judged, h.errors]
  · rw [← hv r, Session.judged, ← h.judged]
    simp

/-- the trace behind `pre` has its result in the session that `pre` has left -/
def JudgedAt (pkg : Package σ) (m : Machine σ) (s : Session σ) (pre : List Task) (t : Task) : Prop :=
  ∃ s1, evalTraces pkg ⟨m, clearRanges, 0, []⟩ pre = .ok s1 ∧ s1.machine.reset.heap = m.reset.heap ∧
    ∀ r, s.stats[pre.length]? = some (some r) ↔ PassesIn pkg s1 t r

/-- in every check of the session over `ts` -/
def BlindThrough (pkg : Package σ) (view : Machine σ → ν) (m : Machine σ) (ts : List Task) : Prop :=
  ∀ pre t, pre ++ [t] <+: ts → ∀ s, evalTraces pkg ⟨m, clearRanges, 0, []⟩ pre = .ok s →
    Blind pkg view ⟨s.machine, s.ranges, t.slots⟩ t.ops

theorem evalTraces_total {ts : List Task} (hb : BlindThrough pkg view m ts) (hts : ∀ t ∈ ts, t.Ready) :
    ∃ s, evalTraces pkg ⟨m, clearRanges, 0, []⟩ ts = .ok s ∧ Totals m ts s ∧
      ∀ pre t, pre ++ [t] <+: ts → JudgedAt pkg m s pre t := by
  induction ts using List.reverseRecOn with
  | nil =>
    refine ⟨_, rfl, ⟨rfl, rfl, rfl⟩, fun pre t h => ?_⟩
    simp at h
  | append_singleton ts t ih =>
    obtain ⟨hts', ht⟩ := List.forall_mem_append.1 hts
    have hb' : BlindThrough pkg view m ts := fun pre u hpre => hb pre u (hpre.trans (List.prefix_append _ _))
    obtain ⟨s, hs, htotals, hjudged⟩ := ih hb' hts'
    obtain ⟨s', hs', htotals', hprefix, hv⟩ := htotals.step (hb ts t (List.prefix_refl _) s hs) (ht t (by simp))
    refine ⟨s', ?_, htotals', fun pre u h => ?_⟩
    · unfold evalTraces at hs ⊢
      rw [List.foldlM_append, hs]
      change evalTrace pkg s t >>= pure = _
      rw [hs']
      rfl
    rcases List.prefix_concat_iff.1 h with he | hpre
    · obtain ⟨rfl, hu⟩ := List.append_inj' he rfl
      obtain rfl : u = t := by simpa using hu
      exact ⟨s, hs, htotals.limits, hv⟩
    · -- the results of earlier traces stay where they are
      obtain ⟨s1, hs1, hlimits, hiff⟩ := hjudged pre u hpre
      refine ⟨s1, hs1, hlimits, ?_⟩
      have hlt : pre.length < s.stats.length := by
        have hle := hpre.length_le
        rw [List.length_append, List.length_singleton] at hle
        rw [htotals.judged]
        omega
      obtain ⟨rest, hrest⟩ := hprefix
      rw [← hrest, List.getElem?_append_left hlt]
      exact hiff

/-- **Every trace is judged.** For any traces that are balanced, with sizes above 0 and indices in their arrays, and a
package that resets itself and does not look into payloads in the checks of the session: the loop comes to its end, however
often the replays are timed.
A trace is valid if it passes the check in the session that the traces before it have left, and its utilization is the one
of `eval_mm_util` there. Errors and valid traces make up all, so the performance index is computed when all pass. -/
theorem every_trace_judged {ts : List Task} (hb : BlindThrough pkg view m ts) (hts : ∀ t ∈ ts, t.Ready) :
    ∃ s, evalTraces pkg ⟨m, clearRanges, 0, []⟩ ts = .ok s ∧ s.stats.length = ts.length ∧
      s.errors + s.stats.countP Option.isSome = ts.length ∧ (s.errors = 0 ↔ ∀ v ∈ s.stats, v.isSome) ∧
      ∀ pre t, pre ++ [t] <+: ts → JudgedAt pkg m s pre t := by
  obtain ⟨s, hs, htotals, hjudged⟩ := evalTraces_total hb hts
  refine ⟨s, hs, htotals.judged, ?_, ?_, hjudged⟩
  · have hnot : (fun v : Option (Int32 × UInt32) => decide ¬v.isNone = true) = Option.isSome := by
      funext v
      cases v <;> rfl
    rw [← htotals.judged, htotals.errors, List.length_eq_countP_add_countP Option.isNone, hnot]
  · rw [htotals.errors, List.countP_eq_zero]
    simp [Option.isSome_iff_ne_none]

theorem mm_blindThrough (m : Machine Unit) (ts : List Task) : BlindThrough mm Machine.heap m ts :=
  fun _ _ _ _ _ => mm_blind _ _

/-- two traces, of which the first asks for more than the heap has -/
def twoTasks : List Task := [⟨[.alloc 0 30000000], [⟨7, 7⟩], 10⟩, ⟨twoBlocks, [⟨7, 7⟩, ⟨9, 9⟩], 10⟩]

theorem twoTasks_ready : ∀ t ∈ twoTasks, t.Ready := by
  intro t ht
  rcases List.mem_pair.1 ht with rfl | rfl
  · exact ⟨by decide, by decide⟩
  · exact ⟨by decide, by decide⟩

theorem every_trace_judged_example : ∃ s, evalTraces mm ⟨freshDriver.machine, clearRanges, 0, []⟩ twoTasks = .ok s ∧
    s.stats.length = 2 ∧ s.errors + s.stats.countP Option.isSome = 2 := by
  obtain ⟨s, hs, hlength, hsum, -⟩ := every_trace_judged (mm_blindThrough freshDriver.machine twoTasks) twoTasks_ready
  exact ⟨s, hs, hlength, hsum⟩

/-! ## mm.c -/

def Reallocates (op : TraceOp) : Prop := ∃ index size, op = .realloc index size

/-- without reallocations only the sum of the requests counts -/
theorem along_passes {n start : ℕ} {bytes : ℕ → UInt8} {b : Bump} (hops : ∀ op ∈ ops, InArray n op.index ∧ Positive op)
    (hno : ∀ op ∈ ops, ¬ Reallocates op) (hroom : b.taken + requested ops ≤ maxHeap) :
    Along bumpStep (Passes n start bytes) b ops := by
  induction ops generalizing b with
  | nil => trivial
  | cons op ops ih =>
    obtain ⟨⟨hindex, hpos⟩, hrest⟩ := List.forall_mem_cons.1 hops
    obtain ⟨hop, hnone⟩ := List.forall_mem_cons.1 hno
    rw [requested, List.map_cons, List.sum_cons, ← add_assoc] at hroom
    have hfirst : b.taken + taken op ≤ maxHeap := (Nat.le_add_right _ _).trans hroom
    cases op with
    | alloc index size =>
      refine ⟨⟨hindex, hpos, hfirst⟩, ?_⟩
      rintro b' ⟨⟩
      exact ih hrest hnone hroom
    | realloc index size => exact absurd ⟨index, size, rfl⟩ hop
    | free index =>
      refine ⟨hindex, ?_⟩
      rintro b' ⟨⟩
      exact ih hrest hnone hroom

/-- a trace of mm.c without reallocations, with sizes that do not reach around the end of the address space -/
structure Task.Plain (start : ℕ) (t : Task) : Prop extends t.Ready where
  space : ∀ op ∈ t.ops, SpaceOp start op
  resizes : ∀ op ∈ t.ops, ¬ Reallocates op

theorem mm_passes {start : ℕ} {s : Session Unit} (hpos : 0 < start) (hdvd : 8 ∣ start)
    (hl : Level start 0 s.machine.reset.heap) (ht : t.Plain start) :
    (∀ r, PassesIn mm s t r → requested t.ops ≤ maxHeap) ∧
      (requested t.ops ≤ maxHeap → ∃ hwm size, PassesIn mm s t (hwm, size) ∧ IsPeak t.ops hwm ∧
        size.toNat = requested t.ops) := by
  have hmax : s.machine.heap.memMaxAddr.toNat = s.machine.heap.memStartBrk.toNat + maxHeap := by
    rw [show s.machine.heap.memStartBrk.toNat = start from hl.start_eq]
    exact hl.max_eq
  have hstart : s.machine.heap.memStartBrk.toNat = start := hl.start_eq
  let d : Driver Unit := ⟨s.machine, s.ranges, t.slots⟩
  have hiff := (initialized_bumped (d := d) hmax).run_iff (hstart ▸ hpos) (hstart ▸ hdvd)
    (fun op hop => hstart ▸ ht.space op hop)
  constructor
  · rintro r ⟨d', hvalid, -⟩
    have hrun := (evalMmValid_iff.1 hvalid).2
    have hsum := (requested_le (Nat.zero_le _) (hiff.1 (Option.isSome_iff_exists.2 ⟨d', hrun⟩))).2
    exact (Nat.le_add_left _ _).trans hsum
  · intro hroom
    have hsum : 0 + requested t.ops ≤ maxHeap := (zero_add _).trans_le hroom
    obtain ⟨d', hrun⟩ := Option.isSome_iff_exists.1 (hiff.2 (along_passes ht.ops ht.resizes hsum))
    have hinit : ¬ (mm.mmInit d.machine.reset).1 < 0 := show ¬ (0 : Int32) < 0 by decide
    have hvalid : evalMmValid mm t.ops d = (none, d') := evalMmValid_iff.2 ⟨hinit, hrun⟩
    have hkeeps : Keeps d (evalMmValid mm t.ops d) := evalMmValid_keeps (mm_blind _ _) ht.ops
    rw [hvalid] at hkeeps
    have hl' : Level start 0 d'.machine.reset.heap := by
      rw [hkeeps.limits]
      exact hl
    have hops : ∀ op ∈ t.ops, Positive op ∧ InArray d'.slots.length op.index := by
      intro op hop
      rw [hkeeps.length]
      exact (ht.ops op hop).symm
    obtain ⟨hwm, size, hutil, hpeak, hsize, -⟩ := hl'.utilised hpos hdvd ht.balanced hops hroom
    exact ⟨hwm, size, ⟨d', hvalid, hutil⟩, hpeak, hsize⟩

/-- what the driver finds for a trace without reallocations -/
def Task.Gets (t : Task) (v : Option (Int32 × UInt32)) : Prop :=
  (maxHeap < requested t.ops → v = none) ∧
    (requested t.ops ≤ maxHeap → ∃ hwm size, v = some (hwm, size) ∧ IsPeak t.ops hwm ∧ size.toNat = requested t.ops)

theorem Task.Gets.isNone_iff {v : Option (Int32 × UInt32)} (h : t.Gets v) : v.isNone ↔ maxHeap < requested t.ops := by
  constructor
  · intro hv
    by_contra hroom
    obtain ⟨hwm, size, rfl, -⟩ := h.2 (not_lt.1 hroom)
    cases hv
  · intro hmore
    rw [h.1 hmore]
    rfl

/-- **Sessions on mm.c.** For traces without reallocations the traces before do not matter: a trace is valid when its
requests, each rounded up, sum up to no more than the heap has, and then its utilization is the most bytes in use at once by
that sum. -/
theorem mm_session (m : Machine Unit) (hmax : m.heap.memMaxAddr.toNat = m.heap.memStartBrk.toNat + maxHeap)
    (hpos : 0 < m.heap.memStartBrk.toNat) (hdvd : 8 ∣ m.heap.memStartBrk.toNat) {ts : List Task}
    (hts : ∀ t ∈ ts, t.Plain m.heap.memStartBrk.toNat) :
    ∃ s, evalTraces mm ⟨m, clearRanges, 0, []⟩ ts = .ok s ∧ s.stats.length = ts.length ∧
      s.errors = ts.countP (fun t : Task => maxHeap < requested t.ops) ∧
      ∀ (i : ℕ) (t : Task), ts[i]? = some t → ∃ v, s.stats[i]? = some v ∧ t.Gets v := by
  obtain ⟨s, hs, htotals, hjudged⟩ := evalTraces_total (mm_blindThrough m ts) (fun t ht => (hts t ht).toReady)
  have hgets : ∀ (i : ℕ) (t : Task), ts[i]? = some t → ∃ v, s.stats[i]? = some v ∧ t.Gets v := by
    intro i t ht
    obtain ⟨hi, rfl⟩ := List.getElem?_eq_some_iff.1 ht
    have hpre : ts.take i ++ [ts[i]] <+: ts := by
      rw [List.take_append_getElem hi]
      exact List.take_prefix _ _
    obtain ⟨s1, -, hlimits, hresult⟩ := hjudged _ _ hpre
    rw [List.length_take_of_le hi.le] at hresult
    have hl : Level m.heap.memStartBrk.toNat 0 s1.machine.reset.heap := by
      rw [hlimits]
      exact ⟨rfl, hmax, rfl, Nat.zero_le _, dvd_zero 8⟩
    obtain ⟨hfits, hpasses⟩ := mm_passes hpos hdvd hl (hts _ (List.getElem_mem hi))
    obtain ⟨v, hv⟩ : ∃ v, s.stats[i]? = some v := ⟨_, List.getElem?_eq_getElem (htotals.judged ▸ hi)⟩
    refine ⟨v, hv, fun hmore => ?_, fun hroom => ?_⟩
    · cases v with
      | none => rfl
      | some r => exact absurd (hfits r ((hresult r).1 hv)) hmore.not_ge
    · obtain ⟨hwm, size, hpass, hpeak, hsize⟩ := hpasses hroom
      exact ⟨hwm, size, Option.some.inj (hv.symm.trans ((hresult _).2 hpass)), hpeak, hsize⟩
  have hverdicts : s.stats.map Option.isNone = ts.map fun t : Task => decide (maxHeap < requested t.ops) := by
    apply List.ext_getElem?
    intro i
    rw [List.getElem?_map, List.getElem?_map]
    cases ht : ts[i]? with
    | none =>
      rw [List.getElem?_eq_none_iff.2 (htotals.judged ▸ List.getElem?_eq_none_iff.1 ht)]
      rfl
    | some t =>
      obtain ⟨v, hv, hget⟩ := hgets i t ht
      rw [hv, Option.map_some, Option.map_some, Bool.eq_iff_iff.2 (hget.isNone_iff.trans decide_eq_true_iff.symm)]
  refine ⟨s, hs, htotals.judged, ?_, hgets⟩
  calc s.errors = s.stats.countP Option.isNone := htotals.errors
    _ = (s.stats.map Option.isNone).countP id := by rw [List.countP_map, Function.id_comp]
    _ = (ts.map fun t : Task => decide (maxHeap < requested t.ops)).countP id := by rw [hverdicts]
    _ = ts.countP fun t : Task => maxHeap < requested t.ops := by rw [List.countP_map, Function.id_comp]

theorem mm_session_example : ∃ s, evalTraces mm ⟨freshDriver.machine, clearRanges, 0, []⟩ twoTasks = .ok s ∧
    s.errors = 1 ∧ ∃ v, s.stats[1]? = some v ∧ Task.Gets ⟨twoBlocks, [⟨7, 7⟩, ⟨9, 9⟩], 10⟩ v := by
  have hmax : freshDriver.machine.heap.memMaxAddr.toNat = freshDriver.machine.heap.memStartBrk.toNat + maxHeap := by decide
  have hplain : ∀ t ∈ twoTasks, t.Plain freshDriver.machine.heap.memStartBrk.toNat := by
    intro t ht
    refine ⟨twoTasks_ready t ht, ?_, ?_⟩
    all_goals
      intro op hop
      rcases List.mem_pair.1 ht with rfl | rfl
      all_goals simp only [twoBlocks, List.mem_cons, List.not_mem_nil, or_false] at hop
    · rw [hop]
      exact show _ ≤ _ by decide
    · rcases hop with rfl | rfl | rfl
      · exact show _ ≤ _ by decide
      · exact show _ ≤ _ by decide
      · trivial
    · rintro ⟨index, size, he⟩
      rw [hop] at he
      cases he
    · rintro ⟨index, size, he⟩
      rcases hop with rfl | rfl | rfl <;> cases he
  obtain ⟨s, hs, -, herrors, hgets⟩ := mm_session freshDriver.machine hmax (by decide) (by decide) hplain
  refine ⟨s, hs, ?_, hgets 1 _ rfl⟩
  rw [herrors]
  decide

end DecsLabs.Malloc
