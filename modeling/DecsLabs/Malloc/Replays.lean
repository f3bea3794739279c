/-
The replays of a trace that come after its check: `eval_mm_util` once, `eval_mm_speed` as often as the time is measured.
They begin with the memory, the package and the arrays as the replay before has left them, they do not fill payloads, and
a call that returns NULL ends the driver.

- `Blind`: in the check of a trace the package resets itself in `mm_init` and does not look into payloads.
- `Utilised`, `utilOp_iff`: what it takes to succeed in `eval_mm_util`, and what is then remembered.
- `Agree`: the check and a later replay, in front of the same operation.
- `Agree.step`, `Agree.run`: what passes in the check succeeds in the later replay, and they agree again.
- `accepted_runs`, `accepted_replays`: no later replay of an accepted trace ends the driver.
-/
import DecsLabs.Malloc.Tracking

namespace DecsLabs.Malloc

open DecsLabs.Transition

variable {σ ν : Type}

/-! ## Packages -/

inductive Call where
  | malloc (size : UInt32)
  | free (ptr : UInt32)
  | realloc (ptr size : UInt32)
deriving DecidableEq, Repr

/-- the size of the memory that a call asks for -/
def Call.size : Call → Option UInt32
  | .malloc size => some size
  | .free _ => none
  | .realloc _ size => some size

def Package.call (pkg : Package σ) (m : Machine σ) : Call → UInt32 × Machine σ
  | .malloc size => pkg.mmMalloc m size
  | .free ptr => (null, pkg.mmFree m ptr)
  | .realloc ptr size => pkg.mmRealloc m ptr size

/-- the call that is made for an operation with its index in the arrays -/
def callFor (slots : List Slot) : TraceOp → Option Call
  | .alloc _ size => some (.malloc size.toUInt32)
  | .realloc index size => (entry slots index).map fun old => .realloc old.block size.toUInt32
  | .free index => (entry slots index).map fun old => .free old.block

/-- `view` is all that the call made for `op` depends on, and to fill what it hands out does not change the view -/
structure BlindAt (pkg : Package σ) (view : Machine σ → ν) (d : Driver σ) (op : TraceOp) : Prop where
  call : ∀ c, callFor d.slots op = some c → ∀ m, view m = view d.machine →
    (pkg.call m c).1 = (pkg.call d.machine c).1 ∧ view (pkg.call m c).2 = view (pkg.call d.machine c).2 ∧
      (pkg.call m c).2.reset.heap = m.reset.heap
  fill : ∀ c, callFor d.slots op = some c → ∀ d', validStep pkg d op = some d' →
    view d'.machine = view (pkg.call d.machine c).2

/-- `mm_init` makes the view anew from any memory, and so it is at every call of the check. The states and the pointers
are those of the check: what the package does elsewhere does not matter. -/
structure Blind (pkg : Package σ) (view : Machine σ → ν) (d : Driver σ) (ops : List TraceOp) : Prop where
  init : ∀ m, m.heap = d.machine.reset.heap → (pkg.mmInit m).1 = (pkg.mmInit d.machine.reset).1 ∧
    view (pkg.mmInit m).2 = view (pkg.mmInit d.machine.reset).2 ∧ (pkg.mmInit m).2.reset.heap = d.machine.reset.heap
  calls : Along (validStep pkg) (BlindAt pkg view) (initialized pkg d) ops

/-! ## eval_mm_util -/

/-- the operation succeeds in `eval_mm_util`, and leaves the tally -/
inductive Utilised (pkg : Package σ) (t : Tally σ) : TraceOp → Tally σ → Prop
  | alloc {index size p m} (hcall : pkg.mmMalloc t.machine size.toUInt32 = (p, m)) (hp : p ≠ null)
    (hslot : (entry t.slots index).isSome) :
    Utilised pkg t (.alloc index size)
      (Tally.add ⟨m, remember t.slots index p size, t.totalSize, t.maxTotalSize⟩ size)
  | realloc {index size old newp m} (hslot : entry t.slots index = some old)
    (hcall : pkg.mmRealloc t.machine old.block size.toUInt32 = (newp, m)) (hp : newp ≠ null) :
    Utilised pkg t (.realloc index size)
      (Tally.add ⟨m, remember t.slots index newp size, t.totalSize, t.maxTotalSize⟩ (size - old.blockSize.toInt32))
  | free {index old} (hslot : entry t.slots index = some old) :
    Utilised pkg t (.free index)
      ⟨pkg.mmFree t.machine old.block, t.slots, t.totalSize - old.blockSize.toInt32, t.maxTotalSize⟩

variable {pkg : Package σ} {view : Machine σ → ν} {live : List Int32} {first d d' : Driver σ} {op : TraceOp}
  {t t' : Tally σ} {slots : List Slot} {m : Machine σ} {index size : Int32} {p : UInt32}

theorem utilOp_iff : utilOp pkg t op = .ok t' ↔ Utilised pkg t op t' := by
  constructor
  · intro h
    cases op with
    | alloc index size =>
      simp only [utilOp] at h
      by_cases hp : (pkg.mmMalloc t.machine size.toUInt32).1 = null
      · rw [if_pos hp] at h
        cases h
      rw [if_neg hp] at h
      cases hold : entry t.slots index with
      | none =>
        rw [hold] at h
        cases h
      | some old =>
        rw [hold] at h
        cases h
        exact .alloc rfl hp (Option.isSome_iff_exists.2 ⟨old, hold⟩)
    | realloc index size =>
      simp only [utilOp] at h
      cases hold : entry t.slots index with
      | none =>
        rw [hold] at h
        cases h
      | some old =>
        rw [hold] at h
        by_cases hp : (pkg.mmRealloc t.machine old.block size.toUInt32).1 = null
        · simp only [if_pos hp] at h
          cases h
        simp only [if_neg hp] at h
        cases h
        exact .realloc hold rfl hp
    | free index =>
      simp only [utilOp] at h
      cases hold : entry t.slots index with
      | none =>
        rw [hold] at h
        cases h
      | some old =>
        rw [hold] at h
        cases h
        exact .free hold
  · intro h
    cases h with
    | alloc hcall hp hslot =>
      obtain ⟨old, hold⟩ := Option.isSome_iff_exists.1 hslot
      simp only [utilOp, hcall, if_neg hp, hold]
    | realloc hslot hcall hp => simp only [utilOp, hslot, hcall, if_neg hp]
    | free hslot => simp only [utilOp, hslot]

/-! ## One operation -/

/-- the check at `d`, which began at `first`, and a later replay at `m` and `slots` -/
structure Agree (view : Machine σ → ν) (first : Driver σ) (live : List Int32) (d : Driver σ) (m : Machine σ)
    (slots : List Slot) : Prop where
  view_eq : view d.machine = view m
  limits : m.reset.heap = first.machine.reset.heap
  length : d.slots.length = first.slots.length
  length' : slots.length = first.slots.length
  entry_eq : ∀ i ∈ live, entry slots i = entry d.slots i

/-- the same memory is remembered for `index` on both sides -/
theorem Agree.remember (h : Agree view first live d m slots) (hindex : (entry d.slots index).isSome)
    {m1 m2 : Machine σ} (hview : view m1 = view m2) (hlimits : m2.reset.heap = first.machine.reset.heap) (ranges : List Range) :
    Agree view first (index :: live) ⟨m1, ranges, remember d.slots index p size⟩ m2 (remember slots index p size) := by
  have hindex' : (entry slots index).isSome := by
    rw [entry_isSome_iff, h.length', ← h.length]
    exact entry_isSome_iff.1 hindex
  refine ⟨hview, hlimits, remember_length.trans h.length, remember_length.trans h.length', ?_⟩
  · intro i hi
    by_cases he : i = index
    · rw [he, entry_remember_self hindex, entry_remember_self hindex']
    · rw [entry_remember_of_ne he hindex, entry_remember_of_ne he hindex']
      exact h.entry_eq i ((List.mem_cons.1 hi).resolve_left he)

theorem Agree.erase (h : Agree view first live d m slots) : Agree view first (live.erase index) d m slots :=
  ⟨h.view_eq, h.limits, h.length, h.length', fun i hi => h.entry_eq i (List.mem_of_mem_erase hi)⟩

/-- a call that both make -/
theorem Agree.call (hb : BlindAt pkg view d op) (h : Agree view first live d m slots) {c : Call}
    (hc : callFor d.slots op = some c) :
    (pkg.call m c).1 = (pkg.call d.machine c).1 ∧ view (pkg.call d.machine c).2 = view (pkg.call m c).2 ∧
      (pkg.call m c).2.reset.heap = first.machine.reset.heap := by
  obtain ⟨hp, hview, hlimits⟩ := hb.call c hc m h.view_eq.symm
  exact ⟨hp, hview.symm, hlimits.trans h.limits⟩

theorem Agree.step (hb : BlindAt pkg view d op) (h : Agree view first live d t.machine t.slots) (hop : Proper live op)
    (hpass : Passed pkg d op d') :
    ∃ t', Utilised pkg t op t' ∧ Agree view first (inUse live op) d' t'.machine t'.slots := by
  have hstep := validStep_iff.2 hpass
  cases hpass with
  | @alloc index size p m ranges hcall hp hadd hslot =>
    obtain ⟨rfl, rfl⟩ := Prod.ext_iff.1 hcall
    obtain ⟨hsame, hview, hlimits⟩ := h.call hb (c := .malloc size.toUInt32) rfl
    have hfill := hb.fill (.malloc size.toUInt32) rfl _ hstep
    have hslot' : (entry t.slots index).isSome := by
      rw [entry_isSome_iff, h.length', ← h.length]
      exact entry_isSome_iff.1 hslot
    have hcall' : pkg.mmMalloc t.machine size.toUInt32 =
        ((pkg.mmMalloc d.machine size.toUInt32).1, (pkg.mmMalloc t.machine size.toUInt32).2) := Prod.ext hsame rfl
    exact ⟨_, .alloc hcall' hp hslot', h.remember hslot (hfill.trans hview) hlimits ranges⟩
  | @realloc index size old newp m ranges hold hcall hp hadd hholds =>
    obtain ⟨rfl, rfl⟩ := Prod.ext_iff.1 hcall
    have hc : callFor d.slots (.realloc index size) = some (.realloc old.block size.toUInt32) := by
      simp only [callFor, hold, Option.map_some]
    obtain ⟨hsame, hview, hlimits⟩ := h.call hb hc
    have hfill := hb.fill _ hc _ hstep
    have hold' : entry t.slots index = some old := (h.entry_eq index hop).trans hold
    have hslot : (entry d.slots index).isSome := Option.isSome_iff_exists.2 ⟨old, hold⟩
    have hcall' : pkg.mmRealloc t.machine old.block size.toUInt32 =
        ((pkg.mmRealloc d.machine old.block size.toUInt32).1, (pkg.mmRealloc t.machine old.block size.toUInt32).2) :=
      Prod.ext hsame rfl
    exact ⟨_, .realloc hold' hcall' hp, h.erase.remember hslot (hfill.trans hview) hlimits ranges⟩
  | @free index old hold =>
    have hc : callFor d.slots (.free index) = some (.free old.block) := by
      simp only [callFor, hold, Option.map_some]
    obtain ⟨-, hview, hlimits⟩ := h.call hb hc
    have hold' : entry t.slots index = some old := (h.entry_eq index hop).trans hold
    exact ⟨_, .free hold', hview, hlimits, h.length, h.length', h.erase.entry_eq⟩

/-! ## Traces -/

theorem Agree.run {ops : List TraceOp} (hb : Along (validStep pkg) (BlindAt pkg view) d ops)
    (h : Agree view first live d t.machine t.slots) (hbal : Along indexStep Proper live ops) (hrun : Transition.run (validStep pkg) d ops = some d') :
    ∃ t', ops.foldlM (utilOp pkg) t = .ok t' ∧ Agree view first (ops.foldl inUse live) d' t'.machine t'.slots := by
  induction ops generalizing live d t with
  | nil =>
    cases hrun
    exact ⟨t, rfl, h⟩
  | cons op ops ih =>
    obtain ⟨d1, hstep, hrest⟩ := Option.bind_eq_some_iff.1 hrun
    obtain ⟨t1, hutil, h1⟩ := h.step hb.1 hbal.1 (validStep_iff.1 hstep)
    obtain ⟨t', hutil', h'⟩ := ih (hb.2 d1 hstep) h1 (hbal.2 _ rfl) hrest
    refine ⟨t', ?_, h'⟩
    rw [List.foldlM_cons, utilOp_iff.2 hutil]
    exact hutil'

/-! ## eval_mm_speed -/

/-- `eval_mm_speed` has the memory of `eval_mm_util`, and the same addresses in `blocks` -/
structure Follows (t : Tally σ) (s : Machine σ × List Slot) : Prop where
  machine_eq : s.1 = t.machine
  blocks : s.2.map Slot.block = t.slots.map Slot.block

variable {s : Machine σ × List Slot}

theorem entry_map_block {l l' : List Slot} (h : l.map Slot.block = l'.map Slot.block) (i : Int32) :
    (entry l i).map Slot.block = (entry l' i).map Slot.block := by
  unfold entry
  split_ifs with hi
  · rfl
  · rw [← List.getElem?_map, h, List.getElem?_map]

theorem Follows.found (h : Follows t s) {e : Slot} (he : entry t.slots index = some e) :
    ∃ e', entry s.2 index = some e' ∧ e'.block = e.block := by
  have hmap := entry_map_block h.blocks index
  rw [he, Option.map_some] at hmap
  exact Option.map_eq_some_iff.1 hmap

theorem Follows.set (h : Follows t s) (e : Slot) :
    (s.2.set (place index) { e with block := p }).map Slot.block = (remember t.slots index p size).map Slot.block := by
  rw [remember, List.map_set, List.map_set, h.blocks]

theorem Follows.step (h : Follows t s) (hutil : Utilised pkg t op t') : ∃ s', speedOp pkg s op = .ok s' ∧ Follows t' s' := by
  obtain ⟨m, slots⟩ := s
  obtain rfl : m = t.machine := h.machine_eq
  cases hutil with
  | @alloc index size p m hcall hp hslot =>
    obtain ⟨e, hold⟩ := Option.isSome_iff_exists.1 hslot
    obtain ⟨e', he', -⟩ := h.found hold
    exact ⟨(m, slots.set (place index) { e' with block := p }), by simp only [speedOp, hcall, if_neg hp, he'], rfl, h.set e'⟩
  | @realloc index size old newp m hold hcall hp =>
    obtain ⟨e', he', hblock⟩ := h.found hold
    exact ⟨(m, slots.set (place index) { e' with block := newp }),
      by simp only [speedOp, he', hblock, hcall, if_neg hp], rfl, h.set e'⟩
  | @free index old hold =>
    obtain ⟨e', he', hblock⟩ := h.found hold
    exact ⟨(pkg.mmFree t.machine old.block, slots), by simp only [speedOp, he', hblock], rfl, h.blocks⟩

theorem Follows.run {ops : List TraceOp} (h : Follows t s) (hutil : ops.foldlM (utilOp pkg) t = .ok t') :
    ∃ s', ops.foldlM (speedOp pkg) s = .ok s' ∧ Follows t' s' := by
  induction ops generalizing t s with
  | nil =>
    cases hutil
    exact ⟨s, rfl, h⟩
  | cons op ops ih =>
    rw [List.foldlM_cons] at hutil
    cases hfirst : utilOp pkg t op with
    | error e =>
      rw [hfirst] at hutil
      cases hutil
    | ok t1 =>
      rw [hfirst] at hutil
      obtain ⟨s1, hspeed, h1⟩ := h.step (utilOp_iff.1 hfirst)
      obtain ⟨s', hspeed', h'⟩ := ih h1 hutil
      refine ⟨s', ?_, h'⟩
      rw [List.foldlM_cons, hspeed]
      exact hspeed'

theorem Follows.length (h : Follows t s) : s.2.length = t.slots.length := by
  have hlen := congrArg List.length h.blocks
  rwa [List.length_map, List.length_map] at hlen

/-- both replays of an accepted trace come to their end -/
theorem accepted_runs {ops : List TraceOp} (hb : Blind pkg view d ops) (hbal : Balanced ops)
    (hacc : evalMmValid pkg ops d = (none, d')) (hm : m.reset.heap = d.machine.reset.heap)
    (hlength : slots.length = d.slots.length) :
    ¬ (pkg.mmInit m.reset).1 < 0 ∧ ∃ t s, ops.foldlM (utilOp pkg) ⟨(pkg.mmInit m.reset).2, slots, 0, 0⟩ = .ok t ∧
      Agree view d (ops.foldl inUse []) d' t.machine t.slots ∧
      ops.foldlM (speedOp pkg) ((pkg.mmInit m.reset).2, slots) = .ok s ∧ Follows t s := by
  obtain ⟨hinit, hrun⟩ := evalMmValid_iff.1 hacc
  obtain ⟨hr, hview, hlimits⟩ := hb.init m.reset hm
  rw [← hr] at hinit
  let t0 : Tally σ := ⟨(pkg.mmInit m.reset).2, slots, 0, 0⟩
  have h0 : Agree view d [] (initialized pkg d) t0.machine t0.slots :=
    ⟨hview.symm, hlimits, rfl, hlength, fun i hi => absurd hi List.not_mem_nil⟩
  obtain ⟨t, hutil, hagree⟩ := h0.run hb.calls hbal hrun
  have hfollows : Follows t0 (t0.machine, slots) := ⟨rfl, rfl⟩
  obtain ⟨s, hspeed, hs⟩ := hfollows.run hutil
  exact ⟨hinit, t, s, hutil, hagree, hspeed, hs⟩

/-- **Replays after the check.** For every package that resets itself, and every balanced trace that `eval_mm_valid` accepts
and in which the package does not look into payloads: `eval_mm_util` and `eval_mm_speed` do not end the driver, whatever the
package and the arrays hold when they begin. `eval_mm_speed` leaves the memory for another one, and the blocks that are still in use
are where the check had them. -/
theorem accepted_replays {ops : List TraceOp} (hb : Blind pkg view d ops) (hbal : Balanced ops)
    (hacc : evalMmValid pkg ops d = (none, d')) (hm : m.reset.heap = d.machine.reset.heap)
    (hlength : slots.length = d.slots.length) :
    (∃ r, evalMmUtil pkg ops m slots = .ok r) ∧
      ∃ m' slots', evalMmSpeed pkg ops m slots = .ok (m', slots') ∧ m'.reset.heap = d.machine.reset.heap ∧
        slots'.length = d.slots.length ∧
        ∀ i ∈ ops.foldl inUse [], (entry slots' i).map Slot.block = (entry d'.slots i).map Slot.block := by
  obtain ⟨hinit, t, s, hutil, hagree, hspeed, hs⟩ := accepted_runs hb hbal hacc hm hlength
  refine ⟨⟨(t.maxTotalSize, memHeapsize t.machine.heap), ?_⟩, s.1, s.2, ?_, ?_, ?_, ?_⟩
  · simp only [evalMmUtil, if_neg hinit]
    rw [hutil]
    rfl
  · simp only [evalMmSpeed, if_neg hinit]
    exact hspeed
  · rw [hs.machine_eq]
    exact hagree.limits
  · exact hs.length.trans hagree.length'
  · intro i hi
    rw [entry_map_block hs.blocks, hagree.entry_eq i hi]

theorem mm_limits (c : Call) (m : Machine Unit) : (mm.call m c).2.reset.heap = m.reset.heap := by
  cases c with
  | malloc size =>
    change memResetBrk (mmMalloc m.heap size).2 = memResetBrk m.heap
    unfold mmMalloc memSbrk
    split_ifs <;> rfl
  | free ptr => rfl
  | realloc ptr size =>
    change memResetBrk (mmRealloc m.heap ptr size).2 = memResetBrk m.heap
    unfold mmRealloc mmMalloc memSbrk mmFree
    dsimp only
    split_ifs <;> rfl

/-- mm.c looks at nothing but the break -/
theorem mm_blind (d : Driver Unit) (ops : List TraceOp) : Blind mm Machine.heap d ops where
  init m h := by
    refine ⟨rfl, h, ?_⟩
    change memResetBrk m.heap = _
    rw [h]
    rfl
  calls := by
    refine along_of_forall (fun op _ d => ⟨fun c _ m h => ?_, fun c hc d' hstep => ?_⟩) _
    · refine ⟨?_, ?_, mm_limits c m⟩
      · cases c with
        | malloc size => exact congrArg (fun heap => (mmMalloc heap size).1) h
        | free ptr => rfl
        | realloc ptr size => exact congrArg (fun heap => (mmRealloc heap ptr size).1) h
      · cases c with
        | malloc size => exact congrArg (fun heap => (mmMalloc heap size).2) h
        | free ptr => exact h
        | realloc ptr size => exact congrArg (fun heap => (mmRealloc heap ptr size).2) h
    · cases validStep_iff.1 hstep with
      | alloc hcall =>
        cases hc
        exact (congrArg (fun r => r.2.heap) hcall).symm
      | realloc hslot hcall =>
        simp only [callFor, hslot, Option.map_some, Option.some.injEq] at hc
        subst hc
        exact (congrArg (fun r => r.2.heap) hcall).symm
      | free hslot =>
        simp only [callFor, hslot, Option.map_some, Option.some.injEq] at hc
        subst hc
        rfl

/-- mm.c with the size of each block in front of it; a block that is to become smaller stays where it is -/
def mmHeaders : Package Unit where
  mmInit := mm.mmInit
  mmMalloc m size :=
    let (p, m') := mm.mmMalloc m (size + 8)
    (p + 8, { m' with bytes := fun a => if a = p.toNat then size.toUInt8 else m.bytes a })
  mmFree := mm.mmFree
  mmRealloc m ptr size := if size.toUInt8 ≤ m.bytes (ptr - 8).toNat then (ptr, m) else mm.mmRealloc m ptr size

/-- the break, and the header of the first block if there is one -/
def firstHeader (m : Machine Unit) : Heap × Option UInt8 :=
  (m.heap, if m.heap.memBrk = m.heap.memStartBrk then none else some (m.bytes m.heap.memStartBrk.toNat))

def shrinking : List TraceOp := [.alloc 0 8, .realloc 0 4, .free 0]

/-- with a block of 8 bytes in front, it becomes smaller in place -/
theorem mmHeaders_shrinks {m : Machine Unit} (h : firstHeader m = (⟨0x10000000, 0x10000010, 0x11400000⟩, some 8)) :
    mmHeaders.mmRealloc m 0x10000008 4 = (0x10000008, m) := by
  obtain ⟨heap, bytes, own⟩ := m
  obtain ⟨hheap, hheader⟩ := Prod.ext_iff.1 h
  change heap = _ at hheap
  subst hheap
  have hbyte : bytes 0x10000000 = 8 := Option.some.inj hheader
  refine if_pos ?_
  change (4 : UInt8) ≤ bytes 0x10000000
  rw [hbyte]
  decide

theorem mmHeaders_blind : Blind mmHeaders firstHeader freshDriver shrinking where
  init m h := by
    have hempty : ∀ m : Machine Unit, m.heap = freshDriver.machine.reset.heap → firstHeader m =
        (freshDriver.machine.reset.heap, none) := by
      intro m h
      rw [firstHeader, h]
      rfl
    refine ⟨rfl, (hempty m h).trans (hempty _ rfl).symm, ?_⟩
    change memResetBrk m.heap = _
    rw [h]
    rfl
  calls := by
    refine ⟨⟨?_, ?_⟩, ?_⟩
    · rintro c ⟨⟩ ⟨heap, bytes, own⟩ h
      obtain ⟨hheap, -⟩ := Prod.ext_iff.1 h
      change heap = _ at hheap
      subst hheap
      exact ⟨rfl, rfl, rfl⟩
    · rintro c ⟨⟩ d ⟨⟩
      rfl
    rintro d ⟨⟩
    refine ⟨⟨?_, ?_⟩, ?_⟩
    · intro c hc m h
      obtain rfl : Call.realloc 0x10000008 4 = c := Option.some.inj hc
      have hm : mmHeaders.call m (.realloc 0x10000008 4) = (0x10000008, m) := mmHeaders_shrinks h
      rw [hm]
      exact ⟨rfl, h, rfl⟩
    · rintro c ⟨⟩ d ⟨⟩
      rfl
    rintro d ⟨⟩
    refine ⟨⟨?_, ?_⟩, ?_⟩
    · rintro c ⟨⟩ m h
      exact ⟨rfl, h, rfl⟩
    · rintro c ⟨⟩ d ⟨⟩
      rfl
    rintro d ⟨⟩
    trivial

/-- a package with headers in the heap, on a heap that another trace has used up -/
theorem accepted_replays_example :
    ∃ r, evalMmUtil mmHeaders shrinking { freshDriver.machine with heap := ⟨0x10000000, 0x11400000, 0x11400000⟩ }
      [⟨7, 7⟩, ⟨9, 9⟩] = .ok r := by
  have hbal : Balanced shrinking := by decide
  have hacc : evalMmValid mmHeaders shrinking freshDriver = (none, (evalMmValid mmHeaders shrinking freshDriver).2) := rfl
  exact (accepted_replays mmHeaders_blind hbal hacc rfl rfl).1

end DecsLabs.Malloc
