/-
What the driver knows of a trace that it accepts so far. The range list is kept by address and the trace speaks of
indices: the ranges in the list are those of the indices in use, for any package whose heap only grows.

- `inUse`, `Balanced`: the indices in use, and the traces that allocate, reallocate and free them in turn.
- `Tracks`: the range list, the array of the trace and the heap at any point of a trace.
- `tracks_step`: every operation that passes keeps it.
- `accepted_payloads`: what an accepted trace says about the payloads at each of its points.
-/
import DecsLabs.Malloc.Driver

namespace DecsLabs.Malloc

open DecsLabs.Transition

/-! ## Indices in use -/

/-- the indices in use, the last one that got memory first -/
def inUse (live : List Int32) : TraceOp → List Int32
  | .alloc i _ => i :: live
  | .realloc i _ => i :: live.erase i
  | .free i => live.erase i

def indexStep (live : List Int32) (op : TraceOp) : Option (List Int32) := some (inUse live op)

def Proper (live : List Int32) : TraceOp → Prop
  | .alloc i _ => i ∉ live
  | .realloc i _ => i ∈ live
  | .free i => i ∈ live

instance (live : List Int32) (op : TraceOp) : Decidable (Proper live op) := by
  cases op <;> unfold Proper <;> infer_instance

/-- an index is allocated when it is not in use, and reallocated or freed when it is -/
def Balanced (ops : List TraceOp) : Prop := Along indexStep Proper [] ops

instance (ops : List TraceOp) : Decidable (Balanced ops) := inferInstanceAs (Decidable (Along indexStep Proper [] ops))

variable {σ : Type}

/-- the driver, and the indices in use -/
structure Tracked (σ : Type) where
  driver : Driver σ
  live : List Int32

def trackStep (pkg : Package σ) (s : Tracked σ) (op : TraceOp) : Option (Tracked σ) :=
  (validStep pkg s.driver op).map fun d => ⟨d, inUse s.live op⟩

/-! ## Packages that only grow their heap -/

/-- `mem_sbrk` does not shrink a heap -/
structure Grows (h h' : Heap) : Prop where
  start_eq : h'.memStartBrk = h.memStartBrk
  brk_le : h.memBrk.toNat ≤ h'.memBrk.toNat
  extent : Extent h'

/-- the call that an operation makes -/
def GrowsAt (pkg : Package σ) (d : Driver σ) : TraceOp → Prop
  | .alloc _ size => Grows d.machine.heap (pkg.mmMalloc d.machine size.toUInt32).2.heap
  | .realloc i size => ∀ old, entry d.slots i = some old →
    Grows d.machine.heap (pkg.mmRealloc d.machine old.block size.toUInt32).2.heap
  | .free i => ∀ old, entry d.slots i = some old → Grows d.machine.heap (pkg.mmFree d.machine old.block).heap

/-- the driver after `mm_init`, if that succeeds -/
def initialized (pkg : Package σ) (d : Driver σ) : Driver σ := ⟨(pkg.mmInit d.machine.reset).2, clearRanges, d.slots⟩

/-- the heap does not shrink in a replay of `ops` -/
def Growing (pkg : Package σ) (d : Driver σ) (ops : List TraceOp) : Prop :=
  Grows d.machine.reset.heap (initialized pkg d).machine.heap ∧
    Along (validStep pkg) (GrowsAt pkg) (initialized pkg d) ops

/-! ## Ranges of indices -/

/-- the payload that the array has for an index -/
def slotRange (slots : List Slot) (i : Int32) : Option Range :=
  (entry slots i).map fun e => payload e.block e.blockSize.toInt32

variable {slots : List Slot} {index : Int32} {p : UInt32} {size : Int32} {live : List Int32} {ranges : List Range}

theorem slotRange_remember (h : (entry slots index).isSome) :
    slotRange (remember slots index p size) index = some (payload p size) := by
  rw [slotRange, entry_remember_self h, Option.map_some, Int32.toInt32_toUInt32]

theorem map_slotRange_remember (h : (entry slots index).isSome) (hlive : index ∉ live) :
    live.map (slotRange (remember slots index p size)) = live.map (slotRange slots) := by
  apply List.map_congr_left
  intro i hi
  have hne : i ≠ index := fun he => hlive (he ▸ hi)
  rw [slotRange, entry_remember_of_ne hne h, slotRange]

/-- the first range at the address of an index in use is the one of that index -/
theorem map_erase {r : Range} (hmap : live.map (slotRange slots) = ranges.map some)
    (hstarts : (ranges.map Range.lo).Nodup) (hi : index ∈ live) (hr : slotRange slots index = some r) :
    (live.erase index).map (slotRange slots) = (removeRange ranges r.lo).map some := by
  induction live generalizing ranges with
  | nil => exact absurd hi List.not_mem_nil
  | cons j live ih =>
    cases ranges with
    | nil => cases hmap
    | cons q ranges =>
      obtain ⟨hj, hrest⟩ := List.cons.inj hmap
      obtain ⟨hnew, hstarts'⟩ := List.nodup_cons.1 hstarts
      by_cases hji : j = index
      · subst hji
        obtain rfl : q = r := Option.some.inj (hj.symm.trans hr)
        rw [List.erase_cons_head, removeRange, List.eraseP_cons_of_pos (by simp)]
        exact hrest
      · have hi' : index ∈ live := (List.mem_cons.1 hi).resolve_left fun he => hji he.symm
        have hmem : some r ∈ ranges.map some := by
          rw [← hrest, ← hr]
          exact List.mem_map_of_mem hi'
        obtain ⟨r', hr', heq⟩ := List.mem_map.1 hmem
        obtain rfl := Option.some.inj heq
        have hne : q.lo ≠ r'.lo := fun he => hnew (he ▸ List.mem_map_of_mem hr')
        have hskip : removeRange (q :: ranges) r'.lo = q :: removeRange ranges r'.lo :=
          List.eraseP_cons_of_neg (by simpa using hne)
        rw [List.erase_cons_tail (by simpa using hji), hskip, List.map_cons, List.map_cons, hj, ih hrest hstarts' hi']

/-! ## Memory for an index -/

/-- the payloads of the indices `live` -/
def payloads (slots : List Slot) (live : List Int32) : List Range := live.filterMap (slotRange slots)

theorem payloads_eq (h : live.map (slotRange slots) = ranges.map some) : payloads slots live = ranges := by
  have hfilter : payloads slots live = (live.map (slotRange slots)).filterMap id := by
    rw [List.filterMap_map]
    rfl
  rw [hfilter, h, List.filterMap_map]
  exact List.filterMap_some

theorem mem_payloads {i : Int32} {r : Range} (hi : i ∈ live) (hr : slotRange slots i = some r) :
    r ∈ payloads slots live := List.mem_filterMap.2 ⟨i, hi, hr⟩

theorem slotRange_eq {e : Slot} (he : entry slots index = some e) :
    slotRange slots index = some (payload e.block e.blockSize.toInt32) := by rw [slotRange, he, Option.map_some]

/-- `p` is aligned memory of `size` bytes in the heap, apart from the payloads `others` -/
structure HandsOut (m m' : Machine σ) (p : UInt32) (size : Int32) (others : List Range) : Prop where
  grows : Grows m.heap m'.heap
  ne_null : p ≠ null
  placed : Placed m'.heap p size
  off : ∀ r ∈ others, (payload p size).Off r

/-! ## One operation -/

structure Tracks (s : Tracked σ) : Prop where
  extent : Extent s.driver.machine.heap
  nodup : s.live.Nodup
  ranges : s.live.map (slotRange s.driver.slots) = s.driver.ranges.map some
  checked : Checked s.driver.ranges
  inHeap : ∀ r ∈ s.driver.ranges,
    s.driver.machine.heap.memStartBrk.toNat ≤ r.lo.toNat ∧ r.hi.toNat < s.driver.machine.heap.memBrk.toNat

variable {pkg : Package σ} {s s' : Tracked σ} {op : TraceOp}

theorem trackStep_iff : trackStep pkg s op = some s' ↔
    Passed pkg s.driver op s'.driver ∧ s'.live = inUse s.live op := by
  rw [trackStep, Option.map_eq_some_iff]
  constructor
  · rintro ⟨d, hd, rfl⟩
    exact ⟨validStep_iff.1 hd, rfl⟩
  · intro h
    obtain ⟨hpass, hlive⟩ := h
    exact ⟨s'.driver, validStep_iff.2 hpass, by rw [← hlive]⟩

theorem Placed.below {h : Heap} (hp : Placed h p size) : h.memStartBrk.toNat ≤ (payload p size).lo.toNat ∧
    (payload p size).hi.toNat < h.memBrk.toNat := by
  have hend := hp.end_toNat
  have hpos := ((size_pos_iff size).1 hp.pos).1
  have hle := hp.end_le
  refine ⟨hp.start_le, ?_⟩
  change (p + size.toUInt32 - 1).toNat < _
  omega

theorem Grows.below {h h' : Heap} (hg : Grows h h') {r : Range}
    (hr : h.memStartBrk.toNat ≤ r.lo.toNat ∧ r.hi.toNat < h.memBrk.toNat) :
    h'.memStartBrk.toNat ≤ r.lo.toNat ∧ r.hi.toNat < h'.memBrk.toNat := by
  rw [hg.start_eq]
  exact ⟨hr.1, hr.2.trans_le hg.brk_le⟩

/-- an accepted payload is put before the ranges of the other indices in use -/
theorem Tracks.accept {m : Machine σ} {live : List Int32} {old ranges : List Range} (hg : Grows s.driver.machine.heap m.heap)
    (hs : Tracks s) (hslot : (entry s.driver.slots index).isSome) (hlive : live.Nodup) (hindex : index ∉ live)
    (hmap : live.map (slotRange s.driver.slots) = old.map some) (hsub : old.Sublist s.driver.ranges)
    (hadd : addRange m.heap old p size = .ok ranges) :
    Tracks ⟨⟨m.memset p index size, ranges, remember s.driver.slots index p size⟩, index :: live⟩ := by
  obtain ⟨hplaced, -, rfl⟩ := (addRange_eq_ok_iff hg.extent).1 hadd
  refine ⟨hg.extent, List.nodup_cons.2 ⟨hindex, hlive⟩, ?_, (hs.checked.sublist hsub).add hg.extent hadd, ?_⟩
  · rw [List.map_cons, List.map_cons, slotRange_remember hslot, map_slotRange_remember hslot hindex, hmap]
  · refine List.forall_mem_cons.2 ⟨hplaced.below, ?_⟩
    intro r hr
    exact hg.below (hs.inHeap r (hsub.subset hr))

theorem Tracks.erase (hs : Tracks s) {old : Slot} (hindex : index ∈ s.live) (hslot : entry s.driver.slots index = some old) :
    (s.live.erase index).map (slotRange s.driver.slots) = (removeRange s.driver.ranges old.block).map some :=
  map_erase (r := payload old.block old.blockSize.toInt32) hs.ranges hs.checked.starts hindex
    (by rw [slotRange, hslot, Option.map_some])

/-- **One operation.** -/
theorem tracks_step (hgrow : GrowsAt pkg s.driver op) (hs : Tracks s) (hop : Proper s.live op) (hst : trackStep pkg s op = some s') :
    Tracks s' := by
  obtain ⟨hpass, hlive⟩ := trackStep_iff.1 hst
  obtain ⟨d, live⟩ := s'
  obtain rfl : live = inUse s.live op := hlive
  cases hpass with
  | @alloc index size p m ranges hcall hp hadd hslot =>
    rw [GrowsAt, hcall] at hgrow
    exact hs.accept hgrow hslot hs.nodup hop hs.ranges (List.Sublist.refl _) hadd
  | @realloc index size old newp m ranges hslot hcall hp hadd hholds =>
    have hg := hgrow old hslot
    rw [hcall] at hg
    exact hs.accept hg (by rw [hslot]; rfl) (hs.nodup.erase index) hs.nodup.not_mem_erase (hs.erase hop hslot)
      List.eraseP_sublist hadd
  | @free index old hslot =>
    have hg := hgrow old hslot
    refine ⟨hg.extent, hs.nodup.erase index, hs.erase hop hslot, hs.checked.remove old.block, ?_⟩
    intro r hr
    exact hg.below (hs.inHeap r (List.mem_of_mem_eraseP hr))

/-! ## Traces -/

theorem tracks_run {ops : List TraceOp} {d' : Driver σ} (hs : Tracks s)
    (hgrow : Along (validStep pkg) (GrowsAt pkg) s.driver ops) (hbal : Along indexStep Proper s.live ops)
    (hrun : run (validStep pkg) s.driver ops = some d') : Tracks ⟨d', ops.foldl inUse s.live⟩ := by
  induction ops generalizing s with
  | nil =>
    cases hrun
    exact hs
  | cons op ops ih =>
    obtain ⟨d, hd, hrest⟩ := Option.bind_eq_some_iff.1 hrun
    have hst : trackStep pkg s op = some ⟨d, inUse s.live op⟩ := by rw [trackStep, hd, Option.map_some]
    have hnext := tracks_step hgrow.1 hs hbal.1 hst
    exact ih (s := ⟨d, inUse s.live op⟩) hnext (hgrow.2 d hd) (hbal.2 _ rfl) hrest

theorem evalMmValid_iff {ops : List TraceOp} {d d' : Driver σ} : evalMmValid pkg ops d = (none, d') ↔
    ¬ (pkg.mmInit d.machine.reset).1 < 0 ∧ run (validStep pkg) (initialized pkg d) ops = some d' := by
  rw [evalMmValid, ← validOps_iff (i := 0)]
  by_cases hr : (pkg.mmInit d.machine.reset).1 < 0
  · simp [hr]
  · simp [hr, initialized]

theorem initialized_tracks {d : Driver σ} (hg : Grows d.machine.reset.heap (initialized pkg d).machine.heap) :
    Tracks ⟨initialized pkg d, []⟩ :=
  ⟨hg.extent, .nil, rfl, checked_nil, fun _ hr => absurd hr List.not_mem_nil⟩

/-- what the driver has after the operations `pre` of a trace: the payloads of the indices in use, each of them aligned
and in the heap; of two that meet, the later one has the earlier one strictly inside -/
structure Payloads (pre : List TraceOp) (d : Driver σ) : Prop where
  ranges : (pre.foldl inUse []).map (slotRange d.slots) = d.ranges.map some
  aligned : ∀ r ∈ d.ranges, r.lo.toNat % 8 = 0 ∧ r.lo.toNat ≤ r.hi.toNat
  inHeap : ∀ r ∈ d.ranges, d.machine.heap.memStartBrk.toNat ≤ r.lo.toNat ∧ r.hi.toNat < d.machine.heap.memBrk.toNat
  allows : d.ranges.Pairwise Range.Allows

/-- `mm_realloc` brings the filling of the payload of `index` to the new one, as far as both reach -/
def Brought (pkg : Package σ) (d : Driver σ) (index size : Int32) : Prop :=
  ∃ old, entry d.slots index = some old ∧
    ∀ j < place (smaller size old.blockSize),
      (pkg.mmRealloc d.machine old.block size.toUInt32).2.bytes
        ((pkg.mmRealloc d.machine old.block size.toUInt32).1.toNat + j) = lowByte index

/-- **What acceptance means.** For every malloc package and every balanced trace that `eval_mm_valid` accepts without the
heap having shrunk, at every point of the trace: the range list is the payloads of the indices in use, as `Payloads`
says, and every call of `mm_realloc` brings the data along. -/
theorem accepted_payloads {ops pre : List TraceOp} {d d' : Driver σ} (hgrow : Growing pkg d ops) (hbal : Balanced ops)
    (hacc : evalMmValid pkg ops d = (none, d')) (hpre : pre <+: ops) :
    ∃ d1, evalMmValid pkg pre d = (none, d1) ∧ Payloads pre d1 ∧
      ∀ index size, pre ++ [.realloc index size] <+: ops → Brought pkg d1 index size := by
  obtain ⟨hr, hrun⟩ := evalMmValid_iff.1 hacc
  obtain ⟨post, rfl⟩ := hpre
  rw [run_append] at hrun
  obtain ⟨d1, hrun1, hrest⟩ := Option.bind_eq_some_iff.1 hrun
  have ht := tracks_run (initialized_tracks hgrow.1) (along_append hgrow.2) (along_append hbal) hrun1
  refine ⟨d1, evalMmValid_iff.2 ⟨hr, hrun1⟩, ⟨ht.ranges, ?_, ht.inHeap, ht.checked.allows⟩, ?_⟩
  · intro r hmem
    exact ⟨ht.checked.aligned r hmem, ht.checked.nonempty r hmem⟩
  · intro index size hnext
    obtain ⟨post', rfl⟩ := (List.prefix_append_right_inj pre).1 hnext
    obtain ⟨d2, hstep, -⟩ := Option.bind_eq_some_iff.1 hrest
    cases validStep_iff.1 hstep with
    | @realloc index size old newp m ranges hslot hcall hp hadd hholds =>
      refine ⟨old, hslot, ?_⟩
      intro j hj
      rw [hcall]
      exact (holds_iff.1 hholds j hj).1

/-- two blocks of mm.c, of which the first one is freed -/
def twoBlocks : List TraceOp := [.alloc 0 16, .alloc 1 8, .free 0]

theorem accepted_payloads_example : ∃ d1, evalMmValid mm twoBlocks freshDriver = (none, d1) ∧ Payloads twoBlocks d1 := by
  have hgrow : Growing mm freshDriver twoBlocks := by
    refine ⟨⟨rfl, by decide, ⟨by decide, by decide, by decide⟩⟩, ⟨rfl, by decide, ⟨by decide, by decide, by decide⟩⟩, ?_⟩
    rintro d ⟨⟩
    have hsecond : Extent ⟨0x10000000, 0x10000018, 0x11400000⟩ := ⟨by decide, by decide, by decide⟩
    refine ⟨⟨rfl, by decide, hsecond⟩, ?_⟩
    rintro d ⟨⟩
    exact ⟨fun old _ => ⟨rfl, le_rfl, hsecond⟩, fun _ _ => trivial⟩
  have hbal : Balanced twoBlocks := by decide
  have hacc : evalMmValid mm twoBlocks freshDriver = (none, (evalMmValid mm twoBlocks freshDriver).2) := rfl
  obtain ⟨d1, hvalid, hpayloads, -⟩ := accepted_payloads hgrow hbal hacc (List.prefix_refl _)
  exact ⟨d1, hvalid, hpayloads⟩

end DecsLabs.Malloc
