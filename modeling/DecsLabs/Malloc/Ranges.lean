/-
The range list of the driver (mdriver.c, assignment 3): the extents of the payloads that a malloc package has handed
out. The driver finds an overlap by looking whether an end of the new payload lies in an old one.

- `addRange`, `removeRange`, `clearRanges`: the list, with the last payload first, and how the driver stops.
- `addRange_eq_ok_iff`: exactly which payloads are accepted.
- `Checked`: what is true of a list of accepted payloads. A payload may have an earlier one strictly inside.
- `ranges_checked`: every list that is reached, and which payload it accepts next.
-/
import DecsLabs.Core.Intervals
import DecsLabs.Malloc.Heap

namespace DecsLabs.Malloc

open DecsLabs.Transition DecsLabs.Intervals

/-! ## Model -/

def memHeapLo (h : Heap) : UInt32 := h.memStartBrk

/-- the last byte of the heap -/
def memHeapHi (h : Heap) : UInt32 := h.memBrk - 1

def memHeapsize (h : Heap) : UInt32 := h.memBrk - h.memStartBrk

/-- `range_t`: the first and the last byte of a payload -/
structure Range where
  lo : UInt32
  hi : UInt32
deriving DecidableEq, Repr

/-- the calls of `malloc_error`, with what their messages name -/
inductive Complaint where
  /-- `mm_init failed.` -/
  | initFailed
  /-- `mm_malloc failed.` -/
  | mallocFailed
  /-- `mm_realloc failed.` -/
  | reallocFailed
  /-- `Payload address (%p) not aligned to %d bytes` -/
  | notAligned (lo : UInt32)
  /-- `Payload (%p:%p) lies outside heap (%p:%p)` -/
  | outsideHeap (lo hi heapLo heapHi : UInt32)
  /-- `Payload (%p:%p) overlaps another payload (%p:%p)` -/
  | overlaps (lo hi : UInt32) (p : Range)
  /-- `mm_realloc did not preserve the data from old block` -/
  | notPreserved
deriving DecidableEq, Repr

/-- how the driver stops in the middle of a trace -/
inductive Stop where
  /-- `malloc_error`, and 0 is returned -/
  | complaint (c : Complaint)
  /-- `assert(size > 0)` fails -/
  | assertion
  /-- an index that is outside of the arrays of the trace -/
  | outOfBounds
deriving DecidableEq, Repr

/-- `IS_ALIGNED(p)` -/
def isAligned (p : UInt32) : Bool := p.toNat % 8 = 0

/-- the comparisons of `[lo, hi]` with one range of the list -/
def Range.overlaps (lo hi : UInt32) (p : Range) : Bool := lo ≥ p.lo ∧ lo ≤ p.hi ∨ hi ≥ p.lo ∧ hi ≤ p.hi

def addRange (h : Heap) (ranges : List Range) (lo : UInt32) (size : Int32) : Except Stop (List Range) :=
  let hi := lo + size.toUInt32 - 1
  if ¬ size > 0 then .error .assertion
  else if ¬ isAligned lo then .error (.complaint (.notAligned lo))
  else if lo < memHeapLo h ∨ lo > memHeapHi h ∨ hi < memHeapLo h ∨ hi > memHeapHi h then
    .error (.complaint (.outsideHeap lo hi (memHeapLo h) (memHeapHi h)))
  else
    match ranges.find? (Range.overlaps lo hi) with
    | some p => .error (.complaint (.overlaps lo hi p))
    | none => .ok (⟨lo, hi⟩ :: ranges)

/-- the first range that begins at `lo` is taken out -/
def removeRange (ranges : List Range) (lo : UInt32) : List Range := ranges.eraseP fun p => p.lo = lo

def clearRanges : List Range := []

/-! ## What is accepted -/

/-- the heap is not at NULL and lies below its limit -/
structure Extent (h : Heap) : Prop where
  pos : 0 < h.memStartBrk.toNat
  lo : h.memStartBrk.toNat ≤ h.memBrk.toNat
  hi : h.memBrk.toNat ≤ h.memStartBrk.toNat + maxHeap

theorem size_pos_iff (size : Int32) : size > 0 ↔ 0 < size.toUInt32.toNat ∧ size.toUInt32.toNat < 2 ^ 31 := by
  have hneg := toInt32_neg_iff size.toUInt32
  rw [Int32.toInt32_toUInt32] at hneg
  have hzero : size.toUInt32.toNat = 0 ↔ size.toInt = 0 := by
    rw [← Int32.toInt_zero, Int32.toInt_inj]
    constructor
    · intro h
      rw [← Int32.toInt32_toUInt32 size, show size.toUInt32 = 0 from UInt32.toNat_inj.1 h]
      rfl
    · intro h
      rw [h]
      rfl
  rw [Int32.lt_iff_toInt_lt, Int32.toInt_zero] at hneg
  rw [gt_iff_lt, Int32.lt_iff_toInt_lt, Int32.toInt_zero]
  omega

variable {h : Heap} {ranges ranges' : List Range} {lo : UInt32} {size : Int32}

theorem memHeapHi_toNat (hext : Extent h) : (memHeapHi h).toNat = h.memBrk.toNat - 1 := by
  have hpos := hext.pos
  have hlo := hext.lo
  have hlt := h.memBrk.toNat_lt
  have hone : (1 : UInt32).toNat = 1 := rfl
  rw [memHeapHi, UInt32.toNat_sub, hone]
  omega

/-- the payload is aligned and lies in the heap -/
structure Placed (h : Heap) (lo : UInt32) (size : Int32) : Prop where
  pos : size > 0
  aligned : lo.toNat % 8 = 0
  start_le : h.memStartBrk.toNat ≤ lo.toNat
  end_le : lo.toNat + size.toUInt32.toNat ≤ h.memBrk.toNat

theorem Placed.end_toNat (hp : Placed h lo size) :
    (lo + size.toUInt32 - 1).toNat = lo.toNat + size.toUInt32.toNat - 1 := by
  have hpos := ((size_pos_iff size).1 hp.pos).1
  have hbrk := hp.end_le
  have hlt := h.memBrk.toNat_lt
  have hone : (1 : UInt32).toNat = 1 := rfl
  rw [UInt32.toNat_sub, UInt32.toNat_add, hone]
  omega

/-- the last byte of a payload that wraps is before the first one, so it is in no heap of this size -/
theorem placed_iff (hext : Extent h) (hsize : size > 0) (hdvd : isAligned lo) : Placed h lo size ↔
    ¬ (lo < memHeapLo h ∨ lo > memHeapHi h ∨ lo + size.toUInt32 - 1 < memHeapLo h ∨
      lo + size.toUInt32 - 1 > memHeapHi h) := by
  have hstart : memHeapLo h = h.memStartBrk := rfl
  have hend := memHeapHi_toNat hext
  have hpos := hext.pos
  have hlo := hext.lo
  have hhi := hext.hi
  have hlt := h.memBrk.toNat_lt
  have hltlo := lo.toNat_lt
  have hsmall := (size_pos_iff size).1 hsize
  have hheap : maxHeap < 2 ^ 31 := by decide
  have hone : (1 : UInt32).toNat = 1 := rfl
  simp only [not_or, gt_iff_lt, UInt32.lt_iff_toNat_lt, not_lt, hstart, hend]
  constructor
  · intro hp
    rw [hp.end_toNat]
    have hplo := hp.start_le
    have hphi := hp.end_le
    omega
  · intro hin
    rw [UInt32.toNat_sub, UInt32.toNat_add, hone] at hin
    exact ⟨hsize, of_decide_eq_true hdvd, by omega, by omega⟩

/-- the payload of `size` bytes at `lo`, as it is remembered -/
def payload (lo : UInt32) (size : Int32) : Range := ⟨lo, lo + size.toUInt32 - 1⟩

def Range.EndsIn (p q : Range) : Prop := Intervals.EndsIn p.lo.toNat p.hi.toNat q.lo.toNat q.hi.toNat

theorem overlaps_iff (lo hi : UInt32) (p : Range) : p.overlaps lo hi ↔ Range.EndsIn ⟨lo, hi⟩ p := by
  simp only [Range.overlaps, Range.EndsIn, Intervals.EndsIn, Set.mem_Icc, UInt32.le_iff_toNat_le, ge_iff_le,
    decide_eq_true_eq]

/-- **Acceptance.** -/
theorem addRange_eq_ok_iff (hext : Extent h) : addRange h ranges lo size = .ok ranges' ↔
    Placed h lo size ∧ (∀ p ∈ ranges, ¬ (payload lo size).EndsIn p) ∧ payload lo size :: ranges = ranges' := by
  unfold addRange
  by_cases hsize : size > 0
  swap
  · rw [if_pos hsize]
    exact ⟨fun he => (by cases he), fun he => absurd he.1.pos hsize⟩
  rw [if_neg (not_not.2 hsize)]
  by_cases hdvd : isAligned lo
  swap
  · rw [if_pos hdvd]
    exact ⟨fun he => (by cases he), fun he => absurd (decide_eq_true he.1.aligned) hdvd⟩
  rw [if_neg (not_not.2 hdvd)]
  by_cases hplaced : Placed h lo size
  swap
  · rw [if_pos (not_not.1 fun hin => hplaced ((placed_iff hext hsize hdvd).2 hin))]
    exact ⟨fun he => (by cases he), fun he => absurd he.1 hplaced⟩
  rw [if_neg ((placed_iff hext hsize hdvd).1 hplaced)]
  cases hfind : ranges.find? (Range.overlaps lo (lo + size.toUInt32 - 1)) with
  | some p =>
    have hover := (overlaps_iff ..).1 (List.find?_some hfind)
    exact ⟨fun he => (by cases he), fun he => absurd hover (he.2.1 p (List.mem_of_find?_eq_some hfind))⟩
  | none =>
    have hnone : ∀ p ∈ ranges, ¬ (payload lo size).EndsIn p := fun p hp hends =>
      List.find?_eq_none.1 hfind p hp ((overlaps_iff ..).2 hends)
    exact ⟨fun he => ⟨hplaced, hnone, Except.ok.inj he⟩, fun he => congrArg Except.ok he.2.2⟩

/-! ## Lists that are reached -/

/-- the two payloads have no byte in common -/
def Range.Off (p q : Range) : Prop := Intervals.Off p.lo.toNat p.hi.toNat q.lo.toNat q.hi.toNat

instance (p q : Range) : Decidable (p.Off q) := inferInstanceAs (Decidable (_ ∨ _))

/-- the payload `p` has no byte in common with the earlier payload `q`, or has it strictly inside -/
def Range.Allows (p q : Range) : Prop := p.Off q ∨ Within q.lo.toNat q.hi.toNat p.lo.toNat p.hi.toNat

structure Checked (ranges : List Range) : Prop where
  nonempty : ∀ p ∈ ranges, p.lo.toNat ≤ p.hi.toNat
  aligned : ∀ p ∈ ranges, p.lo.toNat % 8 = 0
  allows : ranges.Pairwise Range.Allows

theorem Placed.nonempty (hp : Placed h lo size) : (payload lo size).lo.toNat ≤ (payload lo size).hi.toNat := by
  have hend := hp.end_toNat
  have hpos := ((size_pos_iff size).1 hp.pos).1
  change lo.toNat ≤ (lo + size.toUInt32 - 1).toNat
  omega

theorem checked_nil : Checked [] := ⟨by simp, by simp, .nil⟩

theorem allows_iff {p : Range} (hp : p.lo.toNat ≤ p.hi.toNat) :
    (∀ q ∈ ranges, ¬ p.EndsIn q) ↔ ∀ q ∈ ranges, p.Allows q :=
  forall₂_congr fun _ _ => not_endsIn_iff hp

theorem Checked.add (hc : Checked ranges) (hext : Extent h) (hadd : addRange h ranges lo size = .ok ranges') :
    Checked ranges' := by
  obtain ⟨hplaced, hends, rfl⟩ := (addRange_eq_ok_iff hext).1 hadd
  refine ⟨?_, ?_, List.pairwise_cons.2 ⟨(allows_iff hplaced.nonempty).1 hends, hc.allows⟩⟩
  · exact List.forall_mem_cons.2 ⟨hplaced.nonempty, hc.nonempty⟩
  · exact List.forall_mem_cons.2 ⟨hplaced.aligned, hc.aligned⟩

theorem Checked.sublist (hc : Checked ranges) (hsub : ranges'.Sublist ranges) : Checked ranges' :=
  ⟨fun p hp => hc.nonempty p (hsub.subset hp), fun p hp => hc.aligned p (hsub.subset hp), hc.allows.sublist hsub⟩

theorem Checked.remove (hc : Checked ranges) (lo : UInt32) : Checked (removeRange ranges lo) :=
  hc.sublist List.eraseP_sublist

/-- two ranges of a list begin at different addresses -/
theorem Checked.starts (hc : Checked ranges) : (ranges.map Range.lo).Nodup := by
  rw [List.Nodup, List.pairwise_map]
  apply hc.allows.imp_of_mem
  intro p q hp hq hallows heq
  have hends := endsIn_of_eq (b := p.hi.toNat) (hc.nonempty q hq) (congrArg UInt32.toNat heq)
  exact (not_endsIn_iff (hc.nonempty p hp)).2 hallows hends

/-! ## Runs -/

inductive RangeOp where
  | add (h : Heap) (lo : UInt32) (size : Int32)
  | remove (lo : UInt32)
  | clear

def rangeStep (ranges : List Range) : RangeOp → Option (List Range)
  | .add h lo size => (addRange h ranges lo size).toOption
  | .remove lo => some (removeRange ranges lo)
  | .clear => some clearRanges

/-- payloads are checked against a heap that lies below its limit -/
def InExtent (_ : List Range) : RangeOp → Prop
  | .add h _ _ => Extent h
  | .remove _ | .clear => True

theorem checked_step {o : RangeOp} (hc : Checked ranges) (ho : InExtent ranges o) (hst : rangeStep ranges o = some ranges') :
    Checked ranges' := by
  cases o with
  | add h lo size =>
    apply hc.add ho
    cases hadd : addRange h ranges lo size with
    | error e =>
      rw [rangeStep, hadd] at hst
      cases hst
    | ok l =>
      rw [rangeStep, hadd] at hst
      cases hst
      rfl
  | remove lo =>
    cases hst
    exact hc.remove lo
  | clear =>
    cases hst
    exact checked_nil

theorem checked_of_reach (hs : ReachIf rangeStep InExtent [] ranges) : Checked ranges :=
  hs.invariant checked_nil fun _ _ _ _ hc ho hst => checked_step hc ho hst

/-- **The range list.** In every list that calls of `add_range`, `remove_range` and `clear_ranges` lead to, the payloads
are aligned and begin at different addresses, and of two payloads that meet the later one has the earlier one strictly
inside. The next payload is accepted exactly when it is aligned, has all its bytes in the heap, and meets only payloads
that it has strictly inside. -/
theorem ranges_checked (hs : ReachIf rangeStep InExtent [] ranges) :
    (∀ p ∈ ranges, p.lo.toNat % 8 = 0 ∧ p.lo.toNat ≤ p.hi.toNat) ∧ (ranges.map Range.lo).Nodup ∧
      ranges.Pairwise Range.Allows ∧ ∀ h lo size, Extent h →
        ((addRange h ranges lo size).isOk ↔ Placed h lo size ∧ ∀ p ∈ ranges, (payload lo size).Allows p) := by
  have hc := checked_of_reach hs
  refine ⟨fun p hp => ⟨hc.aligned p hp, hc.nonempty p hp⟩, hc.starts, hc.allows, ?_⟩
  intro h lo size hext
  constructor
  · intro hok
    cases hadd : addRange h ranges lo size with
    | error e =>
      rw [hadd] at hok
      cases hok
    | ok l =>
      obtain ⟨hplaced, hends, -⟩ := (addRange_eq_ok_iff hext).1 hadd
      exact ⟨hplaced, (allows_iff hplaced.nonempty).1 hends⟩
  · intro hok
    obtain ⟨hplaced, hallows⟩ := hok
    rw [(addRange_eq_ok_iff hext).2 ⟨hplaced, (allows_iff hplaced.nonempty).2 hallows, rfl⟩]
    rfl

def smallHeap : Heap := ⟨0x10000000, 0x10000040, 0x11400000⟩

theorem smallHeap_extent : Extent smallHeap := ⟨by decide, by decide, by decide⟩

/-- 24 bytes around 8 bytes that are in use are accepted -/
theorem ranges_checked_example : (addRange smallHeap [⟨0x10000008, 0x1000000f⟩] 0x10000000 24).isOk ∧
    ([⟨0x10000000, 0x10000017⟩, ⟨0x10000008, 0x1000000f⟩] : List Range).Pairwise Range.Allows := by
  have hfirst : ReachIf rangeStep InExtent [] [⟨0x10000008, 0x1000000f⟩] :=
    .step (o := .add smallHeap 0x10000008 8) .init smallHeap_extent (by decide)
  have hsecond : ReachIf rangeStep InExtent [] [⟨0x10000000, 0x10000017⟩, ⟨0x10000008, 0x1000000f⟩] :=
    .step (o := .add smallHeap 0x10000000 24) hfirst smallHeap_extent (by decide)
  have hplaced : Placed smallHeap 0x10000000 24 := ⟨by decide, by decide, by decide, by decide⟩
  have hallows : ∀ p ∈ [(⟨0x10000008, 0x1000000f⟩ : Range)], (payload 0x10000000 24).Allows p := by
    intro p hp
    rw [List.mem_singleton.1 hp]
    exact .inr (show _ ∧ _ by decide)
  exact ⟨((ranges_checked hfirst).2.2.2 _ _ _ smallHeap_extent).2 ⟨hplaced, hallows⟩, (ranges_checked hsecond).2.2.1⟩

end DecsLabs.Malloc
