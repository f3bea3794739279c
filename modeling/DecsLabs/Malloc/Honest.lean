/-
The driver on a package that keeps the contract of malloc: fresh aligned memory in the heap, no write to memory in use,
contents brought along by a reallocation. It should pass, and does not always: the check of the contents compares a
`char`, which has a sign, with a low byte.

- `Provides`, `Honest`: the contract, for a call in the middle of a trace.
- `Filled`: what the driver knows of the contents of the payloads in use.
- `honest_accepted`: a package that keeps the contract passes exactly when no index that is reallocated has a low byte of
  128 or more.
-/
import DecsLabs.Malloc.Tracking

namespace DecsLabs.Malloc

open DecsLabs.Transition

variable {σ : Type}

/-! ## The contract -/

def Range.Has (r : Range) (a : ℕ) : Prop := r.lo.toNat ≤ a ∧ a ≤ r.hi.toNat

/-- the heap does not shrink, and no byte of the payloads `others` is written -/
structure Spares (m m' : Machine σ) (others : List Range) : Prop where
  grows : Grows m.heap m'.heap
  frame : ∀ r ∈ others, ∀ a, r.Has a → m'.bytes a = m.bytes a

/-- and `p` is memory for `size` bytes -/
structure Provides (m m' : Machine σ) (p : UInt32) (size : Int32) (others : List Range) : Prop extends
    Spares m m' others, HandsOut m m' p size others

/-- the call of the package in an operation keeps the contract -/
def Honest (pkg : Package σ) (s : Tracked σ) : TraceOp → Prop
  | .alloc _ size =>
    let (p, m) := pkg.mmMalloc s.driver.machine size.toUInt32
    Provides s.driver.machine m p size (payloads s.driver.slots s.live)
  | .realloc i size => ∀ old, entry s.driver.slots i = some old →
    let (newp, m) := pkg.mmRealloc s.driver.machine old.block size.toUInt32
    Provides s.driver.machine m newp size (payloads s.driver.slots (s.live.erase i)) ∧
      ∀ j < min size.toUInt32.toNat old.blockSize.toNat,
        m.bytes (newp.toNat + j) = s.driver.machine.bytes (old.block.toNat + j)
  | .free i => ∀ old, entry s.driver.slots i = some old →
    Spares s.driver.machine (pkg.mmFree s.driver.machine old.block) (payloads s.driver.slots (s.live.erase i))

/-! ## Contents -/

/-- the payload of each index in use is filled with the low byte of the index -/
structure Filled (s : Tracked σ) : Prop extends Tracks s where
  pos : ∀ i ∈ s.live, ∀ e, entry s.driver.slots i = some e → e.blockSize.toInt32 > 0
  filled : ∀ i ∈ s.live, ∀ r, slotRange s.driver.slots i = some r → ∀ a, r.Has a →
    s.driver.machine.bytes a = lowByte i

variable {pkg : Package σ} {s s' : Tracked σ} {op : TraceOp} {slots : List Slot} {live : List Int32} {ranges : List Range}
  {index size : Int32} {p : UInt32}

/-- the payload that a call has provided is accepted -/
theorem Provides.accepted {m m' : Machine σ} (h : Provides m m' p size ranges) :
    addRange m'.heap ranges p size = .ok (payload p size :: ranges) := by
  refine (addRange_eq_ok_iff h.grows.extent).2 ⟨h.placed, ?_, rfl⟩
  intro r hr
  exact (Intervals.not_endsIn_iff h.placed.nonempty).2 (.inl (h.off r hr))

/-- the bytes of a payload in use, after another one has been filled -/
theorem Provides.memset {m m' : Machine σ} (h : Provides m m' p size ranges) (hc : Checked ranges) {r : Range}
    (hr : r ∈ ranges) {a : ℕ} (ha : r.Has a) : (m'.memset p index size).bytes a = m.bytes a := by
  have hend := h.placed.end_toNat
  have hhi : (payload p size).hi.toNat = p.toNat + size.toUInt32.toNat - 1 := hend
  have hout : ¬ (p.toNat ≤ a ∧ a < p.toNat + size.toUInt32.toNat) := by
    intro hin
    have hnew : a ∈ Set.Icc (payload p size).lo.toNat (payload p size).hi.toNat := ⟨hin.1, by omega⟩
    exact (Intervals.off_iff h.placed.nonempty (hc.nonempty r hr)).1 (h.off r hr) a hnew ha
  exact (if_neg hout).trans (h.frame r hr a ha)

/-- the driver after a payload that a call has provided -/
theorem Filled.accept (hs : Filled s) {m : Machine σ} {live : List Int32} {old : List Range}
    (hslot : (entry s.driver.slots index).isSome) (hlive : live.Nodup) (hindex : index ∉ live) (hsubset : live ⊆ s.live)
    (hmap : live.map (slotRange s.driver.slots) = old.map some) (hsub : old.Sublist s.driver.ranges)
    (h : Provides s.driver.machine m p size (payloads s.driver.slots live)) :
    addRange m.heap old p size = .ok (payload p size :: old) ∧
      Filled ⟨⟨m.memset p index size, payload p size :: old, remember s.driver.slots index p size⟩, index :: live⟩ := by
  rw [payloads_eq hmap] at h
  have hc := hs.checked.sublist hsub
  have hadd := h.accepted
  have hkeep : ∀ i ∈ live, entry (remember s.driver.slots index p size) i = entry s.driver.slots i := fun i hi =>
    entry_remember_of_ne (fun he => hindex (he ▸ hi)) hslot
  have hsize : size.toUInt32.toInt32 > 0 := by
    rw [Int32.toInt32_toUInt32]
    exact h.placed.pos
  refine ⟨hadd, hs.toTracks.accept h.grows hslot hlive hindex hmap hsub hadd, ?_, ?_⟩
  · refine List.forall_mem_cons.2 ⟨?_, ?_⟩
    · intro e he
      rw [entry_remember_self hslot] at he
      cases he
      exact hsize
    · intro i hi e he
      rw [hkeep i hi] at he
      exact hs.pos i (hsubset hi) e he
  · refine List.forall_mem_cons.2 ⟨?_, ?_⟩
    · intro r hr a ha
      obtain rfl := Option.some.inj ((slotRange_remember hslot).symm.trans hr)
      have hend : (payload p size).hi.toNat = p.toNat + size.toUInt32.toNat - 1 := h.placed.end_toNat
      have hpos := ((size_pos_iff size).1 h.placed.pos).1
      have hhi := ha.2
      exact if_pos ⟨ha.1, by omega⟩
    · intro i hi r hr a ha
      rw [slotRange, hkeep i hi, ← slotRange] at hr
      have hmem : r ∈ old := payloads_eq hmap ▸ mem_payloads hi hr
      rw [h.memset hc hmem ha]
      exact hs.filled i (hsubset hi) r hr a ha

/-- what a reallocation finds in the new payload -/
theorem Filled.brought (hs : Filled s) (hindex : index ∈ s.live) {old : Slot} (hold : entry s.driver.slots index = some old)
    (hsize : size > 0) {bytes : ℕ → UInt8} (hcopy : ∀ j < min size.toUInt32.toNat old.blockSize.toNat,
      bytes (p.toNat + j) = s.driver.machine.bytes (old.block.toNat + j)) :
    holds bytes p index (smaller size old.blockSize) ↔ (lowByte index).toNat < 128 := by
  have hpos := hs.pos index hindex old hold
  have hplace : place (smaller size old.blockSize) = min size.toUInt32.toNat old.blockSize.toNat := by
    have hsmaller := place_smaller hsize hpos
    rwa [UInt32.toUInt32_toInt32] at hsmaller
  have hlo := ((size_pos_iff size).1 hsize).1
  have hlo' := ((size_pos_iff _).1 hpos).1
  rw [UInt32.toUInt32_toInt32] at hlo'
  rw [holds_iff, hplace]
  constructor
  · intro h
    exact (h 0 (by omega)).2
  · intro hlow j hj
    have hr := slotRange_eq hold
    have hnonempty := hs.checked.nonempty _ (payloads_eq hs.ranges ▸ mem_payloads hindex hr)
    have hbelow := hs.inHeap _ (payloads_eq hs.ranges ▸ mem_payloads hindex hr)
    have hhas : (payload old.block old.blockSize.toInt32).Has (old.block.toNat + j) := by
      refine ⟨Nat.le_add_right _ _, ?_⟩
      have hone : (1 : UInt32).toNat = 1 := rfl
      have hhi : (payload old.block old.blockSize.toInt32).hi.toNat = (old.block + old.blockSize - 1).toNat := by
        simp only [payload, UInt32.toUInt32_toInt32]
      have hlt := old.block.toNat_lt
      have hltsize := old.blockSize.toNat_lt
      change old.block.toNat ≤ _ at hnonempty
      rw [hhi, UInt32.toNat_sub, UInt32.toNat_add, hone] at hnonempty ⊢
      omega
    rw [hcopy j hj]
    exact ⟨hs.filled index hindex _ hr _ hhas, hlow⟩

/-! ## Traces -/

/-- the low byte is a `char` without a sign -/
def LowIndex : TraceOp → Prop
  | .realloc i _ => (lowByte i).toNat < 128
  | .alloc _ _ | .free _ => True

theorem Filled.free (hs : Filled s) (hindex : index ∈ s.live) {old : Slot} (hold : entry s.driver.slots index = some old)
    {m : Machine σ} (h : Spares s.driver.machine m (payloads s.driver.slots (s.live.erase index))) :
    Filled ⟨⟨m, removeRange s.driver.ranges old.block, s.driver.slots⟩, s.live.erase index⟩ := by
  have hmap := hs.erase hindex hold
  have hsubset : s.live.erase index ⊆ s.live := List.erase_subset
  refine ⟨⟨h.grows.extent, hs.nodup.erase index, hmap, hs.checked.remove old.block, ?_⟩, ?_, ?_⟩
  · intro r hr
    exact h.grows.below (hs.inHeap r (List.mem_of_mem_eraseP hr))
  · intro i hi e he
    exact hs.pos i (hsubset hi) e he
  · intro i hi r hr a ha
    exact (h.frame r (mem_payloads hi hr) a ha).trans (hs.filled i (hsubset hi) r hr a ha)

/-- **One operation.** -/
theorem honest_step (hs : Filled s) (hop : Proper s.live op) (harray : InArray s.driver.slots.length op.index)
    (hhonest : Honest pkg s op) :
    (LowIndex op → ∃ s', trackStep pkg s op = some s' ∧ Filled s' ∧
      s'.driver.slots.length = s.driver.slots.length) ∧ (¬ LowIndex op → validStep pkg s.driver op = none) := by
  cases op with
  | alloc index size =>
    have hslot : (entry s.driver.slots index).isSome := entry_isSome_iff.2 harray
    obtain ⟨hadd, hnext⟩ := hs.accept hslot hs.nodup hop (List.Subset.refl _) hs.ranges (List.Sublist.refl _) hhonest
    have hpass : Passed pkg s.driver (.alloc _ _) _ := .alloc rfl hhonest.ne_null hadd hslot
    exact ⟨fun _ => ⟨_, trackStep_iff.2 ⟨hpass, rfl⟩, hnext, remember_length⟩, fun hno => absurd trivial hno⟩
  | realloc index size =>
    have hslot : (entry s.driver.slots index).isSome := entry_isSome_iff.2 harray
    obtain ⟨old, hold⟩ := Option.isSome_iff_exists.1 hslot
    obtain ⟨hprovides, hcopy⟩ := hhonest old hold
    obtain ⟨hadd, hnext⟩ := hs.accept hslot (hs.nodup.erase index) hs.nodup.not_mem_erase List.erase_subset
      (hs.erase hop hold) List.eraseP_sublist hprovides
    have hbrought := hs.brought hop hold hprovides.placed.pos hcopy
    constructor
    · intro hlow
      have hpass : Passed pkg s.driver (.realloc _ _) _ := .realloc hold rfl hprovides.ne_null hadd (hbrought.2 hlow)
      exact ⟨_, trackStep_iff.2 ⟨hpass, rfl⟩, hnext, remember_length⟩
    · intro hhigh
      rw [Option.eq_none_iff_forall_ne_some]
      intro d' hstep
      cases validStep_iff.1 hstep with
      | realloc hslot' hcall hp hadd' hholds =>
        obtain rfl := Option.some.inj (hold.symm.trans hslot')
        obtain ⟨rfl, rfl⟩ := Prod.ext_iff.1 hcall
        exact hhigh (hbrought.1 hholds)
  | free index =>
    obtain ⟨old, hold⟩ := Option.isSome_iff_exists.1 (entry_isSome_iff.2 harray)
    have hnext := hs.free hop hold (hhonest old hold)
    exact ⟨fun _ => ⟨_, trackStep_iff.2 ⟨.free hold, rfl⟩, hnext, rfl⟩, fun hno => absurd trivial hno⟩

/-- **Replays.** -/
theorem honest_run {ops : List TraceOp} (hs : Filled s) (hbal : Along indexStep Proper s.live ops)
    (harray : ∀ op ∈ ops, InArray s.driver.slots.length op.index) (hhonest : Along (trackStep pkg) (Honest pkg) s ops) :
    (run (validStep pkg) s.driver ops).isSome ↔ ∀ op ∈ ops, LowIndex op := by
  induction ops generalizing s with
  | nil => simp [run]
  | cons op ops ih =>
    obtain ⟨hop, hops⟩ := List.forall_mem_cons.1 harray
    obtain ⟨hpasses, hstops⟩ := honest_step hs hbal.1 hop hhonest.1
    rw [List.forall_mem_cons, run]
    by_cases hlow : LowIndex op
    · obtain ⟨s', hst, hs', hlength⟩ := hpasses hlow
      obtain ⟨hpass, hlive⟩ := trackStep_iff.1 hst
      have hrest : Along indexStep Proper s'.live ops := hlive ▸ hbal.2 _ rfl
      rw [validStep_iff.2 hpass, ← ih hs' hrest (hlength ▸ hops) (hhonest.2 s' hst), Option.bind_some]
      exact (and_iff_right hlow).symm
    · rw [hstops hlow]
      exact iff_of_false Bool.false_ne_true fun h => hlow h.1

/-- **Packages that keep the contract.** For every package whose calls keep the contract of malloc in the replay of a
balanced trace, with indices in the array: `eval_mm_valid` returns 1 exactly when no index that the trace reallocates has
a low byte of 128 or more. -/
theorem honest_accepted {ops : List TraceOp} {d : Driver σ} (hinit : ¬ (pkg.mmInit d.machine.reset).1 < 0)
    (hgrows : Grows d.machine.reset.heap (initialized pkg d).machine.heap) (hbal : Balanced ops)
    (harray : ∀ op ∈ ops, InArray d.slots.length op.index)
    (hhonest : Along (trackStep pkg) (Honest pkg) ⟨initialized pkg d, []⟩ ops) :
    (evalMmValid pkg ops d).1 = none ↔ ∀ i size, .realloc i size ∈ ops → (lowByte i).toNat < 128 := by
  have hs : Filled ⟨initialized pkg d, []⟩ :=
    ⟨initialized_tracks hgrows, fun _ hi => absurd hi List.not_mem_nil, fun _ hi => absurd hi List.not_mem_nil⟩
  have hlow : (∀ op ∈ ops, LowIndex op) ↔ ∀ i size, .realloc i size ∈ ops → (lowByte i).toNat < 128 := by
    constructor
    · intro h i size hmem
      exact h _ hmem
    · intro h op hmem
      cases op with
      | alloc => trivial
      | realloc i size => exact h i size hmem
      | free => trivial
  rw [← hlow, ← honest_run hs hbal harray hhonest]
  constructor
  · intro hnone
    have hacc : evalMmValid pkg ops d = (none, (evalMmValid pkg ops d).2) := Prod.ext hnone rfl
    exact Option.isSome_iff_exists.2 ⟨_, (evalMmValid_iff.1 hacc).2⟩
  · intro hsome
    obtain ⟨d', hrun⟩ := Option.isSome_iff_exists.1 hsome
    rw [evalMmValid_iff.2 ⟨hinit, hrun⟩]

/-- mm.c with the copy that the comment in `mm_realloc` asks for; it copies as many bytes as the new block has -/
def mmCopying : Package Unit where
  mmInit := mm.mmInit
  mmMalloc := mm.mmMalloc
  mmFree := mm.mmFree
  mmRealloc m ptr size :=
    let (p, m') := mm.mmRealloc m ptr size
    (p, { m' with bytes := fun a => if p.toNat ≤ a then m.bytes (ptr.toNat + (a - p.toNat)) else m.bytes a })

theorem mmCopying_copies (m : Machine Unit) (ptr size : UInt32) (j : ℕ) :
    (mmCopying.mmRealloc m ptr size).2.bytes ((mmCopying.mmRealloc m ptr size).1.toNat + j) =
      m.bytes (ptr.toNat + j) := by
  let p := (mm.mmRealloc m ptr size).1.toNat
  have hcopied : (if p ≤ p + j then m.bytes (ptr.toNat + (p + j - p)) else m.bytes (p + j)) =
      m.bytes (ptr.toNat + j) := by
    rw [if_pos (Nat.le_add_right p j), Nat.add_sub_cancel_left]
  exact hcopied

def lowDriver : Driver Unit := { freshDriver with slots := List.replicate 129 ⟨0, 0⟩ }

/-- a block of index 128 is reallocated, contents and all, and the driver complains -/
theorem honest_accepted_example : (evalMmValid mmCopying [.alloc 128 8, .realloc 128 16] lowDriver).1 ≠ none := by
  have hspace : Extent ⟨0x10000000, 0x10000000, 0x11400000⟩ := ⟨by decide, by decide, by decide⟩
  have hfirst : Extent ⟨0x10000000, 0x10000008, 0x11400000⟩ := ⟨by decide, by decide, by decide⟩
  have hsecond : Extent ⟨0x10000000, 0x10000018, 0x11400000⟩ := ⟨by decide, by decide, by decide⟩
  have hbal : Balanced [.alloc 128 8, .realloc 128 16] := by decide
  have hhonest : Along (trackStep mmCopying) (Honest mmCopying) ⟨initialized mmCopying lowDriver, []⟩
      [.alloc 128 8, .realloc 128 16] := by
    refine ⟨⟨⟨⟨rfl, by decide, hfirst⟩, ?_⟩, by decide, ⟨by decide, by decide, by decide, by decide⟩, ?_⟩, ?_⟩
    · exact fun r hr => absurd hr List.not_mem_nil
    · exact fun r hr => absurd hr List.not_mem_nil
    rintro s ⟨⟩
    refine ⟨?_, fun _ _ => trivial⟩
    rintro old ⟨⟩
    refine ⟨⟨⟨⟨rfl, by decide, hsecond⟩, ?_⟩, by decide, ⟨by decide, by decide, by decide, by decide⟩, ?_⟩, ?_⟩
    · exact fun r hr => absurd hr List.not_mem_nil
    · exact fun r hr => absurd hr List.not_mem_nil
    · intro j hj
      exact mmCopying_copies _ _ _ j
  have hgrows : Grows lowDriver.machine.reset.heap (initialized mmCopying lowDriver).machine.heap :=
    ⟨rfl, le_rfl, hspace⟩
  have harray : ∀ op ∈ [TraceOp.alloc 128 8, .realloc 128 16], InArray lowDriver.slots.length op.index := by
    have hlength : lowDriver.slots.length = 129 := List.length_replicate
    have hplace : InArray lowDriver.slots.length 128 := hlength ▸ show _ ∧ _ by decide
    exact List.forall_mem_cons.2 ⟨hplace, List.forall_mem_singleton.2 hplace⟩
  intro hnone
  have hall := (honest_accepted (by decide) hgrows hbal harray hhonest).1 hnone 128 16 (by decide)
  exact absurd hall (by decide)

end DecsLabs.Malloc
