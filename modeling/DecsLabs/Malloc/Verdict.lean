/-
The verdict of the driver on the package of the repository (mm.c), for every trace and whatever the memory holds. The
package is a break that goes up: what it has handed out is a number, and it copies nothing.

- `Bump`, `bumpStep`: the number of bytes that are taken, and the sizes that the driver remembers.
- `Passes`: which operations pass. A reallocation needs the filling of its index at the break already.
- `mm_verdict`: `eval_mm_valid` accepts exactly the traces whose operations all pass.
-/
import DecsLabs.Malloc.Requests
import DecsLabs.Malloc.Tracking

namespace DecsLabs.Malloc

open DecsLabs.Transition

/-! ## Model -/

structure Bump where
  /-- from the start of the heap to the break -/
  taken : ℕ
  /-- `block_sizes` -/
  sizes : Int32 → UInt32

def Bump.request (b : Bump) (index size : Int32) : Bump :=
  ⟨b.taken + rounded size.toUInt32, Function.update b.sizes index size.toUInt32⟩

def bumpStep (b : Bump) : TraceOp → Option Bump
  | .alloc index size => some (b.request index size)
  | .realloc index size => some (b.request index size)
  | .free _ => some b

/-- a size that is left below the limit -/
def Room (b : Bump) (size : Int32) : Prop := size > 0 ∧ b.taken + rounded size.toUInt32 ≤ maxHeap

/-- for a heap at `start` in a memory that holds `bytes` -/
def Passes (n start : ℕ) (bytes : ℕ → UInt8) (b : Bump) : TraceOp → Prop
  | .alloc index size => InArray n index ∧ Room b size
  | .realloc index size => InArray n index ∧ Room b size ∧
    ∀ j < place (smaller size (b.sizes index)),
      bytes (start + b.taken + j) = lowByte index ∧ (lowByte index).toNat < 128
  | .free index => InArray n index

/-- the driver in front of an operation -/
structure Bumped (n start : ℕ) (bytes : ℕ → UInt8) (b : Bump) (d : Driver Unit) : Prop where
  start_eq : d.machine.heap.memStartBrk.toNat = start
  max_eq : d.machine.heap.memMaxAddr.toNat = start + maxHeap
  brk_eq : d.machine.heap.memBrk.toNat = start + b.taken
  taken_le : b.taken ≤ maxHeap
  taken_dvd : 8 ∣ b.taken
  below : ∀ r ∈ d.ranges, r.hi.toNat < start + b.taken
  behind : ∀ a, start + b.taken ≤ a → d.machine.bytes a = bytes a
  length : d.slots.length = n
  sizes : ∀ i e, entry d.slots i = some e → e.blockSize = b.sizes i

variable {n start : ℕ} {bytes : ℕ → UInt8} {b : Bump} {d d' : Driver Unit} {index size : Int32} {p : UInt32}
  {q : Request} {op : TraceOp}

theorem Bumped.inArray_iff (hd : Bumped n start bytes b d) : InArray n index ↔ (entry d.slots index).isSome := by
  rw [entry_isSome_iff, hd.length]

theorem Bumped.extent (hpos : 0 < start) (hd : Bumped n start bytes b d) : Extent d.machine.heap := by
  have hstart := hd.start_eq
  have hbrk := hd.brk_eq
  have hle := hd.taken_le
  exact ⟨by omega, by omega, by omega⟩

/-! ## Requests -/

/-- a request that has room gets the memory at the break -/
theorem Bumped.served (hd : Bumped n start bytes b d) (hq : q.size = size.toUInt32) (hroom : Room b size) :
    answer d.machine.heap q = (d.machine.heap.memBrk,
        { d.machine.heap with memBrk := d.machine.heap.memBrk + aligned size.toUInt32 }) ∧
      (d.machine.heap.memBrk + aligned size.toUInt32).toNat = start + (b.taken + rounded size.toUInt32) := by
  obtain ⟨hsize, hle⟩ := hroom
  have hpos := (size_pos_iff size).1 hsize
  have hbrk := hd.brk_eq
  have hmax := hd.max_eq
  have hheap : maxHeap < 2 ^ 31 := by decide
  have hround : (aligned q.size).toNat = rounded size.toUInt32 := by
    have hsmall := le_rounded size.toUInt32
    rw [hq, aligned_of_le (by omega)]
  have hfit : Fits d.machine.heap (aligned q.size).toNat := by
    unfold Fits
    omega
  have hsum := memSbrk_of_fits (by omega) hfit
  rw [hq] at hsum hround
  rw [answer_eq_memSbrk _ (by rw [hq]; exact hpos.1) (.inl (by rw [hq]; omega)), hq]
  exact ⟨hsum.1, by omega⟩

/-- the size does not reach around the end of the address space -/
def InSpace (start : ℕ) (size : Int32) : Prop := start + maxHeap + place size + 8 ≤ 2 ^ 32

/-- a request without room is refused with -1, or is for no positive size -/
theorem Bumped.refused (hd : Bumped n start bytes b d) (hq : q.size = size.toUInt32) (hspace : InSpace start size)
    (hroom : ¬ Room b size) (h : Heap) (ranges ranges' : List Range) :
    addRange h ranges (answer d.machine.heap q).1 size ≠ .ok ranges' := by
  intro hadd
  by_cases hsize : size > 0
  swap
  · rw [addRange, if_pos hsize] at hadd
    cases hadd
  have hpos := (size_pos_iff size).1 hsize
  have hplace := place_of_pos hsize
  have hbrk := hd.brk_eq
  have hmax := hd.max_eq
  have htaken := hd.taken_le
  have hle : rounded size.toUInt32 ≤ size.toUInt32.toNat + 7 := by
    unfold rounded
    omega
  have hround : (aligned q.size).toNat = rounded size.toUInt32 := by rw [hq, aligned_of_le (by omega)]
  have hfull : maxHeap < b.taken + rounded size.toUInt32 := not_le.1 fun hle => hroom ⟨hsize, hle⟩
  have hfit : ¬ Fits d.machine.heap (aligned q.size).toNat := by
    unfold Fits
    omega
  rw [answer_eq_memSbrk _ (by rw [hq]; exact hpos.1) (.inl (by rw [hq]; omega))] at hadd
  rcases memSbrk_of_not_fits hfit with herr | ⟨-, hwrap⟩
  · have hodd : ¬ isAligned sbrkError := by decide
    rw [herr, addRange, if_neg (not_not.2 hsize), if_pos hodd] at hadd
    cases hadd
  · unfold InSpace at hspace
    rw [UInt32.toNat_add] at hwrap
    omega

/-- the last byte of a payload at the break -/
theorem Bumped.payload_hi (hd : Bumped n start bytes b d) (hroom : Room b size) (hq : q.size = size.toUInt32) :
    (payload d.machine.heap.memBrk size).hi.toNat = start + b.taken + size.toUInt32.toNat - 1 := by
  obtain ⟨-, hend⟩ := hd.served hq hroom
  have hlt := (d.machine.heap.memBrk + aligned size.toUInt32).toNat_lt
  have hbrk := hd.brk_eq
  have hround := le_rounded size.toUInt32
  have hpos := ((size_pos_iff size).1 hroom.1).1
  have hone : (1 : UInt32).toNat = 1 := rfl
  change (d.machine.heap.memBrk + size.toUInt32 - 1).toNat = _
  rw [UInt32.toNat_sub, UInt32.toNat_add, hone]
  omega

/-- the memory at the break is accepted, whatever has been taken out of the range list -/
theorem Bumped.accepts (hpos : 0 < start) (hdvd : 8 ∣ start) (hd : Bumped n start bytes b d)
    (hq : q.size = size.toUInt32) (hroom : Room b size) {ranges : List Range} (hsub : ranges ⊆ d.ranges) :
    (answer d.machine.heap q).1 ≠ null ∧
      addRange (answer d.machine.heap q).2 ranges (answer d.machine.heap q).1 size =
        .ok (payload d.machine.heap.memBrk size :: ranges) := by
  obtain ⟨hans, hend⟩ := hd.served hq hroom
  have hstart := hd.start_eq
  have hbrk := hd.brk_eq
  have hround := le_rounded size.toUInt32
  have hmax := hroom.2
  simp only [hans]
  refine ⟨?_, ?_⟩
  · intro hnull
    have hzero : d.machine.heap.memBrk.toNat = 0 := congrArg UInt32.toNat hnull
    omega
  · have hext : Extent { d.machine.heap with memBrk := d.machine.heap.memBrk + aligned size.toUInt32 } := by
      refine ⟨?_, ?_, ?_⟩
      all_goals simp only
      all_goals omega
    have haligned : d.machine.heap.memBrk.toNat % 8 = 0 := by
      have htaken := hd.taken_dvd
      omega
    refine (addRange_eq_ok_iff hext).2 ⟨⟨hroom.1, haligned, ?_, ?_⟩, ?_, rfl⟩
    · simp only
      omega
    · simp only
      omega
    · -- every payload before it ends below the break
      intro r hr hends
      have hbelow := hd.below r (hsub hr)
      have hhi := hd.payload_hi hroom hq
      have hsize := ((size_pos_iff size).1 hroom.1).1
      rcases hends with hlo | hhi'
      · have hle : d.machine.heap.memBrk.toNat ≤ r.hi.toNat := hlo.2
        omega
      · have hle := hhi'.2
        omega

/-! ## One operation -/

/-- the driver after a request with room -/
theorem Bumped.request (hd : Bumped n start bytes b d) (hq : q.size = size.toUInt32) (hroom : Room b size)
    (hindex : InArray n index) {ranges : List Range} (hsub : ranges ⊆ d.ranges) :
    Bumped n start bytes (b.request index size)
      ⟨({ d.machine with heap := (answer d.machine.heap q).2 } : Machine Unit).memset (answer d.machine.heap q).1 index size,
        payload d.machine.heap.memBrk size :: ranges,
        remember d.slots index (answer d.machine.heap q).1 size⟩ := by
  obtain ⟨hans, hend⟩ := hd.served hq hroom
  have hbrk := hd.brk_eq
  have hround := le_rounded size.toUInt32
  have hsize := (size_pos_iff size).1 hroom.1
  have hslot := hd.inArray_iff.1 hindex
  simp only [hans]
  refine ⟨hd.start_eq, hd.max_eq, hend, hroom.2, dvd_add hd.taken_dvd (rounded_dvd _), ?_, ?_, ?_, ?_⟩
  · refine List.forall_mem_cons.2 ⟨?_, ?_⟩
    · have hhi := hd.payload_hi hroom hq
      simp only [Bump.request]
      omega
    · intro r hr
      have hbelow := hd.below r (hsub hr)
      simp only [Bump.request]
      omega
  · intro a ha
    have hbehind : start + (b.taken + rounded size.toUInt32) ≤ a := ha
    have hout : ¬ (d.machine.heap.memBrk.toNat ≤ a ∧ a < d.machine.heap.memBrk.toNat + size.toUInt32.toNat) := by omega
    exact (if_neg hout).trans (hd.behind a (by omega))
  · exact remember_length.trans hd.length
  · intro i e he
    by_cases hi : i = index
    · subst hi
      rw [entry_remember_self hslot] at he
      cases he
      simp [Bump.request]
    · rw [entry_remember_of_ne hi hslot] at he
      simp [Bump.request, hi, hd.sizes i e he]

/-- what `mm_realloc` finds at the break is what the memory held -/
theorem Bumped.holds_iff (hd : Bumped n start bytes b d) (hq : q.size = size.toUInt32) (hroom : Room b size) (index k : Int32) :
    holds d.machine.bytes (answer d.machine.heap q).1 index k ↔
      ∀ j < place k, bytes (start + b.taken + j) = lowByte index ∧ (lowByte index).toNat < 128 := by
  obtain ⟨hans, -⟩ := hd.served hq hroom
  rw [Malloc.holds_iff]
  apply forall₂_congr
  intro j _
  simp only [hans]
  rw [hd.brk_eq, hd.behind _ (Nat.le_add_right _ j)]

/-- a size that an operation asks for -/
def SpaceOp (start : ℕ) : TraceOp → Prop
  | .alloc _ size => InSpace start size
  | .realloc _ size => InSpace start size
  | .free _ => True

theorem Bumped.passed (hpos : 0 < start) (hdvd : 8 ∣ start) (hd : Bumped n start bytes b d)
    (hp : Passes n start bytes b op) :
    ∃ d', Passed mm d op d' ∧ ∀ b', bumpStep b op = some b' → Bumped n start bytes b' d' := by
  cases op with
  | alloc index size =>
    obtain ⟨hindex, hroom⟩ := hp
    obtain ⟨hne, hadd⟩ := hd.accepts (q := .malloc size.toUInt32) hpos hdvd rfl hroom (List.Subset.refl _)
    refine ⟨_, .alloc rfl hne hadd (hd.inArray_iff.1 hindex), ?_⟩
    rintro b' ⟨⟩
    exact hd.request (q := .malloc size.toUInt32) rfl hroom hindex (List.Subset.refl _)
  | realloc index size =>
    obtain ⟨hindex, hroom, hbytes⟩ := hp
    obtain ⟨old, hold⟩ := Option.isSome_iff_exists.1 (hd.inArray_iff.1 hindex)
    have hsub : removeRange d.ranges old.block ⊆ d.ranges := List.eraseP_subset
    obtain ⟨hne, hadd⟩ := hd.accepts (q := .realloc old.block size.toUInt32) hpos hdvd rfl hroom hsub
    have hholds := (hd.holds_iff (q := .realloc old.block size.toUInt32) rfl hroom index
      (smaller size old.blockSize)).2 (by rwa [hd.sizes index old hold])
    refine ⟨_, .realloc hold rfl hne hadd hholds, ?_⟩
    rintro b' ⟨⟩
    exact hd.request (q := .realloc old.block size.toUInt32) rfl hroom hindex hsub
  | free index =>
    obtain ⟨old, hold⟩ := Option.isSome_iff_exists.1 (hd.inArray_iff.1 hp)
    refine ⟨_, .free hold, ?_⟩
    rintro b' ⟨⟩
    exact ⟨hd.start_eq, hd.max_eq, hd.brk_eq, hd.taken_le, hd.taken_dvd,
      fun r hr => hd.below r (List.mem_of_mem_eraseP hr), hd.behind, hd.length, hd.sizes⟩

theorem Bumped.passes (hd : Bumped n start bytes b d) (hspace : SpaceOp start op) (hp : Passed mm d op d') :
    Passes n start bytes b op := by
  cases hp with
  | @alloc index size p m ranges hcall hne hadd hslot =>
    cases hcall
    have hroom : Room b size := by
      by_contra hno
      exact hd.refused (q := .malloc size.toUInt32) rfl hspace hno _ _ _ hadd
    exact ⟨hd.inArray_iff.2 hslot, hroom⟩
  | @realloc index size old newp m ranges hold hcall hne hadd hholds =>
    cases hcall
    have hroom : Room b size := by
      by_contra hno
      exact hd.refused (q := .realloc old.block size.toUInt32) rfl hspace hno _ _ _ hadd
    have hbytes := (hd.holds_iff (q := .realloc old.block size.toUInt32) rfl hroom index _).1 hholds
    rw [hd.sizes index old hold] at hbytes
    exact ⟨hd.inArray_iff.2 (by rw [hold]; rfl), hroom, hbytes⟩
  | @free index old hold => exact hd.inArray_iff.2 (by rw [hold]; rfl)

/-! ## Traces -/

/-- **Replays.** -/
theorem Bumped.run_iff (hpos : 0 < start) (hdvd : 8 ∣ start) {ops : List TraceOp} (hspace : ∀ op ∈ ops, SpaceOp start op)
    (hd : Bumped n start bytes b d) :
    (run (validStep mm) d ops).isSome ↔ Along bumpStep (Passes n start bytes) b ops := by
  induction ops generalizing b d with
  | nil => exact iff_of_true rfl trivial
  | cons op ops ih =>
    obtain ⟨hop, hops⟩ := List.forall_mem_cons.1 hspace
    rw [run]
    constructor
    · intro hsome
      obtain ⟨d2, hrun⟩ := Option.isSome_iff_exists.1 hsome
      obtain ⟨d1, hstep, hrest⟩ := Option.bind_eq_some_iff.1 hrun
      have hpass := validStep_iff.1 hstep
      have hp := hd.passes hop hpass
      obtain ⟨d1', hpass', hnext⟩ := hd.passed hpos hdvd hp
      obtain rfl : d1 = d1' := Option.some.inj (hstep.symm.trans (validStep_iff.2 hpass'))
      exact ⟨hp, fun b' hb' => (ih hops (hnext b' hb')).1 (Option.isSome_iff_exists.2 ⟨d2, hrest⟩)⟩
    · intro hall
      obtain ⟨hp, hrest⟩ := hall
      obtain ⟨d1, hpass, hnext⟩ := hd.passed hpos hdvd hp
      obtain ⟨b', hb'⟩ : ∃ b', bumpStep b op = some b' := by cases op <;> exact ⟨_, rfl⟩
      rw [validStep_iff.2 hpass]
      exact (ih hops (hnext b' hb')).2 (hrest b' hb')

/-- what `block_sizes` holds at first -/
def sizesOf (slots : List Slot) (index : Int32) : UInt32 := ((entry slots index).map Slot.blockSize).getD 0

theorem initialized_bumped {d : Driver Unit} (hmax : d.machine.heap.memMaxAddr.toNat = d.machine.heap.memStartBrk.toNat + maxHeap) :
    Bumped d.slots.length d.machine.heap.memStartBrk.toNat d.machine.bytes ⟨0, sizesOf d.slots⟩ (initialized mm d) where
  start_eq := rfl
  max_eq := hmax
  brk_eq := rfl
  taken_le := Nat.zero_le _
  taken_dvd := dvd_zero 8
  below r hr := absurd hr List.not_mem_nil
  behind _ _ := rfl
  length := rfl
  sizes i e he := by
    change entry d.slots i = some e at he
    change e.blockSize = sizesOf d.slots i
    rw [sizesOf, he]
    rfl

/-- **The verdict on mm.c.** For every trace whose sizes do not reach around the end of the address space, every array
and whatever the memory holds: `eval_mm_valid` returns 1 exactly when every operation passes, where the break only goes
up. A size of the trace has to be positive and to fit below the limit, and a reallocation finds the filling of its index
at the break by chance only. -/
theorem mm_verdict (d : Driver Unit) (ops : List TraceOp)
    (hmax : d.machine.heap.memMaxAddr.toNat = d.machine.heap.memStartBrk.toNat + maxHeap)
    (hpos : 0 < d.machine.heap.memStartBrk.toNat) (hdvd : 8 ∣ d.machine.heap.memStartBrk.toNat)
    (hspace : ∀ op ∈ ops, SpaceOp d.machine.heap.memStartBrk.toNat op) :
    (evalMmValid mm ops d).1 = none ↔
      Along bumpStep (Passes d.slots.length d.machine.heap.memStartBrk.toNat d.machine.bytes) ⟨0, sizesOf d.slots⟩ ops := by
  rw [← (initialized_bumped hmax).run_iff hpos hdvd hspace]
  constructor
  · intro h
    have hacc : evalMmValid mm ops d = (none, (evalMmValid mm ops d).2) := Prod.ext h rfl
    exact Option.isSome_iff_exists.2 ⟨_, (evalMmValid_iff.1 hacc).2⟩
  · intro h
    obtain ⟨d', hrun⟩ := Option.isSome_iff_exists.1 h
    have hinit : ¬ (mm.mmInit d.machine.reset).1 < 0 := show ¬ (0 : Int32) < 0 by decide
    rw [evalMmValid_iff.2 ⟨hinit, hrun⟩]

/-- a block of 0 that is reallocated looks like one that was copied, and a block of 1 does not -/
theorem mm_verdict_example :
    (evalMmValid mm [.alloc 0 100, .realloc 0 200, .free 0] freshDriver).1 = none ∧
      (evalMmValid mm [.alloc 1 100, .realloc 1 200, .free 1] freshDriver).1 ≠ none := by
  have hmax : freshDriver.machine.heap.memMaxAddr.toNat = freshDriver.machine.heap.memStartBrk.toNat + maxHeap := by decide
  have hspace : ∀ i, ∀ op ∈ [TraceOp.alloc i 100, .realloc i 200, .free i],
      SpaceOp freshDriver.machine.heap.memStartBrk.toNat op := by
    intro i op hop
    simp only [List.mem_cons, List.not_mem_nil, or_false] at hop
    rcases hop with rfl | rfl | rfl
    · exact show _ ≤ _ by decide
    · exact show _ ≤ _ by decide
    · trivial
  have hroom : ∀ b : Bump, b.taken ≤ 104 → ∀ size ∈ [(100 : Int32), 200], Room b size := by
    intro b hb size hsize
    have hround : size > 0 ∧ rounded size.toUInt32 ≤ 200 := by
      simp only [List.mem_cons, List.not_mem_nil, or_false] at hsize
      rcases hsize with rfl | rfl <;> decide
    have hheap : maxHeap = 20971520 := by decide
    exact ⟨hround.1, by omega⟩
  constructor
  · rw [mm_verdict freshDriver _ hmax (by decide) (by decide) (hspace 0)]
    refine ⟨⟨show _ ∧ _ by decide, hroom _ (by decide) _ (by decide)⟩, ?_⟩
    rintro b ⟨⟩
    refine ⟨⟨show _ ∧ _ by decide, hroom _ (by decide) _ (by decide), fun j _ => ⟨rfl, by decide⟩⟩, ?_⟩
    rintro b ⟨⟩
    refine ⟨show _ ∧ _ by decide, ?_⟩
    rintro b ⟨⟩
    trivial
  · rw [Ne, mm_verdict freshDriver _ hmax (by decide) (by decide) (hspace 1)]
    intro hall
    have hrealloc := (hall.2 _ rfl).1
    have hbyte := (hrealloc.2.2 0 (by decide)).1
    exact absurd hbyte (by decide)

end DecsLabs.Malloc
