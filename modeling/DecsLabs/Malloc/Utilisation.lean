/-
The space utilization of a trace (`eval_mm_util`): the most bytes that are in use at once, over the size of the heap at
the end.

- `Account`, `bytesInUse`: the indices in use with their sizes, and what they come to after some operations.
- `Packed`: the blocks in use lie in the heap apart from each other, so they are together no longer than the heap.
- `measure_step`, `measure_run`: the running total is the bytes in use, and the recorded maximum their peak.
- `util_is_peak`: for a package that hands out memory as it should, the result is the peak, which fits into the heap.
- `mm_util`: the result for mm.c on a trace that the check accepts.
-/
import DecsLabs.Malloc.Verdict
import DecsLabs.Malloc.Replays

namespace DecsLabs.Malloc

open DecsLabs.Transition DecsLabs.Intervals

/-! ## Bytes in use -/

/-- the indices in use, and the size that each index has got last -/
structure Account where
  live : List Int32
  sizes : Int32 → ℕ

def Account.next (a : Account) (op : TraceOp) : Account :=
  ⟨inUse a.live op, match op with
    | .alloc i size => Function.update a.sizes i size.toUInt32.toNat
    | .realloc i size => Function.update a.sizes i size.toUInt32.toNat
    | .free _ => a.sizes⟩

def Account.total (a : Account) : ℕ := (a.live.map a.sizes).sum

/-- what is in use after `ops` -/
def bytesInUse (ops : List TraceOp) : ℕ := (ops.foldl Account.next ⟨[], fun _ => 0⟩).total

/-- the most that is in use from `a` on -/
def peak (a : Account) : List TraceOp → ℕ
  | [] => a.total
  | op :: ops => max a.total (peak (a.next op) ops)

theorem peak_isGreatest (a : Account) (ops : List TraceOp) :
    IsGreatest {n | ∃ pre, pre <+: ops ∧ (pre.foldl Account.next a).total = n} (peak a ops) := by
  induction ops generalizing a with
  | nil =>
    refine ⟨⟨[], List.nil_prefix, rfl⟩, ?_⟩
    rintro n ⟨pre, hpre, rfl⟩
    rw [List.prefix_nil.1 hpre]
    exact le_rfl
  | cons op ops ih =>
    obtain ⟨⟨pre, hpre, htotal⟩, hmax⟩ := ih (a.next op)
    constructor
    · rcases le_total a.total (peak (a.next op) ops) with hle | hle
      · exact ⟨op :: pre, (List.prefix_cons_inj op).2 hpre, by rw [List.foldl_cons, htotal, peak, max_eq_right hle]⟩
      · exact ⟨[], List.nil_prefix, by rw [List.foldl_nil, peak, max_eq_left hle]⟩
    · rintro n ⟨pre', hpre', rfl⟩
      cases pre' with
      | nil => exact le_max_left _ _
      | cons op' pre' =>
        obtain ⟨rfl, htail⟩ := List.cons_prefix_cons.1 hpre'
        exact (hmax ⟨pre', htail, rfl⟩).trans (le_max_right _ _)

/-- the total of indices, of which `index` may have got another size, without `index` -/
theorem sum_update {live : List Int32} {index : Int32} (h : index ∉ live) (sizes : Int32 → ℕ) (n : ℕ) :
    (live.map (Function.update sizes index n)).sum = (live.map sizes).sum := by
  apply congrArg List.sum
  apply List.map_congr_left
  intro i hi
  have hne : i ≠ index := fun he => h (he ▸ hi)
  exact Function.update_of_ne hne n sizes

theorem sum_request {live : List Int32} {index : Int32} (h : index ∉ live) (sizes : Int32 → ℕ) (n : ℕ) :
    ((index :: live).map (Function.update sizes index n)).sum = n + (live.map sizes).sum := by
  rw [List.map_cons, List.sum_cons, Function.update_self, sum_update h]

/-! ## Blocks in use -/

variable {σ : Type}

/-- where `blocks` has the block of an index -/
def blockAt (slots : List Slot) (i : Int32) : ℕ := ((entry slots i).map fun e => e.block.toNat).getD 0

structure Packed (h : Heap) (slots : List Slot) (live : List Int32) (sizes : Int32 → ℕ) : Prop where
  extent : Extent h
  nodup : live.Nodup
  placed : ∀ i ∈ live, ∃ e, entry slots i = some e ∧ Placed h e.block e.blockSize.toInt32 ∧ sizes i = e.blockSize.toNat
  apart : live.Pairwise fun i j => Separate (blockAt slots i) (sizes i) (blockAt slots j) (sizes j)

variable {h h' : Heap} {slots : List Slot} {live : List Int32} {sizes : Int32 → ℕ} {index size : Int32} {p : UInt32}
  {pkg : Package σ}

theorem blockAt_eq {i : Int32} {e : Slot} (he : entry slots i = some e) : blockAt slots i = e.block.toNat := by
  rw [blockAt, he]
  rfl

/-- **Room.** -/
theorem Packed.sum_le (hp : Packed h slots live sizes) : (live.map sizes).sum ≤ h.memBrk.toNat - h.memStartBrk.toNat := by
  apply sum_length_le hp.apart
  intro i hi
  obtain ⟨e, he, hplaced, hsize⟩ := hp.placed i hi
  have hstart := hplaced.start_le
  have hend := hplaced.end_le
  rw [UInt32.toUInt32_toInt32] at hend
  rw [blockAt_eq he, hsize]
  exact ⟨hstart, hend⟩

theorem Placed.mono (hg : Grows h h') (hp : Placed h p size) : Placed h' p size where
  pos := hp.pos
  aligned := hp.aligned
  start_le := by
    rw [hg.start_eq]
    exact hp.start_le
  end_le := hp.end_le.trans hg.brk_le

theorem Packed.grow (hg : Grows h h') (hp : Packed h slots live sizes) : Packed h' slots live sizes := by
  refine ⟨hg.extent, hp.nodup, ?_, hp.apart⟩
  intro i hi
  obtain ⟨e, he, hplaced, hsize⟩ := hp.placed i hi
  exact ⟨e, he, hplaced.mono hg, hsize⟩

theorem Packed.erase (hp : Packed h slots live sizes) : Packed h slots (live.erase index) sizes :=
  ⟨hp.extent, hp.nodup.erase index, fun i hi => hp.placed i (List.mem_of_mem_erase hi), hp.apart.sublist List.erase_sublist⟩

/-- two payloads without a common byte, as blocks -/
theorem Range.Off.separate {q : UInt32} {n : Int32} (hp : Placed h p size) (hq : Placed h q n)
    (hoff : (payload p size).Off (payload q n)) :
    Separate p.toNat size.toUInt32.toNat q.toNat n.toUInt32.toNat := by
  have hpend := hp.end_toNat
  have hqend := hq.end_toNat
  have hppos := ((size_pos_iff size).1 hp.pos).1
  have hqpos := ((size_pos_iff n).1 hq.pos).1
  rcases hoff with hlt | hlt
  · have hbefore : (p + size.toUInt32 - 1).toNat < q.toNat := hlt
    exact .inl (by omega)
  · have hbefore : (q + n.toUInt32 - 1).toNat < p.toNat := hlt
    exact .inr (by omega)

/-- a block is put before the ones in use -/
theorem Packed.request {m m' : Machine σ} (hp : Packed m.heap slots live sizes) (hslot : (entry slots index).isSome)
    (hindex : index ∉ live) (hserves : HandsOut m m' p size (payloads slots live)) :
    Packed m'.heap (remember slots index p size) (index :: live) (Function.update sizes index size.toUInt32.toNat) := by
  have hkeep : ∀ i ∈ live, i ≠ index := fun i hi he => hindex (he ▸ hi)
  have hgrown := hp.grow hserves.grows
  have hself : entry (remember slots index p size) index = some ⟨p, size.toUInt32⟩ := entry_remember_self hslot
  refine ⟨hserves.grows.extent, List.nodup_cons.2 ⟨hindex, hp.nodup⟩, ?_, List.pairwise_cons.2 ⟨?_, ?_⟩⟩
  · refine List.forall_mem_cons.2 ⟨⟨_, hself, ?_, Function.update_self ..⟩, ?_⟩
    · rw [Int32.toInt32_toUInt32]
      exact hserves.placed
    · intro i hi
      rw [entry_remember_of_ne (hkeep i hi) hslot, Function.update_of_ne (hkeep i hi)]
      exact hgrown.placed i hi
  · intro i hi
    obtain ⟨e, he, hplaced, hsize⟩ := hgrown.placed i hi
    have he' : entry (remember slots index p size) i = some e := (entry_remember_of_ne (hkeep i hi) hslot).trans he
    rw [blockAt_eq hself, blockAt_eq he', Function.update_self, Function.update_of_ne (hkeep i hi), hsize,
      ← UInt32.toUInt32_toInt32 e.blockSize]
    exact (hserves.off _ (mem_payloads hi (slotRange_eq he))).separate hserves.placed hplaced
  · apply hp.apart.imp_of_mem
    intro i j hi hj hsep
    unfold blockAt
    rw [entry_remember_of_ne (hkeep i hi) hslot, entry_remember_of_ne (hkeep j hj) hslot,
      Function.update_of_ne (hkeep i hi), Function.update_of_ne (hkeep j hj)]
    exact hsep

/-! ## The running total -/

/-- the replay, and what is in use by the trace -/
structure Measured (σ : Type) where
  tally : Tally σ
  account : Account

def measureStep (pkg : Package σ) (s : Measured σ) (op : TraceOp) : Option (Measured σ) :=
  (utilOp pkg s.tally op).toOption.map fun t => ⟨t, s.account.next op⟩

/-- the call of the package hands out memory as it should -/
def ServesAt (pkg : Package σ) (s : Measured σ) : TraceOp → Prop
  | .alloc _ size =>
    let (p, m) := pkg.mmMalloc s.tally.machine size.toUInt32
    HandsOut s.tally.machine m p size (payloads s.tally.slots s.account.live)
  | .realloc i size => ∀ old, entry s.tally.slots i = some old →
    let (newp, m) := pkg.mmRealloc s.tally.machine old.block size.toUInt32
    HandsOut s.tally.machine m newp size (payloads s.tally.slots (s.account.live.erase i))
  | .free i => ∀ old, entry s.tally.slots i = some old →
    Grows s.tally.machine.heap (pkg.mmFree s.tally.machine old.block).heap

structure Counted (t : Tally σ) (a : Account) : Prop where
  packed : Packed t.machine.heap t.slots a.live a.sizes
  total : t.totalSize.toInt = a.total
  le_max : a.total ≤ t.maxTotalSize.toInt
  fits : t.maxTotalSize.toInt ≤ (memHeapsize t.machine.heap).toNat

variable {s : Measured σ} {op : TraceOp} {t : Tally σ} {a : Account}

theorem memHeapsize_toNat (hext : Extent h) : (memHeapsize h).toNat = h.memBrk.toNat - h.memStartBrk.toNat := by
  have hlo := hext.lo
  have hlt := h.memBrk.toNat_lt
  rw [memHeapsize, UInt32.toNat_sub]
  omega

theorem memHeapsize_mono (hext : Extent h) (hg : Grows h h') : (memHeapsize h).toNat ≤ (memHeapsize h').toNat := by
  have hle := hg.brk_le
  rw [memHeapsize_toNat hext, memHeapsize_toNat hg.extent, hg.start_eq]
  omega

theorem toInt_of_pos (hsize : size > 0) : size.toInt = size.toUInt32.toNat := by
  have hplace := place_of_pos hsize
  rw [gt_iff_lt, Int32.lt_iff_toInt_lt, Int32.toInt_zero] at hsize
  unfold place at hplace
  omega

/-- an addition without overflow -/
theorem Tally.add_eq {n : ℕ} (hn : n ≤ maxHeap) (hsum : t.totalSize.toInt + size.toInt = n) :
    (t.add size).totalSize.toInt = n ∧ (t.add size).maxTotalSize.toInt = max t.maxTotalSize.toInt n := by
  have hheap : maxHeap = 20971520 := by decide
  have htotal : (t.totalSize + size).toInt = n := by
    rw [Int32.toInt_add, hsum]
    exact Int.bmod_eq_of_le (by omega) (by omega)
  refine ⟨htotal, ?_⟩
  simp only [Tally.add, gt_iff_lt, Int32.lt_iff_toInt_lt, htotal]
  split_ifs with hlt
  · rw [htotal, max_eq_right hlt.le]
  · rw [max_eq_left (not_lt.1 hlt)]

/-- a request is counted, when `old` bytes were given back for it -/
theorem Counted.request {m : Machine σ} {live : List Int32} {old : ℕ} {diff : Int32} (hc : Counted t a)
    (hp : Packed t.machine.heap t.slots live a.sizes) (hslot : (entry t.slots index).isSome) (hindex : index ∉ live)
    (hlive : (live.map a.sizes).sum + old = a.total) (hdiff : diff.toInt = size.toInt - old)
    (hserves : HandsOut t.machine m p size (payloads t.slots live)) :
    let t' := Tally.add ⟨m, remember t.slots index p size, t.totalSize, t.maxTotalSize⟩ diff
    let a' := Account.mk (index :: live) (Function.update a.sizes index size.toUInt32.toNat)
    Counted t' a' ∧ t'.maxTotalSize.toInt = max t.maxTotalSize.toInt a'.total := by
  intro t' a'
  have hnext := hp.request hslot hindex hserves
  have hsum : a'.total = size.toUInt32.toNat + (live.map a.sizes).sum := sum_request hindex a.sizes _
  have hroom : a'.total ≤ m.heap.memBrk.toNat - m.heap.memStartBrk.toNat := hnext.sum_le
  have hheap := hnext.extent.hi
  have hsize := toInt_of_pos hserves.placed.pos
  have htotal := hc.total
  have hadd : t'.totalSize.toInt = a'.total ∧ t'.maxTotalSize.toInt = max t.maxTotalSize.toInt a'.total :=
    Tally.add_eq (by omega) (show t.totalSize.toInt + diff.toInt = a'.total by omega)
  refine ⟨⟨hnext, hadd.1, ?_, ?_⟩, hadd.2⟩
  · rw [hadd.2]
    exact le_max_right _ _
  · rw [hadd.2]
    apply max_le
    · exact hc.fits.trans (Int.ofNat_le.2 (memHeapsize_mono hc.packed.extent hserves.grows))
    · rw [← memHeapsize_toNat hnext.extent] at hroom
      exact Int.ofNat_le.2 hroom

/-- `block_sizes` has the size of an index in use -/
theorem Packed.sizes_eq (hp : Packed h slots live sizes) (hindex : index ∈ live) {e : Slot} (he : entry slots index = some e) :
    e.blockSize.toInt32.toInt = sizes index := by
  obtain ⟨e', he', hplaced, hsize⟩ := hp.placed index hindex
  obtain rfl := Option.some.inj (he.symm.trans he')
  rw [toInt_of_pos hplaced.pos, hsize, UInt32.toUInt32_toInt32]

theorem toInt_sub_of_pos {a b : Int32} (ha : 0 ≤ a.toInt) (hb : 0 ≤ b.toInt) : (a - b).toInt = a.toInt - b.toInt := by
  have halt := a.toInt_lt
  have hblt := b.toInt_lt
  rw [Int32.toInt_sub]
  exact Int.bmod_eq_of_le (by omega) (by omega)

theorem Counted.free (hc : Counted t a) (hindex : index ∈ a.live) {old : Slot} (hold : entry t.slots index = some old)
    {m : Machine σ} (hg : Grows t.machine.heap m.heap) :
    let t' := Tally.mk m t.slots (t.totalSize - old.blockSize.toInt32) t.maxTotalSize
    let a' := Account.mk (a.live.erase index) a.sizes
    Counted t' a' ∧ t'.maxTotalSize.toInt = max t.maxTotalSize.toInt a'.total := by
  intro t' a'
  have hsum : a.sizes index + a'.total = a.total := List.sum_map_erase a.sizes hindex
  have hsize := hc.packed.sizes_eq hindex hold
  have htotal := hc.total
  have hle := hc.le_max
  have hbelow : (a'.total : ℤ) ≤ t.maxTotalSize.toInt := by omega
  refine ⟨⟨hc.packed.erase.grow hg, ?_, hbelow, ?_⟩, (max_eq_left hbelow).symm⟩
  · change (t.totalSize - old.blockSize.toInt32).toInt = _
    rw [toInt_sub_of_pos (by omega) (by omega)]
    omega
  · exact hc.fits.trans (Int.ofNat_le.2 (memHeapsize_mono hc.packed.extent hg))

/-- **One operation.** -/
theorem measure_step (hc : Counted s.tally s.account) (hop : Proper s.account.live op)
    (harray : InArray s.tally.slots.length op.index) (hserves : ServesAt pkg s op) :
    ∃ t, Utilised pkg s.tally op t ∧ Counted t (s.account.next op) ∧ t.slots.length = s.tally.slots.length ∧
      t.maxTotalSize.toInt = max s.tally.maxTotalSize.toInt (s.account.next op).total := by
  have hslot : (entry s.tally.slots op.index).isSome := entry_isSome_iff.2 harray
  cases op with
  | alloc index size =>
    have hdiff : size.toInt = size.toInt - (0 : ℕ) := (sub_zero _).symm
    have hnext := hc.request hc.packed hslot hop rfl hdiff hserves
    exact ⟨_, .alloc rfl hserves.ne_null hslot, hnext.1, remember_length, hnext.2⟩
  | realloc index size =>
    obtain ⟨old, hold⟩ := Option.isSome_iff_exists.1 hslot
    have hserved := hserves old hold
    have hsize := hc.packed.sizes_eq hop hold
    have hsum := List.sum_map_erase s.account.sizes hop
    have hpos := toInt_of_pos hserved.placed.pos
    have hdiff : (size - old.blockSize.toInt32).toInt = size.toInt - s.account.sizes index := by
      rw [toInt_sub_of_pos (by omega) (by omega), hsize]
    have hnext := hc.request hc.packed.erase hslot hc.packed.nodup.not_mem_erase ((add_comm _ _).trans hsum) hdiff hserved
    exact ⟨_, .realloc hold rfl hserved.ne_null, hnext.1, remember_length, hnext.2⟩
  | free index =>
    obtain ⟨old, hold⟩ := Option.isSome_iff_exists.1 hslot
    have hnext := hc.free hop hold (hserves old hold)
    exact ⟨_, .free hold, hnext.1, rfl, hnext.2⟩

/-! ## Traces -/

/-- **Replays.** -/
theorem measure_run {ops : List TraceOp} (hc : Counted s.tally s.account) (hbal : Along indexStep Proper s.account.live ops)
    (harray : ∀ op ∈ ops, InArray s.tally.slots.length op.index) (hserves : Along (measureStep pkg) (ServesAt pkg) s ops) :
    ∃ t, ops.foldlM (utilOp pkg) s.tally = .ok t ∧ Counted t (ops.foldl Account.next s.account) ∧
      t.maxTotalSize.toInt = max s.tally.maxTotalSize.toInt (peak s.account ops) := by
  induction ops generalizing s with
  | nil => exact ⟨s.tally, rfl, hc, (max_eq_left hc.le_max).symm⟩
  | cons op ops ih =>
    obtain ⟨hop, hops⟩ := List.forall_mem_cons.1 harray
    obtain ⟨t1, hstep, hnext, hlength, hmax⟩ := measure_step hc hbal.1 hop hserves.1
    have hutil := utilOp_iff.2 hstep
    have hst : measureStep pkg s op = some ⟨t1, s.account.next op⟩ := by
      rw [measureStep, hutil]
      rfl
    obtain ⟨t, hrest, hlast, hpeak⟩ := ih (s := ⟨t1, s.account.next op⟩) hnext (hbal.2 _ rfl) (hlength ▸ hops) (hserves.2 _ hst)
    refine ⟨t, ?_, hlast, ?_⟩
    · rw [List.foldlM_cons, hutil]
      exact hrest
    · have hbelow : (s.account.next op).total ≤ peak (s.account.next op) ops :=
        (peak_isGreatest _ ops).2 ⟨[], List.nil_prefix, rfl⟩
      calc t.maxTotalSize.toInt
          = max (max s.tally.maxTotalSize.toInt (s.account.next op).total) (peak (s.account.next op) ops) := by
            rw [hpeak, hmax]
        _ = max s.tally.maxTotalSize.toInt (peak (s.account.next op) ops) := by
            rw [max_assoc, max_eq_right (Int.ofNat_le.2 hbelow)]
        _ = max s.tally.maxTotalSize.toInt (peak s.account (op :: ops)) := by
            rw [peak, Nat.cast_max, ← max_assoc, max_eq_left hc.le_max]

/-- the replay behind `mm_init`, with an array that holds anything -/
def measured (pkg : Package σ) (m : Machine σ) (slots : List Slot) : Measured σ :=
  ⟨⟨(pkg.mmInit m.reset).2, slots, 0, 0⟩, ⟨[], fun _ => 0⟩⟩

theorem measured_counted {m : Machine σ} (hext : Extent (pkg.mmInit m.reset).2.heap) :
    Counted (measured pkg m slots).tally (measured pkg m slots).account :=
  ⟨⟨hext, .nil, fun _ hi => absurd hi List.not_mem_nil, .nil⟩, rfl, le_rfl, Int.natCast_nonneg _⟩

theorem evalMmUtil_eq {ops : List TraceOp} {m : Machine σ} (hinit : ¬ (pkg.mmInit m.reset).1 < 0)
    (hrun : ops.foldlM (utilOp pkg) (measured pkg m slots).tally = .ok t) :
    evalMmUtil pkg ops m slots = .ok (t.maxTotalSize, memHeapsize t.machine.heap) := by
  simp only [evalMmUtil, if_neg hinit]
  exact congrArg (Except.map fun t : Tally σ => (t.maxTotalSize, memHeapsize t.machine.heap)) hrun

/-- `hwm` is the most that is in use at any point of the trace -/
def IsPeak (ops : List TraceOp) (hwm : Int32) : Prop :=
  ∃ n : ℕ, hwm.toInt = n ∧ IsGreatest {n | ∃ pre, pre <+: ops ∧ bytesInUse pre = n} n

/-- from the start of a trace the recorded maximum is the peak -/
theorem isPeak_of_eq {ops : List TraceOp} {hwm : Int32}
    (h : hwm.toInt = max (0 : Int32).toInt (peak ⟨[], fun _ => 0⟩ ops : ℤ)) : IsPeak ops hwm :=
  ⟨_, h.trans (max_eq_right (Int.natCast_nonneg _)), peak_isGreatest _ ops⟩

/-- **Utilization.** For every package whose calls hand out memory as they should in the replay of a balanced trace:
`eval_mm_util` comes to its end, its maximum is the most bytes that are in use at once, and these fit into the heap. -/
theorem util_is_peak {ops : List TraceOp} {m : Machine σ} (hinit : ¬ (pkg.mmInit m.reset).1 < 0)
    (hext : Extent (pkg.mmInit m.reset).2.heap) (hbal : Balanced ops)
    (harray : ∀ op ∈ ops, InArray slots.length op.index)
    (hserves : Along (measureStep pkg) (ServesAt pkg) (measured pkg m slots) ops) :
    ∃ hwm size, evalMmUtil pkg ops m slots = .ok (hwm, size) ∧ IsPeak ops hwm ∧ hwm.toInt ≤ size.toNat := by
  obtain ⟨t, hrun, hcounted, hpeak⟩ := measure_run (measured_counted hext) hbal harray hserves
  exact ⟨_, _, evalMmUtil_eq hinit hrun, isPeak_of_eq hpeak, hcounted.fits⟩

/-- mm.c with an array of its own -/
theorem util_is_peak_example :
    ∃ hwm size, evalMmUtil mm twoBlocks freshDriver.machine freshDriver.slots = .ok (hwm, size) ∧ IsPeak twoBlocks hwm ∧
      hwm.toInt ≤ size.toNat := by
  have hspace : Extent ⟨0x10000000, 0x10000000, 0x11400000⟩ := ⟨by decide, by decide, by decide⟩
  have hfirst : Extent ⟨0x10000000, 0x10000010, 0x11400000⟩ := ⟨by decide, by decide, by decide⟩
  have hsecond : Extent ⟨0x10000000, 0x10000018, 0x11400000⟩ := ⟨by decide, by decide, by decide⟩
  have hserves : Along (measureStep mm) (ServesAt mm) (measured mm freshDriver.machine freshDriver.slots) twoBlocks := by
    refine ⟨⟨⟨rfl, by decide, hfirst⟩, by decide, ⟨by decide, by decide, by decide, by decide⟩, by decide⟩, ?_⟩
    rintro s ⟨⟩
    refine ⟨⟨⟨rfl, by decide, hsecond⟩, by decide, ⟨by decide, by decide, by decide, by decide⟩, by decide⟩, ?_⟩
    rintro s ⟨⟩
    exact ⟨fun old _ => ⟨rfl, le_rfl, hsecond⟩, fun _ _ => trivial⟩
  have harray : ∀ op ∈ twoBlocks, InArray freshDriver.slots.length op.index := by
    intro op hop
    fin_cases hop
    all_goals exact show _ ∧ _ by decide
  exact util_is_peak (by decide) hspace (by decide) harray hserves

/-! ## mm.c -/

/-- what an operation takes from the heap -/
def taken : TraceOp → ℕ
  | .alloc _ size => rounded size.toUInt32
  | .realloc _ size => rounded size.toUInt32
  | .free _ => 0

def requested (ops : List TraceOp) : ℕ := (ops.map taken).sum

def Positive : TraceOp → Prop
  | .alloc _ size => size > 0
  | .realloc _ size => size > 0
  | .free _ => True

/-- the trace that passes has sizes above 0, indices in the array, and fits below the limit -/
theorem requested_le {n start : ℕ} {bytes : ℕ → UInt8} {b : Bump} {ops : List TraceOp} (hb : b.taken ≤ maxHeap)
    (h : Along bumpStep (Passes n start bytes) b ops) :
    (∀ op ∈ ops, Positive op ∧ InArray n op.index) ∧ b.taken + requested ops ≤ maxHeap := by
  induction ops generalizing b with
  | nil => exact ⟨fun op hop => absurd hop List.not_mem_nil, hb⟩
  | cons op ops ih =>
    obtain ⟨hp, hrest⟩ := h
    have hnext : (Positive op ∧ InArray n op.index) ∧
        ∃ b', bumpStep b op = some b' ∧ b'.taken = b.taken + taken op ∧ b'.taken ≤ maxHeap := by
      cases op with
      | alloc index size => exact ⟨⟨hp.2.1, hp.1⟩, _, rfl, rfl, hp.2.2⟩
      | realloc index size => exact ⟨⟨hp.2.1.1, hp.1⟩, _, rfl, rfl, hp.2.1.2⟩
      | free index => exact ⟨⟨trivial, hp⟩, _, rfl, rfl, hb⟩
    obtain ⟨hop, b', hstep, htaken, hle⟩ := hnext
    obtain ⟨hall, hsum⟩ := ih hle (hrest b' hstep)
    refine ⟨List.forall_mem_cons.2 ⟨hop, hall⟩, ?_⟩
    rw [requested, List.map_cons, List.sum_cons, ← add_assoc, ← htaken]
    exact hsum

/-- the break of a heap from which `n` bytes are taken -/
structure Level (start n : ℕ) (h : Heap) : Prop where
  start_eq : h.memStartBrk.toNat = start
  max_eq : h.memMaxAddr.toNat = start + maxHeap
  brk_eq : h.memBrk.toNat = start + n
  le : n ≤ maxHeap
  dvd : 8 ∣ n

variable {start n : ℕ}

/-- the heap in front of a replay that remembers nothing yet -/
theorem Level.bumped (hl : Level start n h) :
    Bumped 0 start (fun _ => 0) ⟨n, fun _ => 0⟩ ⟨⟨h, fun _ => 0, ()⟩, [], []⟩ where
  start_eq := hl.start_eq
  max_eq := hl.max_eq
  brk_eq := hl.brk_eq
  taken_le := hl.le
  taken_dvd := hl.dvd
  below _ hr := absurd hr List.not_mem_nil
  behind _ _ := rfl
  length := rfl
  sizes i e he := by
    unfold entry at he
    split_ifs at he
    cases he

theorem Level.request (hpos : 0 < start) (hdvd : 8 ∣ start) (hl : Level start n h) {q : Request}
    (hq : q.size = size.toUInt32) (hsize : size > 0) (hroom : n + rounded size.toUInt32 ≤ maxHeap) :
    (answer h q).1 = h.memBrk ∧ (answer h q).1 ≠ null ∧ Placed (answer h q).2 (answer h q).1 size ∧
      Grows h (answer h q).2 ∧ Level start (n + rounded size.toUInt32) (answer h q).2 := by
  have hd := hl.bumped
  obtain ⟨hans, hend⟩ := hd.served hq ⟨hsize, hroom⟩
  obtain ⟨hne, hadd⟩ := hd.accepts hpos hdvd hq ⟨hsize, hroom⟩ (List.Subset.refl _)
  simp only [hans] at hne hadd hend ⊢
  have hlevel : Level start (n + rounded size.toUInt32) { h with memBrk := h.memBrk + aligned size.toUInt32 } :=
    ⟨hl.start_eq, hl.max_eq, hend, hroom, dvd_add hl.dvd (rounded_dvd _)⟩
  have hstart := hl.start_eq
  have hbrk := hl.brk_eq
  have hext : Extent { h with memBrk := h.memBrk + aligned size.toUInt32 } := by
    refine ⟨?_, ?_, ?_⟩
    all_goals simp only
    all_goals omega
  refine ⟨trivial, hne, ((addRange_eq_ok_iff hext).1 hadd).1, ⟨rfl, ?_, hext⟩, hlevel⟩
  simp only
  omega

/-- memory at the break is apart from every block in use -/
theorem Packed.off (hp : Packed h slots live sizes) : ∀ r ∈ payloads slots live, (payload h.memBrk size).Off r := by
  intro r hr
  obtain ⟨i, hi, hri⟩ := List.mem_filterMap.1 hr
  obtain ⟨e, he, hplaced, -⟩ := hp.placed i hi
  obtain rfl := Option.some.inj ((slotRange_eq he).symm.trans hri)
  exact .inr hplaced.below.2

/-- **One operation on mm.c.** -/
theorem Level.serves (hpos : 0 < start) (hdvd : 8 ∣ start) {s : Measured Unit} (hl : Level start n s.tally.machine.heap)
    (hp : Packed s.tally.machine.heap s.tally.slots s.account.live s.account.sizes) (hsize : Positive op)
    (hroom : n + taken op ≤ maxHeap) :
    ServesAt mm s op ∧ ∀ t, Utilised mm s.tally op t → Level start (n + taken op) t.machine.heap := by
  cases op with
  | alloc index size =>
    obtain ⟨hbrk, hne, hplaced, hg, hnext⟩ := hl.request (q := .malloc size.toUInt32) hpos hdvd rfl hsize hroom
    refine ⟨⟨hg, hne, hplaced, hbrk ▸ hp.off⟩, ?_⟩
    intro t ht
    cases ht with
    | alloc hcall =>
      cases hcall
      exact hnext
  | realloc index size =>
    have hserved : ∀ ptr, _ := fun ptr => hl.request (q := .realloc ptr size.toUInt32) hpos hdvd rfl hsize hroom
    constructor
    · intro old hold
      obtain ⟨hbrk, hne, hplaced, hg, -⟩ := hserved old.block
      exact ⟨hg, hne, hplaced, hbrk ▸ hp.erase.off⟩
    · intro t ht
      cases ht with
      | @realloc index size old newp m hold hcall =>
        obtain ⟨-, -, -, -, hnext⟩ := hserved old.block
        cases hcall
        exact hnext
  | free index =>
    refine ⟨fun old _ => ⟨rfl, le_rfl, hp.extent⟩, ?_⟩
    intro t ht
    cases ht with
    | free => exact hl

/-- **Replays on mm.c.** -/
theorem Level.run (hpos : 0 < start) (hdvd : 8 ∣ start) {ops : List TraceOp} {s : Measured Unit}
    (hl : Level start n s.tally.machine.heap) (hc : Counted s.tally s.account)
    (hbal : Along indexStep Proper s.account.live ops)
    (hops : ∀ op ∈ ops, Positive op ∧ InArray s.tally.slots.length op.index) (hroom : n + requested ops ≤ maxHeap) :
    Along (measureStep mm) (ServesAt mm) s ops ∧
      ∀ t, ops.foldlM (utilOp mm) s.tally = .ok t → Level start (n + requested ops) t.machine.heap := by
  induction ops generalizing s n with
  | nil =>
    refine ⟨trivial, ?_⟩
    intro t ht
    cases ht
    exact hl
  | cons op ops ih =>
    obtain ⟨⟨hsize, harray⟩, hops⟩ := List.forall_mem_cons.1 hops
    rw [requested, List.map_cons, List.sum_cons, ← add_assoc] at hroom ⊢
    obtain ⟨hserves, hlevel⟩ := hl.serves hpos hdvd hc.packed hsize ((Nat.le_add_right _ _).trans hroom)
    obtain ⟨t1, hstep, hnext, hlength, -⟩ := measure_step hc hbal.1 harray hserves
    have hutil := utilOp_iff.2 hstep
    obtain ⟨halong, hrun⟩ := ih (s := ⟨t1, s.account.next op⟩) (hlevel t1 hstep) hnext (hbal.2 _ rfl) (hlength ▸ hops) hroom
    refine ⟨⟨hserves, ?_⟩, ?_⟩
    · intro s' hs'
      rw [measureStep, hutil] at hs'
      cases hs'
      exact halong
    · intro t ht
      rw [List.foldlM_cons, hutil] at ht
      exact hrun t ht

/-- a replay of requests that fit below the limit -/
theorem Level.utilised {ops : List TraceOp} {m : Machine Unit} (hpos : 0 < start) (hdvd : 8 ∣ start)
    (hl : Level start 0 m.reset.heap) (hbal : Balanced ops) (hops : ∀ op ∈ ops, Positive op ∧ InArray slots.length op.index)
    (hroom : requested ops ≤ maxHeap) :
    ∃ hwm size, evalMmUtil mm ops m slots = .ok (hwm, size) ∧ IsPeak ops hwm ∧ size.toNat = requested ops ∧
      hwm.toInt ≤ size.toNat := by
  have hlevel : Level start 0 (measured mm m slots).tally.machine.heap := hl
  have hext : Extent (mm.mmInit m.reset).2.heap := by
    change Extent m.reset.heap
    have hmax := hl.max_eq
    have hbrk := hl.brk_eq
    have hstart := hl.start_eq
    exact ⟨by omega, by omega, by omega⟩
  have hcounted : Counted (measured mm m slots).tally (measured mm m slots).account := measured_counted hext
  obtain ⟨hserves, hend⟩ := hlevel.run hpos hdvd hcounted hbal hops (by omega)
  obtain ⟨t, hutil, hcount, hpeak⟩ := measure_run hcounted hbal (fun op hop => (hops op hop).2) hserves
  have hinit : ¬ (mm.mmInit m.reset).1 < 0 := show ¬ (0 : Int32) < 0 by decide
  refine ⟨_, _, evalMmUtil_eq hinit hutil, isPeak_of_eq hpeak, ?_, hcount.fits⟩
  have hstart := (hend t hutil).start_eq
  have hbrk := (hend t hutil).brk_eq
  rw [memHeapsize_toNat hcount.packed.extent]
  omega

/-- **Utilization of mm.c.** On every balanced trace that `eval_mm_valid` accepts, `eval_mm_util` comes to its end,
whatever the arrays hold and however far the break is when it begins: its maximum is the most bytes that are in use at
once, and the heap at the end is the sum of all requests, rounded up, with nothing used twice. -/
theorem mm_util {ops : List TraceOp} {d d' : Driver Unit} {m : Machine Unit}
    (hmax : d.machine.heap.memMaxAddr.toNat = d.machine.heap.memStartBrk.toNat + maxHeap)
    (hpos : 0 < d.machine.heap.memStartBrk.toNat) (hdvd : 8 ∣ d.machine.heap.memStartBrk.toNat)
    (hspace : ∀ op ∈ ops, SpaceOp d.machine.heap.memStartBrk.toNat op) (hbal : Balanced ops)
    (hacc : evalMmValid mm ops d = (none, d')) (hm : m.reset.heap = d.machine.reset.heap)
    (hlength : slots.length = d.slots.length) :
    ∃ hwm size, evalMmUtil mm ops m slots = .ok (hwm, size) ∧ IsPeak ops hwm ∧ size.toNat = requested ops ∧
      hwm.toInt ≤ size.toNat := by
  obtain ⟨-, hrun⟩ := evalMmValid_iff.1 hacc
  have hpasses := ((initialized_bumped hmax).run_iff hpos hdvd hspace).1 (Option.isSome_iff_exists.2 ⟨d', hrun⟩)
  obtain ⟨hops, hroom⟩ := requested_le (Nat.zero_le _) hpasses
  have hlevel : Level d.machine.heap.memStartBrk.toNat 0 m.reset.heap := by
    rw [hm]
    exact ⟨rfl, hmax, rfl, Nat.zero_le _, dvd_zero 8⟩
  exact hlevel.utilised hpos hdvd hbal (by rwa [← hlength] at hops) (by omega)

/-- 20 bytes are in use at once, and 40 bytes are taken -/
theorem mm_util_example :
    ∃ hwm size, evalMmUtil mm [.alloc 0 13, .free 0, .alloc 1 20, .free 1] freshDriver.machine freshDriver.slots =
      .ok (hwm, size) ∧ IsPeak [.alloc 0 13, .free 0, .alloc 1 20, .free 1] hwm ∧ size.toNat = 40 := by
  have hspace : ∀ op ∈ [TraceOp.alloc 0 13, .free 0, .alloc 1 20, .free 1],
      SpaceOp freshDriver.machine.heap.memStartBrk.toNat op := by
    intro op hop
    fin_cases hop
    · exact show _ ≤ _ by decide
    · trivial
    · exact show _ ≤ _ by decide
    · trivial
  obtain ⟨hwm, size, hutil, hpeak, hsize, -⟩ := mm_util (d := freshDriver) (m := freshDriver.machine) (by decide) (by decide)
    (by decide) hspace (by decide) (Prod.ext rfl rfl) rfl rfl
  exact ⟨hwm, size, hutil, hpeak, hsize⟩

end DecsLabs.Malloc
