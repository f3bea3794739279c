/-
The driver of assignment 3 (mdriver.c): it replays a trace of requests on a malloc package. The package is a parameter,
any four functions on the memory of memlib.c and on what the package keeps for itself.

`blocks` and `block_sizes` are one array of `num_ids` entries, which holds anything at first. To go outside of it stops
the driver.

- `Package`, `mm`: the functions of a package, and those of mm.c.
- `evalMmValid`: the correctness check, with the first operation at which it stops and what it leaves behind.
- `evalMmUtil`, `evalMmSpeed`: the replays for the space and the time.
- `Passed`, `validOp_iff`: what it takes to pass one operation, and what is then remembered.
- `validOps_iff`: a trace is accepted when all its operations pass in order.
-/
import DecsLabs.Malloc.Ranges

namespace DecsLabs.Malloc

open DecsLabs.Transition

/-! ## Packages -/

structure Machine (σ : Type) where
  heap : Heap
  bytes : ℕ → UInt8
  own : σ

/-- the functions of mm.h; those that return a value return it first -/
structure Package (σ : Type) where
  mmInit : Machine σ → Int32 × Machine σ
  mmMalloc : Machine σ → UInt32 → UInt32 × Machine σ
  mmFree : Machine σ → UInt32 → Machine σ
  mmRealloc : Machine σ → UInt32 → UInt32 → UInt32 × Machine σ

/-- mm.c keeps nothing for itself -/
def mm : Package Unit where
  mmInit m := (0, m)
  mmMalloc m size := ((mmMalloc m.heap size).1, { m with heap := (mmMalloc m.heap size).2 })
  mmFree m ptr := { m with heap := mmFree m.heap ptr }
  mmRealloc m ptr size := ((mmRealloc m.heap ptr size).1, { m with heap := (mmRealloc m.heap ptr size).2 })

/-! ## Traces -/

/-- `traceop_t` -/
inductive TraceOp where
  | alloc (index size : Int32)
  | realloc (index size : Int32)
  | free (index : Int32)
deriving DecidableEq, Repr

def TraceOp.index : TraceOp → Int32
  | .alloc index _ => index
  | .realloc index _ => index
  | .free index => index

/-- an entry of `blocks` and of `block_sizes` -/
structure Slot where
  block : UInt32
  blockSize : UInt32
deriving DecidableEq, Repr

/-- the place of `index` in an array -/
def place (index : Int32) : ℕ := index.toInt.toNat

def entry (slots : List Slot) (index : Int32) : Option Slot := if index < 0 then none else slots[place index]?

/-- what the driver works on: the package with its memory, the range list, and the arrays of the trace -/
structure Driver (σ : Type) where
  machine : Machine σ
  ranges : List Range
  slots : List Slot

variable {σ : Type}

/-- `trace->blocks[index] = p` and `trace->block_sizes[index] = size` -/
def remember (slots : List Slot) (index : Int32) (p : UInt32) (size : Int32) : List Slot :=
  slots.set (place index) ⟨p, size.toUInt32⟩

/-- `memset(p, index & 0xFF, size)` -/
def Machine.memset (m : Machine σ) (p : UInt32) (index size : Int32) : Machine σ :=
  { m with bytes := fun a =>
      if p.toNat ≤ a ∧ a < p.toNat + size.toUInt32.toNat then index.toUInt32.toUInt8 else m.bytes a }

/-- `if (size < oldsize) oldsize = size` -/
def smaller (size : Int32) (oldsize : UInt32) : Int32 := if size < oldsize.toInt32 then size else oldsize.toInt32

/-- `newp[j] != (index & 0xFF)` for no `j` below `n`; a `char` has a sign -/
def holds (bytes : ℕ → UInt8) (newp : UInt32) (index n : Int32) : Bool :=
  (List.range (place n)).all fun j => (bytes (newp.toNat + j)).toInt8.toInt32 = index &&& 0xFF

/-! ## eval_mm_valid -/

def validOp (pkg : Package σ) (d : Driver σ) : TraceOp → Option Stop × Driver σ
  | .alloc index size =>
    let (p, m) := pkg.mmMalloc d.machine size.toUInt32
    if p = null then (some (.complaint .mallocFailed), { d with machine := m })
    else
      match addRange m.heap d.ranges p size with
      | .error e => (some e, { d with machine := m })
      | .ok ranges =>
        match entry d.slots index with
        | none => (some .outOfBounds, ⟨m.memset p index size, ranges, d.slots⟩)
        | some _ => (none, ⟨m.memset p index size, ranges, remember d.slots index p size⟩)
  | .realloc index size =>
    match entry d.slots index with
    | none => (some .outOfBounds, d)
    | some old =>
      let (newp, m) := pkg.mmRealloc d.machine old.block size.toUInt32
      if newp = null then (some (.complaint .reallocFailed), { d with machine := m })
      else
        match addRange m.heap (removeRange d.ranges old.block) newp size with
        | .error e => (some e, ⟨m, removeRange d.ranges old.block, d.slots⟩)
        | .ok ranges =>
          if holds m.bytes newp index (smaller size old.blockSize) then
            (none, ⟨m.memset newp index size, ranges, remember d.slots index newp size⟩)
          else (some (.complaint .notPreserved), ⟨m, ranges, d.slots⟩)
  | .free index =>
    match entry d.slots index with
    | none => (some .outOfBounds, d)
    | some old => (none, ⟨pkg.mmFree d.machine old.block, removeRange d.ranges old.block, d.slots⟩)

/-- the loop from the operation `i`: where it stops, if it does -/
def validOps (pkg : Package σ) (i : ℕ) : List TraceOp → Driver σ → Option (ℕ × Stop) × Driver σ
  | [], d => (none, d)
  | op :: ops, d =>
    match validOp pkg d op with
    | (some e, d) => (some (i, e), d)
    | (none, d) => validOps pkg (i + 1) ops d

def Machine.reset (m : Machine σ) : Machine σ := { m with heap := memResetBrk m.heap }

/-- 1 is returned when the driver does not stop -/
def evalMmValid (pkg : Package σ) (ops : List TraceOp) (d : Driver σ) : Option (ℕ × Stop) × Driver σ :=
  let (r, m) := pkg.mmInit d.machine.reset
  if r < 0 then (some (0, .complaint .initFailed), ⟨m, clearRanges, d.slots⟩)
  else validOps pkg 0 ops ⟨m, clearRanges, d.slots⟩

/-! ## eval_mm_util and eval_mm_speed -/

inductive Exit where
  /-- `app_error`, which ends the driver -/
  | appError (msg : String)
  | outOfBounds
deriving DecidableEq, Repr

structure Tally (σ : Type) where
  machine : Machine σ
  slots : List Slot
  totalSize : Int32
  maxTotalSize : Int32

/-- `total_size += size`, and the high-water mark -/
def Tally.add (t : Tally σ) (size : Int32) : Tally σ :=
  { t with
    totalSize := t.totalSize + size
    maxTotalSize := if t.totalSize + size > t.maxTotalSize then t.totalSize + size else t.maxTotalSize }

def utilOp (pkg : Package σ) (t : Tally σ) : TraceOp → Except Exit (Tally σ)
  | .alloc index size =>
    let (p, m) := pkg.mmMalloc t.machine size.toUInt32
    if p = null then .error (.appError "mm_malloc failed in eval_mm_util")
    else
      match entry t.slots index with
      | none => .error .outOfBounds
      | some _ => .ok ({ t with machine := m, slots := remember t.slots index p size }.add size)
  | .realloc index newsize =>
    match entry t.slots index with
    | none => .error .outOfBounds
    | some old =>
      let (newp, m) := pkg.mmRealloc t.machine old.block newsize.toUInt32
      if newp = null then .error (.appError "mm_realloc failed in eval_mm_util")
      else .ok ({ t with machine := m, slots := remember t.slots index newp newsize }.add
        (newsize - old.blockSize.toInt32))
  | .free index =>
    match entry t.slots index with
    | none => .error .outOfBounds
    | some old =>
      .ok { t with machine := pkg.mmFree t.machine old.block, totalSize := t.totalSize - old.blockSize.toInt32 }

/-- `max_total_size` and `mem_heapsize()`, of which the ratio is returned -/
def evalMmUtil (pkg : Package σ) (ops : List TraceOp) (m : Machine σ) (slots : List Slot) :
    Except Exit (Int32 × UInt32) :=
  let (r, m) := pkg.mmInit m.reset
  if r < 0 then .error (.appError "mm_init failed in eval_mm_util")
  else (ops.foldlM (utilOp pkg) ⟨m, slots, 0, 0⟩).map fun t => (t.maxTotalSize, memHeapsize t.machine.heap)

/-- only the pointer is remembered -/
def speedOp (pkg : Package σ) (s : Machine σ × List Slot) : TraceOp → Except Exit (Machine σ × List Slot)
  | .alloc index size =>
    let (p, m) := pkg.mmMalloc s.1 size.toUInt32
    if p = null then .error (.appError "mm_malloc error in eval_mm_speed")
    else
      match entry s.2 index with
      | none => .error .outOfBounds
      | some old => .ok (m, s.2.set (place index) { old with block := p })
  | .realloc index newsize =>
    match entry s.2 index with
    | none => .error .outOfBounds
    | some old =>
      let (newp, m) := pkg.mmRealloc s.1 old.block newsize.toUInt32
      if newp = null then .error (.appError "mm_realloc error in eval_mm_speed")
      else .ok (m, s.2.set (place index) { old with block := newp })
  | .free index =>
    match entry s.2 index with
    | none => .error .outOfBounds
    | some old => .ok (pkg.mmFree s.1 old.block, s.2)

def evalMmSpeed (pkg : Package σ) (ops : List TraceOp) (m : Machine σ) (slots : List Slot) :
    Except Exit (Machine σ × List Slot) :=
  let (r, m) := pkg.mmInit m.reset
  if r < 0 then .error (.appError "mm_init failed in eval_mm_speed")
  else ops.foldlM (speedOp pkg) (m, slots)

/-- an empty heap of zeros, and an array of two entries -/
def freshDriver : Driver Unit := ⟨⟨memInit 0x10000000, fun _ => 0, ()⟩, [], [⟨0, 0⟩, ⟨0, 0⟩]⟩

/-! ## The array of a trace -/

variable {slots : List Slot} {index i : Int32} {p : UInt32} {size : Int32}

/-- an index of an array of `n` entries -/
def InArray (n : ℕ) (index : Int32) : Prop := ¬ index < 0 ∧ place index < n

theorem entry_isSome_iff : (entry slots index).isSome ↔ InArray slots.length index := by
  unfold entry InArray
  split_ifs with h <;> simp [h]

@[simp] theorem remember_length : (remember slots index p size).length = slots.length := List.length_set

theorem entry_remember_self (h : (entry slots index).isSome) :
    entry (remember slots index p size) index = some ⟨p, size.toUInt32⟩ := by
  obtain ⟨hneg, hlt⟩ := entry_isSome_iff.1 h
  rw [entry, if_neg hneg, remember, List.getElem?_set_self hlt]

theorem place_of_pos (h : size > 0) : place size = size.toUInt32.toNat := by
  have hlt := (size_pos_iff size).1 h
  have hint : size.toInt = (size.toUInt32.toNat : ℤ).bmod (2 ^ 32) := BitVec.toInt_eq_toNat_bmod size.toUInt32.toBitVec
  rw [place, hint, Int.bmod_def]
  split_ifs <;> omega

theorem place_inj (hi : ¬ i < 0) (hindex : ¬ index < 0) (h : place i = place index) : i = index := by
  rw [Int32.lt_iff_toInt_lt, Int32.toInt_zero] at hi hindex
  unfold place at h
  exact Int32.toInt_inj.1 (by omega)

theorem entry_remember_of_ne (h : i ≠ index) (hindex : (entry slots index).isSome) :
    entry (remember slots index p size) i = entry slots i := by
  have hneg := (entry_isSome_iff.1 hindex).1
  unfold entry
  split_ifs with hi
  · rfl
  · exact List.getElem?_set_ne fun he => h (place_inj hi hneg he.symm)

/-! ## Fillings -/

/-- the byte that the payload of `index` is filled with -/
def lowByte (index : Int32) : UInt8 := index.toUInt32.toUInt8

theorem toInt_and (index : Int32) : (index &&& 0xFF).toInt = (lowByte index).toNat := by
  have hnat : (index &&& 0xFF).toUInt32.toNat = (lowByte index).toNat := by
    have hand : (index &&& 0xFF).toUInt32 = index.toUInt32 &&& 0xFF := rfl
    have hmask : (0xFF : UInt32).toNat = 2 ^ 8 - 1 := rfl
    rw [hand, UInt32.toNat_and, hmask, Nat.and_two_pow_sub_one_eq_mod, lowByte, UInt32.toNat_toUInt8]
  have hlt := (lowByte index).toNat_lt
  have hint : (index &&& 0xFF).toInt = ((index &&& 0xFF).toUInt32.toNat : ℤ).bmod (2 ^ 32) :=
    BitVec.toInt_eq_toNat_bmod (index &&& 0xFF).toUInt32.toBitVec
  rw [hint, hnat, Int.bmod_def]
  split_ifs <;> omega

/-- a `char` from 128 on is negative, and equal to no low byte -/
theorem char_eq_iff (b : UInt8) (index : Int32) :
    b.toInt8.toInt32 = index &&& 0xFF ↔ b = lowByte index ∧ (lowByte index).toNat < 128 := by
  have hlt := b.toNat_lt
  have hlow := (lowByte index).toNat_lt
  have hint : b.toInt8.toInt = (b.toNat : ℤ).bmod (2 ^ 8) := BitVec.toInt_eq_toNat_bmod b.toBitVec
  rw [← Int32.toInt_inj, toInt_and, Int8.toInt_toInt32, hint, Int.bmod_def, ← UInt8.toNat_inj]
  split_ifs <;> omega

theorem holds_iff {bytes : ℕ → UInt8} {n : Int32} : holds bytes p index n ↔
    ∀ j < place n, bytes (p.toNat + j) = lowByte index ∧ (lowByte index).toNat < 128 := by
  simp only [holds, List.all_eq_true, List.mem_range, decide_eq_true_eq, char_eq_iff]

/-- the smaller of two sizes -/
theorem place_smaller {n : Int32} (hsize : size > 0) (hn : n > 0) :
    place (smaller size n.toUInt32) = min size.toUInt32.toNat n.toUInt32.toNat := by
  have h1 := place_of_pos hsize
  have h2 := place_of_pos hn
  rw [smaller, Int32.toInt32_toUInt32]
  split_ifs with hlt
  · rw [Int32.lt_iff_toInt_lt] at hlt
    unfold place at *
    omega
  · rw [Int32.lt_iff_toInt_lt] at hlt
    unfold place at *
    omega

/-! ## One operation -/

/-- the operation passes, and leaves `d'` -/
inductive Passed (pkg : Package σ) (d : Driver σ) : TraceOp → Driver σ → Prop
  | alloc {index size p m ranges} (hcall : pkg.mmMalloc d.machine size.toUInt32 = (p, m)) (hp : p ≠ null)
    (hadd : addRange m.heap d.ranges p size = .ok ranges) (hslot : (entry d.slots index).isSome) :
    Passed pkg d (.alloc index size) ⟨m.memset p index size, ranges, remember d.slots index p size⟩
  | realloc {index size old newp m ranges} (hslot : entry d.slots index = some old)
    (hcall : pkg.mmRealloc d.machine old.block size.toUInt32 = (newp, m)) (hp : newp ≠ null)
    (hadd : addRange m.heap (removeRange d.ranges old.block) newp size = .ok ranges)
    (hholds : holds m.bytes newp index (smaller size old.blockSize)) :
    Passed pkg d (.realloc index size) ⟨m.memset newp index size, ranges, remember d.slots index newp size⟩
  | free {index old} (hslot : entry d.slots index = some old) :
    Passed pkg d (.free index) ⟨pkg.mmFree d.machine old.block, removeRange d.ranges old.block, d.slots⟩

variable {pkg : Package σ} {d d' : Driver σ} {op : TraceOp}

theorem validOp_iff : validOp pkg d op = (none, d') ↔ Passed pkg d op d' := by
  constructor
  · intro h
    cases op with
    | alloc index size =>
      simp only [validOp] at h
      by_cases hp : (pkg.mmMalloc d.machine size.toUInt32).1 = null
      · rw [if_pos hp] at h
        cases h
      rw [if_neg hp] at h
      cases hadd : addRange (pkg.mmMalloc d.machine size.toUInt32).2.heap d.ranges
          (pkg.mmMalloc d.machine size.toUInt32).1 size with
      | error e =>
        rw [hadd] at h
        cases h
      | ok ranges =>
        cases hslot : entry d.slots index with
        | none =>
          rw [hadd, hslot] at h
          cases h
        | some old =>
          rw [hadd, hslot] at h
          cases h
          exact .alloc rfl hp hadd (by rw [hslot]; rfl)
    | realloc index size =>
      cases hslot : entry d.slots index with
      | none =>
        simp only [validOp, hslot] at h
        cases h
      | some old =>
        simp only [validOp, hslot] at h
        by_cases hp : (pkg.mmRealloc d.machine old.block size.toUInt32).1 = null
        · rw [if_pos hp] at h
          cases h
        rw [if_neg hp] at h
        cases hadd : addRange (pkg.mmRealloc d.machine old.block size.toUInt32).2.heap
            (removeRange d.ranges old.block) (pkg.mmRealloc d.machine old.block size.toUInt32).1 size with
        | error e =>
          rw [hadd] at h
          cases h
        | ok ranges =>
          simp only [hadd] at h
          split_ifs at h with hholds
          · cases h
            exact .realloc hslot rfl hp hadd hholds
          · cases h
    | free index =>
      cases hslot : entry d.slots index with
      | none =>
        simp only [validOp, hslot] at h
        cases h
      | some old =>
        simp only [validOp, hslot] at h
        cases h
        exact .free hslot
  · intro h
    cases h with
    | alloc hcall hp hadd hslot =>
      obtain ⟨old, hold⟩ := Option.isSome_iff_exists.1 hslot
      simp only [validOp, hcall, if_neg hp, hadd, hold]
    | realloc hslot hcall hp hadd hholds => simp only [validOp, hslot, hcall, if_neg hp, hadd, if_pos hholds]
    | free hslot => simp only [validOp, hslot]

/-! ## Traces -/

/-- an operation that passes -/
def validStep (pkg : Package σ) (d : Driver σ) (op : TraceOp) : Option (Driver σ) :=
  match validOp pkg d op with
  | (some _, _) => none
  | (none, d) => some d

theorem validStep_iff : validStep pkg d op = some d' ↔ Passed pkg d op d' := by
  rw [← validOp_iff, validStep]
  rcases validOp pkg d op with ⟨_ | e, d1⟩
  · simp
  · simp

theorem validOps_iff {ops : List TraceOp} {i : ℕ} :
    validOps pkg i ops d = (none, d') ↔ run (validStep pkg) d ops = some d' := by
  induction ops generalizing i d with
  | nil => simp [validOps, run]
  | cons op ops ih =>
    rw [validOps, run, validStep]
    rcases validOp pkg d op with ⟨_ | e, d1⟩
    · exact ih
    · simp

end DecsLabs.Malloc
