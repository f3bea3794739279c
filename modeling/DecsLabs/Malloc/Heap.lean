/-
The allocator of assignment 3 (mm.c over memlib.c) in the 32-bit build: addresses and `size_t` are `UInt32`, `int` is
`Int32`. A block is cut off at the break; nothing is reused, so the state is the three addresses of memlib.c.

- `Request`, `answer`: the calls of the allocator and what they return.
- `Heap.Client`, `step`: a heap with the blocks that it has handed out, for runs of calls in any order.
- `memSbrk_of_fits`, `memSbrk_of_not_fits`: what `mem_sbrk` does with a size, by whether it fits below the limit.
- `answer_eq_memSbrk`: both calls are one call of `mem_sbrk`.
-/
import DecsLabs.Core.Transition

namespace DecsLabs.Malloc

open DecsLabs.Transition

/-! ## Model -/

def maxHeap : ℕ := 20 * 2 ^ 20

structure Heap where
  memStartBrk : UInt32
  memBrk : UInt32
  memMaxAddr : UInt32
deriving DecidableEq, Repr

def null : UInt32 := 0

/-- `(void *)-1` -/
def sbrkError : UInt32 := -1

/-- the heap in the block at `start` -/
def memInit (start : UInt32) : Heap := ⟨start, start, start + UInt32.ofNat maxHeap⟩

def memResetBrk (h : Heap) : Heap := { h with memBrk := h.memStartBrk }

/-- the returned pointer and the heap -/
def memSbrk (h : Heap) (incr : Int32) : UInt32 × Heap :=
  if incr < 0 ∨ h.memBrk + incr.toUInt32 > h.memMaxAddr then (sbrkError, h)
  else (h.memBrk, { h with memBrk := h.memBrk + incr.toUInt32 })

/-- `((size+7)/8)*8` -/
def aligned (size : UInt32) : UInt32 := ((size + 7) / 8) * 8

def mmMalloc (h : Heap) (size : UInt32) : UInt32 × Heap :=
  if size ≤ 0 then (null, h) else memSbrk h (aligned size).toInt32

/-- the body of `mm_free` is a comment -/
def mmFree (h : Heap) (_ptr : UInt32) : Heap := h

def mmRealloc (h : Heap) (ptr size : UInt32) : UInt32 × Heap :=
  let size := aligned size
  if ptr = null then mmMalloc h size
  else if size = 0 then (null, mmFree h ptr)
  else memSbrk (mmFree h ptr) size.toInt32

/-! ## Runs -/

/-- the calls that return memory -/
inductive Request where
  | malloc (size : UInt32)
  | realloc (ptr size : UInt32)
deriving DecidableEq, Repr

def Request.size : Request → UInt32
  | malloc size => size
  | realloc _ size => size

def answer (h : Heap) : Request → UInt32 × Heap
  | .malloc size => mmMalloc h size
  | .realloc ptr size => mmRealloc h ptr size

/-- the memory that a call has returned, with the size that it was called with -/
structure Block where
  addr : ℕ
  size : ℕ
deriving DecidableEq, Repr

def Block.Apart (a b : Block) : Prop := a.addr + a.size ≤ b.addr ∨ b.addr + b.size ≤ a.addr

/-- the heap and the blocks that it has handed out since it was empty, the last one first -/
structure Client where
  heap : Heap
  blocks : List Block
deriving DecidableEq, Repr

def initial (start : UInt32) : Client := ⟨memInit start, []⟩

inductive Op where
  | request (q : Request)
  | free (ptr : UInt32)
  | reset
deriving DecidableEq, Repr

/-- neither NULL nor the error value of `mem_sbrk` -/
def Succeeded (p : UInt32) : Prop := p ≠ null ∧ p ≠ sbrkError

instance : DecidablePred Succeeded := fun _ => inferInstanceAs (Decidable (_ ∧ _))

/-- the call `q` by a client -/
def Client.request (s : Client) (q : Request) : Client :=
  let (p, h) := answer s.heap q
  ⟨h, if Succeeded p then ⟨p.toNat, q.size.toNat⟩ :: s.blocks else s.blocks⟩

def step (s : Client) : Op → Option Client
  | .request q => some (s.request q)
  | .free ptr => some { s with heap := mmFree s.heap ptr }
  | .reset => some ⟨memResetBrk s.heap, []⟩

/-! ## Sizes -/

/-- the size that is asked of `mem_sbrk`, as a number -/
def rounded (size : UInt32) : ℕ := (size.toNat + 7) / 8 * 8

theorem le_rounded (size : UInt32) : size.toNat ≤ rounded size := by
  unfold rounded
  omega

theorem rounded_dvd (size : UInt32) : 8 ∣ rounded size := Dvd.intro_left _ rfl

/-- the rounding wraps exactly for the last seven sizes -/
theorem aligned_toNat (size : UInt32) :
    (aligned size).toNat = if size.toNat ≤ 2 ^ 32 - 8 then rounded size else 0 := by
  have hlt := size.toNat_lt
  have hseven : (7 : UInt32).toNat = 7 := rfl
  have height : (8 : UInt32).toNat = 8 := rfl
  rw [aligned, UInt32.toNat_mul, UInt32.toNat_div, UInt32.toNat_add, hseven, height, rounded]
  split_ifs <;> omega

theorem aligned_of_le {size : UInt32} (h : size.toNat ≤ 2 ^ 32 - 8) : (aligned size).toNat = rounded size := by
  rw [aligned_toNat, if_pos h]

theorem aligned_wraps {size : UInt32} (h : ¬ size.toNat ≤ 2 ^ 32 - 8) : aligned size = 0 := by
  apply UInt32.toNat_inj.1
  rw [aligned_toNat, if_neg h]
  rfl

/-- a second rounding changes nothing -/
theorem aligned_aligned (size : UInt32) : aligned (aligned size) = aligned size := by
  apply UInt32.toNat_inj.1
  have hlt := size.toNat_lt
  rw [aligned_toNat, rounded, aligned_toNat, rounded]
  split_ifs <;> omega

/-! ## mem_sbrk -/

/-- the request `incr` fits between the break and the limit -/
def Fits (h : Heap) (incr : ℕ) : Prop := h.memBrk.toNat + incr ≤ h.memMaxAddr.toNat

theorem toInt32_neg_iff (size : UInt32) : size.toInt32 < 0 ↔ 2 ^ 31 ≤ size.toNat := by
  have hlt := size.toNat_lt
  have hint : size.toInt32.toInt = (size.toNat : ℤ).bmod (2 ^ 32) := BitVec.toInt_eq_toNat_bmod size.toBitVec
  rw [Int32.lt_iff_toInt_lt, hint, Int32.toInt_zero, Int.bmod_def]
  split_ifs <;> omega

variable {h : Heap} {size : UInt32}

theorem memSbrk_of_fits (hint : size.toNat < 2 ^ 31) (hfit : Fits h size.toNat) :
    memSbrk h size.toInt32 = (h.memBrk, { h with memBrk := h.memBrk + size }) ∧
      (h.memBrk + size).toNat = h.memBrk.toNat + size.toNat := by
  have hlt := h.memMaxAddr.toNat_lt
  unfold Fits at hfit
  have hsum : (h.memBrk + size).toNat = h.memBrk.toNat + size.toNat := by
    rw [UInt32.toNat_add]
    exact Nat.mod_eq_of_lt (by omega)
  have hpos : ¬ size.toInt32 < 0 := by
    rw [toInt32_neg_iff]
    omega
  have hmax : ¬ h.memBrk + size > h.memMaxAddr := by
    rw [gt_iff_lt, UInt32.lt_iff_toNat_lt, hsum]
    omega
  refine ⟨?_, hsum⟩
  rw [memSbrk, UInt32.toUInt32_toInt32, if_neg (not_or.2 ⟨hpos, hmax⟩)]

/-- a size that does not fit is an error, or the break wraps around the address space -/
theorem memSbrk_of_not_fits (hfit : ¬ Fits h size.toNat) :
    memSbrk h size.toInt32 = (sbrkError, h) ∨
      memSbrk h size.toInt32 = (h.memBrk, { h with memBrk := h.memBrk + size }) ∧
        (h.memBrk + size).toNat < h.memBrk.toNat := by
  have hbrk := h.memBrk.toNat_lt
  have hsize := size.toNat_lt
  rw [memSbrk, UInt32.toUInt32_toInt32]
  split_ifs with herr
  · exact .inl rfl
  · refine .inr ⟨rfl, ?_⟩
    have hmax := (not_or.1 herr).2
    rw [gt_iff_lt, UInt32.lt_iff_toNat_lt, UInt32.toNat_add] at hmax
    unfold Fits at hfit
    rw [UInt32.toNat_add]
    omega

/-! ## The calls -/

/-- a call for nothing returns NULL -/
theorem answer_zero (h : Heap) {q : Request} (hq : q.size = 0) : answer h q = (null, h) := by
  cases q with
  | malloc size =>
    obtain rfl : size = 0 := hq
    rfl
  | realloc ptr size =>
    obtain rfl : size = 0 := hq
    have h0 : aligned 0 = 0 := rfl
    simp only [answer, mmRealloc, h0, mmFree]
    split_ifs <;> rfl

/-- every other call is one call of `mem_sbrk`, unless the size of a `mm_realloc` wraps to 0 -/
theorem answer_eq_memSbrk (h : Heap) {q : Request} (hq : 0 < q.size.toNat)
    (hsize : q.size.toNat ≤ 2 ^ 32 - 8 ∨ ∃ size, q = .malloc size) :
    answer h q = memSbrk h (aligned q.size).toInt32 := by
  cases q with
  | malloc size =>
    have hne : ¬ size ≤ 0 := by
      rw [UInt32.le_iff_toNat_le, not_le]
      exact hq
    rw [answer, mmMalloc, if_neg hne]
    rfl
  | realloc ptr size =>
    have hle : size.toNat ≤ 2 ^ 32 - 8 := hsize.resolve_right (by simp)
    have hround : 0 < (aligned size).toNat := lt_of_lt_of_le hq ((le_rounded size).trans (aligned_of_le hle).ge)
    have hne : ¬ aligned size ≤ 0 := by
      rw [UInt32.le_iff_toNat_le, not_le]
      exact hround
    have hne0 : aligned size ≠ 0 := by
      intro he
      rw [he] at hround
      exact absurd hround (by decide)
    simp only [answer, mmRealloc, mmFree, if_neg hne0]
    split_ifs
    · rw [mmMalloc, if_neg hne, aligned_aligned]
      rfl
    · rfl

theorem answer_wraps (h : Heap) {ptr : UInt32} (hsize : ¬ size.toNat ≤ 2 ^ 32 - 8) :
    answer h (.realloc ptr size) = (null, h) := by
  simp only [answer, mmRealloc, aligned_wraps hsize, mmFree]
  split_ifs <;> rfl

end DecsLabs.Malloc
