/-
Which requests the allocator answers properly: served with fresh memory inside the heap, or refused with NULL.

- `Regular`: the state of a heap whose break has never wrapped around the address space.
- `regular_step`: a request that fits, or that is refused, keeps it.
- `clean_iff`: exactly which requests are answered properly.
- `refused_with_error`: a request that is refused with another value than NULL.
-/
import DecsLabs.Malloc.Heap

namespace DecsLabs.Malloc

open DecsLabs.Transition

variable {start : UInt32} {s s' : Client} {q : Request}

/-! ## Regular heaps -/

structure Regular (start : UInt32) (s : Client) : Prop where
  start_eq : s.heap.memStartBrk = start
  max_eq : s.heap.memMaxAddr.toNat = start.toNat + maxHeap
  lo : start.toNat ≤ s.heap.memBrk.toNat
  hi : s.heap.memBrk.toNat ≤ start.toNat + maxHeap
  /-- the break and the blocks are at multiples of 8 from the start -/
  brk_dvd : 8 ∣ s.heap.memBrk.toNat - start.toNat
  blocks : ∀ b ∈ s.blocks, start.toNat ≤ b.addr ∧ b.addr + b.size ≤ s.heap.memBrk.toNat ∧ 8 ∣ b.addr - start.toNat
  apart : s.blocks.Pairwise Block.Apart

theorem regular_initial (hroom : start.toNat + maxHeap < 2 ^ 32) : Regular start (initial start) where
  start_eq := rfl
  max_eq := by
    change (start + UInt32.ofNat maxHeap).toNat = _
    have hmax : (UInt32.ofNat maxHeap).toNat = maxHeap := by decide
    rw [UInt32.toNat_add, hmax]
    exact Nat.mod_eq_of_lt hroom
  lo := le_rfl
  hi := Nat.le_add_right _ _
  brk_dvd := by simp [initial, memInit]
  blocks := by simp [initial]
  apart := .nil

/-- the request fits, or a `mm_realloc` is asked for a size that wraps to 0 when it is rounded -/
def Meets (h : Heap) (q : Request) : Prop :=
  Fits h (rounded q.size) ∨ ∃ ptr, q = .realloc ptr q.size ∧ ¬ q.size.toNat ≤ 2 ^ 32 - 8

/-- the request fails and leaves the heap as it is -/
def Refused (h : Heap) (q : Request) : Prop := ¬ Succeeded (answer h q).1 ∧ (answer h q).2 = h

/-- the condition on a step of a run: no request makes the break wrap, or gets a block of no bytes -/
def Tame (s : Client) : Op → Prop
  | .request q => Meets s.heap q ∨ Refused s.heap q
  | .free _ | .reset => True

/-- a request that fits gets the memory at the break -/
theorem Regular.served (hs : Regular start s) (hq : 0 < q.size.toNat) (hfit : Fits s.heap (rounded q.size)) :
    answer s.heap q = (s.heap.memBrk, { s.heap with memBrk := s.heap.memBrk + aligned q.size }) ∧
      (s.heap.memBrk + aligned q.size).toNat = s.heap.memBrk.toNat + rounded q.size := by
  have hlo := hs.lo
  have hmax := hs.max_eq
  have hle := le_rounded q.size
  have hsmall : rounded q.size ≤ maxHeap := by
    unfold Fits at hfit
    omega
  have hheap : maxHeap < 2 ^ 31 := by decide
  have hround : (aligned q.size).toNat = rounded q.size := aligned_of_le (by omega)
  rw [answer_eq_memSbrk s.heap hq (.inl (by omega)), ← hround]
  exact memSbrk_of_fits (by omega) (hround ▸ hfit)

/-- the heap after a request that fits, with the new block -/
theorem Regular.grown (hs : Regular start s) (hq : 0 < q.size.toNat) (hfit : Fits s.heap (rounded q.size)) :
    Regular start ⟨{ s.heap with memBrk := s.heap.memBrk + aligned q.size },
      ⟨s.heap.memBrk.toNat, q.size.toNat⟩ :: s.blocks⟩ := by
  obtain ⟨-, hbrk⟩ := hs.served hq hfit
  have hle := le_rounded q.size
  have hlo := hs.lo
  have hmax := hs.max_eq
  unfold Fits at hfit
  refine ⟨hs.start_eq, hs.max_eq, ?_, ?_, ?_, ?_, ?_⟩
  · rw [hbrk]
    omega
  · rw [hbrk]
    omega
  · rw [hbrk, Nat.sub_add_comm hlo]
    exact dvd_add hs.brk_dvd (rounded_dvd q.size)
  · intro b hb
    rw [hbrk]
    rcases List.mem_cons.1 hb with rfl | hb
    · exact ⟨hlo, Nat.add_le_add_left hle _, hs.brk_dvd⟩
    · obtain ⟨h1, h2, h3⟩ := hs.blocks b hb
      exact ⟨h1, by omega, h3⟩
  · refine List.pairwise_cons.2 ⟨fun b hb => ?_, hs.apart⟩
    exact .inr (hs.blocks b hb).2.1

theorem Regular.forget {h : Heap} {b : Block} {l : List Block} (hs : Regular start ⟨h, b :: l⟩) :
    Regular start ⟨h, l⟩ :=
  ⟨hs.start_eq, hs.max_eq, hs.lo, hs.hi, hs.brk_dvd, fun c hc => hs.blocks c (List.mem_cons_of_mem _ hc),
    (List.pairwise_cons.1 hs.apart).2⟩

/-- **One step.** -/
theorem regular_step {o : Op} (hs : Regular start s) (ho : Tame s o) (hst : step s o = some s') :
    Regular start s' := by
  cases o with
  | free ptr =>
    cases hst
    exact hs
  | reset =>
    cases hst
    have hstart : (memResetBrk s.heap).memBrk = start := hs.start_eq
    refine ⟨hs.start_eq, hs.max_eq, ?_, ?_, ?_, by simp, .nil⟩
    all_goals simp [hstart]
  | request q =>
    cases hst
    by_cases hrefused : Refused s.heap q
    · have hsame : s.request q = s := by
        simp only [Client.request, if_neg hrefused.1, hrefused.2]
      rw [hsame]
      exact hs
    have hmeets := Or.resolve_right ho hrefused
    by_cases hq : q.size = 0
    · have hzero := answer_zero s.heap hq
      exact absurd ⟨by simp [hzero, Succeeded], by rw [hzero]⟩ hrefused
    have hpos : 0 < q.size.toNat := Nat.pos_of_ne_zero fun he => hq (UInt32.toNat_inj.1 he)
    rcases hmeets with hfit | ⟨ptr, hreq, hwrap⟩
    · obtain ⟨hans, -⟩ := hs.served hpos hfit
      have hgrown := hs.grown hpos hfit
      simp only [Client.request, hans]
      split_ifs
      · exact hgrown
      · exact hgrown.forget
    · have hzero : answer s.heap q = (null, s.heap) := by
        rw [hreq]
        exact answer_wraps s.heap hwrap
      exact absurd ⟨by simp [hzero, Succeeded], by rw [hzero]⟩ hrefused

/-- **Runs.** -/
theorem regular_of_reach (hroom : start.toNat + maxHeap < 2 ^ 32) (hs : ReachIf step Tame (initial start) s) :
    Regular start s :=
  hs.invariant (regular_initial hroom) fun _ _ _ _ h ho hst => regular_step h ho hst

/-! ## Requests -/

/-- `p` points to `size` bytes inside the heap that no call has returned before -/
structure Serves (s : Client) (p : ℕ) (size : ℕ) (h : Heap) : Prop where
  lo : s.heap.memStartBrk.toNat ≤ p
  hi : p + size ≤ h.memBrk.toNat
  limit : h.memBrk.toNat ≤ s.heap.memMaxAddr.toNat
  fresh : ∀ b ∈ s.blocks, Block.Apart ⟨p, size⟩ b

/-- NULL and the same break, or memory -/
def Clean (s : Client) (q : Request) : Prop :=
  (answer s.heap q).1 = null ∧ (answer s.heap q).2.memBrk = s.heap.memBrk ∨
    Serves s (answer s.heap q).1.toNat q.size.toNat (answer s.heap q).2

theorem clean_of_meets (hs : Regular start s) (hq : 0 < q.size.toNat) (hm : Meets s.heap q) : Clean s q := by
  rcases hm with hfit | ⟨ptr, hreq, hwrap⟩
  · obtain ⟨hans, hbrk⟩ := hs.served hq hfit
    have hle := le_rounded q.size
    right
    rw [hans]
    refine ⟨?_, ?_, ?_, fun b hb => .inr (hs.blocks b hb).2.1⟩
    · rw [hs.start_eq]
      exact hs.lo
    · change s.heap.memBrk.toNat + q.size.toNat ≤ (s.heap.memBrk + aligned q.size).toNat
      rw [hbrk]
      omega
    · change (s.heap.memBrk + aligned q.size).toNat ≤ _
      rw [hbrk]
      exact hfit
  · left
    rw [hreq, answer_wraps s.heap hwrap]
    exact ⟨rfl, rfl⟩

/-- the error value is not NULL and not memory, and a break that wraps is below the pointer -/
theorem not_clean (hpos : 0 < start.toNat) (hs : Regular start s) (hq : 0 < q.size.toNat) (hm : ¬ Meets s.heap q) :
    ¬ Clean s q := by
  obtain ⟨hfit, hreq⟩ := not_or.1 hm
  have hlo := hs.lo
  have hhi := hs.hi
  have hlt := s.heap.memBrk.toNat_lt
  have hbrk : s.heap.memBrk ≠ null := by
    intro he
    have : s.heap.memBrk.toNat = 0 := by rw [he]; rfl
    omega
  by_cases hle : q.size.toNat ≤ 2 ^ 32 - 8
  · have hround : (aligned q.size).toNat = rounded q.size := aligned_of_le hle
    rw [← hround] at hfit
    rw [Clean, answer_eq_memSbrk s.heap hq (.inl hle)]
    rcases memSbrk_of_not_fits hfit with herr | ⟨hwrap, hlt⟩
    · rw [herr]
      rintro (⟨hnull, -⟩ | hserves)
      · exact absurd (show sbrkError = null from hnull) (by decide)
      · have := hserves.hi
        have : sbrkError.toNat = 2 ^ 32 - 1 := rfl
        simp only at *
        omega
    · rw [hwrap]
      rintro (⟨hnull, -⟩ | hserves)
      · exact hbrk hnull
      · have := hserves.hi
        simp only at *
        omega
  · obtain ⟨size, rfl⟩ : ∃ size, q = .malloc size := by
      cases q with
      | malloc size => exact ⟨size, rfl⟩
      | realloc ptr size => exact absurd ⟨ptr, rfl, hle⟩ hreq
    -- the size wraps to 0, and the block has no bytes
    have hzero : Fits s.heap (0 : UInt32).toNat := by
      unfold Fits
      rw [hs.max_eq]
      exact hhi
    obtain ⟨hans, -⟩ := memSbrk_of_fits (by decide) hzero
    rw [Clean, answer_eq_memSbrk s.heap hq (.inr ⟨size, rfl⟩), show aligned (Request.malloc size).size = 0 from
      aligned_wraps hle, hans, UInt32.add_zero]
    rintro (⟨hnull, -⟩ | hserves)
    · exact hbrk hnull
    · have := hserves.hi
      simp only at *
      omega

/-- **Requests.** In every heap that is reached by requests that fit or are refused. malloc promises that the block for
the heap is not at NULL and does not wrap. -/
theorem clean_iff (hpos : 0 < start.toNat) (hroom : start.toNat + maxHeap < 2 ^ 32)
    (hs : ReachIf step Tame (initial start) s) (hq : 0 < q.size.toNat) : Clean s q ↔ Meets s.heap q :=
  ⟨fun hc => by_contra fun hm => not_clean hpos (regular_of_reach hroom hs) hq hm hc,
    clean_of_meets (regular_of_reach hroom hs) hq⟩

theorem clean_iff_example : Clean (initial 0x10000000) (.malloc 100) := by
  have hfit : Fits (memInit 0x10000000) (rounded 100) := show _ ≤ _ by decide
  exact (clean_iff (by decide) (by decide) .init (by decide)).2 (.inl hfit)

/-- one byte more than the heap has -/
def tooMuch : UInt32 := 20971521

/-- the empty heap refuses it with -1, not with NULL -/
theorem refused_with_error : (answer (memInit 0x10000000) (.malloc tooMuch)).1 = sbrkError ∧
    ¬ Clean (initial 0x10000000) (.malloc tooMuch) := by
  have hans : answer (memInit 0x10000000) (.malloc tooMuch) = (sbrkError, memInit 0x10000000) := by decide
  refine ⟨congrArg Prod.fst hans, ?_⟩
  rw [Clean, initial, hans]
  rintro (⟨hnull, -⟩ | hserves)
  · exact absurd (show sbrkError = null from hnull) (by decide)
  · exact absurd hserves.hi (by decide)

end DecsLabs.Malloc
