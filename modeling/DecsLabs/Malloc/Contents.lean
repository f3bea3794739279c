/-
What the allocator does to the contents of the blocks. `mm_realloc` hands out the memory at the break and copies
nothing: its comment says that it should, and the driver checks that it does.

- `Store`: a heap with its live blocks and its bytes; `Store.step`: the calls of the allocator, and the writes of its
  clients into live blocks. No call writes a byte.
- `Untouched`: a heap in good order; nothing has been written behind the break.
- `realloc_preserves_iff`: the contents are kept exactly when they already are at the break, where a heap in good order
  still has the bytes that it began with; `contents_lost`: a byte that is lost.
-/
import DecsLabs.Malloc.Requests

namespace DecsLabs.Malloc

open DecsLabs.Transition

/-! ## Model -/

structure Store where
  client : Client
  /-- the blocks that have been handed out and not been freed or reallocated -/
  live : List Block
  bytes : ℕ → UInt8

inductive Action where
  | malloc (size : UInt32)
  | free (ptr : UInt32)
  | realloc (ptr size : UInt32)
  /-- a client writes a byte -/
  | write (addr : ℕ) (byte : UInt8)
deriving DecidableEq, Repr

/-- the heap before the first call, on memory that holds `bytes` -/
def Store.initial (start : UInt32) (bytes : ℕ → UInt8) : Store := ⟨Malloc.initial start, [], bytes⟩

def Block.Has (b : Block) (addr : ℕ) : Prop := b.addr ≤ addr ∧ addr < b.addr + b.size

instance (b : Block) (addr : ℕ) : Decidable (b.Has addr) := inferInstanceAs (Decidable (_ ∧ _))

/-- the live blocks without the one at `ptr` -/
def Store.without (s : Store) (ptr : UInt32) : List Block := s.live.filter fun b => b.addr ≠ ptr.toNat

/-- a `mm_realloc` that fails leaves its block alive, unless it was asked for nothing; clients write in live blocks -/
def Store.step (s : Store) : Action → Option Store
  | .malloc size =>
    let p := (answer s.client.heap (.malloc size)).1
    some { s with
      client := s.client.request (.malloc size)
      live := if Succeeded p then ⟨p.toNat, size.toNat⟩ :: s.live else s.live }
  | .free ptr =>
    some { s with client := { s.client with heap := mmFree s.client.heap ptr }, live := s.without ptr }
  | .realloc ptr size =>
    let p := (answer s.client.heap (.realloc ptr size)).1
    some { s with
      client := s.client.request (.realloc ptr size)
      live :=
        if Succeeded p then ⟨p.toNat, size.toNat⟩ :: s.without ptr else if size = 0 then s.without ptr else s.live }
  | .write addr byte =>
    if ∃ b ∈ s.live, b.Has addr then some { s with bytes := Function.update s.bytes addr byte } else none

/-! ## Reallocation -/

/-- the call `mm_realloc(ptr, size)` is about the live block `b`, its size is in range, and it does not fail -/
structure Resizes (s : Store) (ptr size : UInt32) (b : Block) : Prop where
  live : b ∈ s.live
  addr : b.addr = ptr.toNat
  pos : 1 ≤ size.toNat
  le : size.toNat ≤ maxHeap
  ok : Succeeded (answer s.client.heap (.realloc ptr size)).1

/-- the block at `p` has the first bytes that `b` had, up to the smaller of the two sizes; the other live blocks have
the bytes that they had -/
structure Kept (s s' : Store) (b : Block) (p n : ℕ) : Prop where
  contents : ∀ i < min b.size n, s'.bytes (p + i) = s.bytes (b.addr + i)
  others : ∀ c ∈ s.live, c.addr ≠ b.addr → ∀ i < c.size, s'.bytes (c.addr + i) = s.bytes (c.addr + i)

/-- reallocation keeps contents, in one step -/
def Preserving (s : Store) : Action → Prop
  | .realloc ptr size => ∀ b, Resizes s ptr size b → ∀ s', s.step (.realloc ptr size) = some s' →
    Kept s s' b (answer s.client.heap (.realloc ptr size)).1.toNat size.toNat
  | _ => True

/-- the bytes at the break are those of the block, up to the smaller of the two sizes -/
def Matching (s : Store) : Action → Prop
  | .realloc ptr size => ∀ b, Resizes s ptr size b →
    ∀ i < min b.size size.toNat, s.bytes (s.client.heap.memBrk.toNat + i) = s.bytes (b.addr + i)
  | _ => True

variable {start : UInt32} {s s' : Store} {ptr size : UInt32} {b : Block} {o : Action} {bytes : ℕ → UInt8}

/-- a successful `mm_realloc` returns the break -/
theorem Resizes.returns (h : Resizes s ptr size b) :
    (answer s.client.heap (.realloc ptr size)).1 = s.client.heap.memBrk := by
  have hheap : maxHeap ≤ 2 ^ 32 - 8 := by decide
  have hok := h.ok
  have hans := answer_eq_memSbrk s.client.heap (q := .realloc ptr size) h.pos (.inl (h.le.trans hheap))
  rw [hans] at hok ⊢
  unfold memSbrk at hok ⊢
  split_ifs at hok ⊢
  · exact absurd rfl hok.2
  · rfl

/-- **One call.** Nothing is copied, so the new block has what was at the break; the other blocks are left alone. -/
theorem preserving_iff (s : Store) (o : Action) : Preserving s o ↔ Matching s o := by
  cases o with
  | realloc ptr size =>
    apply forall_congr'
    intro b
    apply forall_congr'
    intro h
    constructor
    · intro hkept i hi
      have hbytes := (hkept _ rfl).contents i hi
      rwa [h.returns] at hbytes
    · intro hmatch s' hst
      have hsame : s'.bytes = s.bytes := by
        cases hst
        rfl
      refine ⟨?_, ?_⟩
      · intro i hi
        rw [h.returns, hsame]
        exact hmatch i hi
      · intro c _ _ i _
        rw [hsame]
  | _ => exact Iff.rfl

/-! ## The memory behind the break -/

/-- no request makes the break wrap, or gets a block of no bytes -/
def TameAction (s : Store) : Action → Prop
  | .malloc size => Tame s.client (.request (.malloc size))
  | .realloc ptr size => Tame s.client (.request (.realloc ptr size))
  | .free _ | .write _ _ => True

/-- as `Matching`, with the bytes that the heap began with -/
def Leftover (bytes : ℕ → UInt8) (s : Store) : Action → Prop
  | .realloc ptr size => ∀ b, Resizes s ptr size b →
    ∀ i < min b.size size.toNat, bytes (s.client.heap.memBrk.toNat + i) = s.bytes (b.addr + i)
  | _ => True

/-- the heap is in good order, and nothing has been written behind the break -/
structure Untouched (start : UInt32) (bytes : ℕ → UInt8) (s : Store) : Prop where
  regular : Regular start s.client
  live : ∀ b ∈ s.live, b ∈ s.client.blocks
  behind : ∀ a, s.client.heap.memBrk.toNat ≤ a → s.bytes a = bytes a

/-- the break does not go down -/
theorem Regular.brk_le {c : Client} {q : Request} (hs : Regular start c) (ho : Tame c (.request q)) :
    c.heap.memBrk.toNat ≤ (c.request q).heap.memBrk.toNat := by
  have hheap : (c.request q).heap = (answer c.heap q).2 := rfl
  rw [hheap]
  rcases ho with hmeets | hrefused
  · by_cases hq : q.size = 0
    · rw [answer_zero c.heap hq]
    · have hpos : 0 < q.size.toNat := Nat.pos_of_ne_zero fun he => hq (UInt32.toNat_inj.1 he)
      rcases hmeets with hfit | ⟨ptr, hreq, hwrap⟩
      · obtain ⟨hans, hbrk⟩ := hs.served hpos hfit
        rw [hans]
        exact hbrk ▸ Nat.le_add_right _ _
      · rw [hreq, answer_wraps c.heap hwrap]
  · rw [hrefused.2]

theorem request_blocks (c : Client) (q : Request) : (c.request q).blocks =
    if Succeeded (answer c.heap q).1 then ⟨(answer c.heap q).1.toNat, q.size.toNat⟩ :: c.blocks else c.blocks := rfl

/-- a request, and what is then alive: blocks that were alive, and the new one -/
theorem Untouched.request {q : Request} {live : List Block} (h : Untouched start bytes s)
    (ho : Tame s.client (.request q)) (hlive : ∀ b ∈ live, b ∈ s.live ∨
      Succeeded (answer s.client.heap q).1 ∧ b = ⟨(answer s.client.heap q).1.toNat, q.size.toNat⟩) :
    Untouched start bytes { s with client := s.client.request q, live := live } where
  regular := regular_step h.regular ho rfl
  live b hb := by
    rw [request_blocks]
    rcases hlive b hb with hold | ⟨hok, rfl⟩
    · split_ifs
      · exact List.mem_cons_of_mem _ (h.live b hold)
      · exact h.live b hold
    · rw [if_pos hok]
      exact List.mem_cons_self
  behind a ha := h.behind a ((h.regular.brk_le ho).trans ha)

theorem mem_without (hb : b ∈ s.without ptr) : b ∈ s.live := (List.mem_filter.1 hb).1

/-- **One step.** -/
theorem Untouched.step (h : Untouched start bytes s) (ho : TameAction s o) (hst : s.step o = some s') :
    Untouched start bytes s' := by
  cases o with
  | malloc size =>
    cases hst
    apply h.request ho
    intro b hb
    split_ifs at hb with hok
    · rcases List.mem_cons.1 hb with hnew | hold
      · exact .inr ⟨hok, hnew⟩
      · exact .inl hold
    · exact .inl hb
  | free ptr =>
    cases hst
    exact ⟨h.regular, fun b hb => h.live b (mem_without hb), h.behind⟩
  | realloc ptr size =>
    cases hst
    apply h.request ho
    intro b hb
    split_ifs at hb with hok hzero
    · rcases List.mem_cons.1 hb with hnew | hold
      · exact .inr ⟨hok, hnew⟩
      · exact .inl (mem_without hold)
    · exact .inl (mem_without hb)
    · exact .inl hb
  | write addr byte =>
    simp only [Store.step] at hst
    split_ifs at hst with hlive
    cases hst
    obtain ⟨b, hb, hhas⟩ := hlive
    refine ⟨h.regular, h.live, ?_⟩
    intro a ha
    -- a live block lies below the break
    have hbelow := (h.regular.blocks b (h.live b hb)).2.1
    have hne : a ≠ addr := by
      have := hhas.2
      change s.client.heap.memBrk.toNat ≤ a at ha
      omega
    exact (Function.update_of_ne hne ..).trans (h.behind a ha)

theorem Untouched.leftover (h : Untouched start bytes s) (o : Action) : Matching s o ↔ Leftover bytes s o := by
  cases o with
  | realloc ptr size =>
    have hsame : ∀ i, s.bytes (s.client.heap.memBrk.toNat + i) = bytes (s.client.heap.memBrk.toNat + i) := fun i =>
      h.behind _ (Nat.le_add_right _ i)
    simp only [Matching, Leftover, hsame]
  | _ => exact Iff.rfl

/-! ## Main result -/

theorem initial_untouched (hroom : start.toNat + maxHeap < 2 ^ 32) (bytes : ℕ → UInt8) :
    Untouched start bytes (.initial start bytes) :=
  ⟨regular_initial hroom, fun _ hb => absurd hb List.not_mem_nil, fun _ _ => rfl⟩

/-- **Reallocation.** For every heap, whatever its memory holds, and every sequence of calls and of writes into live
blocks: all calls of `mm_realloc` for a live block keep the contents of all live blocks exactly when each of them finds,
at the break, the bytes that its block has. In runs whose requests fit or are refused, the bytes at the break are those
that the memory had when the heap was empty. -/
theorem realloc_preserves_iff (start : UInt32) (bytes : ℕ → UInt8) (os : List Action) :
    (Along Store.step Preserving (.initial start bytes) os ↔
      Along Store.step Matching (.initial start bytes) os) ∧
    (start.toNat + maxHeap < 2 ^ 32 → Along Store.step TameAction (.initial start bytes) os →
      (Along Store.step Preserving (.initial start bytes) os ↔
        Along Store.step (Leftover bytes) (.initial start bytes) os)) := by
  constructor
  · exact along_congr preserving_iff _ os
  · intro hroom hok
    have hbehind : ∀ s o, Untouched start bytes s → (Preserving s o ↔ Leftover bytes s o) := fun s o h =>
      (preserving_iff s o).trans (h.leftover o)
    exact along_iff (fun s o t h ho hst => h.step ho hst) hbehind (initial_untouched hroom bytes) hok

/-- in a heap of zeros, a block in which nothing has been written -/
theorem realloc_preserves_iff_example :
    Along Store.step Preserving (.initial 0x10000000 fun _ => 0) [.malloc 1, .realloc 0x10000000 1] := by
  refine (realloc_preserves_iff 0x10000000 (fun _ => 0) [.malloc 1, .realloc 0x10000000 1]).1.2 ⟨trivial, ?_⟩
  rintro s ⟨⟩
  refine ⟨?_, fun _ _ => trivial⟩
  intro b _ i _
  rfl

/-- a heap of zeros with one block of one byte, in which 1 has been written -/
def oneByte : Store where
  client := ⟨⟨0x10000000, 0x10000008, 0x11400000⟩, [⟨0x10000000, 1⟩]⟩
  live := [⟨0x10000000, 1⟩]
  bytes := Function.update (fun _ => 0) 0x10000000 1

/-- the byte is lost -/
theorem contents_lost : ¬ Along Store.step Preserving (.initial 0x10000000 fun _ => 0)
    [.malloc 1, .write 0x10000000 1, .realloc 0x10000000 1] := by
  intro hall
  obtain ⟨-, h1⟩ := hall
  obtain ⟨-, h2⟩ := h1 { oneByte with bytes := fun _ => 0 } rfl
  obtain ⟨h3, -⟩ := h2 oneByte rfl
  have hresizes : Resizes oneByte 0x10000000 1 ⟨0x10000000, 1⟩ := ⟨by decide, rfl, by decide, by decide, by decide⟩
  have hkept := (h3 _ hresizes _ rfl).contents 0 (by decide)
  exact absurd hkept (by decide)

end DecsLabs.Malloc
