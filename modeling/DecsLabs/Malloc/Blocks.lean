/-
The blocks of the allocator never overlap, for requests of at most the size of the heap, in any order and with any
pointers.

- `Sized`: the requests of such runs; they never make the break wrap around.
- `blocks_disjoint`: the blocks of every run.
-/
import DecsLabs.Malloc.Requests

namespace DecsLabs.Malloc

open DecsLabs.Transition

variable {start : UInt32} {s s' : Client}

/-- sizes between 1 and the size of the heap -/
def Sized (_ : Client) : Op → Prop
  | .request q => 1 ≤ q.size.toNat ∧ q.size.toNat ≤ maxHeap
  | .free _ | .reset => True

instance (s : Client) (o : Op) : Decidable (Sized s o) := by
  cases o <;> unfold Sized <;> infer_instance

/-- twice the heap does not wrap, so that a request that does not fit is an error -/
theorem tame_of_sized {o : Op} (hroom : start.toNat + 2 * maxHeap < 2 ^ 32) (hs : Regular start s) (ho : Sized s o) :
    Tame s o := by
  cases o with
  | free ptr => trivial
  | reset => trivial
  | request q =>
    obtain ⟨hpos, hmax⟩ := ho
    by_cases hfit : Fits s.heap (rounded q.size)
    · exact .inl (.inl hfit)
    have heap8 : maxHeap = 8 * 2621440 := by decide
    have hhi := hs.hi
    have hlow : rounded q.size ≤ maxHeap := by
      unfold rounded
      omega
    have hround : (aligned q.size).toNat = rounded q.size := aligned_of_le (by omega)
    right
    rw [← hround] at hfit
    rw [Refused, answer_eq_memSbrk s.heap hpos (.inl (by omega))]
    rcases memSbrk_of_not_fits hfit with herr | ⟨-, hlt⟩
    · rw [herr]
      exact ⟨fun hok => hok.2 rfl, rfl⟩
    · rw [UInt32.toNat_add, hround, Nat.mod_eq_of_lt (by omega)] at hlt
      omega

/-- **Blocks.** After any run every block is aligned and lies with all its bytes below the break, no two of them
overlap, and the break is below the limit. -/
theorem blocks_disjoint (hbase : start.toNat % 8 = 0) (hroom : start.toNat + 2 * maxHeap < 2 ^ 32)
    (hs : ReachIf step Sized (initial start) s) :
    (∀ b ∈ s.blocks, b.addr % 8 = 0 ∧ s.heap.memStartBrk.toNat ≤ b.addr ∧
      b.addr + b.size ≤ s.heap.memBrk.toNat) ∧
    s.blocks.Pairwise Block.Apart ∧ s.heap.memBrk.toNat ≤ s.heap.memMaxAddr.toNat := by
  have hreg : Regular start s := hs.invariant (regular_initial (by omega))
    fun _ _ _ _ h ho hst => regular_step h (tame_of_sized hroom h ho) hst
  refine ⟨fun b hb => ?_, hreg.apart, ?_⟩
  · obtain ⟨h1, h2, h3⟩ := hreg.blocks b hb
    rw [hreg.start_eq]
    exact ⟨by omega, h1, h2⟩
  · rw [hreg.max_eq]
    exact hreg.hi

theorem blocks_disjoint_example : ∃ s, ReachIf step Sized (initial 0x10000000) s ∧
    s.blocks = [⟨0x10000018, 5⟩, ⟨0x10000010, 8⟩, ⟨0x10000000, 13⟩] ∧ s.blocks.Pairwise Block.Apart := by
  let os : List Op := [.request (.malloc 13), .request (.realloc 0x10000000 8), .free 0x10000000,
    .request (.malloc 20971520), .request (.realloc 0 5)]
  have hend : (runIf step (fun s o => decide (Sized s o)) (initial 0x10000000) os).map Client.blocks =
      some [⟨0x10000018, 5⟩, ⟨0x10000010, 8⟩, ⟨0x10000000, 13⟩] := by decide +kernel
  obtain ⟨s, hrun, hblocks⟩ := Option.map_eq_some_iff.1 hend
  have hs := reachIf_of_runIf (fun _ _ h => of_decide_eq_true h) hrun
  exact ⟨s, hs, hblocks, (blocks_disjoint (by decide) (by decide) hs).2.1⟩

end DecsLabs.Malloc
