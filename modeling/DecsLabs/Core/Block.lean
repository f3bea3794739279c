/-
Blocks: finite pieces of thread code that read and write the shared memory one access at a time and take mutexes in a
bracketed way. The type of a block carries the mutexes that are held before it, so a block that releases a mutex it
does not hold, takes one out of order or ends with one too many cannot be written. Nothing here is about a particular
program.

- `Block.eval`: what the rest of a block does to the memory when nothing interferes. One step of the block does not
  change it (`eval` of the rest in the new memory is `eval` of the block in the old one), which is how a simulation
  proof follows a thread through the middle of a block.
- `Block.Silent`: the path that the rest of the block takes in this memory writes nothing.
- `Block.depth`: the number of steps of its longest path, if its paths have a bound; every step makes it smaller.
-/
import Mathlib.Tactic

namespace DecsLabs

/-- a block that starts with the mutexes `h` held (innermost first) and ends with `base` held -/
inductive Block {L : Type} (rank : L → ℕ) (S : Type) (base : List L) : List L → Type where
  | done : Block rank S base base
  | load {h : List L} (f : S → ℤ) (k : ℤ → Block rank S base h) : Block rank S base h
  | store {h : List L} (f : S → S) (k : Block rank S base h) : Block rank S base h
  | lock {h : List L} (l : L) (hl : ∀ l' ∈ h, rank l' < rank l) (k : Block rank S base (l :: h)) :
    Block rank S base h
  | unlock {h : List L} {l : L} (hl : l ∉ h) (k : Block rank S base h) : Block rank S base (l :: h)

namespace Block

variable {L : Type} {rank : L → ℕ} {S : Type} {base h : List L}

/-- the memory after the block, run without interference -/
def eval {h : List L} : Block rank S base h → S → S
  | .done, s => s
  | .load f k, s => (k (f s)).eval s
  | .store f k, s => k.eval (f s)
  | .lock _ _ k, s => k.eval s
  | .unlock _ k, s => k.eval s

/-- no write on the path that the block takes in `s` -/
def Silent {h : List L} : Block rank S base h → S → Prop
  | .done, _ => True
  | .load f k, s => (k (f s)).Silent s
  | .store _ _, _ => False
  | .lock _ _ k, s => k.Silent s
  | .unlock _ k, s => k.Silent s

theorem eval_ite (c : Prop) [Decidable c] (a b : Block rank S base h) (s : S) :
    (if c then a else b).eval s = if c then a.eval s else b.eval s := by
  split_ifs <;> rfl

/-! ## Length -/

/-- no path of the block is longer than `n` -/
def Within {h : List L} : Block rank S base h → ℕ → Prop
  | .done, _ => True
  | .load _ k, n => 0 < n ∧ ∀ v, (k v).Within (n - 1)
  | .store _ k, n => 0 < n ∧ k.Within (n - 1)
  | .lock _ _ k, n => 0 < n ∧ k.Within (n - 1)
  | .unlock _ k, n => 0 < n ∧ k.Within (n - 1)

theorem Within.mono {h : List L} {b : Block rank S base h} {m n : ℕ} (hb : b.Within m) (hmn : m ≤ n) : b.Within n := by
  induction b generalizing m n with
  | done => trivial
  | load f k ih => exact ⟨hb.1.trans_le hmn, fun v => ih v (hb.2 v) (Nat.sub_le_sub_right hmn 1)⟩
  | store f k ih => exact ⟨hb.1.trans_le hmn, ih hb.2 (Nat.sub_le_sub_right hmn 1)⟩
  | lock l hl k ih => exact ⟨hb.1.trans_le hmn, ih hb.2 (Nat.sub_le_sub_right hmn 1)⟩
  | unlock hl k ih => exact ⟨hb.1.trans_le hmn, ih hb.2 (Nat.sub_le_sub_right hmn 1)⟩

theorem within_ite {c : Prop} [Decidable c] {a b : Block rank S base h} {n : ℕ} (ha : a.Within n) (hb : b.Within n) :
    (if c then a else b).Within n := by
  split_ifs
  · exact ha
  · exact hb

noncomputable def depth (b : Block rank S base h) : ℕ := sInf {n | b.Within n}

theorem Within.depth_le {b : Block rank S base h} {n : ℕ} (hb : b.Within n) : b.depth ≤ n := Nat.sInf_le hb

theorem Within.depth {b : Block rank S base h} {n : ℕ} (hb : b.Within n) : b.Within b.depth :=
  Nat.sInf_mem (s := {n | b.Within n}) ⟨n, hb⟩

/-- `b'` follows on a step of `b` -/
theorem depth_lt {h' : List L} {b : Block rank S base h} {b' : Block rank S base h'}
    (hb : 0 < b.depth ∧ b'.Within (b.depth - 1)) : b'.depth < b.depth :=
  Nat.lt_of_le_pred hb.1 hb.2.depth_le

end Block

end DecsLabs
