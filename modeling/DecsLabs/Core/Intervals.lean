/-
Families of intervals: when two of them meet, and how long they are together. Nothing here is about a particular
program.

- `EndsIn`: the test of an interval by its two ends. `not_endsIn_iff` is what it lets through: intervals that have no
  point in common, and an interval that has the other one strictly inside.
- `Separate`: of two intervals one is behind the other one. `sum_length_le`: intervals of which each two are separate
  are together no longer than the space that they lie in.
-/
import Mathlib.Tactic

namespace DecsLabs.Intervals

/-! ## Two closed intervals -/

section
variable {α : Type*} [LinearOrder α] {a b c d : α}

/-- an end of `[a, b]` is in `[c, d]` -/
def EndsIn (a b c d : α) : Prop := a ∈ Set.Icc c d ∨ b ∈ Set.Icc c d

instance : Decidable (EndsIn a b c d) := inferInstanceAs (Decidable ((_ ∧ _) ∨ (_ ∧ _)))

/-- `[c, d]` is inside of `[a, b]` and contains neither of its ends -/
def Within (c d a b : α) : Prop := a < c ∧ d < b

instance : Decidable (Within c d a b) := inferInstanceAs (Decidable (_ ∧ _))

/-- one of `[a, b]` and `[c, d]` is behind the other one -/
def Off (a b c d : α) : Prop := b < c ∨ d < a

theorem off_iff (hab : a ≤ b) (hcd : c ≤ d) : Off a b c d ↔ ∀ x, x ∈ Set.Icc a b → x ∉ Set.Icc c d := by
  constructor
  · intro h x hx hx'
    rcases h with hbc | hda
    · exact absurd (hx'.1.trans hx.2) (not_le.2 hbc)
    · exact absurd (hx.1.trans hx'.2) (not_le.2 hda)
  · intro h
    rcases le_total a c with hac | hca
    · have hout := h c
      exact .inl (not_le.1 fun hcb => hout ⟨hac, hcb⟩ ⟨le_rfl, hcd⟩)
    · have hout := h a
      exact .inr (not_le.1 fun had => hout ⟨le_rfl, hab⟩ ⟨hca, had⟩)

/-- **The test by the ends.** -/
theorem not_endsIn_iff (hab : a ≤ b) : ¬ EndsIn a b c d ↔ Off a b c d ∨ Within c d a b := by
  simp only [EndsIn, Within, Off, Set.mem_Icc, not_or, not_and, not_le]
  constructor
  · intro h
    obtain ⟨hlo, hhi⟩ := h
    rcases lt_or_ge a c with hac | hca
    · rcases lt_or_ge b c with hbc | hcb
      · exact .inl (.inl hbc)
      · exact .inr ⟨hac, hhi hcb⟩
    · exact .inl (.inr (hlo hca))
  · intro h
    rcases h with (hbc | hda) | ⟨hac, hdb⟩
    · exact ⟨fun hca => absurd (hca.trans hab) (not_le.2 hbc), fun hcb => absurd hcb (not_le.2 hbc)⟩
    · exact ⟨fun _ => hda, fun _ => hda.trans_le hab⟩
    · exact ⟨fun hca => absurd hca (not_le.2 hac), fun _ => hdb⟩

/-- an interval that begins where another one does has an end in it -/
theorem endsIn_of_eq (hcd : c ≤ d) (h : a = c) : EndsIn a b c d := .inl ⟨h.ge, h.le.trans hcd⟩

end

/-! ## The length of a family -/

/-- `n` numbers from `a` on and `m` numbers from `b` on -/
def Separate (a n b m : ℕ) : Prop := a + n ≤ b ∨ b + m ≤ a

theorem Separate.disjoint {a n b m : ℕ} (h : Separate a n b m) :
    Disjoint (Finset.Ico a (a + n)) (Finset.Ico b (b + m)) := by
  rw [Finset.disjoint_left]
  intro x hx hx'
  rw [Finset.mem_Ico] at hx hx'
  rcases h with h | h <;> omega

variable {ι : Type*} {lo len : ι → ℕ} {l : List ι}

/-- the numbers in the intervals of `l` -/
def covered (lo len : ι → ℕ) (l : List ι) : Finset ℕ :=
  l.foldr (fun i s => Finset.Ico (lo i) (lo i + len i) ∪ s) ∅

theorem mem_covered {x : ℕ} : x ∈ covered lo len l ↔ ∃ i ∈ l, lo i ≤ x ∧ x < lo i + len i := by
  induction l with
  | nil => simp [covered]
  | cons i l ih =>
    change x ∈ Finset.Ico (lo i) (lo i + len i) ∪ covered lo len l ↔ _
    rw [Finset.mem_union, Finset.mem_Ico, ih]
    simp

theorem card_covered (h : l.Pairwise fun i j => Separate (lo i) (len i) (lo j) (len j)) :
    (covered lo len l).card = (l.map len).sum := by
  induction l with
  | nil => rfl
  | cons i l ih =>
    obtain ⟨hi, hl⟩ := List.pairwise_cons.1 h
    have hdisj : Disjoint (Finset.Ico (lo i) (lo i + len i)) (covered lo len l) := by
      rw [Finset.disjoint_left]
      intro x hx hx'
      obtain ⟨j, hj, hxj⟩ := mem_covered.1 hx'
      exact Finset.disjoint_left.1 (hi j hj).disjoint hx (Finset.mem_Ico.2 hxj)
    change (Finset.Ico (lo i) (lo i + len i) ∪ covered lo len l).card = _
    rw [Finset.card_union_of_disjoint hdisj, ih hl, Nat.card_Ico, Nat.add_sub_cancel_left, List.map_cons, List.sum_cons]

/-- **Packing.** -/
theorem sum_length_le {a b : ℕ} (h : l.Pairwise fun i j => Separate (lo i) (len i) (lo j) (len j))
    (hin : ∀ i ∈ l, a ≤ lo i ∧ lo i + len i ≤ b) : (l.map len).sum ≤ b - a := by
  rw [← card_covered h, ← Nat.card_Ico]
  apply Finset.card_le_card
  intro x hx
  obtain ⟨i, hi, hxi⟩ := mem_covered.1 hx
  have hbounds := hin i hi
  exact Finset.mem_Ico.2 ⟨by omega, by omega⟩

end DecsLabs.Intervals
