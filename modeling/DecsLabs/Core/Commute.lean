/-
Lists of actions of which some commute: two orders of the same actions, in which those that do not commute come in the
same order, lead to the same state. Nothing here is about a particular program.

- `Precedes l a b`: `a` stands before `b` in the list `l`.
- `Respects R l`: the elements of `l` that `R` relates stand in this order.
- `foldl_eq_of_respects`: lists with the same elements that respect `R` fold to the same state, if elements that `R`
  does not relate commute.
-/
import Mathlib.Tactic

namespace DecsLabs.Commute

variable {α σ : Type*}

/-! ## Order in a list -/

def Precedes (l : List α) (a b : α) : Prop := [a, b].Sublist l

theorem Precedes.append {l : List α} {a b : α} (h : Precedes l a b) (l' : List α) : Precedes (l ++ l') a b :=
  h.trans (List.sublist_append_left l l')

theorem precedes_append {l : List α} {a : α} (h : a ∈ l) (b : α) : Precedes (l ++ [b]) a b :=
  (List.singleton_sublist.2 h).append (List.Sublist.refl [b])

theorem Precedes.cons_of_ne {l : List α} {a b c : α} (h : Precedes (c :: l) a b) (hac : a ≠ c) : Precedes l a b := by
  cases h with
  | cons _ h => exact h
  | cons_cons _ h => exact absurd rfl hac

theorem Precedes.mem_right {l : List α} {a b : α} (h : Precedes l a b) : b ∈ l := h.subset (by simp)

/-- an element does not stand before itself, nor before one that stands before it -/
theorem Precedes.asymm {l : List α} (hn : l.Nodup) {a b : α} (h : Precedes l a b) : ¬ Precedes l b a := by
  induction l with
  | nil => cases h
  | cons c l ih =>
    intro h'
    obtain ⟨hc, hl⟩ := List.nodup_cons.1 hn
    by_cases hac : a = c
    · subst hac
      by_cases hba : b = a
      · subst hba
        cases h with
        | cons _ h => exact hc (h.subset (by simp))
        | cons_cons _ h => exact hc (h.subset (by simp))
      · exact hc (h'.cons_of_ne hba).mem_right
    · by_cases hbc : b = c
      · subst hbc
        exact hc (h.cons_of_ne hac).mem_right
      · exact ih hl (h.cons_of_ne hac) (h'.cons_of_ne hbc)

/-- taking out another element keeps the order -/
theorem Precedes.remove {p q : List α} {a b c : α} (h : Precedes (p ++ c :: q) a b) (ha : a ≠ c) (hb : b ≠ c)
    (hc : c ∉ p) : Precedes (p ++ q) a b := by
  classical
  have herase := List.Sublist.erase c h
  rw [List.erase_of_not_mem (by simp [Ne.symm ha, Ne.symm hb]), List.erase_append_right _ hc, List.erase_cons_head]
    at herase
  exact herase

def Respects (R : α → α → Prop) (l : List α) : Prop := ∀ a ∈ l, ∀ b ∈ l, R a b → Precedes l a b

/-! ## The state behind a list of actions -/

/-- an action that commutes with those before it may come first -/
theorem foldl_move_front (f : σ → α → σ) {p : List α} {a : α} (hcomm : ∀ b ∈ p, ∀ s, f (f s b) a = f (f s a) b)
    (q : List α) (s : σ) : (p ++ a :: q).foldl f s = (a :: (p ++ q)).foldl f s := by
  induction p generalizing s with
  | nil => rfl
  | cons b p ih =>
    calc (b :: p ++ a :: q).foldl f s = (p ++ a :: q).foldl f (f s b) := rfl
      _ = (a :: (p ++ q)).foldl f (f s b) := ih (fun c hc => hcomm c (List.mem_cons_of_mem _ hc)) _
      _ = (p ++ q).foldl f (f (f s a) b) := by rw [List.foldl_cons, hcomm b (List.mem_cons_self ..)]

/-- **Same order, same state.** -/
theorem foldl_eq_of_respects {f : σ → α → σ} {R : α → α → Prop} {l l' : List α} (hp : l.Perm l') (hn : l.Nodup)
    (hcomm : ∀ a ∈ l, ∀ b ∈ l, a ≠ b → ¬ R a b → ¬ R b a → ∀ s, f (f s a) b = f (f s b) a)
    (hl : Respects R l) (hl' : Respects R l') (s : σ) : l.foldl f s = l'.foldl f s := by
  induction l' generalizing l s with
  | nil => rw [hp.eq_nil]
  | cons a m ih =>
    have ha : a ∈ l := hp.mem_iff.2 (List.mem_cons_self ..)
    obtain ⟨p, q, rfl⟩ := List.append_of_mem ha
    have hm : (a :: m).Nodup := hp.nodup_iff.1 hn
    obtain ⟨-, -, hdis⟩ := List.nodup_append.1 hn
    have hap : a ∉ p := fun h => hdis a h a (List.mem_cons_self ..) rfl
    -- nothing before `a` has to come before it, as `a` is first in the other list
    have hfront : ∀ b ∈ p, ∀ s, f (f s b) a = f (f s a) b := by
      intro b hb
      have hba : b ≠ a := fun e => hap (e ▸ hb)
      have hbl : b ∈ p ++ a :: q := List.mem_append_left _ hb
      have hbefore : Precedes (p ++ a :: q) b a :=
        (List.singleton_sublist.2 hb).append (List.singleton_sublist.2 (List.mem_cons_self ..))
      refine hcomm b hbl a ha hba (fun hR => ?_) fun hR => hbefore.asymm hn (hl a ha b hbl hR)
      have hlate := hl' b (hp.mem_iff.1 hbl) a (List.mem_cons_self ..) hR
      exact (List.nodup_cons.1 hm).1 (hlate.cons_of_ne hba).mem_right
    have hp' : (p ++ q).Perm m := List.Perm.cons_inv (List.perm_middle.symm.trans hp)
    have hsub : ∀ {b}, b ∈ p ++ q → b ∈ p ++ a :: q ∧ b ≠ a := by
      intro b hb
      refine ⟨(List.perm_middle.mem_iff).2 (List.mem_cons_of_mem _ hb), ?_⟩
      rintro rfl
      exact (List.nodup_cons.1 hm).1 (hp'.mem_iff.1 hb)
    rw [foldl_move_front f hfront, List.foldl_cons, List.foldl_cons]
    apply ih hp' (hp'.nodup_iff.2 (List.nodup_cons.1 hm).2)
    · intro b hb c hc
      exact hcomm b (hsub hb).1 c (hsub hc).1
    · intro b hb c hc hR
      exact (hl b (hsub hb).1 c (hsub hc).1 hR).remove (hsub hb).2 (hsub hc).2 hap
    · intro b hb c hc hR
      have hb' := hp'.mem_iff.2 hb
      exact (hl' b (List.mem_cons_of_mem _ hb) c (List.mem_cons_of_mem _ hc) hR).cons_of_ne (hsub hb').2

end DecsLabs.Commute
