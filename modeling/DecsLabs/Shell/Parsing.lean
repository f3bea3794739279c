/-
What the parser of the shell computes, as texts. `cut` says how a stage is cut at its operators, `words` what the tokens
are, `unquote` what the removal of quotes leaves; the functions of `Commands` are shown to compute these in the buffer,
whatever else the buffer holds.

- `splitStage_spec`, `checkIOParser_spec`: the tokens and the files of a stage.
- `Split`, `Lies`: where they are. Tokens stand in the order of their slots, and files behind the tokens.
- `tokenQuotes_spec`, `fileQuotes_spec`: the removal of quotes.
-/
import DecsLabs.Shell.Commands

namespace DecsLabs.Shell

open DecsLabs.CString

variable {m : Mem} {p : ℕ} {s : List Char} {l : List Cell}

/-! ## Cutting a stage at its operators -/

structure Cut where
  command : List Char
  input : Option (List Char)
  output : Option (List Char)
deriving DecidableEq, Repr

/-- the comparison that decides at which operator a stage with both is cut first -/
def OutputFirst (s : List Char) : Prop := 0 < Int32.ofInt (suffixLength '>' s - suffixLength '<' s)

instance (s : List Char) : Decidable (OutputFirst s) := inferInstanceAs (Decidable (_ < _))

/-- the pieces at `d`, and the pieces at `e` of the second one -/
def cutTwice (d e : Char) (s : List Char) : List Char × Option (List Char) × Option (List Char) :=
  let operands := pieces e ((pieces d s)[1]?.getD [])
  ((pieces d s)[0]?.getD [], operands[0]?, operands[1]?)

def cut (s : List Char) : Cut :=
  if '<' ∈ s then
    if '>' ∈ s then
      if OutputFirst s then
        let (command, out, inp) := cutTwice '>' '<' s
        ⟨command, inp, out⟩
      else
        let (command, inp, out) := cutTwice '<' '>' s
        ⟨command, inp, out⟩
    else ⟨(pieces '<' s)[0]?.getD [], (pieces '<' s)[1]?, none⟩
  else if '>' ∈ s then ⟨(pieces '>' s)[0]?.getD [], none, (pieces '>' s)[1]?⟩
  else ⟨s, none, none⟩

def Cut.operands (c : Cut) : List (List Char) := c.input.toList ++ c.output.toList

theorem getD_subset {d : Char} {i : ℕ} : (pieces d s)[i]?.getD [] ⊆ s := by
  cases h : (pieces d s)[i]? with
  | none => exact List.nil_subset s
  | some w => exact piece_subset h

theorem cutTwice_subset (d e : Char) (s : List Char) : (cutTwice d e s).1 ⊆ s ∧
    (∀ o ∈ (cutTwice d e s).2.1, o ⊆ s) ∧ ∀ o ∈ (cutTwice d e s).2.2, o ⊆ s := by
  have hoperand : ∀ i : ℕ, ∀ o ∈ (pieces e ((pieces d s)[1]?.getD []))[i]?, o ⊆ s := by
    intro i o ho
    apply List.Subset.trans (piece_subset ho)
    exact getD_subset
  exact ⟨getD_subset, hoperand 0, hoperand 1⟩

/-- what a stage is cut into consists of its characters -/
theorem cut_subset (s : List Char) : (cut s).command ⊆ s ∧ ∀ o ∈ (cut s).operands, o ⊆ s := by
  have hpiece (d : Char) : ∀ o ∈ (pieces d s)[1]?, o ⊆ s := fun o ho => piece_subset ho
  simp only [Cut.operands, List.mem_append, Option.mem_toList, or_imp, forall_and]
  unfold cut
  split_ifs
  · obtain ⟨hcommand, hout, hin⟩ := cutTwice_subset '>' '<' s
    exact ⟨hcommand, hin, hout⟩
  · exact cutTwice_subset '<' '>' s
  · exact ⟨getD_subset, hpiece '<', by simp⟩
  · exact ⟨getD_subset, by simp, hpiece '>'⟩
  · exact ⟨List.Subset.refl s, by simp, by simp⟩

/-- the places of the command `x` and the operands `os` of the stage `s` at `p` -/
structure Split (p : ℕ) (s : List Char) (x : Option Cell) (os : List Cell) : Prop where
  command : ∀ c, x = some c → Inside c (p, s)
  operands : ∀ o ∈ os, Inside o (p, s)
  behind : ∀ c, x = some c → ∀ o ∈ os, c.1 + c.2.length < o.1

/-- the first two pieces of a text -/
theorem split_two (d : Char) (p : ℕ) (s : List Char) : Split p s (placed d p s)[0]? (placed d p s)[1]?.toList := by
  refine ⟨fun c hc => placed_inside (List.mem_of_getElem? hc), fun o ho => ?_, fun c hc o ho => ?_⟩
  · exact placed_inside (List.mem_of_getElem? (Option.mem_toList.1 ho))
  · obtain ⟨h0, rfl⟩ := List.getElem?_eq_some_iff.1 hc
    obtain ⟨h1, rfl⟩ := List.getElem?_eq_some_iff.1 (Option.mem_toList.1 ho)
    exact List.pairwise_iff_getElem.1 placed_sorted 0 1 h0 h1 Nat.zero_lt_one

theorem Split.mono {x : Option Cell} {os os' : List Cell} (h : Split p s x os)
    (ho : ∀ o ∈ os', ∃ o' ∈ os, Inside o o') : Split p s x os' := by
  refine ⟨h.command, fun o hmem => ?_, fun c hc o hmem => ?_⟩
  · obtain ⟨o', hmem', hin⟩ := ho o hmem
    exact Inside.trans hin (h.operands o' hmem')
  · obtain ⟨o', hmem', hin⟩ := ho o hmem
    exact (h.behind c hc o' hmem').trans_le hin.1

/-- cutting at `d`, and the second piece at `e` -/
theorem strtok_twice (h : Held m.buf ((p, s) :: l)) (d e : Char) : ∃ x y z : Option Cell, ∃ m1 m2 m3 m4 : Mem, ∃ temp,
    strtok m (some p) d = (x.map Prod.fst, m1) ∧ strtok m1 none d = (temp, m2) ∧
    strtok m2 temp e = (y.map Prod.fst, m3) ∧ strtok m3 none e = (z.map Prod.fst, m4) ∧
    (x.map Prod.snd).getD [] = (cutTwice d e s).1 ∧ y.map Prod.snd = (cutTwice d e s).2.1 ∧
    z.map Prod.snd = (cutTwice d e s).2.2 ∧ Split p s x (y.toList ++ z.toList) ∧
    Held m4.buf (x.toList ++ (y.toList ++ z.toList) ++ l) := by
  obtain ⟨x, t, m1, m2, h1, h2, hx, ht, hheld, hend⟩ := strtok_two h d
  have hsplit : Split p s x t.toList := hx ▸ ht ▸ split_two d p s
  have hx' : x.map Prod.snd = (pieces d s)[0]? := by rw [hx, ← placed_snd d p s, List.getElem?_map]
  have ht' : t.map Prod.snd = (pieces d s)[1]? := by rw [ht, ← placed_snd d p s, List.getElem?_map]
  cases t with
  | none =>
    -- there is no second piece, and strtok(NULL, e) continues at an end
    have hend := hend rfl
    refine ⟨x, none, none, m1, m2, _, _, none, h1, h2, strtok_end hend, strtok_end hend, by rw [hx']; rfl, ?_, ?_, ?_, ?_⟩
    · simp [cutTwice, ← ht']
    · simp [cutTwice, ← ht']
    · exact hsplit.mono (by simp)
    · simpa using hheld
  | some c =>
    have hheld' : Held m2.buf ((c.1, c.2) :: (x.toList ++ l)) := hheld.perm (by simp)
    obtain ⟨y, z, m3, m4, h3, h4, hy, hz, hheld2, -⟩ := strtok_two hheld' e
    have hinner : Split c.1 c.2 y z.toList := hy ▸ hz ▸ split_two e c.1 c.2
    refine ⟨x, y, z, m1, m2, m3, m4, _, h1, h2, h3, h4, by rw [hx']; rfl, ?_, ?_, ?_, ?_⟩
    · simp [cutTwice, ← ht', hy, ← placed_snd e c.1 c.2]
    · simp [cutTwice, ← ht', hz, ← placed_snd e c.1 c.2]
    · refine hsplit.mono fun o ho => ⟨c, by simp, ?_⟩
      rcases List.mem_append.1 ho with ho | ho
      · exact hinner.command o (Option.mem_toList.1 ho)
      · exact hinner.operands o ho
    · refine hheld2.perm ?_
      rw [← List.append_assoc]
      exact List.perm_append_comm.append_right l

/-- cutting at one operator -/
theorem strtok_once (h : Held m.buf ((p, s) :: l)) (d : Char) : ∃ x y : Option Cell, ∃ m1 m2 : Mem,
    strtok m (some p) d = (x.map Prod.fst, m1) ∧ strtok m1 none d = (y.map Prod.fst, m2) ∧
    x.map Prod.snd = (pieces d s)[0]? ∧ y.map Prod.snd = (pieces d s)[1]? ∧ Split p s x y.toList ∧
    Held m2.buf (x.toList ++ y.toList ++ l) := by
  obtain ⟨x, y, m1, m2, h1, h2, rfl, rfl, hheld, -⟩ := strtok_two h d
  refine ⟨_, _, m1, m2, h1, h2, ?_, ?_, split_two d p s, hheld⟩ <;> rw [← placed_snd d p s, List.getElem?_map]

/-- **Cutting.** `splitStage` leaves the texts of `cut`, each as a string of its own. -/
theorem splitStage_spec (h : Held m.buf ((p, s) :: l)) : ∃ x i o : Option Cell, ∃ m' : Mem,
    splitStage m p = (x.map Prod.fst, ⟨i.map Prod.fst, o.map Prod.fst⟩, m') ∧
    (x.map Prod.snd).getD [] = (cut s).command ∧ i.map Prod.snd = (cut s).input ∧ o.map Prod.snd = (cut s).output ∧
    Split p s x (i.toList ++ o.toList) ∧ Held m'.buf (x.toList ++ (i.toList ++ o.toList) ++ l) := by
  have hin := strrchr_eq_none_iff (d := '<') h.head
  have hout := strrchr_eq_none_iff (d := '>') h.head
  cases hi : strrchr m.buf p '<' with
  | none =>
    have hi' : '<' ∉ s := hin.1 hi
    cases ho : strrchr m.buf p '>' with
    | none =>
      have ho' : '>' ∉ s := hout.1 ho
      have hwhole : ∀ c, some (p, s) = some c → Inside c (p, s) := by
        rintro c ⟨⟩
        exact ⟨le_rfl, le_rfl⟩
      refine ⟨some (p, s), none, none, m, ?_, ?_, ?_, ?_, ⟨hwhole, by simp, by simp⟩, by simpa using h⟩
      · simp [splitStage, hi, ho]
      all_goals simp [cut, hi', ho']
    | some q =>
      have ho' : '>' ∈ s := by
        by_contra hn
        rw [hout.2 hn] at ho
        cases ho
      obtain ⟨x, y, m1, m2, h1, h2, hx, hy, hsplit, hheld⟩ := strtok_once h '>'
      refine ⟨x, none, y, m2, ?_, ?_, ?_, ?_, by simpa using hsplit, by simpa using hheld⟩
      · simp [splitStage, hi, ho, h1, h2]
      all_goals simp [cut, hi', ho', hx, hy]
  | some q =>
    have hi' : '<' ∈ s := by
      by_contra hn
      rw [hin.2 hn] at hi
      cases hi
    cases ho : strrchr m.buf p '>' with
    | none =>
      have ho' : '>' ∉ s := hout.1 ho
      obtain ⟨x, y, m1, m2, h1, h2, hx, hy, hsplit, hheld⟩ := strtok_once h '<'
      refine ⟨x, y, none, m2, ?_, ?_, ?_, ?_, by simpa using hsplit, by simpa using hheld⟩
      · simp [splitStage, hi, ho, h1, h2]
      all_goals simp [cut, hi', ho', hx, hy]
    | some q' =>
      have ho' : '>' ∈ s := by
        by_contra hn
        rw [hout.2 hn] at ho
        cases ho
      have hdiff : 0 < suffixDifference m.buf q' q ↔ OutputFirst s := by
        rw [suffixDifference, strlen_strrchr h.head hi, strlen_strrchr h.head ho]
        exact Iff.rfl
      by_cases hf : OutputFirst s
      · obtain ⟨x, y, z, m1, m2, m3, m4, temp, h1, h2, h3, h4, hx, hy, hz, hsplit, hheld⟩ := strtok_twice h '>' '<'
        refine ⟨x, z, y, m4, ?_, ?_, ?_, ?_, ?_, ?_⟩
        · simp [splitStage, hi, ho, hdiff.2 hf, h1, h2, h3, h4]
        · simp [cut, hi', ho', hf, hx]
        · simp [cut, hi', ho', hf, hz]
        · simp [cut, hi', ho', hf, hy]
        · exact hsplit.mono fun o ho => ⟨o, (List.perm_append_comm.mem_iff).1 ho, le_rfl, le_rfl⟩
        · refine hheld.perm ?_
          exact (List.perm_append_comm.append_left _).append_right l
      · obtain ⟨x, y, z, m1, m2, m3, m4, temp, h1, h2, h3, h4, hx, hy, hz, hsplit, hheld⟩ := strtok_twice h '<' '>'
        have hf' : ¬ 0 < suffixDifference m.buf q' q := fun hd => hf (hdiff.1 hd)
        refine ⟨x, y, z, m4, ?_, ?_, ?_, ?_, hsplit, hheld⟩
        · simp [splitStage, hi, ho, hf', h1, h2, h3, h4]
        · simp [cut, hi', ho', hf, hx]
        · simp [cut, hi', ho', hf, hy]
        · simp [cut, hi', ho', hf, hz]

/-! ## Tokens -/

/-- the slots point to the strings `toks`, followed by NULL if there is room for it -/
structure Shows (t : Slots ℕ) (toks : List Cell) : Prop where
  ptr : ∀ k x, toks[k]? = some x → t k = some (some x.1)
  null : toks.length < 200 → t toks.length = some none

/-- as `Shows`, before the NULL is written -/
def ShowsFirst (t : Slots ℕ) (toks : List Cell) : Prop := ∀ k x, toks[k]? = some x → t k = some (some x.1)

theorem ShowsFirst.write {t : Slots ℕ} {toks : List Cell} (h : ShowsFirst t toks) (a : Option ℕ) :
    ShowsFirst (t.write toks.length a) toks := by
  intro k x hk
  have hlt : k < toks.length := (List.getElem?_eq_some_iff.1 hk).1
  rw [Slots.write, Function.update_of_ne (by omega)]
  exact h k x hk

theorem ShowsFirst.snoc {t : Slots ℕ} {toks : List Cell} (h : ShowsFirst t toks) (x : Cell) :
    ShowsFirst (t.write toks.length (some x.1)) (toks ++ [x]) := by
  intro k y hk
  rcases Nat.lt_or_ge k toks.length with hlt | hge
  · rw [List.getElem?_append_left hlt] at hk
    exact h.write _ k y hk
  · rw [List.getElem?_append_right hge] at hk
    obtain ⟨hlt, hy⟩ := List.getElem?_eq_some_iff.1 hk
    have hk0 : k = toks.length := by simp at hlt; omega
    subst hk0
    simp only [Nat.sub_self, List.getElem_cons_zero] at hy
    rw [← hy, Slots.write, Function.update_self]

/-- the rounds of the loop after the end of the text -/
theorem removeSpacesLoop_none {t : Slots ℕ} {toks : List Cell} (n : ℕ) (h : ShowsFirst t toks) :
    ∃ t', removeSpacesLoop (n + 1) toks.length none t m = .ok (t', m) ∧ Shows t' toks := by
  by_cases hi : toks.length < 200
  · refine ⟨t.write toks.length none, ?_, h.write none, fun _ => by simp [Slots.write]⟩
    simp [removeSpacesLoop, strsep, hi]
  · exact ⟨t, by simp [removeSpacesLoop, hi], h, fun hlt => absurd hlt hi⟩

/-- **The tokenizer loop.** From the strings `toks` that the slots show, it appends the words of the text at `p`, at
their places, up to 200 in all. -/
theorem removeSpacesLoop_spec {t : Slots ℕ} {toks : List Cell} {n : ℕ} (hn : s.length + 2 ≤ n)
    (h : Held m.buf ((p, s) :: (toks ++ l))) (ht : ShowsFirst t toks) (hlen : toks.length ≤ 200) :
    ∃ new t' m', removeSpacesLoop n toks.length (some p) t m = .ok (t', m') ∧ Shows t' (toks ++ new) ∧
      new = (placed ' ' p s).take (200 - toks.length) ∧ Held m'.buf ((toks ++ new) ++ l) := by
  induction n generalizing m p s t toks with
  | zero => omega
  | succ n ih =>
    by_cases hi : toks.length < 200
    · rcases strsep_cases h ' ' with ⟨hs, hsep⟩ | ⟨w, r, m', rfl, hw, hsep, -, hheld⟩
      · -- the last token
        obtain ⟨n, rfl⟩ : ∃ k, n = k + 1 := ⟨n - 1, by omega⟩
        by_cases hs0 : s = []
        · subst hs0
          obtain ⟨t', hrun, hshow⟩ := removeSpacesLoop_none (m := m) n (ht.write (some p))
          refine ⟨[], t', m, ?_, by simpa using hshow, by simp, ?_⟩
          · rw [removeSpacesLoop, if_pos hi, hsep]
            simpa [h.head.strlen_eq] using hrun
          · simpa using h.sublist (List.sublist_cons_self _ _)
        · obtain ⟨t', hrun, hshow⟩ := removeSpacesLoop_none (m := m) n (ht.snoc (p, s))
          refine ⟨[(p, s)], t', m, ?_, hshow, ?_, ?_⟩
          · rw [removeSpacesLoop, if_pos hi, hsep]
            simpa [h.head.strlen_eq, hs0] using hrun
          · rw [placed_whole hs0 hs, List.take_of_length_le (by simp; omega)]
          · exact h.perm (by simpa using List.perm_middle.symm)
      · have hlenr : r.length + 2 ≤ n := by simp at hn; omega
        by_cases hw0 : w = []
        · -- an empty token, to be overwritten
          subst hw0
          have hheld' : Held m'.buf ((p + 1, r) :: (toks ++ l)) := hheld.sublist (List.sublist_cons_self _ _)
          obtain ⟨new, t', m'', hrun, hshow, hnew, hend⟩ := ih hlenr hheld' (ht.write (some p)) hlen
          refine ⟨new, t', m'', ?_, hshow, by simpa using hnew, hend⟩
          rw [removeSpacesLoop, if_pos hi, hsep]
          simpa [hheld.head.strlen_eq] using hrun
        · have hlen' : (toks ++ [(p, w)]).length ≤ 200 := by simp; omega
          have hheld' : Held m'.buf ((p + w.length + 1, r) :: ((toks ++ [(p, w)]) ++ l)) := by
            refine hheld.perm ((List.Perm.swap _ _ _).trans ?_)
            simpa using List.perm_middle.symm
          obtain ⟨new, t', m'', hrun, hshow, hnew, hend⟩ := ih hlenr hheld' (ht.snoc (p, w)) hlen'
          refine ⟨(p, w) :: new, t', m'', ?_, by simpa using hshow, ?_, by simpa using hend⟩
          · rw [removeSpacesLoop, if_pos hi, hsep]
            simpa [hheld.head.strlen_eq, hw0] using hrun
          · obtain ⟨k, hk⟩ : ∃ k, 200 - toks.length = k + 1 := ⟨200 - toks.length - 1, by omega⟩
            rw [placed_cut hw0 hw, hk, List.take_succ_cons, hnew]
            simp only [List.length_append, List.length_cons, List.length_nil]
            rw [show 200 - (toks.length + (0 + 1)) = k by omega]
    · refine ⟨[], t, m, ?_, ?_, ?_, ?_⟩
      · rw [removeSpacesLoop, if_neg hi]
      · simpa using (⟨ht, fun hlt => absurd hlt hi⟩ : Shows t toks)
      · simp [show 200 - toks.length = 0 by omega]
      · simpa using h.sublist (List.sublist_cons_self _ _)

theorem Slots.write_ne {α : Type} {t : Slots α} {i k : ℕ} {a : Option α} (h : k ≠ i) : t.write i a k = t k :=
  Function.update_of_ne h _ _

/-- the slots after the loop, from `i` on: tokens, NULL, and what was there before -/
theorem removeSpacesLoop_slots {n i : ℕ} {q : Option ℕ} {t t' : Slots ℕ} {m' : Mem}
    (h : removeSpacesLoop n i q t m = .ok (t', m')) : ∃ j, i ≤ j ∧ (j < 200 → t' j = some none) ∧
      (∀ k, i ≤ k → k < j → ∃ a, t' k = some (some a)) ∧ (∀ k, j < k → t' k = t k) ∧ ∀ k, k < i → t' k = t k := by
  induction n generalizing i q t m with
  | zero => cases h
  | succ n ih =>
    by_cases hi : i < 200
    · rw [removeSpacesLoop, if_pos hi] at h
      generalize strsep m q ' ' = res at h
      obtain ⟨tok, q', m1⟩ := res
      cases tok with
      | none =>
        cases h
        refine ⟨i, le_rfl, fun _ => Function.update_self .., by omega, ?_, ?_⟩
        · exact fun k hk => Slots.write_ne (by omega)
        · exact fun k hk => Slots.write_ne (by omega)
      | some a =>
        obtain ⟨j, hij, hnull, htok, hafter, hbefore⟩ := ih h
        split_ifs at hij htok hbefore with hlen
        · refine ⟨j, hij, hnull, htok, fun k hk => ?_, fun k hk => ?_⟩
          · rw [hafter k hk, Slots.write_ne (by omega)]
          · rw [hbefore k hk, Slots.write_ne (by omega)]
        · refine ⟨j, by omega, hnull, fun k hk hkj => ?_, fun k hk => ?_, fun k hk => ?_⟩
          · rcases hk.eq_or_lt with rfl | hk
            · exact ⟨a, (hbefore i (by omega)).trans (Function.update_self ..)⟩
            · exact htok k (by omega) hkj
          · rw [hafter k hk, Slots.write_ne (by omega)]
          · rw [hbefore k (by omega), Slots.write_ne (by omega)]
    · rw [removeSpacesLoop, if_neg hi] at h
      cases h
      exact ⟨i, le_rfl, fun hlt => absurd hlt hi, by omega, fun _ _ => rfl, fun _ _ => rfl⟩

/-- the words of a text that may be NULL, at their places -/
def wordCells (x : Option Cell) : List Cell := x.elim [] fun c => placed ' ' c.1 c.2

theorem wordCells_snd (x : Option Cell) : (wordCells x).map Prod.snd = words ((x.map Prod.snd).getD []) := by
  cases x with
  | none => rfl
  | some c => exact placed_snd ' ' c.1 c.2

/-- **The tokenizer**, on an array that holds anything. -/
theorem removeSpacesAndCreateTokens_cells {x : Option Cell} (h : Held m.buf (x.toList ++ l)) (t : Slots ℕ) :
    ∃ t' m', removeSpacesAndCreateTokens m (x.map Prod.fst) t = .ok (t', m') ∧ Shows t' ((wordCells x).take 200) ∧
      Held m'.buf ((wordCells x).take 200 ++ l) := by
  have h0 : ShowsFirst t [] := fun k x hk => by simp at hk
  cases x with
  | none =>
    obtain ⟨t', hrun, hshow⟩ := removeSpacesLoop_none (m := m) 0 h0
    exact ⟨t', m, hrun, hshow, h⟩
  | some c =>
    have hh : Holds m.buf c := h.head
    have h' : Held m.buf ((c.1, c.2) :: ([] ++ l)) := h
    obtain ⟨new, t', m', hrun, hshow, rfl, hend⟩ := removeSpacesLoop_spec le_rfl h' h0 (by simp)
    refine ⟨t', m', ?_, hshow, hend⟩
    simpa [removeSpacesAndCreateTokens, hh.strlen_eq] using hrun

theorem removeSpacesAndCreateTokens_spec {x : Option Cell} (h : Held m.buf (x.toList ++ l)) :
    ∃ toks t m', removeSpacesAndCreateTokens m (x.map Prod.fst) .empty = .ok (t, m') ∧ Shows t toks ∧
      toks.map Prod.snd = (words ((x.map Prod.snd).getD [])).take 200 ∧ Held m'.buf (toks ++ l) := by
  obtain ⟨t, m', hrun, hshow, hend⟩ := removeSpacesAndCreateTokens_cells h .empty
  refine ⟨_, t, m', hrun, hshow, ?_, hend⟩
  rw [List.map_take, wordCells_snd]

/-! ## Files -/

/-- a blank file name is NULL after `strtok`, and passed to `strcmp` -/
theorem trimFile_blank (h : Held m.buf ((p, s) :: l)) (hs : words s = []) (f : Option ℕ) :
    trimFile m (some p) f = .error .nullArgument := by
  rcases strtok_cases h ' ' with ⟨-, m', hrun, -, -⟩ | ⟨q, w, r, m', tl, -, hp, -, -⟩
  · simp [trimFile, hrun, skipBlankTokens, strcmp, bind, Except.bind]
  · rw [placed_eq_nil_iff.2 hs] at hp
    cases hp

theorem trimFile_word (h : Held m.buf ((p, s) :: l)) {w : List Char} {ws : List (List Char)} (hs : words s = w :: ws)
    (f : Option ℕ) : ∃ q m', trimFile m (some p) f = .ok (some q, m') ∧ Inside (q, w) (p, s) ∧
      Held m'.buf ((q, w) :: l) := by
  rcases strtok_cases h ' ' with ⟨hp, -⟩ | ⟨q, v, r, m', tl, hrun, hp, hheld, -⟩
  · cases hs.symm.trans (placed_eq_nil_iff.1 hp)
  · have hpieces : words s = v :: (placed ' ' m'.saved r).map Prod.snd := by
      rw [words, ← placed_snd ' ' p s, hp, List.map_cons]
    obtain ⟨rfl, -⟩ := List.cons.inj (hs.symm.trans hpieces)
    have hw : w ≠ [' '] := by
      intro hw
      have := (piece_spec (d := ' ') (s := s) (w := w) (by rw [show pieces ' ' s = _ from hs]; simp)).2.1
      simp [hw] at this
    have hheld' : Held m'.buf ((q, w) :: l) := hheld.sublist (by simp)
    refine ⟨q, m', ?_, placed_inside (hp ▸ List.mem_cons_self), hheld'⟩
    simp [trimFile, hrun, skipBlankTokens, strcmp, Arg.text, hheld'.head.str_eq, hw, bind, Except.bind, pure,
      Except.pure]

/-- the first word of a file name that is present -/
def fileName (t : Option (List Char)) : Option (List Char) := t.bind fun s => (words s).head?

theorem trimFile_spec {x : Option Cell} (h : Held m.buf (x.toList ++ l)) (hx : ∀ c, x = some c → words c.2 ≠ []) :
    ∃ (y : Option Cell) (m' : Mem), trimFile m (x.map Prod.fst) none = .ok (y.map Prod.fst, m') ∧
      y.map Prod.snd = fileName (x.map Prod.snd) ∧ (∀ o ∈ y.toList, ∃ o' ∈ x.toList, Inside o o') ∧
      Held m'.buf (y.toList ++ l) := by
  cases x with
  | none => exact ⟨none, m, rfl, rfl, by simp, h⟩
  | some c =>
    obtain ⟨w, ws, hw⟩ := List.exists_cons_of_ne_nil (hx c rfl)
    obtain ⟨q, m', hrun, hin, hheld⟩ := trimFile_word (p := c.1) (s := c.2) h hw none
    exact ⟨some (q, w), m', hrun, by simp [fileName, hw], by simpa using hin, hheld⟩

/-- the strings of a stage: its tokens and its files -/
structure Cells where
  toks : List Cell
  input : Option Cell
  output : Option Cell

def Cells.all (x : Cells) : List Cell := x.toks ++ (x.input.toList ++ x.output.toList)

/-- the slots and the files point to the strings `x` -/
structure Points (t : Slots ℕ) (file : Files ℕ) (x : Cells) : Prop where
  toks : Shows t x.toks
  input : file.input = x.input.map Prod.fst
  output : file.output = x.output.map Prod.fst

/-- the strings `x` are the words and the file names of `c` -/
structure Reads (c : Cut) (x : Cells) : Prop where
  toks : x.toks.map Prod.snd = (words c.command).take 200
  input : x.input.map Prod.snd = fileName c.input
  output : x.output.map Prod.snd = fileName c.output

/-- the places of the strings of the stage `s` at `p` -/
structure Lies (p : ℕ) (s : List Char) (x : Cells) : Prop where
  inside : ∀ c ∈ x.all, Inside c (p, s)
  sorted : x.toks.Pairwise fun a b => a.1 < b.1
  files : ∀ c ∈ x.toks, ∀ o ∈ x.input.toList ++ x.output.toList, c.1 < o.1

theorem lies_of_split {c y z : Option Cell} {os : List Cell} (h : Split p s c os)
    (hy : ∀ o ∈ y.toList ++ z.toList, ∃ o' ∈ os, Inside o o') : Lies p s ⟨(wordCells c).take 200, y, z⟩ := by
  have hfiles := h.mono hy
  have hword : ∀ w ∈ (wordCells c).take 200, ∃ c', c = some c' ∧ Inside w c' := by
    intro w hw
    cases c with
    | none => simp [wordCells] at hw
    | some c => exact ⟨c, rfl, placed_inside (List.mem_of_mem_take hw)⟩
  refine ⟨fun w hw => ?_, ?_, fun w hw o ho => ?_⟩
  · rcases List.mem_append.1 hw with hw | hw
    · obtain ⟨c', hc, hin⟩ := hword w hw
      exact hin.trans (hfiles.command c' hc)
    · exact hfiles.operands w hw
  · refine List.Pairwise.sublist (List.take_sublist _ _) ?_
    cases c with
    | none => exact .nil
    | some c => exact (placed_sorted (d := ' ')).imp fun h => lt_of_le_of_lt (Nat.le_add_right _ _) h
  · obtain ⟨c', hc, hin⟩ := hword w hw
    have := hfiles.behind c' hc o ho
    unfold Inside at hin
    omega

/-- **Parsing a stage**, with the places of its strings. -/
theorem checkIOParser_places (h : Held m.buf ((p, s) :: l)) (hs : ∀ o ∈ (cut s).operands, words o ≠ []) :
    ∃ t file m' x, checkIOParser m (some p) ⟨none, none⟩ .empty = .ok (t, file, m') ∧ Points t file x ∧
      Reads (cut s) x ∧ Lies p s x ∧ Held m'.buf (x.all ++ l) := by
  obtain ⟨c, i, o, m1, hsplit, hc, hi, ho, hplaces, h1⟩ := splitStage_spec h
  rw [List.append_assoc, List.append_assoc] at h1
  obtain ⟨t, m2, htoks, hshow, h2⟩ := removeSpacesAndCreateTokens_cells h1 .empty
  have hwords : ((wordCells c).take 200).map Prod.snd = (words (cut s).command).take 200 := by
    rw [List.map_take, wordCells_snd, hc]
  have hi' : ∀ c, i = some c → words c.2 ≠ [] := by
    rintro c rfl
    exact hs c.2 (by simp [Cut.operands, ← hi])
  have ho' : ∀ c, o = some c → words c.2 ≠ [] := by
    rintro c rfl
    exact hs c.2 (by simp [Cut.operands, ← ho])
  obtain ⟨y, m3, hy, hyt, hyin, h3⟩ := trimFile_spec h2.rotate hi'
  obtain ⟨z, m4, hz, hzt, hzin, h4⟩ := trimFile_spec h3.rotate ho'
  refine ⟨t, ⟨y.map Prod.fst, z.map Prod.fst⟩, m4, ⟨_, y, z⟩, ?_, ⟨hshow, rfl, rfl⟩, ⟨hwords, ?_, ?_⟩, ?_, ?_⟩
  · simp [checkIOParser, hsplit, tokenizeCommandsAndArguments, htoks, fileRemoveSpacesAndCreateTokens, hy, hz, bind,
      Except.bind, pure, Except.pure]
  · rw [hyt, hi]
  · rw [hzt, ho]
  · refine lies_of_split hplaces fun o' ho => ?_
    rcases List.mem_append.1 ho with ho | ho
    · obtain ⟨c', hmem, hin⟩ := hyin o' ho
      exact ⟨c', List.mem_append_left _ hmem, hin⟩
    · obtain ⟨c', hmem, hin⟩ := hzin o' ho
      exact ⟨c', List.mem_append_right _ hmem, hin⟩
  · rw [Cells.all, List.append_assoc, List.append_assoc]
    exact h4.rotate

theorem checkIOParser_spec (h : Held m.buf ((p, s) :: l)) (hs : ∀ o ∈ (cut s).operands, words o ≠ []) :
    ∃ t file m' x, checkIOParser m (some p) ⟨none, none⟩ .empty = .ok (t, file, m') ∧ Points t file x ∧
      Reads (cut s) x ∧ Held m'.buf (x.all ++ l) := by
  obtain ⟨t, file, m', x, hrun, hp, hr, -, hheld⟩ := checkIOParser_places h hs
  exact ⟨t, file, m', x, hrun, hp, hr, hheld⟩

/-- **A blank file name.** -/
theorem checkIOParser_blank (h : Held m.buf ((p, s) :: l)) (hs : ∃ o ∈ (cut s).operands, words o = []) :
    checkIOParser m (some p) ⟨none, none⟩ .empty = .error .nullArgument := by
  obtain ⟨c, i, o, m1, hsplit, hc, hi, ho, -, h1⟩ := splitStage_spec h
  rw [List.append_assoc, List.append_assoc] at h1
  obtain ⟨toks, t, m2, htoks, -, -, h2⟩ := removeSpacesAndCreateTokens_spec h1
  have hfile : fileRemoveSpacesAndCreateTokens m2 (some ⟨i.map Prod.fst, o.map Prod.fst⟩) ⟨none, none⟩ =
      .error .nullArgument := by
    by_cases hblank : ∃ c, i = some c ∧ words c.2 = []
    · obtain ⟨c, rfl, hc⟩ := hblank
      have h2' : Held m2.buf ((some c).toList ++ (o.toList ++ (toks ++ l))) := h2.rotate
      simp [fileRemoveSpacesAndCreateTokens, trimFile_blank h2' hc, bind, Except.bind]
    · -- the input is fine, so it is the output that is blank
      obtain ⟨y, m3, hy, -, -, h3⟩ := trimFile_spec h2.rotate fun c hc hw => hblank ⟨c, hc, hw⟩
      obtain ⟨c, rfl, hc⟩ : ∃ c, o = some c ∧ words c.2 = [] := by
        obtain ⟨w, hw, hw0⟩ := hs
        simp only [Cut.operands, ← hi, ← ho, List.mem_append, Option.mem_toList, Option.map_eq_some_iff] at hw
        rcases hw with ⟨c, hc, rfl⟩ | ⟨c, hc, rfl⟩
        · exact absurd ⟨c, hc, hw0⟩ hblank
        · exact ⟨c, hc, hw0⟩
      have h3' : Held m3.buf ((some c).toList ++ (toks ++ (y.toList ++ l))) := h3.rotate
      simp only [Option.map_some] at hy ⊢
      simp [fileRemoveSpacesAndCreateTokens, hy, trimFile_blank h3' hc, bind, Except.bind]
  simp [checkIOParser, hsplit, tokenizeCommandsAndArguments, htoks, hfile, bind, Except.bind]

/-! ## Quotes -/

/-- the text after an opening quote, up to the next quote after its first character -/
def unquote : List Char → List Char
  | '"' :: c :: t => c :: t.takeWhile (· != '"')
  | s => s

theorem unquote_of_notMem (h : '"' ∉ s) : unquote s = s := by
  unfold unquote
  split
  · simp at h
  · rfl

theorem readChar_append {b u v : List Char} (h : Holds b (p, u ++ v)) : readChar b p u.length = .ok (v.headD nul) := by
  have hle : u.length ≤ (u ++ v).length := by simp
  have hget := h.get hle
  rw [List.append_assoc, List.getElem?_append_right le_rfl, Nat.sub_self] at hget
  rw [readChar, h.strlen_eq, if_pos hle, List.getD_eq_getElem?_getD, hget]
  cases v <;> rfl

/-- the scan stops at the first quote, or at the terminator -/
theorem closingQuote_spec {b u v : List Char} {n : ℕ} (h : Holds b (p, u ++ v)) (hn : v.length < n) :
    closingQuote b p n u.length = .ok (u.length + (v.takeWhile (· != '"')).length) := by
  induction n generalizing u v with
  | zero => omega
  | succ n ih =>
    have hread := readChar_append h
    cases v with
    | nil => simp [closingQuote, hread, nul, bind, Except.bind, pure, Except.pure]
    | cons c v =>
      by_cases hc : c = '"'
      · simp [closingQuote, hread, hc, bind, Except.bind, pure, Except.pure]
      · have hnul : c ≠ nul := by
          rintro rfl
          exact h.clean (by simp)
        have h' : Holds b (p, (u ++ [c]) ++ v) := by simpa using h
        have hrest := ih h' (by simp at hn; omega)
        simp only [List.length_append, List.length_cons, List.length_nil] at hrest
        simp [closingQuote, hread, hc, hnul, bind, Except.bind, hrest]
        omega

/-- the scan of a lone quote starts behind the terminator -/
theorem removeQuotes_lone (h : Holds m.buf (p, ['"'])) : removeQuotes m p = .error .beyondTerminator := by
  have h0 : readChar m.buf p 0 = .ok '"' := readChar_append (u := []) (v := ['"']) h
  have h1 : Holds m.buf (p, ['"'] ++ []) := h
  have hend : strlen m.buf (p + 1) = 0 := h1.suffix.strlen_eq
  have hscan : closingQuote m.buf (p + 1) (strlen m.buf (p + 1) + 1) 1 = .error .beyondTerminator := by
    simp [closingQuote, readChar, hend, bind, Except.bind]
  simp [removeQuotes, h0, hscan, bind, Except.bind]

/-- **One string.** Every other string is unquoted in place. -/
theorem removeQuotes_spec (h : Held m.buf ((p, s) :: l)) (hs : s ≠ ['"']) :
    ∃ q m', removeQuotes m p = .ok (q, m') ∧ Held m'.buf ((q, unquote s) :: l) := by
  have hread : readChar m.buf p 0 = .ok (s.headD nul) := readChar_append (u := []) h.head
  match s, hs with
  | [], _ => exact ⟨p, m, by simp [removeQuotes, hread, nul, bind, Except.bind, pure, Except.pure], by simpa [unquote]⟩
  | c :: t, hs =>
    by_cases hc : c = '"'
    · subst hc
      obtain ⟨x, t, rfl⟩ : ∃ x t', t = x :: t' := List.exists_cons_of_ne_nil fun ht => hs (by rw [ht])
      have h1 : Held m.buf ((p + 1, x :: t) :: l) := h.of_cons_self
      have hscan : closingQuote m.buf (p + 1) (strlen m.buf (p + 1) + 1) 1 =
          .ok (1 + (t.takeWhile (· != '"')).length) :=
        closingQuote_spec (u := [x]) (v := t) h1.head (by rw [h1.head.strlen_eq]; simp)
      by_cases hq : '"' ∈ t
      · -- the closing quote is overwritten
        obtain ⟨w, r, rfl, hw⟩ := List.eq_append_cons_of_mem hq
        rw [takeWhile_cut hw] at hscan
        have hclose : readChar m.buf (p + 1) (1 + w.length) = .ok '"' := by
          have h2 : Holds m.buf (p + 1, (x :: w) ++ '"' :: r) := h1.head
          have := readChar_append h2
          rwa [List.length_cons, Nat.add_comm w.length 1] at this
        have h2 : Held m.buf ((p + 1, (x :: w) ++ '"' :: r) :: l) := h1
        refine ⟨p + 1, { m with buf := m.buf.set (p + 1 + (x :: w).length) nul }, ?_, ?_⟩
        · simp [removeQuotes, hread, hscan, hclose, bind, Except.bind, pure, Except.pure, Nat.add_comm w.length 1]
        · rw [unquote, takeWhile_cut hw]
          exact h2.cut.sublist (by simp)
      · rw [takeWhile_whole hq] at hscan
        have hend : readChar m.buf (p + 1) (1 + t.length) = .ok nul := by
          have h2 : Holds m.buf (p + 1, (x :: t) ++ []) := by simpa using h1.head
          have := readChar_append h2
          rwa [List.length_cons, Nat.add_comm t.length 1] at this
        refine ⟨p + 1, m, ?_, ?_⟩
        · simp [removeQuotes, hread, hscan, hend, nul, bind, Except.bind, pure, Except.pure]
        · rw [unquote, takeWhile_whole hq]
          exact h1
    · refine ⟨p, m, by simp [removeQuotes, hread, hc, bind, Except.bind, pure, Except.pure], ?_⟩
      have : unquote (c :: t) = c :: t := by
        rw [unquote]
        intro x t' ht
        cases ht
        exact hc rfl
      rwa [this]

theorem Shows.update {t : Slots ℕ} {done todo : List Cell} {x : Cell} (h : Shows t (done ++ x :: todo)) (y : Cell) :
    Shows (t.write done.length (some y.1)) (done ++ y :: todo) := by
  constructor
  · intro k z hk
    by_cases hkd : k = done.length
    · subst hkd
      rw [List.getElem?_append_right le_rfl, Nat.sub_self] at hk
      obtain rfl : y = z := Option.some.inj hk
      simp [Slots.write]
    · rw [Slots.write, Function.update_of_ne hkd]
      apply h.ptr
      rcases Nat.lt_or_gt_of_ne hkd with hlt | hgt
      · rwa [List.getElem?_append_left hlt] at hk ⊢
      · rw [List.getElem?_append_right hgt.le] at hk ⊢
        obtain ⟨j, hj⟩ : ∃ j, k - done.length = j + 1 := ⟨k - done.length - 1, by omega⟩
        rwa [hj, List.getElem?_cons_succ] at hk ⊢
  · intro hlt
    have hlen : (done ++ y :: todo).length = (done ++ x :: todo).length := by simp
    rw [hlen] at hlt ⊢
    rw [Slots.write, Function.update_of_ne (by simp)]
    exact h.null hlt

theorem Shows.read {t : Slots ℕ} {done todo : List Cell} {x : Cell} (h : Shows t (done ++ x :: todo)) :
    t.read done.length = .ok (some x.1) := by
  have := h.ptr done.length x (by rw [List.getElem?_append_right le_rfl, Nat.sub_self]; rfl)
  rw [Slots.read, this]

/-- one round of the loop -/
theorem removeTokenQuotes_step {t : Slots ℕ} {done todo : List Cell} {x : Cell} (n : ℕ)
    (h : Held m.buf ((done ++ x :: todo) ++ l)) (ht : Shows t (done ++ x :: todo)) (hx : x.2 ≠ ['"']) :
    ∃ q t' m', removeTokenQuotes (n + 1) done.length t m = removeTokenQuotes n (done.length + 1) t' m' ∧
      Shows t' (done ++ (q, unquote x.2) :: todo) ∧ Held m'.buf ((done ++ (q, unquote x.2) :: todo) ++ l) := by
  rw [List.append_assoc, List.cons_append] at h
  have h' : Held m.buf (x :: (done ++ (todo ++ l))) := h.perm List.perm_middle
  obtain ⟨q, m', hrun, hheld⟩ := removeQuotes_spec h' hx
  refine ⟨q, t.write done.length (some q), m', ?_, ht.update (q, unquote x.2), ?_⟩
  · simp [removeTokenQuotes, ht.read, hrun, bind, Except.bind]
  · rw [List.append_assoc, List.cons_append]
    exact hheld.perm List.perm_middle.symm

/-- **The loop on the tokens.** -/
theorem removeTokenQuotes_spec {t : Slots ℕ} {done todo : List Cell} {n : ℕ} (hn : n + done.length = 200)
    (hlen : todo.length ≤ n) (h : Held m.buf ((done ++ todo) ++ l)) (ht : Shows t (done ++ todo))
    (hx : ∀ x ∈ todo, x.2 ≠ ['"']) :
    ∃ new t' m', removeTokenQuotes n done.length t m = .ok (t', m') ∧ Shows t' (done ++ new) ∧
      new.map Prod.snd = todo.map (fun x => unquote x.2) ∧ Held m'.buf ((done ++ new) ++ l) := by
  induction todo generalizing m t done n with
  | nil =>
    refine ⟨[], t, m, ?_, ht, rfl, h⟩
    cases n with
    | zero => rfl
    | succ n =>
      have hnull := ht.null (by simp; omega)
      simp only [List.append_nil] at hnull
      simp [removeTokenQuotes, Slots.read, hnull, bind, Except.bind, pure, Except.pure]
  | cons x todo ih =>
    obtain ⟨n, rfl⟩ : ∃ k, n = k + 1 := ⟨n - 1, by simp at hlen; omega⟩
    obtain ⟨q, t', m', hrun, ht', h'⟩ := removeTokenQuotes_step n h ht (hx x (by simp))
    rw [List.append_cons] at ht' h'
    obtain ⟨new, t'', m'', hrun', ht'', hnew, h''⟩ := ih (n := n) (by simp; omega) (by simpa using hlen) h' ht'
      fun y hy => hx y (by simp [hy])
    refine ⟨(q, unquote x.2) :: new, t'', m'', ?_, by simpa using ht'', by simp [hnew], by simpa using h''⟩
    simpa [hrun] using hrun'

theorem removeTokenQuotes_lone {t : Slots ℕ} {done todo : List Cell} {n : ℕ} (hlen : todo.length ≤ n)
    (h : Held m.buf ((done ++ todo) ++ l)) (ht : Shows t (done ++ todo)) (hx : ∃ x ∈ todo, x.2 = ['"']) :
    removeTokenQuotes n done.length t m = .error .beyondTerminator := by
  induction todo generalizing m t done n with
  | nil => simp at hx
  | cons x todo ih =>
    obtain ⟨n, rfl⟩ : ∃ k, n = k + 1 := ⟨n - 1, by simp at hlen; omega⟩
    by_cases hlone : x.2 = ['"']
    · have hx' : Holds m.buf (x.1, ['"']) := hlone ▸ h.holds x (by simp)
      simp [removeTokenQuotes, ht.read, removeQuotes_lone hx', bind, Except.bind]
    · obtain ⟨q, t', m', hrun, ht', h'⟩ := removeTokenQuotes_step n h ht hlone
      rw [List.append_cons] at ht' h'
      have hx' : ∃ y ∈ todo, y.2 = ['"'] := by
        obtain ⟨y, hy, hy2⟩ := hx
        rcases List.mem_cons.1 hy with rfl | hy
        · exact absurd hy2 hlone
        · exact ⟨y, hy, hy2⟩
      have := ih (n := n) (by simpa using hlen) h' ht' hx'
      rw [hrun]
      simpa using this

theorem tokenQuotes_spec {t : Slots ℕ} {toks : List Cell} (hlen : toks.length ≤ 200) (h : Held m.buf (toks ++ l))
    (ht : Shows t toks) (hx : ∀ x ∈ toks, x.2 ≠ ['"']) :
    ∃ new t' m', doubleQuotesRemovalFromTokens m t = .ok (t', m') ∧ Shows t' new ∧
      new.map Prod.snd = toks.map (fun x => unquote x.2) ∧ Held m'.buf (new ++ l) := by
  have h' : Held m.buf (([] ++ toks) ++ l) := h
  exact removeTokenQuotes_spec rfl hlen h' ht hx

theorem tokenQuotes_lone {t : Slots ℕ} {toks : List Cell} (hlen : toks.length ≤ 200) (h : Held m.buf (toks ++ l))
    (ht : Shows t toks) (hx : ∃ x ∈ toks, x.2 = ['"']) :
    doubleQuotesRemovalFromTokens m t = .error .beyondTerminator := by
  have h' : Held m.buf (([] ++ toks) ++ l) := h
  exact removeTokenQuotes_lone hlen h' ht hx

/-- one file -/
theorem removeFileQuotes_spec {x : Option Cell} (h : Held m.buf (x.toList ++ l)) (hx : ∀ c, x = some c → c.2 ≠ ['"']) :
    ∃ (y : Option Cell) (m' : Mem), removeFileQuotes m (x.map Prod.fst) = .ok (y.map Prod.fst, m') ∧
      y.map Prod.snd = (x.map Prod.snd).map unquote ∧ Held m'.buf (y.toList ++ l) := by
  cases x with
  | none => exact ⟨none, m, rfl, rfl, h⟩
  | some c =>
    obtain ⟨q, m', hrun, hheld⟩ := removeQuotes_spec (p := c.1) (s := c.2) h (hx c rfl)
    refine ⟨some (q, unquote c.2), m', ?_, rfl, hheld⟩
    simp [removeFileQuotes, hrun, bind, Except.bind, pure, Except.pure]

theorem removeFileQuotes_lone {c : Cell} (h : Held m.buf (c :: l)) (hc : c.2 = ['"']) :
    removeFileQuotes m (some c.1) = .error .beyondTerminator := by
  have hx : Holds m.buf (c.1, ['"']) := hc ▸ h.head
  simp [removeFileQuotes, removeQuotes_lone hx, bind, Except.bind]

/-- **The removal of quotes.** The tokens and the files of a stage are unquoted; nothing else is touched. -/
theorem quotes_spec {t : Slots ℕ} {file : Files ℕ} {x : Cells} (hlen : x.toks.length ≤ 200)
    (h : Held m.buf (x.all ++ l)) (hp : Points t file x) (hx : ∀ c ∈ x.all, c.2 ≠ ['"']) :
    ∃ t' file' m1 m2 x', doubleQuotesRemovalFromTokens m t = .ok (t', m1) ∧
      fileDoubleQuotesRemovalFromTokens m1 file = .ok (file', m2) ∧ Points t' file' x' ∧
      x'.toks.map Prod.snd = (x.toks.map Prod.snd).map unquote ∧
      x'.input.map Prod.snd = (x.input.map Prod.snd).map unquote ∧
      x'.output.map Prod.snd = (x.output.map Prod.snd).map unquote ∧ Held m2.buf (x'.all ++ l) := by
  obtain ⟨toks, i, o⟩ := x
  simp only [Cells.all, List.mem_append, Option.mem_toList] at hx h
  rw [List.append_assoc] at h
  obtain ⟨new, t', m1, h1, ht', hnew, hheld1⟩ := tokenQuotes_spec hlen h hp.toks fun c hc => hx c (.inl hc)
  rw [List.append_assoc] at hheld1
  obtain ⟨y, m2, h2, hy, hheld2⟩ := removeFileQuotes_spec hheld1.rotate fun c hc => hx c (.inr (.inl hc))
  obtain ⟨z, m3, h3, hz, hheld3⟩ := removeFileQuotes_spec hheld2.rotate fun c hc => hx c (.inr (.inr hc))
  refine ⟨t', ⟨y.map Prod.fst, z.map Prod.fst⟩, m1, m3, ⟨new, y, z⟩, h1, ?_, ⟨ht', rfl, rfl⟩, ?_, hy, hz, ?_⟩
  · have hi : file.input = i.map Prod.fst := hp.input
    have ho : file.output = o.map Prod.fst := hp.output
    simp [fileDoubleQuotesRemovalFromTokens, hi, ho, h2, h3, bind, Except.bind, pure, Except.pure]
  · rw [hnew, List.map_map]
    rfl
  · rw [Cells.all, List.append_assoc, List.append_assoc]
    exact hheld3.rotate

/-- **A lone quote.** The removal of quotes reads behind its terminator, in one of its two calls. -/
theorem quotes_lone {t : Slots ℕ} {file : Files ℕ} {x : Cells} (hlen : x.toks.length ≤ 200)
    (h : Held m.buf (x.all ++ l)) (hp : Points t file x) (hx : ∃ c ∈ x.all, c.2 = ['"']) :
    doubleQuotesRemovalFromTokens m t = .error .beyondTerminator ∨
      ∃ t' m1, doubleQuotesRemovalFromTokens m t = .ok (t', m1) ∧
        fileDoubleQuotesRemovalFromTokens m1 file = .error .beyondTerminator := by
  obtain ⟨toks, i, o⟩ := x
  simp only [Cells.all, List.mem_append, Option.mem_toList] at hx h
  rw [List.append_assoc] at h
  have hi : file.input = i.map Prod.fst := hp.input
  have ho : file.output = o.map Prod.fst := hp.output
  by_cases htok : ∃ c ∈ toks, c.2 = ['"']
  · exact .inl (tokenQuotes_lone hlen h hp.toks htok)
  · obtain ⟨new, t', m1, h1, -, -, hheld1⟩ := tokenQuotes_spec hlen h hp.toks fun c hc hq => htok ⟨c, hc, hq⟩
    refine .inr ⟨t', m1, h1, ?_⟩
    rw [List.append_assoc] at hheld1
    have hheld1' : Held m1.buf (i.toList ++ (o.toList ++ (new ++ l))) := hheld1.rotate
    by_cases hin : ∃ c, i = some c ∧ c.2 = ['"']
    · obtain ⟨c, rfl, hc⟩ := hin
      simp [fileDoubleQuotesRemovalFromTokens, hi, removeFileQuotes_lone hheld1' hc, bind, Except.bind]
    · obtain ⟨y, m2, h2, -, hheld2⟩ := removeFileQuotes_spec hheld1' fun c hc hq => hin ⟨c, hc, hq⟩
      obtain ⟨c, rfl, hc⟩ : ∃ c, o = some c ∧ c.2 = ['"'] := by
        obtain ⟨c, hc | hc | hc, hq⟩ := hx
        · exact absurd ⟨c, hc, hq⟩ htok
        · exact absurd ⟨c, hc, hq⟩ hin
        · exact ⟨c, hc, hq⟩
      have hheld2' : Held m2.buf ((some c).toList ++ (new ++ (y.toList ++ l))) := hheld2.rotate
      simp [fileDoubleQuotesRemovalFromTokens, hi, ho, h2, removeFileQuotes_lone hheld2' hc, bind, Except.bind]

/-- the first slot after parsing -/
theorem Shows.read_zero {t : Slots ℕ} {toks : List Cell} (h : Shows t toks) :
    t.read 0 = .ok (toks.head?.map Prod.fst) := by
  cases toks with
  | nil =>
    have hnull : t 0 = some none := h.null (by simp)
    simp [Slots.read, hnull]
  | cons x toks =>
    have h' : Shows t ([] ++ x :: toks) := h
    exact h'.read

theorem Shows.read_one {t : Slots ℕ} {toks : List Cell} {x : Cell} (h : Shows t (x :: toks)) :
    t.read 1 = .ok (toks.head?.map Prod.fst) := by
  cases toks with
  | nil =>
    have := h.null (by simp)
    simp only [List.length_cons, List.length_nil] at this
    simp [Slots.read, this]
  | cons y toks =>
    have h' : Shows t ([x] ++ y :: toks) := h
    exact h'.read

end DecsLabs.Shell
