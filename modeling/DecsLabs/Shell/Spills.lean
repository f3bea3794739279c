/-
What the removal of quotes leaves of the strings in a buffer, when a scan goes on behind a lone quote. A string that is
not a lone quote is opened in its own place. A lone quote becomes empty, and the scan behind it may cut another string,
further on in the buffer, at its first quote.

- `opened`: what is left of a string.
- `Spilt`, `removeQuotesOn_spec`: one string, and the others.
- `Unquoted`, `tokenLoop_spec`: the tokens. Up to the first lone quote each is opened.
- `stageQuotes_spec`: the tokens and the files of a stage.
-/
import DecsLabs.Shell.Removal
import DecsLabs.Shell.Stages

namespace DecsLabs.Shell

open DecsLabs.CString

variable {m m' : Mem} {b : List Char} {p q r i : ℕ} {s : List Char} {l l' : List Cell} {c d : Cell}

/-! ## Cropped strings -/

/-- the string up to its first quote -/
def crop (c : Cell) : Cell := (c.1, c.2.takeWhile (· != '"'))

/-- the string after the character at `r` has become a terminator -/
def hit (r : ℕ) (c : Cell) : Cell := if c.1 ≤ r ∧ r ≤ c.1 + c.2.length then crop c else c

theorem hit_fst : (hit r c).1 = c.1 := by
  unfold hit
  split_ifs <;> rfl

theorem hit_length : (hit r c).2.length ≤ c.2.length := by
  unfold hit
  split_ifs
  · exact (List.takeWhile_prefix _).length_le
  · exact le_rfl

theorem stopFrom_before {k : ℕ} (h1 : i ≤ k) (h2 : k < stopFrom b i) : b[k]? ≠ some '"' := by
  obtain ⟨j, rfl⟩ := Nat.exists_eq_add_of_le h1
  have hj : j < ((str b i).takeWhile (· != '"')).length := by
    unfold stopFrom at h2
    omega
  obtain ⟨t, ht⟩ : (str b i).takeWhile (· != '"') <+: b.drop i :=
    (List.takeWhile_prefix _).trans (List.takeWhile_prefix _)
  have hget : b[i + j]? = some ((str b i).takeWhile (· != '"'))[j] := by
    rw [← List.getElem?_drop, ← ht, List.getElem?_append_left hj, List.getElem?_eq_getElem hj]
  have hne := List.mem_takeWhile_imp (List.getElem_mem hj)
  rw [hget]
  intro hq
  rw [Option.some.inj hq] at hne
  cases hne

/-- the scan from `i` has found the quote at `r`, and `c` lies before `i` or behind it -/
theorem holds_hit (hr : stopFrom b i = r) (hq : b[r]? = some '"') (hc : Holds b c)
    (hi : i ≤ c.1 ∨ c.1 + c.2.length < i) : Holds (b.set r nul) (hit r c) := by
  have hle : i ≤ r := hr ▸ Nat.le_add_right _ _
  unfold hit
  split_ifs with hin
  · obtain ⟨h1, h2⟩ := hin
    obtain ⟨j, rfl⟩ := Nat.exists_eq_add_of_le h1
    have hget := hc.get (i := j) (by omega)
    have hj : j < c.2.length := by
      rcases Nat.lt_or_ge j c.2.length with hj | hj
      · exact hj
      · obtain rfl : j = c.2.length := by omega
        rw [hq, List.getElem?_append_right le_rfl, Nat.sub_self] at hget
        exact absurd (Option.some.inj hget) (by decide)
    have hmem : '"' ∈ c.2 := by
      rw [hq, List.getElem?_append_left hj] at hget
      exact List.mem_of_getElem? hget.symm
    obtain ⟨y, z, hyz, hy⟩ := List.eq_append_cons_of_mem hmem
    obtain ⟨p, t⟩ := c
    obtain rfl : t = y ++ '"' :: z := hyz
    have hstart : i ≤ p := by
      simp only at hi h2
      omega
    -- the first quote of the string is the one that was found
    have hfirst : b[p + y.length]? = some '"' := by
      have hat := hc.get (i := y.length) (by simp)
      rw [hat]
      simp
    have hjy : j = y.length := by
      rcases Nat.lt_trichotomy j y.length with hlt | heq | hgt
      · have hat := hc.get (i := j) (by omega)
        rw [hq, List.append_assoc, List.getElem?_append_left hlt] at hat
        exact absurd (List.mem_of_getElem? hat.symm) hy
      · exact heq
      · have hlt : p + y.length < stopFrom b i := by
          simp only at hr
          omega
        exact absurd hfirst (stopFrom_before (hstart.trans (Nat.le_add_right _ _)) hlt)
    subst hjy
    rw [crop, takeWhile_cut hy]
    exact hc.cut.1
  · refine hc.of_same fun k h1 h2 => List.getElem?_set_ne ?_
    rintro rfl
    exact hin ⟨h1, h2⟩

theorem held_hit (hr : stopFrom b i = r) (hq : b[r]? = some '"') (h : Held b l)
    (hi : ∀ c ∈ l, i ≤ c.1 ∨ c.1 + c.2.length < i) : Held (b.set r nul) (l.map (hit r)) := by
  refine ⟨fun x hx => ?_, List.pairwise_map.2 (h.apart.imp fun hap => ?_)⟩
  · obtain ⟨c, hc, rfl⟩ := List.mem_map.1 hx
    exact holds_hit hr hq (h.holds c hc) (hi c hc)
  · have h1 : ∀ c : Cell, (hit r c).2.length ≤ c.2.length := fun _ => hit_length
    unfold Apart at *
    rw [hit_fst, hit_fst]
    exact hap.imp (fun hlt => (Nat.add_le_add_left (h1 _) _).trans_lt hlt) fun hlt =>
      (Nat.add_le_add_left (h1 _) _).trans_lt hlt

/-! ## One string -/

/-- what is left of a string: a lone quote becomes empty -/
def opened (s : List Char) : List Char := if s = ['"'] then [] else unquote s

theorem opened_lone : opened ['"'] = [] := if_pos rfl

theorem opened_of_ne (h : s ≠ ['"']) : opened s = unquote s := if_neg h

/-- another string `c`, after the quotes of the strings `xs` were removed -/
def Spilt (xs : List Cell) (c d : Cell) : Prop := d = c ∨ (∃ x ∈ xs, x.2 = ['"'] ∧ x.1 < c.1) ∧ d = crop c

theorem spilt_refl (xs l : List Cell) : List.Forall₂ (Spilt xs) l l := List.forall₂_same.2 fun _ _ => .inl rfl

theorem getD_of_get {x : Char} (h : b[p]? = some x) : b.getD p nul = x := by
  rw [List.getD_eq_getElem?_getD, h]
  rfl

theorem removeQuotesOn_plain (h : Holds m.buf (p, s)) (hs : s.head? ≠ some '"') : removeQuotesOn m p = .ok (p, m) := by
  refine if_neg ?_
  have hget : m.buf[p]? = (s ++ [nul])[0]? := h.get (Nat.zero_le _)
  cases s with
  | nil =>
    rw [getD_of_get hget]
    decide
  | cons c s =>
    rw [getD_of_get hget]
    simpa using hs

theorem removeQuotesOn_quote (h : Holds m.buf (p, '"' :: s)) : removeQuotesOn m p = .ok (p + 1,
    if m.buf.getD (stopFrom m.buf (p + 2)) nul = '"' then { m with buf := m.buf.set (stopFrom m.buf (p + 2)) nul }
    else m) := by
  refine if_pos ?_
  have hget : m.buf[p]? = some '"' := h.get (Nat.zero_le _)
  exact getD_of_get hget

/-- a string that is not a lone quote is opened in its own place -/
theorem removeQuotesOn_own (h : Held m.buf ((p, s) :: l)) (hs : s ≠ ['"']) :
    ∃ q m', removeQuotesOn m p = .ok (q, m') ∧ p ≤ q ∧ q ≤ p + 1 ∧ Held m'.buf ((q, unquote s) :: l) := by
  by_cases hq : s.head? = some '"'
  · obtain ⟨a, t, rfl⟩ : ∃ a t, s = '"' :: a :: t := by
      cases s with
      | nil => cases hq
      | cons c s =>
        obtain rfl : c = '"' := Option.some.inj hq
        obtain ⟨a, t, rfl⟩ := List.exists_cons_of_ne_nil fun hnil => hs (congrArg _ hnil)
        exact ⟨a, t, rfl⟩
    have hheld : Held m.buf ((p + 1, a :: t) :: l) := h.of_cons_self
    have htail : str m.buf (p + 2) = t := (hheld.of_cons_self).head.str_eq
    refine ⟨p + 1, _, removeQuotesOn_quote h.head, Nat.le_succ p, le_rfl, ?_⟩
    have hrest : Holds m.buf (p + 2, t) := (hheld.of_cons_self).head
    by_cases hmem : '"' ∈ t
    · obtain ⟨y, z, rfl, hy⟩ := List.eq_append_cons_of_mem hmem
      have hstop : stopFrom m.buf (p + 2) = p + 2 + y.length := by rw [stopFrom, htail, takeWhile_cut hy]
      have hat : m.buf[p + 2 + y.length]? = some '"' := by
        rw [hrest.get (i := y.length) (by simp)]
        simp
      rw [hstop, if_pos (getD_of_get hat)]
      have hcut : Held m.buf ((p + 1, (a :: y) ++ '"' :: z) :: l) := hheld
      have hparts := hcut.cut
      rw [List.length_cons, show p + 1 + (y.length + 1) = p + 2 + y.length by omega] at hparts
      have hun : unquote ('"' :: a :: (y ++ '"' :: z)) = a :: y := by rw [unquote, takeWhile_cut hy]
      rw [hun]
      exact hparts.sublist (List.Sublist.cons_cons _ (List.sublist_cons_self _ _))
    · have hstop : stopFrom m.buf (p + 2) = p + 2 + t.length := by rw [stopFrom, htail, takeWhile_whole hmem]
      have hat : m.buf[p + 2 + t.length]? = some nul := by
        rw [hrest.get (i := t.length) le_rfl]
        simp
      rw [hstop, if_neg (by rw [getD_of_get hat]; decide)]
      have hun : unquote ('"' :: a :: t) = a :: t := by rw [unquote, takeWhile_whole hmem]
      rw [hun]
      exact hheld
  · have hun : unquote s = s := by
      unfold unquote
      split
      · exact absurd rfl hq
      · rfl
    exact ⟨p, m, removeQuotesOn_plain h.head hq, le_rfl, Nat.le_succ p, hun.symm ▸ h⟩

/-- **One string.** -/
theorem removeQuotesOn_spec (h : Held m.buf ((p, s) :: l)) :
    ∃ q m' l', removeQuotesOn m p = .ok (q, m') ∧ p ≤ q ∧ q ≤ p + 1 ∧ Held m'.buf ((q, opened s) :: l') ∧
      List.Forall₂ (Spilt [(p, s)]) l l' := by
  by_cases hs : s = ['"']
  · subst hs
    have hheld : Held m.buf ((p + 1, []) :: l) := h.of_cons_self
    by_cases hq : m.buf.getD (stopFrom m.buf (p + 2)) nul = '"'
    · have hget : m.buf[stopFrom m.buf (p + 2)]? = some '"' := by
        cases ho : m.buf[stopFrom m.buf (p + 2)]? with
        | none =>
          rw [List.getD_eq_getElem?_getD, ho] at hq
          exact absurd hq (by decide)
        | some x =>
          rw [getD_of_get ho] at hq
          rw [hq]
      have happ : ∀ c ∈ (p + 1, []) :: l, p + 2 ≤ c.1 ∨ c.1 + c.2.length < p + 2 := by
        intro c hc
        rcases List.mem_cons.1 hc with rfl | hc
        · exact .inr (by simp)
        · have hap := (List.pairwise_cons.1 h.apart).1 c hc
          unfold Apart at hap
          simp only [List.length_singleton] at hap
          omega
      have hhit := held_hit rfl hget hheld happ
      rw [List.map_cons] at hhit
      have hown : hit (stopFrom m.buf (p + 2)) (p + 1, []) = (p + 1, opened ['"']) := by
        have hle : p + 2 ≤ stopFrom m.buf (p + 2) := Nat.le_add_right _ _
        rw [opened_lone]
        refine if_neg ?_
        simp only [List.length_nil]
        omega
      rw [hown] at hhit
      refine ⟨p + 1, _, _, (removeQuotesOn_quote h.head).trans (by rw [if_pos hq]), Nat.le_succ p, le_rfl, hhit, ?_⟩
      rw [List.forall₂_map_right_iff, List.forall₂_same]
      intro c hc
      unfold Spilt hit
      split_ifs with hin
      · refine .inr ⟨⟨_, List.mem_singleton_self _, rfl, ?_⟩, rfl⟩
        have hle : p + 2 ≤ stopFrom m.buf (p + 2) := Nat.le_add_right _ _
        have := happ c (List.mem_cons_of_mem _ hc)
        omega
      · exact .inl rfl
    · refine ⟨p + 1, m, l, (removeQuotesOn_quote h.head).trans (by rw [if_neg hq]), Nat.le_succ p, le_rfl, ?_, spilt_refl _ _⟩
      rw [opened_lone]
      exact hheld
  · obtain ⟨q, m', hrun, h1, h2, hheld⟩ := removeQuotesOn_own h hs
    exact ⟨q, m', l, hrun, h1, h2, opened_of_ne hs ▸ hheld, spilt_refl _ _⟩

/-! ## The tokens -/

/-- what may be left of a text: it is opened, or cut at a quote, or both -/
def Remains (s t : List Char) : Prop :=
  t = opened s ∨ t = s.takeWhile (· != '"') ∨ t = (opened s).takeWhile (· != '"')

/-- the string `c` with its quotes removed, after and before the scans for other strings -/
structure Unquoted (c d : Cell) : Prop where
  le : c.1 ≤ d.1
  le_succ : d.1 ≤ c.1 + 1
  text : Remains c.2 d.2

/-- up to the first lone quote every token is opened -/
def Opens : List Cell → List Cell → Prop
  | x :: xs, y :: ys => y.2 = opened x.2 ∧ (x.2 ≠ ['"'] → Opens xs ys)
  | _, _ => True

theorem crop_clean (s : List Char) : '"' ∉ s.takeWhile (· != '"') := by
  intro h
  have hne := List.mem_takeWhile_imp h
  cases hne

theorem opened_of_notMem (h : '"' ∉ s) : opened s = s := by
  rw [opened_of_ne, unquote_of_notMem h]
  rintro rfl
  exact h (List.mem_singleton_self _)

theorem crop_crop (c : Cell) : crop (crop c) = crop c := by
  unfold crop
  rw [takeWhile_whole (crop_clean _)]

theorem crop_ne_lone (c : Cell) : (crop c).2 ≠ ['"'] := by
  intro h
  have hmem : '"' ∈ (crop c).2 := by simp [h]
  exact crop_clean _ hmem

theorem Unquoted.of_spilt {xs : List Cell} {c' : Cell} (h : Spilt xs c c') (hd : Unquoted c' d) : Unquoted c d := by
  rcases h with rfl | ⟨-, rfl⟩
  · exact hd
  · refine ⟨hd.le, hd.le_succ, .inr (.inl ?_)⟩
    have hclean := crop_clean c.2
    rcases hd.text with ht | ht | ht
    · rw [ht, crop, opened_of_notMem hclean]
    · rw [ht, crop, takeWhile_whole hclean]
    · rw [ht, crop, opened_of_notMem hclean, takeWhile_whole hclean]

/-- first the strings `xs`, then `ys`, which may have been cut in the meantime -/
theorem Spilt.trans {xs ys ys' : List Cell} {c' : Cell} (h : Spilt xs c c') (hd : Spilt ys' c' d)
    (hys : ∀ y ∈ ys', y.2 = ['"'] → y ∈ ys) : Spilt (xs ++ ys) c d := by
  have hback : ∀ {e : Cell}, e.1 = c.1 → (∃ y ∈ ys', y.2 = ['"'] ∧ y.1 < e.1) → ∃ x ∈ xs ++ ys, x.2 = ['"'] ∧ x.1 < c.1 := by
    rintro e he ⟨y, hy, hlone, hlt⟩
    exact ⟨y, List.mem_append_right _ (hys y hy hlone), hlone, he ▸ hlt⟩
  rcases h with rfl | ⟨⟨x, hx, hlone, hlt⟩, rfl⟩
  · rcases hd with rfl | ⟨hy, rfl⟩
    · exact .inl rfl
    · exact .inr ⟨hback rfl hy, rfl⟩
  · have hfirst : ∃ x ∈ xs ++ ys, x.2 = ['"'] ∧ x.1 < c.1 := ⟨x, List.mem_append_left _ hx, hlone, hlt⟩
    rcases hd with rfl | ⟨-, rfl⟩
    · exact .inr ⟨hfirst, rfl⟩
    · exact .inr ⟨hfirst, crop_crop c⟩

theorem Spilt.fst {xs : List Cell} (h : Spilt xs c d) : d.1 = c.1 := by
  rcases h with rfl | ⟨-, rfl⟩ <;> rfl

theorem spilt_fst {xs : List Cell} (h : List.Forall₂ (Spilt xs) l l') : l'.map Prod.fst = l.map Prod.fst := by
  induction h with
  | nil => rfl
  | cons h _ ih => rw [List.map_cons, List.map_cons, h.fst, ih]

theorem spilt_places {xs : List Cell} (h : List.Forall₂ (Spilt xs) l l') : ∀ y ∈ l', ∃ z ∈ l, z.1 = y.1 := by
  intro y hy
  have hmem : y.1 ∈ l'.map Prod.fst := List.mem_map_of_mem hy
  rw [spilt_fst h] at hmem
  exact List.mem_map.1 hmem

/-- a string that was a lone quote before still is one, or never was -/
theorem spilt_lone {xs : List Cell} (h : List.Forall₂ (Spilt xs) l l') : ∀ y ∈ l', y.2 = ['"'] → y ∈ l := by
  induction h with
  | nil => simp
  | @cons c d _ _ h _ ih =>
    intro y hy hlone
    rcases List.mem_cons.1 hy with rfl | hy
    · rcases h with rfl | ⟨-, rfl⟩
      · exact List.mem_cons_self
      · exact absurd hlone (crop_ne_lone _)
    · exact List.mem_cons_of_mem _ (ih y hy hlone)

/-- nothing is cut that lies before the lone quotes -/
theorem spilt_eq {xs : List Cell} (h : List.Forall₂ (Spilt xs) l l')
    (hbefore : ∀ x ∈ xs, x.2 = ['"'] → ∀ c ∈ l, c.1 ≤ x.1) : l' = l := by
  induction h with
  | nil => rfl
  | @cons c d l l' h _ ih =>
    rcases h with rfl | ⟨⟨x, hx, hlone, hlt⟩, -⟩
    · rw [ih fun x hx hl c hc => hbefore x hx hl c (List.mem_cons_of_mem _ hc)]
    · exact absurd (hbefore x hx hlone c List.mem_cons_self) (not_le.2 hlt)

theorem forall₂_trans {α : Type} {R S T : α → α → Prop} {l1 l2 l3 : List α} (h1 : List.Forall₂ R l1 l2)
    (h2 : List.Forall₂ S l2 l3) (h : ∀ a b c, R a b → S b c → T a c) : List.Forall₂ T l1 l3 := by
  induction h1 generalizing l3 with
  | nil =>
    cases h2
    exact .nil
  | cons hr _ ih =>
    cases h2 with
    | cons hs hrest => exact .cons (h _ _ _ hr hs) (ih hrest)

theorem forall₂_append_left {α β : Type} {R : α → β → Prop} {l1 l2 : List α} {l : List β}
    (h : List.Forall₂ R (l1 ++ l2) l) : ∃ a b, l = a ++ b ∧ List.Forall₂ R l1 a ∧ List.Forall₂ R l2 b := by
  induction l1 generalizing l with
  | nil => exact ⟨[], l, rfl, .nil, h⟩
  | cons x l1 ih =>
    cases h with
    | cons hx hrest =>
      obtain ⟨a, b, rfl, ha, hb⟩ := ih hrest
      exact ⟨_ :: a, b, rfl, .cons hx ha, hb⟩

/-- the slots know only the places -/
theorem Shows.same {t : Slots ℕ} {toks toks' : List Cell} (h : Shows t toks)
    (hfst : toks'.map Prod.fst = toks.map Prod.fst) : Shows t toks' := by
  have hlen : toks'.length = toks.length := by
    have := congrArg List.length hfst
    simpa using this
  refine ⟨fun k x hk => ?_, fun hlt => ?_⟩
  · have hget : (toks.map Prod.fst)[k]? = some x.1 := by rw [← hfst, List.getElem?_map, hk, Option.map_some]
    rw [List.getElem?_map, Option.map_eq_some_iff] at hget
    obtain ⟨y, hy, hxy⟩ := hget
    rw [h.ptr k y hy, hxy]
  · rw [hlen] at hlt ⊢
    exact h.null hlt

/-- **The loop on the tokens.** -/
theorem tokenLoop_spec {t : Slots ℕ} (done : List Cell) {todo : List Cell} {n : ℕ} (hn : n + done.length = 200)
    (hlen : todo.length ≤ n) (h : Held m.buf (done ++ (todo ++ l))) (ht : Shows t (done ++ todo))
    (hsort : todo.Pairwise fun a b => a.1 < b.1) (hdone : ∀ c ∈ done, ∀ x ∈ todo, c.1 ≤ x.1) :
    ∃ new t' m' l', tokenLoop removeQuotesOn n done.length t m = .ok (t', m') ∧ Shows t' (done ++ new) ∧
      Held m'.buf (done ++ (new ++ l')) ∧ List.Forall₂ Unquoted todo new ∧ Opens todo new ∧
      List.Forall₂ (Spilt todo) l l' := by
  induction n generalizing m t done todo l with
  | zero =>
    obtain rfl : todo = [] := List.eq_nil_of_length_eq_zero (Nat.le_zero.1 hlen)
    exact ⟨[], t, m, l, rfl, ht, h, .nil, trivial, spilt_refl _ _⟩
  | succ n ih =>
    cases todo with
    | nil =>
      have hnull := ht.null (by simp; omega)
      simp only [List.append_nil] at hnull
      refine ⟨[], t, m, l, ?_, ht, h, .nil, trivial, spilt_refl _ _⟩
      simp [tokenLoop, Slots.read, hnull, bind, Except.bind, pure, Except.pure]
    | cons x todo =>
      obtain ⟨hx, hsort'⟩ := List.pairwise_cons.1 hsort
      have hfront : Held m.buf ((x.1, x.2) :: (done ++ (todo ++ l))) := h.perm List.perm_middle
      obtain ⟨q, m1, others, hrun, hle, hle', hheld, hothers⟩ := removeQuotesOn_spec hfront
      obtain ⟨done1, rest, rfl, hdone1, hrest⟩ := forall₂_append_left hothers
      obtain ⟨todo1, l1, rfl, htodo1, hl1⟩ := forall₂_append_left hrest
      -- what is done lies before
      have hkept : done1 = done := spilt_eq hdone1 fun y hy _ c hc => by
        rw [List.mem_singleton.1 hy]
        exact hdone c hc x List.mem_cons_self
      subst hkept
      have hfst := spilt_fst htodo1
      have hshow : Shows (t.write done1.length (some q)) ((done1 ++ [(q, opened x.2)]) ++ todo1) := by
        have hsame : Shows t (done1 ++ x :: todo1) := ht.same (by simp [hfst])
        simpa using hsame.update (q, opened x.2)
      have hheld' : Held m1.buf ((done1 ++ [(q, opened x.2)]) ++ (todo1 ++ l1)) := by
        refine hheld.perm ?_
        simpa using List.perm_middle.symm
      have hsort1 : todo1.Pairwise fun a b => a.1 < b.1 := by
        rw [← List.pairwise_map (f := Prod.fst) (R := (· < ·))] at hsort' ⊢
        rwa [hfst]
      have hbefore : ∀ c ∈ done1 ++ [(q, opened x.2)], ∀ y ∈ todo1, c.1 ≤ y.1 := by
        intro c hc y hy
        obtain ⟨z, hz, hzy⟩ := spilt_places htodo1 y hy
        rcases List.mem_append.1 hc with hc | hc
        · exact hzy ▸ hdone c hc z (List.mem_cons_of_mem _ hz)
        · have hlt := hx z hz
          rw [List.mem_singleton.1 hc]
          simp only
          omega
      have hlen1 : todo1.length = todo.length := by simpa using congrArg List.length hfst
      obtain ⟨new, t', m', l', hloop, ht', hfinal, hnew, hopens, hl'⟩ := ih (done1 ++ [(q, opened x.2)])
        (by simp; omega) (by simp only [List.length_cons] at hlen; omega) hheld' hshow hsort1 hbefore
      have hlone := spilt_lone htodo1
      refine ⟨(q, opened x.2) :: new, t', m', l', ?_, by simpa using ht', by simpa using hfinal, ?_, ⟨rfl, fun hne => ?_⟩, ?_⟩
      · rw [List.length_append, List.length_singleton] at hloop
        simp only [tokenLoop, ht.read, hrun, bind, Except.bind]
        exact hloop
      · refine .cons ⟨hle, hle', .inl rfl⟩ ?_
        exact forall₂_trans htodo1 hnew fun _ _ _ h1 h2 => h2.of_spilt h1
      · -- nothing was cut, for `x` is no lone quote
        have hsame : todo1 = todo := spilt_eq htodo1 fun y hy hyl => by
          rw [List.mem_singleton.1 hy] at hyl
          exact absurd hyl hne
        exact hsame ▸ hopens
      · exact forall₂_trans hl1 hl' fun _ _ _ h1 h2 => h1.trans h2 hlone

/-! ## A stage -/

theorem remains_takeWhile {s t : List Char} (h : Remains s t) : Remains s (t.takeWhile (· != '"')) := by
  rcases h with rfl | rfl | rfl
  · exact .inr (.inr rfl)
  · exact .inr (.inl (takeWhile_whole (crop_clean s)))
  · exact .inr (.inr (takeWhile_whole (crop_clean _)))

theorem Unquoted.spilt {xs : List Cell} {d' : Cell} (h : Unquoted c d) (hd : Spilt xs d d') : Unquoted c d' := by
  rcases hd with rfl | ⟨-, rfl⟩
  · exact h
  · exact ⟨h.le, h.le_succ, remains_takeWhile h.text⟩

/-- one file -/
theorem fileBlock_spec {x : Option Cell} (h : Held m.buf (x.toList ++ l)) :
    ∃ (y : Option Cell) (m' : Mem) (l' : List Cell), fileBlock removeQuotesOn m (x.map Prod.fst) = .ok (y.map Prod.fst, m') ∧
      Held m'.buf (y.toList ++ l') ∧ List.Forall₂ Unquoted x.toList y.toList ∧ List.Forall₂ (Spilt x.toList) l l' := by
  cases x with
  | none => exact ⟨none, m, l, rfl, h, .nil, spilt_refl _ _⟩
  | some c =>
    obtain ⟨q, m', l', hrun, hle, hle', hheld, hl'⟩ := removeQuotesOn_spec (p := c.1) (s := c.2) h
    refine ⟨some (q, opened c.2), m', l', ?_, hheld, .cons ⟨hle, hle', .inl rfl⟩ .nil, hl'⟩
    simp [fileBlock, hrun, bind, Except.bind, pure, Except.pure]

/-- the strings `x` of a stage, and what is left of them -/
structure Removed (x x' : Cells) : Prop where
  toks : List.Forall₂ Unquoted x.toks x'.toks
  opens : Opens x.toks x'.toks
  input : List.Forall₂ Unquoted x.input.toList x'.input.toList
  output : List.Forall₂ Unquoted x.output.toList x'.output.toList

theorem Removed.near {x x' : Cells} (h : Removed x x') : ∀ d ∈ x'.all, ∃ c ∈ x.all, d.1 ≤ c.1 + 1 := by
  have hall : List.Forall₂ Unquoted x.all x'.all := List.rel_append h.toks (List.rel_append h.input h.output)
  intro d hd
  obtain ⟨k, hk, rfl⟩ := List.getElem_of_mem hd
  have hlt : k < x.all.length := hall.length_eq ▸ hk
  exact ⟨_, List.getElem_mem hlt, ((List.forall₂_iff_get.1 hall).2 k hlt hk).le_succ⟩

/-- a file that was cut is a file -/
theorem spilt_toList {xs : List Cell} {x : Option Cell} (h : List.Forall₂ (Spilt xs) x.toList l) :
    ∃ y : Option Cell, l = y.toList ∧ y.map Prod.fst = x.map Prod.fst := by
  cases x with
  | none =>
    cases h
    exact ⟨none, rfl, rfl⟩
  | some c =>
    cases h with
    | cons hc hrest =>
      cases hrest
      exact ⟨some _, rfl, congrArg some hc.fst⟩

/-- **A stage.** -/
theorem stageQuotes_spec {t : Slots ℕ} {file : Files ℕ} {x : Cells} (hlen : x.toks.length ≤ 200)
    (h : Held m.buf (x.all ++ l)) (hp : Points t file x) (hsort : x.toks.Pairwise fun a b => a.1 < b.1)
    (hfiles : ∀ c ∈ x.toks, ∀ o ∈ x.input.toList ++ x.output.toList, c.1 < o.1) :
    ∃ t' file' m' x' l', stageQuotes removeQuotesOn m t file = .ok (t', file', m') ∧ Points t' file' x' ∧
      Removed x x' ∧ Held m'.buf (x'.all ++ l') ∧ List.Forall₂ (Spilt x.all) l l' := by
  obtain ⟨toks, i, o⟩ := x
  simp only [Cells.all, List.append_assoc] at h hfiles hsort hlen ⊢
  obtain ⟨new, t', m1, others, hloop, hshow, h1, hnew, hopens, hothers⟩ := tokenLoop_spec [] rfl hlen h hp.toks
    hsort (by simp)
  simp only [List.nil_append] at hshow h1
  obtain ⟨i1', rest, rfl, hi1, hrest⟩ := forall₂_append_left hothers
  obtain ⟨o1', l1, rfl, ho1, hl1⟩ := forall₂_append_left hrest
  obtain ⟨i1, rfl, hi1fst⟩ := spilt_toList hi1
  obtain ⟨o1, rfl, ho1fst⟩ := spilt_toList ho1
  -- the tokens lie before the files
  have hbefore : ∀ c ∈ new, ∀ o' ∈ i.toList ++ o.toList, c.1 ≤ o'.1 := by
    intro c hc o' ho'
    obtain ⟨k, hk, rfl⟩ := List.getElem_of_mem hc
    have hlen' := hnew.length_eq
    have hrel := (List.forall₂_iff_get.1 hnew).2 k (hlen' ▸ hk) hk
    have hlt := hfiles _ (List.get_mem toks ⟨k, hlen' ▸ hk⟩) o' ho'
    exact hrel.le_succ.trans hlt
  obtain ⟨y, m2, others2, hy, h2, hyi, hothers2⟩ := fileBlock_spec h1.rotate
  obtain ⟨o2', rest2, rfl, ho2, hrest2⟩ := forall₂_append_left hothers2
  obtain ⟨new2, l2, rfl, hnew2, hl2⟩ := forall₂_append_left hrest2
  obtain ⟨o2, rfl, ho2fst⟩ := spilt_toList ho2
  obtain rfl : new2 = new := spilt_eq hnew2 fun z hz _ c hc => by
    obtain ⟨o', ho', hfst⟩ := spilt_places hi1 z hz
    exact hfst ▸ hbefore c hc o' (List.mem_append_left _ ho')
  obtain ⟨z, m3, others3, hz, h3, hzo, hothers3⟩ := fileBlock_spec h2.rotate
  obtain ⟨new3, rest3, rfl, hnew3, hrest3⟩ := forall₂_append_left hothers3
  obtain ⟨y2', l3, rfl, hy2, hl3⟩ := forall₂_append_left hrest3
  obtain ⟨y2, rfl, hy2fst⟩ := spilt_toList hy2
  have hlast : new3 = new2 := spilt_eq hnew3 fun z hz _ c hc => by
    obtain ⟨o1', ho1', hfst1⟩ := spilt_places ho2 z hz
    obtain ⟨o', ho', hfst⟩ := spilt_places ho1 o1' ho1'
    exact (hfst.trans hfst1) ▸ hbefore c hc o' (List.mem_append_right _ ho')
  subst hlast
  refine ⟨t', ⟨y.map Prod.fst, z.map Prod.fst⟩, m3, ⟨new3, y2, z⟩, l3, ?_, ⟨hshow, hy2fst.symm, rfl⟩,
    ⟨hnew, hopens, ?_, ?_⟩, h3.rotate, ?_⟩
  · have hi : file.input = i1.map Prod.fst := hp.input.trans hi1fst.symm
    have ho : file.output = o2.map Prod.fst := hp.output.trans (ho2fst.trans ho1fst).symm
    simp only [List.length_nil] at hloop
    simp only [stageQuotes, hloop, hi, hy, ho, hz, bind, Except.bind, pure, Except.pure]
  · have hinput : List.Forall₂ Unquoted i.toList y.toList := forall₂_trans hi1 hyi fun _ _ _ h1 h2 => h2.of_spilt h1
    exact forall₂_trans hinput hy2 fun _ _ _ h1 h2 => h1.spilt h2
  · have houtput : List.Forall₂ Unquoted o1.toList z.toList := forall₂_trans ho2 hzo fun _ _ _ h1 h2 => h2.of_spilt h1
    exact forall₂_trans ho1 houtput fun _ _ _ h1 h2 => h2.of_spilt h1
  · have hfirst := forall₂_trans hl1 hl2 fun _ _ _ h1 h2 => h1.trans h2 (spilt_lone hi1)
    have hall := forall₂_trans hfirst hl3 fun _ _ _ h1 h2 => h1.trans h2 fun w hw hlone =>
      spilt_lone ho1 w (spilt_lone ho2 w hw hlone) hlone
    rwa [List.append_assoc] at hall

end DecsLabs.Shell
