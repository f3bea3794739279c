/-
The tokens of a command in the buffer that they share. The tokenizer leaves the words side by side, with a terminator for
every blank; a scan that starts behind a lone quote is a scan of the next word.

- `removeSpacesLoop_row`: the row that the tokenizer leaves.
- `unquoteRow`: what the removal of quotes makes of a row; `tokenLoop_row` shows that the loop computes it.
- `tokensQuoted_iff`: exactly when every token becomes the quoted text of its word.
-/
import DecsLabs.Shell.Quotes

namespace DecsLabs.Shell

open DecsLabs.CString

variable {m : Mem} {p q : ℕ} {s u v w : List Char}

/-! ## Strings side by side -/

/-- each string with its terminator -/
def rowText (ws : List (List Char)) : List Char := ws.flatMap (· ++ [nul])

@[simp] theorem rowText_nil : rowText [] = [] := rfl

@[simp] theorem rowText_cons (w : List Char) (ws : List (List Char)) : rowText (w :: ws) = w ++ nul :: rowText ws := by
  simp [rowText]

/-- the strings that are not empty, where they stand when the row stands at `p` -/
def rowCells : ℕ → List (List Char) → List Cell
  | _, [] => []
  | p, w :: ws => flush p w ++ rowCells (p + w.length + 1) ws

theorem rowCells_snd (p : ℕ) (ws : List (List Char)) : (rowCells p ws).map Prod.snd = ws.filter (· ≠ []) := by
  induction ws generalizing p with
  | nil => rfl
  | cons w ws ih =>
    rw [rowCells, List.map_append, ih, flush]
    by_cases hw : w = []
    · simp [hw]
    · simp [hw]

/-! ## The tokenizer -/

theorem length_flush (p : ℕ) (w : List Char) : (flush p w).length = if w.length = 0 then 0 else 1 := by
  by_cases hw : w = []
  · simp [flush, hw]
  · simp [flush, hw]

theorem ShowsFirst.flush {t : Slots ℕ} {toks : List Cell} (h : ShowsFirst t toks) (p : ℕ) (w : List Char) :
    ShowsFirst (t.write toks.length (some p)) (toks ++ flush p w) := by
  by_cases hw : w = []
  · rw [CString.flush, if_pos hw, List.append_nil]
    exact h.write (some p)
  · rw [CString.flush, if_neg hw]
    exact h.snoc (p, w)

/-- **The tokenizer.** The words stay where they are; each blank and the end of the text become terminators. -/
theorem removeSpacesLoop_row {t : Slots ℕ} {toks : List Cell} {ws : List (List Char)} {n : ℕ} (hne : ws ≠ [])
    (hblank : ∀ w ∈ ws, ' ' ∉ w) (hclean : nul ∉ join ' ' id ws) (hn : ws.length < n) (ht : ShowsFirst t toks)
    (hlen : (toks ++ rowCells u.length ws).length < 200) :
    ∃ t', removeSpacesLoop n toks.length (some u.length) t ⟨u ++ (join ' ' id ws ++ nul :: v), p⟩ =
      .ok (t', ⟨u ++ (rowText ws ++ v), p⟩) ∧ Shows t' (toks ++ rowCells u.length ws) := by
  induction ws generalizing n u t toks with
  | nil => exact absurd rfl hne
  | cons w ws ih =>
    obtain ⟨n, rfl⟩ := Nat.exists_eq_succ_of_ne_zero (Nat.ne_zero_of_lt hn)
    rw [List.length_cons] at hn
    have hn' : ws.length < n := Nat.lt_of_succ_lt_succ hn
    have hw : ' ' ∉ w := hblank w List.mem_cons_self
    have hi : toks.length < 200 := by
      rw [List.length_append] at hlen
      omega
    have hshow := ht.flush u.length w
    have hrow : toks ++ rowCells u.length (w :: ws) =
        (toks ++ flush u.length w) ++ rowCells (u.length + w.length + 1) ws := by
      rw [rowCells, List.append_assoc]
    rw [hrow] at hlen ⊢
    have hnext : (toks ++ flush u.length w).length = if w.length = 0 then toks.length else toks.length + 1 := by
      rw [List.length_append, length_flush]
      split_ifs <;> rfl
    cases ws with
    | nil =>
      rw [join_singleton] at hclean ⊢
      have hh : Holds (u ++ (w ++ nul :: v)) (u.length, w) := holds_at u v hclean
      have hsep : strsep ⟨u ++ (w ++ nul :: v), p⟩ (some u.length) ' ' = (some u.length, none, ⟨u ++ (w ++ nul :: v), p⟩) :=
        strsep_whole hh hw
      obtain ⟨n, rfl⟩ := Nat.exists_eq_succ_of_ne_zero (Nat.ne_zero_of_lt hn')
      obtain ⟨t', hrun, hfinal⟩ := removeSpacesLoop_none (m := ⟨u ++ (w ++ nul :: v), p⟩) n hshow
      refine ⟨t', ?_, by simpa [rowCells] using hfinal⟩
      rw [hnext] at hrun
      rw [removeSpacesLoop, if_pos hi]
      simp only [id, hsep, hh.strlen_eq]
      simpa using hrun
    | cons x ws =>
      rw [join_cons_cons] at hclean ⊢
      have hnul : nul ∉ w := fun h => hclean (List.mem_append_left _ h)
      have hnul' : nul ∉ join ' ' id (x :: ws) := fun h => hclean (List.mem_append_right _ (List.mem_cons_of_mem _ h))
      have hsep : strsep ⟨u ++ ((w ++ ' ' :: join ' ' id (x :: ws)) ++ nul :: v), p⟩ (some u.length) ' ' =
          (some u.length, some (u.length + w.length + 1), ⟨u ++ (w ++ nul :: (join ' ' id (x :: ws) ++ nul :: v)), p⟩) := by
        rw [List.append_assoc, List.cons_append]
        exact strsep_at hw hnul (by decide)
      have hstr := (holds_at u (join ' ' id (x :: ws) ++ nul :: v) hnul).strlen_eq
      have hbuf : u ++ (w ++ nul :: (join ' ' id (x :: ws) ++ nul :: v)) =
          (u ++ (w ++ [nul])) ++ (join ' ' id (x :: ws) ++ nul :: v) := by simp
      have hplace : (u ++ (w ++ [nul])).length = u.length + w.length + 1 := by simp [Nat.add_assoc]
      rw [← hplace] at hlen ⊢
      obtain ⟨t', hrun, hfinal⟩ := ih (n := n) (by simp) (fun y hy => hblank y (List.mem_cons_of_mem _ hy)) hnul' hn' hshow
        hlen
      refine ⟨t', ?_, hfinal⟩
      rw [removeSpacesLoop, if_pos hi]
      simp only [id, hsep, hstr, ← hnext]
      rw [hbuf, ← hplace, hrun, rowText_cons w]
      simp

theorem tokenize_row (u v : List Char) (hs : nul ∉ s) (hlen : (words s).length < 200) :
    ∃ t, removeSpacesAndCreateTokens ⟨u ++ (s ++ nul :: v), p⟩ (some u.length) .empty =
      .ok (t, ⟨u ++ (rowText (s.splitOn ' ') ++ v), p⟩) ∧ Shows t (rowCells u.length (s.splitOn ' ')) := by
  obtain ⟨hblank, hle⟩ := splitOn_spec ' ' s
  have hjoin : join ' ' id (s.splitOn ' ') = s := by
    rw [join, List.map_id, List.intercalate_splitOn]
  have hcount : (rowCells u.length (s.splitOn ' ')).length < 200 := by
    rw [← List.length_map (f := Prod.snd), rowCells_snd, ← pieces_eq_filter]
    exact hlen
  have hshow : ShowsFirst .empty [] := fun k x hk => by simp at hk
  have hrun := removeSpacesLoop_row (v := v) (p := p) (n := s.length + 2) (List.splitOn_ne_nil ' ' s)
    (fun w hw => (hblank w hw).1) (by rwa [hjoin]) (by omega) hshow hcount
  rw [hjoin] at hrun
  obtain ⟨t, hrun, hshow⟩ := hrun
  refine ⟨t, ?_, hshow⟩
  simp only [removeSpacesAndCreateTokens, (holds_at u v hs).strlen_eq]
  exact hrun

/-! ## The removal of quotes from a row -/

/-- what the loop makes of the strings of a row in front of `after`; `none` when a scan leaves the buffer -/
def unquoteRow (after : List Char) : List (List Char) → Option (List (List Char))
  | [] => some []
  | w :: ws =>
    if w = [] then unquoteRow after ws
    else if w ≠ ['"'] then (unquoteRow after ws).map (unquote w :: ·)
    else match ws with
      | [] => if ∃ c ∈ after, Stops c then some [[]] else none
      | x :: ws =>
        -- the scan for a lone quote starts at the next string
        if '"' ∈ x then (unquoteRow after ws).map ([] :: x.takeWhile (· != '"') :: ·)
        else (unquoteRow after (x :: ws)).map ([] :: ·)

/-- the cases of `unquoteRow` -/
@[elab_as_elim]
theorem rowInduction {motive : List (List Char) → Prop} (nil : motive []) (empty : ∀ ws, motive ws → motive ([] :: ws))
    (word : ∀ w ws, w ≠ [] → w ≠ ['"'] → motive ws → motive (w :: ws)) (last : motive [['"']])
    (hit : ∀ y z ws, '"' ∉ y → motive ws → motive (['"'] :: (y ++ '"' :: z) :: ws))
    (miss : ∀ x ws, '"' ∉ x → motive (x :: ws) → motive (['"'] :: x :: ws)) (ws : List (List Char)) : motive ws := by
  induction hn : ws.length using Nat.strong_induction_on generalizing ws with
  | _ n ih =>
    cases ws with
    | nil => exact nil
    | cons w ws =>
      rw [List.length_cons] at hn
      have hrest : motive ws := ih ws.length (by omega) ws rfl
      by_cases hw : w = []
      · rw [hw]
        exact empty ws hrest
      by_cases hlone : w = ['"']
      · rw [hlone]
        cases ws with
        | nil => exact last
        | cons x ws =>
          by_cases hx : '"' ∈ x
          · obtain ⟨y, z, rfl, hy⟩ := List.eq_append_cons_of_mem hx
            rw [List.length_cons] at hn
            exact hit y z ws hy (ih ws.length (by omega) ws rfl)
          · exact miss x ws hx hrest
      · exact word w ws hw hlone hrest

section UnquoteRow

variable {after : List Char} {ws : List (List Char)}

@[simp] theorem unquoteRow_nil : unquoteRow after [] = some [] := rfl

@[simp] theorem unquoteRow_empty : unquoteRow after ([] :: ws) = unquoteRow after ws := by
  rw [unquoteRow.eq_def]
  exact if_pos rfl

theorem unquoteRow_word (hw : w ≠ []) (hlone : w ≠ ['"']) :
    unquoteRow after (w :: ws) = (unquoteRow after ws).map (unquote w :: ·) := by
  rw [unquoteRow.eq_def]
  exact (if_neg hw).trans (if_pos hlone)

theorem unquoteRow_last : unquoteRow after [['"']] = if ∃ c ∈ after, Stops c then some [[]] else none := by
  rw [unquoteRow, if_neg (by decide), if_neg (by decide)]

theorem unquoteRow_hit (hy : '"' ∉ u) :
    unquoteRow after (['"'] :: (u ++ '"' :: v) :: ws) = ((unquoteRow after ws).map (u :: ·)).map ([] :: ·) := by
  rw [unquoteRow, if_neg (by decide), if_neg (by decide), if_pos (by simp), takeWhile_cut hy, Option.map_map]
  rfl

theorem unquoteRow_miss (hx : '"' ∉ u) :
    unquoteRow after (['"'] :: u :: ws) = (unquoteRow after (u :: ws)).map ([] :: ·) := by
  rw [unquoteRow, if_neg (by decide), if_neg (by decide), if_neg hx]

end UnquoteRow

/-- the slots from `i` on point to the strings `toks`, followed by NULL -/
structure ShowsFrom (t : Slots ℕ) (i : ℕ) (toks : List Cell) : Prop where
  ptr : ∀ k x, toks[k]? = some x → t (i + k) = some (some x.1)
  null : t (i + toks.length) = some none

/-- the array `t` with the texts `out` from the slot `i` on -/
structure Done (t' t : Slots ℕ) (i : ℕ) (b : List Char) (out : List (List Char)) : Prop where
  before : ∀ k < i, t' k = t k
  texts : ∀ k w, out[k]? = some w → ∃ q, t' (i + k) = some (some q) ∧ str b q = w

/-- how the loop ends, from the slot `i` and the place `u.length` on -/
def RowEnds (res : Except Fault (Slots ℕ × Mem)) (t : Slots ℕ) (i : ℕ) (u : List Char) :
    Option (List (List Char)) → Prop
  | none => ∃ e, res = .error e
  | some out => ∃ t' r p, res = .ok (t', ⟨u ++ r, p⟩) ∧ Done t' t i (u ++ r) out

section Loop

variable {t t' : Slots ℕ} {i : ℕ} {toks : List Cell} {x : Cell}

theorem ShowsFrom.read (h : ShowsFrom t i (x :: toks)) : t.read i = .ok (some x.1) := by
  have hi : t i = some (some x.1) := h.ptr 0 x rfl
  rw [Slots.read, hi]

theorem ShowsFrom.tail (h : ShowsFrom t i (x :: toks)) (a : Option ℕ) : ShowsFrom (t.write i a) (i + 1) toks := by
  constructor
  · intro k y hk
    rw [Slots.write_ne (by omega), Nat.add_assoc, Nat.add_comm 1]
    exact h.ptr (k + 1) y hk
  · rw [Slots.write_ne (by omega), Nat.add_assoc, Nat.add_comm 1]
    exact h.null

theorem RowEnds.step {res : Except Fault (Slots ℕ × Mem)} {r : List Char} {o : Option (List (List Char))}
    (h : RowEnds res (t.write i (some q)) (i + 1) (u ++ r) o) (hw : Leaves u r q w) :
    RowEnds res t i u (o.map (w :: ·)) := by
  cases o with
  | none => exact h
  | some out =>
    obtain ⟨t', r', p', hres, hbefore, htexts⟩ := h
    rw [List.append_assoc] at hres htexts
    refine ⟨t', r ++ r', p', hres, ?_, ?_⟩
    · intro k hk
      rw [hbefore k (by omega), Slots.write_ne (by omega)]
    · intro k y hk
      cases k with
      | zero =>
        obtain rfl : w = y := Option.some.inj hk
        refine ⟨q, ?_, hw r'⟩
        rw [Nat.add_zero, hbefore i (by omega), Slots.write, Function.update_self]
      | succ k =>
        obtain ⟨q', hq', hstr⟩ := htexts k y hk
        refine ⟨q', ?_, hstr⟩
        rw [← hq', Nat.add_assoc, Nat.add_comm 1]

theorem tokenLoop_end {n : ℕ} (block : Mem → ℕ → Except Fault (ℕ × Mem)) (h : ShowsFrom t i []) (hn : 0 < n) :
    tokenLoop block n i t m = .ok (t, m) := by
  obtain ⟨n, rfl⟩ := Nat.exists_eq_succ_of_ne_zero (Nat.pos_iff_ne_zero.1 hn)
  have hi : t.read i = .ok none := by
    rw [Slots.read, show t i = some none from h.null]
  simp [tokenLoop, hi, bind, Except.bind, pure, Except.pure]

theorem tokenLoop_step {n : ℕ} {block : Mem → ℕ → Except Fault (ℕ × Mem)} (h : ShowsFrom t i (x :: toks))
    (hb : block m x.1 = .ok (q, m')) :
    tokenLoop block (n + 1) i t m = tokenLoop block n (i + 1) (t.write i (some q)) m' := by
  simp [tokenLoop, h.read, hb, bind, Except.bind]

theorem tokenLoop_fault {n : ℕ} {block : Mem → ℕ → Except Fault (ℕ × Mem)} {e : Fault} (h : ShowsFrom t i (x :: toks))
    (hb : block m x.1 = .error e) : tokenLoop block (n + 1) i t m = .error e := by
  simp [tokenLoop, h.read, hb, bind, Except.bind]

/-- the lone quote, whose scan starts at `v` -/
theorem removeQuotesAt_lone (u : List Char) : (∀ x ∈ v, ¬ Stops x) ∧
      removeQuotesAt ⟨u ++ '"' :: nul :: v, p⟩ u.length = .error .beyondTerminator ∨
    ∃ y c z, v = y ++ c :: z ∧ (∀ x ∈ y, ¬ Stops x) ∧ Stops c ∧
      removeQuotesAt ⟨u ++ '"' :: nul :: v, p⟩ u.length = .ok (u.length + 1, ⟨u ++ '"' :: nul :: (y ++ nul :: z), p⟩) := by
  rcases exists_stop v with hv | ⟨y, c, z, rfl, hy, hc⟩
  · exact .inl ⟨hv, removeQuotesAt_fault hv⟩
  · exact .inr ⟨y, c, z, rfl, hy, hc, removeQuotesAt_stop hy hc z⟩

theorem leaves_lone (u : List Char) : Leaves u ['"', nul] (u.length + 1) [] := leaves u ['"'] [] List.not_mem_nil

theorem RowEnds.nil {n : ℕ} (h : ShowsFrom t i []) (hn : 0 < n) (u v : List Char) :
    RowEnds (tokenLoop removeQuotesAt n i t ⟨u ++ v, p⟩) t i u (some []) :=
  ⟨t, v, p, tokenLoop_end _ h hn, fun _ _ => rfl, fun k w hk => by simp at hk⟩

theorem RowEnds.widen {res : Except Fault (Slots ℕ × Mem)} {r : List Char} {o : Option (List (List Char))}
    (h : RowEnds res t i (u ++ r) o) : RowEnds res t i u o := by
  cases o with
  | none => exact h
  | some out =>
    obtain ⟨t', r', p', hres, hdone⟩ := h
    rw [List.append_assoc] at hres hdone
    exact ⟨t', r ++ r', p', hres, hdone⟩

/-- **The loop on a row.** -/
theorem tokenLoop_row {ws : List (List Char)} {n : ℕ} (hclean : ∀ w ∈ ws, nul ∉ w)
    (ht : ShowsFrom t i (rowCells u.length ws)) (hn : (rowCells u.length ws).length < n) :
    RowEnds (tokenLoop removeQuotesAt n i t ⟨u ++ (rowText ws ++ v), p⟩) t i u (unquoteRow v ws) := by
  induction ws using rowInduction generalizing n i t u with
  | nil => exact .nil ht hn u v
  | empty ws ih =>
    have hcells : rowCells u.length ([] :: ws) = rowCells (u ++ [nul]).length ws := by simp [rowCells, flush]
    have hbuf : u ++ (rowText ([] :: ws) ++ v) = (u ++ [nul]) ++ (rowText ws ++ v) := by simp
    rw [hcells] at ht hn
    rw [unquoteRow_empty, hbuf]
    exact (ih (fun w hw => hclean w (List.mem_cons_of_mem _ hw)) ht hn).widen
  | word w ws hw hlone ih =>
    obtain ⟨q, r, hrun, hlen, hleaves⟩ :=
      removeQuotesAt_word (u := u) (p := p) (hclean w List.mem_cons_self) hlone (rowText ws ++ v)
    have hcells : rowCells u.length (w :: ws) = (u.length, w) :: rowCells (u ++ r).length ws := by
      simp [rowCells, flush, hw, hlen, Nat.add_assoc]
    have hbuf : u ++ (rowText (w :: ws) ++ v) = u ++ (w ++ nul :: (rowText ws ++ v)) := by simp
    obtain ⟨n, rfl⟩ := Nat.exists_eq_succ_of_ne_zero (Nat.ne_zero_of_lt hn)
    rw [hcells] at ht hn
    rw [unquoteRow_word hw hlone, hbuf, tokenLoop_step ht hrun, ← List.append_assoc]
    exact (ih (fun x hx => hclean x (List.mem_cons_of_mem _ hx)) (ht.tail _) (Nat.lt_of_succ_lt_succ hn)).step hleaves
  | last =>
    have hcells : rowCells u.length [['"']] = [(u.length, ['"'])] := rfl
    have hbuf : u ++ (rowText [['"']] ++ v) = u ++ '"' :: nul :: v := by simp
    obtain ⟨n, rfl⟩ := Nat.exists_eq_succ_of_ne_zero (Nat.ne_zero_of_lt hn)
    rw [hcells] at ht hn
    rw [unquoteRow_last, hbuf]
    rcases removeQuotesAt_lone (v := v) (p := p) u with ⟨hv, hrun⟩ | ⟨y, c, z, rfl, -, hc, hrun⟩
    · rw [if_neg (by simpa using hv), tokenLoop_fault ht hrun]
      exact ⟨_, rfl⟩
    · rw [if_pos ⟨c, by simp, hc⟩, tokenLoop_step ht hrun]
      have hsplit : u ++ '"' :: nul :: (y ++ nul :: z) = (u ++ ['"', nul]) ++ (y ++ nul :: z) := by simp
      rw [hsplit]
      exact (RowEnds.nil (ht.tail _) (Nat.lt_of_succ_lt_succ hn) _ _).step (leaves_lone u)
  | hit y z ws hy ih =>
    have hclean' : nul ∉ y := fun h => hclean _ (List.mem_cons_of_mem _ List.mem_cons_self) (by simp [h])
    have hplace : (u ++ ['"', nul] ++ (y ++ nul :: (z ++ [nul]))).length =
        u.length + ['"'].length + 1 + (y ++ '"' :: z).length + 1 := by
      simp only [List.length_append, List.length_cons, List.length_nil]
      omega
    -- the neighbour is cut at its first quote before its own turn
    have hcells : rowCells u.length (['"'] :: (y ++ '"' :: z) :: ws) =
        (u.length, ['"']) :: ((u ++ ['"', nul]).length, y ++ '"' :: z) ::
          rowCells (u ++ ['"', nul] ++ (y ++ nul :: (z ++ [nul]))).length ws := by
      rw [hplace, rowCells, rowCells]
      simp [flush]
    have hbuf : u ++ (rowText (['"'] :: (y ++ '"' :: z) :: ws) ++ v) =
        u ++ '"' :: nul :: (y ++ '"' :: (z ++ nul :: (rowText ws ++ v))) := by simp
    have hfirst := removeQuotesAt_stop (u := u) (p := p) (a := nul) (not_stops hy hclean') (.inl rfl)
      (z ++ nul :: (rowText ws ++ v))
    have hsplit : u ++ '"' :: nul :: (y ++ nul :: (z ++ nul :: (rowText ws ++ v))) =
        (u ++ ['"', nul]) ++ (y ++ nul :: (z ++ nul :: (rowText ws ++ v))) := by simp
    have hsecond := removeQuotesAt_plain (u := u ++ ['"', nul]) (p := p) (w := y) (fun h => hy (List.mem_of_mem_head? h))
      (z ++ nul :: (rowText ws ++ v))
    obtain ⟨n, rfl⟩ := Nat.exists_eq_succ_of_ne_zero (Nat.ne_zero_of_lt hn)
    rw [hcells] at ht hn
    obtain ⟨n, rfl⟩ := Nat.exists_eq_succ_of_ne_zero (Nat.ne_zero_of_lt (Nat.lt_of_succ_lt_succ hn))
    rw [unquoteRow_hit hy, hbuf, tokenLoop_step ht hfirst, hsplit, tokenLoop_step (ht.tail _) hsecond]
    have hrest : (u ++ ['"', nul]) ++ (y ++ nul :: (z ++ nul :: (rowText ws ++ v))) =
        (u ++ ['"', nul] ++ (y ++ nul :: (z ++ [nul]))) ++ (rowText ws ++ v) := by simp
    rw [hrest]
    have hleaves := leaves (u ++ ['"', nul]) [] (z ++ [nul]) hclean'
    refine RowEnds.step (RowEnds.step ?_ hleaves) (leaves_lone u)
    exact ih (fun x hx => hclean x (by simp [hx])) ((ht.tail _).tail _) (by simpa using hn)
  | miss x ws hx ih =>
    have hclean' : nul ∉ x := hclean x (by simp)
    have hcells : rowCells u.length (['"'] :: x :: ws) =
        (u.length, ['"']) :: rowCells (u ++ ['"', nul]).length (x :: ws) := by
      simp [rowCells, flush]
    have hbuf : u ++ (rowText (['"'] :: x :: ws) ++ v) = u ++ '"' :: nul :: (x ++ nul :: (rowText ws ++ v)) := by simp
    have hrun := removeQuotesAt_stop (u := u) (p := p) (a := nul) (not_stops hx hclean') (.inr rfl) (rowText ws ++ v)
    have hsplit : u ++ '"' :: nul :: (x ++ nul :: (rowText ws ++ v)) =
        (u ++ ['"', nul]) ++ (rowText (x :: ws) ++ v) := by simp
    obtain ⟨n, rfl⟩ := Nat.exists_eq_succ_of_ne_zero (Nat.ne_zero_of_lt hn)
    rw [hcells] at ht hn
    rw [unquoteRow_miss hx, hbuf, tokenLoop_step ht hrun, hsplit]
    exact (ih (fun y hy => hclean y (List.mem_cons_of_mem _ hy)) (ht.tail _) (Nat.lt_of_succ_lt_succ hn)).step (leaves_lone u)

end Loop

/-! ## Tokens -/

/-- No string that the loop finds begins with two quotes; no scan for a lone quote ends in a neighbour other than at its
first character, in front of a lone quote or of a second quote; and a scan for a last lone quote ends in the buffer. -/
def Clear (after : List Char) : List (List Char) → Prop
  | [] => True
  | w :: ws =>
    if w ≠ ['"'] then ¬ ['"', '"'] <+: w ∧ Clear after ws
    else match ws with
      | [] => ∃ c ∈ after, Stops c
      | x :: ws => if '"' ∈ x then (x = ['"'] ∨ ['"', '"'] <+: x) ∧ Clear after ws else Clear after (x :: ws)

section Clear

variable {after : List Char} {ws : List (List Char)}

theorem clear_word (hlone : w ≠ ['"']) : Clear after (w :: ws) ↔ ¬ ['"', '"'] <+: w ∧ Clear after ws := by
  rw [Clear.eq_def]
  exact iff_of_eq (if_pos hlone)

theorem clear_last : Clear after [['"']] ↔ ∃ c ∈ after, Stops c := by
  rw [Clear, if_neg (by decide)]

theorem clear_lone : Clear after (['"'] :: u :: ws) ↔
    if '"' ∈ u then (u = ['"'] ∨ ['"', '"'] <+: u) ∧ Clear after ws else Clear after (u :: ws) := by
  rw [Clear, if_neg (by decide)]

instance decidableClear (after : List Char) : (ws : List (List Char)) → Decidable (Clear after ws)
  | [] => isTrue trivial
  | w :: ws =>
    if hlone : w ≠ ['"'] then
      have := decidableClear after ws
      decidable_of_iff (¬ ['"', '"'] <+: w ∧ Clear after ws) (clear_word hlone).symm
    else match ws with
      | [] => decidable_of_iff (∃ c ∈ after, Stops c) (by rw [not_not.1 hlone, clear_last])
      | x :: ws =>
        have := decidableClear after ws
        have := decidableClear after (x :: ws)
        decidable_of_iff (if '"' ∈ x then (x = ['"'] ∨ ['"', '"'] <+: x) ∧ Clear after ws else Clear after (x :: ws))
          (by rw [not_not.1 hlone, clear_lone])

end Clear

theorem quoted_lone : quoted ['"'] = [] := rfl

/-- the removal of quotes is right about a word unless the text after its quote is empty -/
theorem unquote_eq_quoted_iff (hlone : w ≠ ['"']) : unquote w = quoted w ↔ ¬ ['"', '"'] <+: w := by
  match w, hlone with
  | [], _ => exact iff_of_true rfl (by simp)
  | [c], hlone =>
    have hc : c ≠ '"' := fun h => hlone (by rw [h])
    refine iff_of_true ?_ (by simp)
    simp [unquote, quoted, hc]
  | c :: a :: t, _ =>
    by_cases hc : c = '"'
    · subst hc
      by_cases ha : a = '"'
      · simp [unquote, quoted, ha]
      · simp [unquote, quoted, ha, Ne.symm ha]
    · have hplain : ¬ ['"', '"'] <+: c :: a :: t := by simp [Ne.symm hc]
      exact iff_of_true (by simp [unquote, quoted, hc]) hplain

/-- what is left of a neighbour is its quoted text only if both are empty -/
theorem eq_quoted_iff (hu : '"' ∉ u) : u = quoted (u ++ '"' :: v) ↔ u ++ '"' :: v = ['"'] ∨ ['"', '"'] <+: u ++ '"' :: v := by
  cases u with
  | nil =>
    cases v with
    | nil => simp [quoted]
    | cons a v =>
      by_cases ha : a = '"'
      · simp [quoted, ha]
      · simp [quoted, ha, Ne.symm ha]
  | cons c u =>
    have hc : c ≠ '"' := fun h => hu (by simp [h])
    have hq : quoted (c :: u ++ '"' :: v) = c :: u ++ '"' :: v := by simp [quoted, hc]
    rw [hq]
    refine iff_of_false (fun h => ?_) (by simp [hc, Ne.symm hc])
    have hlen := congrArg List.length h
    simp at hlen

theorem map_cons_eq_some_iff {o : Option (List (List Char))} {ws : List (List Char)} :
    o.map (v :: ·) = some (w :: ws) ↔ v = w ∧ o = some ws := by
  cases o with
  | none => simp
  | some x => simp

/-- **Rows.** The loop yields the quoted texts exactly on the clear rows. -/
theorem unquoteRow_eq_iff {after : List Char} (ws : List (List Char)) :
    unquoteRow after ws = some ((ws.filter (· ≠ [])).map quoted) ↔ Clear after ws := by
  induction ws using rowInduction with
  | nil => simp [Clear]
  | empty ws ih =>
    rw [unquoteRow_empty, clear_word (by decide), and_iff_right (by decide), ← ih, List.filter_cons_of_neg (by decide)]
  | word w ws hw hlone ih =>
    rw [unquoteRow_word hw hlone, clear_word hlone, List.filter_cons_of_pos (by simpa using hw), List.map_cons,
      map_cons_eq_some_iff, unquote_eq_quoted_iff hlone, ih]
  | last =>
    rw [unquoteRow_last, clear_last]
    simp [quoted_lone]
  | hit y z ws hy ih =>
    rw [unquoteRow_hit hy, clear_lone, if_pos (by simp), List.filter_cons_of_pos (by decide),
      List.filter_cons_of_pos (by simp), List.map_cons, List.map_cons, map_cons_eq_some_iff, map_cons_eq_some_iff,
      eq_quoted_iff hy, ih, and_iff_right quoted_lone.symm]
  | miss x ws hx ih =>
    rw [unquoteRow_miss hx, clear_lone, if_neg hx, List.filter_cons_of_pos (by decide), List.map_cons,
      map_cons_eq_some_iff, ih, and_iff_right quoted_lone.symm]

theorem unquoteRow_length {after : List Char} {ws out : List (List Char)} (h : unquoteRow after ws = some out) :
    out.length = (ws.filter (· ≠ [])).length := by
  induction ws using rowInduction generalizing out with
  | nil =>
    cases h
    rfl
  | empty ws ih =>
    rw [unquoteRow_empty] at h
    rw [ih h, List.filter_cons_of_neg (by decide)]
  | word w ws hw hlone ih =>
    rw [unquoteRow_word hw hlone, Option.map_eq_some_iff] at h
    obtain ⟨out, h, rfl⟩ := h
    rw [List.filter_cons_of_pos (by simpa using hw), List.length_cons, List.length_cons, ih h]
  | last =>
    rw [unquoteRow_last] at h
    split_ifs at h
    cases h
    rfl
  | hit y z ws hy ih =>
    rw [unquoteRow_hit hy, Option.map_map, Option.map_eq_some_iff] at h
    obtain ⟨out, h, rfl⟩ := h
    rw [List.filter_cons_of_pos (by decide), List.filter_cons_of_pos (by simp)]
    simp [ih h]
  | miss x ws hx ih =>
    rw [unquoteRow_miss hx, Option.map_eq_some_iff] at h
    obtain ⟨out, h, rfl⟩ := h
    rw [List.filter_cons_of_pos (by decide), List.length_cons, List.length_cons, ih h]

/-- token `i` is the quoted text of word `i`, for every word -/
def TokensQuoted (m : Mem) (p : ℕ) (s : List Char) : Prop :=
  ∃ t m1 t' m2, removeSpacesAndCreateTokens m (some p) .empty = .ok (t, m1) ∧ removeTokensQuotesAt m1 t = .ok (t', m2) ∧
    ∀ (i : ℕ) (w : List Char), (words s)[i]? = some w → ∃ q, t' i = some (some q) ∧ str m2.buf q = quoted w

/-- the tokenizer and the loop on a string of the buffer -/
theorem tokens_row (u v : List Char) (hs : nul ∉ s) (hlen : (words s).length < 200) : ∃ t,
    removeSpacesAndCreateTokens ⟨u ++ (s ++ nul :: v), p⟩ (some u.length) .empty =
      .ok (t, ⟨u ++ (rowText (s.splitOn ' ') ++ v), p⟩) ∧
    RowEnds (removeTokensQuotesAt ⟨u ++ (rowText (s.splitOn ' ') ++ v), p⟩ t) t 0 u (unquoteRow v (s.splitOn ' ')) := by
  obtain ⟨t, htokens, hshow⟩ := tokenize_row (p := p) u v hs hlen
  have hcount : (rowCells u.length (s.splitOn ' ')).length < 200 := by
    rw [← List.length_map (f := Prod.snd), rowCells_snd, ← pieces_eq_filter]
    exact hlen
  have hfrom : ShowsFrom t 0 (rowCells u.length (s.splitOn ' ')) := by
    refine ⟨fun k x hk => ?_, ?_⟩
    · rw [Nat.zero_add]
      exact hshow.ptr k x hk
    · rw [Nat.zero_add]
      exact hshow.null hcount
  have hclean : ∀ w ∈ s.splitOn ' ', nul ∉ w := fun w hw hn => hs (((splitOn_spec ' ' s).1 w hw).2 hn)
  exact ⟨t, htokens, tokenLoop_row hclean hfrom hcount⟩

/-- **Tokens.** They are the quoted texts of the words exactly when the row is clear. -/
theorem tokensQuoted_iff (h : Holds m.buf (p, s)) (hlen : (words s).length < 200) :
    TokensQuoted m p s ↔ Clear (m.buf.drop (p + s.length + 1)) (s.splitOn ' ') := by
  obtain ⟨u, rfl, hbuf⟩ := holds_split h
  generalize m.buf.drop (u.length + s.length + 1) = v at hbuf ⊢
  obtain ⟨b, saved⟩ := m
  obtain rfl : b = u ++ (s ++ nul :: v) := hbuf
  obtain ⟨t, htokens, hrun⟩ := tokens_row (p := saved) u v h.clean hlen
  rw [← unquoteRow_eq_iff, ← pieces_eq_filter]
  cases hrow : unquoteRow v (s.splitOn ' ') with
  | none =>
    rw [hrow] at hrun
    obtain ⟨e, he⟩ := hrun
    refine iff_of_false ?_ (by simp)
    rintro ⟨t0, m1, t', m2, htokens', hquotes, -⟩
    obtain ⟨rfl, rfl⟩ := Prod.mk.inj (Except.ok.inj (htokens.symm.trans htokens'))
    rw [he] at hquotes
    cases hquotes
  | some out =>
    rw [hrow] at hrun
    obtain ⟨t', r, p', hres, hdone⟩ := hrun
    have hlength : out.length = ((words s).map quoted).length := by
      rw [unquoteRow_length hrow, List.length_map, ← pieces_eq_filter]
    constructor
    · rintro ⟨t0, m1, t'', m2, htokens', hquotes, hlaw⟩
      obtain ⟨rfl, rfl⟩ := Prod.mk.inj (Except.ok.inj (htokens.symm.trans htokens'))
      obtain ⟨rfl, rfl⟩ := Prod.mk.inj (Except.ok.inj (hres.symm.trans hquotes))
      refine congrArg some (List.ext_getElem hlength fun k hk hk' => ?_)
      rw [List.length_map] at hk'
      obtain ⟨q, hq, hstr⟩ := hlaw k _ (List.getElem?_eq_getElem hk')
      obtain ⟨q', hq', hstr'⟩ := hdone.texts k _ (List.getElem?_eq_getElem hk)
      rw [Nat.zero_add, hq] at hq'
      obtain rfl : q = q' := Option.some.inj (Option.some.inj hq')
      rw [List.getElem_map, ← hstr, ← hstr']
    · intro hout
      obtain rfl := Option.some.inj hout
      refine ⟨t, _, t', _, htokens, hres, fun i w hw => ?_⟩
      obtain ⟨q, hq, hstr⟩ := hdone.texts i (quoted w) (by rw [List.getElem?_map, hw]; rfl)
      rw [Nat.zero_add] at hq
      exact ⟨q, hq, hstr⟩

end DecsLabs.Shell
