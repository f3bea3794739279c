/-
The file names of a command in the buffer that they share. The names may be anywhere in it, in any order, and a scan that
starts behind a lone quote may stop in the other name.

- `filesQuoted_iff`: exactly when both names become their quoted texts.
- `quotesAlone_iff`: the same for tokens and file names.
-/
import DecsLabs.Shell.QuotedTokens

namespace DecsLabs.Shell

open DecsLabs.CString

variable {m : Mem} {p : ℕ} {s w : List Char}

/-! ## Files -/

/-- what the block does with the place where the scan has stopped -/
def cutQuote (b : List Char) (r : ℕ) : List Char := if b[r]? = some '"' then b.set r nul else b

/-- a cut is a stop like the quote that was there -/
theorem stopAt_cutQuote (b : List Char) (r k : ℕ) : StopAt (cutQuote b r) k ↔ StopAt b k := by
  unfold cutQuote
  split_ifs with hq
  · by_cases hk : k = r
    · subst hk
      have hlt : k < b.length := (List.getElem?_eq_some_iff.1 hq).1
      refine iff_of_true ⟨nul, by simp [hlt], .inr rfl⟩ ⟨'"', hq, .inl rfl⟩
    · rw [StopAt, List.getElem?_set_ne (Ne.symm hk)]
      rfl
  · rfl

theorem scanQuote_cutQuote (b : List Char) (r i : ℕ) :
    scanQuote (cutQuote b r) (cutQuote b r).length i = scanQuote b b.length i := by
  refine Option.ext fun k => ?_
  rw [scanQuote_eq_some_iff (Nat.le_add_right _ _), scanQuote_eq_some_iff (Nat.le_add_right _ _)]
  simp only [stopAt_cutQuote]

/-- a string after a cut somewhere in the buffer -/
theorem holds_cutQuote {b : List Char} {r : ℕ} (h : Holds b (p, s)) :
    Holds (cutQuote b r) (p, if p ≤ r ∧ b[r]? = some '"' then s.take (r - p) else s) := by
  unfold cutQuote
  by_cases hq : b[r]? = some '"'
  · simp only [hq, and_true, if_true]
    by_cases hp : p ≤ r
    · rw [if_pos hp]
      obtain ⟨k, rfl⟩ := Nat.exists_eq_add_of_le hp
      rw [Nat.add_sub_cancel_left]
      by_cases hk : k < s.length
      · have hcut : s = s.take k ++ s[k] :: s.drop (k + 1) := by simp
        have hlen : (s.take k).length = k := List.length_take_of_le hk.le
        have hcell := (hcut ▸ h : Holds b (p, s.take k ++ s[k] :: s.drop (k + 1))).cut.1
        rwa [hlen] at hcell
      · rw [List.take_of_length_le (Nat.not_lt.1 hk)]
        refine h.of_same fun i h1 h2 => List.getElem?_set_ne ?_
        rintro rfl
        obtain rfl : k = s.length := by
          dsimp only at h2
          omega
        rw [h.get le_rfl] at hq
        simp [nul] at hq
    · rw [if_neg hp]
      exact h.of_same fun i h1 _ => List.getElem?_set_ne fun hi => hp (h1.trans_eq hi.symm)
  · simp only [hq, and_false, if_false]
    exact h

/-- the scan for the lone quote `c` stops at a quote of `d` -/
def Hits (b : List Char) (c d : Cell) : Prop :=
  c.2 = ['"'] ∧ ∃ r ∈ scanQuote b b.length (c.1 + 2), b[r]? = some '"' ∧ d.1 ≤ r ∧ r < d.1 + d.2.length

instance (b : List Char) (c d : Cell) : Decidable (Hits b c d) := inferInstanceAs (Decidable (_ ∧ _))

/-- a string that is not followed by its own closing quote at once, and whose scan ends in the buffer -/
def Sound (b : List Char) (c : Cell) : Prop :=
  ¬ ['"', '"'] <+: c.2 ∧ (c.2 = ['"'] → scanQuote b b.length (c.1 + 2) ≠ none)

instance (b : List Char) (c : Cell) : Decidable (Sound b c) := inferInstanceAs (Decidable (_ ∧ _))

/-- Each file name is sound, and neither is cut by the scan for the other; a name that begins with a quote may be cut
there when nothing of it would be left (the second) or when it has been unquoted before (the first). -/
def FilesClear (b : List Char) : Option Cell → Option Cell → Prop
  | none, none => True
  | some x, none => Sound b x
  | none, some y => Sound b y
  | some x, some y => Sound b x ∧
    if Hits b x y then y.2.head? = some '"' ∧ quoted y.2 = []
    else Sound b y ∧ (Hits b y x → x.2.head? = some '"')

instance (b : List Char) : (x y : Option Cell) → Decidable (FilesClear b x y)
  | none, none => isTrue trivial
  | some x, none => inferInstanceAs (Decidable (Sound b x))
  | none, some y => inferInstanceAs (Decidable (Sound b y))
  | some x, some y => inferInstanceAs (Decidable (Sound b x ∧ if Hits b x y then y.2.head? = some '"' ∧ quoted y.2 = []
      else Sound b y ∧ (Hits b y x → x.2.head? = some '"')))

/-- what the block leaves of a string -/
def ownText (w : List Char) : List Char := if w = ['"'] then [] else unquote w

section Files

variable {b : List Char} {c d x y : Cell} {r : ℕ}

theorem quoted_plain (h : w.head? ≠ some '"') : quoted w = w := by
  unfold quoted
  split
  · exact absurd rfl h
  · rfl

theorem ownText_eq_quoted_iff (w : List Char) : ownText w = quoted w ↔ ¬ ['"', '"'] <+: w := by
  unfold ownText
  split_ifs with hlone
  · rw [hlone]
    exact iff_of_true rfl (by decide)
  · exact unquote_eq_quoted_iff hlone

theorem length_ownText_le (w : List Char) : (ownText w).length ≤ w.length := by
  unfold ownText unquote
  split_ifs
  · exact Nat.zero_le _
  · split
    · rw [List.length_cons, List.length_cons, List.length_cons]
      exact Nat.succ_le_succ (Nat.le_succ_of_le (List.takeWhile_sublist _).length_le)
    · exact le_rfl

theorem removeQuotesAt_cell (h : Holds m.buf c) : removeQuotesAt m c.1 =
    if c.2.head? = some '"' then match scanQuote m.buf m.buf.length (c.1 + 2) with
      | none => .error .beyondTerminator
      | some r => .ok (c.1 + 1, { m with buf := cutQuote m.buf r })
    else .ok (c.1, m) := by
  have hhead : m.buf[c.1]? = some '"' ↔ c.2.head? = some '"' := by
    rw [show m.buf[c.1]? = (c.2 ++ [nul])[0]? from h.get (Nat.zero_le _)]
    cases c.2 with
    | nil => simp [nul]
    | cons a t => simp
  unfold removeQuotesAt cutQuote
  by_cases hq : c.2.head? = some '"'
  · rw [if_pos (hhead.2 hq), if_pos hq]
    cases scanQuote m.buf m.buf.length (c.1 + 2) with
    | none => rfl
    | some r => by_cases hr : m.buf[r]? = some '"' <;> simp [hr]
  · rw [if_neg (mt hhead.1 hq), if_neg hq]

/-- the string itself after its block -/
theorem holds_ownText (h : Holds b c) (hq : c.2.head? = some '"') (hr : scanQuote b b.length (c.1 + 2) = some r) :
    Holds (cutQuote b r) (c.1 + 1, ownText c.2) := by
  obtain ⟨p, s⟩ := c
  obtain ⟨t, rfl⟩ : ∃ t, s = '"' :: t := by
    cases s with
    | nil => cases hq
    | cons a t => exact ⟨t, congrArg (· :: t) (Option.some.inj hq)⟩
  have hsuffix : Holds b (p, ['"'] ++ t) := h
  have hcell := holds_cutQuote (r := r) hsuffix.suffix
  by_cases hlone : t = []
  · rw [ownText, if_pos (congrArg _ hlone)]
    simpa [hlone] using hcell
  · have hlone' : '"' :: t ≠ ['"'] := fun h => hlone (List.cons.inj h).2
    -- the block for the word alone has found the same place
    obtain ⟨u, hu, hb⟩ := holds_split h
    obtain ⟨q, v, hrun, -, hleaves⟩ :=
      removeQuotesAt_word (u := u) (p := p) h.clean hlone' (b.drop (p + ('"' :: t).length + 1))
    have hsame := removeQuotesAt_cell (m := ⟨b, p⟩) h
    simp only [if_pos hq, hr] at hsame
    rw [← hb, hu, hsame] at hrun
    obtain ⟨hp, hbuf⟩ := Prod.mk.inj (Except.ok.inj hrun)
    have hstr := hleaves (b.drop (p + ('"' :: t).length + 1))
    rw [← (Mem.mk.inj hbuf).1, ← hp] at hstr
    rw [ownText, if_neg hlone', ← hstr, ← List.length_singleton (a := '"'), hcell.str_eq]
    exact hcell

/-- a scan that stops behind `c`, in `d`, has started at a lone quote -/
theorem cut_of_not_hits (h : Held b [c, d]) (hq : c.2.head? = some '"') (hr : scanQuote b b.length (c.1 + 2) = some r)
    (hd : ¬ Hits b c d) : (if d.1 ≤ r ∧ b[r]? = some '"' then d.2.take (r - d.1) else d.2) = d.2 := by
  split_ifs with hcut
  · apply List.take_of_length_le
    by_contra hlt
    have hin : r < d.1 + d.2.length := by omega
    obtain ⟨hle, hstop, hbefore⟩ := (scanQuote_eq_some_iff (Nat.le_add_right _ _)).1 hr
    refine hd ⟨?_, r, hr, hcut.2, hcut.1, hin⟩
    by_contra hlone
    have hlen : 2 ≤ c.2.length := by
      rcases hw : c.2 with _ | ⟨a, _ | ⟨a', t⟩⟩
      · rw [hw] at hq
        cases hq
      · rw [hw] at hq hlone
        exact absurd (congrArg (· :: []) (Option.some.inj hq)) hlone
      · simp
    -- the terminator of `c` stops the scan
    have hend : StopAt b (c.1 + c.2.length) := ⟨nul, by rw [h.head.get le_rfl]; simp, .inr rfl⟩
    have hr' : r ≤ c.1 + c.2.length := by
      by_contra hgt
      exact hbefore _ (by omega) (by omega) hend
    have happart : Apart c d := (List.pairwise_cons.1 h.apart).1 d (by simp)
    unfold Apart at happart
    omega
  · rfl

theorem cut_of_hits (hr : scanQuote b b.length (c.1 + 2) = some r) (hd : Hits b c d) :
    (if d.1 ≤ r ∧ b[r]? = some '"' then d.2.take (r - d.1) else d.2) = d.2.take (r - d.1) ∧
      d.1 ≤ r ∧ r < d.1 + d.2.length := by
  obtain ⟨-, r', hr', hquote, hle, hlt⟩ := hd
  obtain rfl : r = r' := Option.some.inj (hr.symm.trans hr')
  exact ⟨if_pos ⟨hle, hquote⟩, hle, hlt⟩

/-- a scan that starts in front of a string stops at its first character if that is a quote -/
theorem stops_at_start (h : Holds b d) (hq : d.2.head? = some '"') {i : ℕ} (hi : i ≤ d.1)
    (hr : scanQuote b b.length i = some r) :
    r ≤ d.1 := by
  obtain ⟨-, -, hbefore⟩ := (scanQuote_eq_some_iff (Nat.le_add_right _ _)).1 hr
  by_contra hgt
  refine hbefore d.1 hi (Nat.lt_of_not_le hgt) ⟨'"', ?_, .inl rfl⟩
  rw [show b[d.1]? = (d.2 ++ [nul])[0]? from h.get (Nat.zero_le _)]
  cases hw : d.2 with
  | nil =>
    rw [hw] at hq
    cases hq
  | cons a t =>
    rw [hw] at hq
    exact hq

theorem sound_of_plain (h : c.2.head? ≠ some '"') : Sound b c := by
  constructor
  · rintro ⟨t, ht⟩
    exact h (by rw [← ht]; rfl)
  · intro hlone
    rw [hlone] at h
    exact absurd rfl h

theorem sound_iff (hr : scanQuote b b.length (c.1 + 2) = some r) : Sound b c ↔ ownText c.2 = quoted c.2 := by
  rw [ownText_eq_quoted_iff]
  exact and_iff_left fun _ => by simp [hr]

/-- a scan that leaves the buffer is that for a lone quote -/
theorem not_sound (h : Holds b c) (hq : c.2.head? = some '"') (hr : scanQuote b b.length (c.1 + 2) = none) :
    ¬ Sound b c := by
  intro hs
  refine hs.2 ?_ hr
  by_contra hlone
  obtain ⟨u, hu, hb⟩ := holds_split h
  obtain ⟨q, v, hrun, -⟩ := removeQuotesAt_word (u := u) (p := 0) h.clean hlone (b.drop (c.1 + c.2.length + 1))
  have hsame := removeQuotesAt_cell (m := ⟨b, 0⟩) h
  simp only [if_pos hq, hr] at hsame
  rw [← hb, hu, hsame] at hrun
  cases hrun

end Files

/-- each file name becomes its quoted text -/
def FilesQuoted (m : Mem) (x y : Option Cell) : Prop :=
  ∃ file m', removeFilesQuotesAt m ⟨x.map Prod.fst, y.map Prod.fst⟩ = .ok (file, m') ∧
    file.input.map (str m'.buf) = x.map (fun c => quoted c.2) ∧ file.output.map (str m'.buf) = y.map (fun c => quoted c.2)

section FilesQuoted

variable {m1 m2 : Mem} {x y : Cell} {q1 q2 r : ℕ} {e : Fault}

theorem removeQuotesAt_cut (h : Holds m.buf x) (hq : x.2.head? = some '"')
    (hr : scanQuote m.buf m.buf.length (x.1 + 2) = some r) :
    removeQuotesAt m x.1 = .ok (x.1 + 1, { m with buf := cutQuote m.buf r }) := by
  rw [removeQuotesAt_cell h, if_pos hq, hr]

theorem removeQuotesAt_leaves (h : Holds m.buf x) (hq : x.2.head? = some '"')
    (hr : scanQuote m.buf m.buf.length (x.1 + 2) = none) : removeQuotesAt m x.1 = .error .beyondTerminator := by
  rw [removeQuotesAt_cell h, if_pos hq, hr]

theorem removeQuotesAt_skips (h : Holds m.buf x) (hq : x.2.head? ≠ some '"') : removeQuotesAt m x.1 = .ok (x.1, m) := by
  rw [removeQuotesAt_cell h, if_neg hq]

theorem filesQuoted_run (h1 : removeQuotesAt m x.1 = .ok (q1, m1)) (h2 : removeQuotesAt m1 y.1 = .ok (q2, m2)) :
    FilesQuoted m (some x) (some y) ↔ str m2.buf q1 = quoted x.2 ∧ str m2.buf q2 = quoted y.2 := by
  have hrun : removeFilesQuotesAt m ⟨some x.1, some y.1⟩ = .ok (⟨some q1, some q2⟩, m2) := by
    simp [removeFilesQuotesAt, fileBlock, h1, h2, bind, Except.bind, pure, Except.pure]
  simp [FilesQuoted, hrun]

theorem filesQuoted_fault (h : removeQuotesAt m x.1 = .error e ∨
    ∃ q1 m1, removeQuotesAt m x.1 = .ok (q1, m1) ∧ removeQuotesAt m1 y.1 = .error e) : ¬ FilesQuoted m (some x) (some y) := by
  have hrun : removeFilesQuotesAt m ⟨some x.1, some y.1⟩ = .error e := by
    rcases h with h1 | ⟨q1, m1, h1, h2⟩
    · simp [removeFilesQuotesAt, fileBlock, h1, bind, Except.bind]
    · simp [removeFilesQuotesAt, fileBlock, h1, h2, bind, Except.bind, pure, Except.pure]
  simp [FilesQuoted, hrun]

/-- one file name -/
theorem fileQuoted_iff (h : Holds m.buf x) :
    (∃ q m', removeQuotesAt m x.1 = .ok (q, m') ∧ str m'.buf q = quoted x.2) ↔ Sound m.buf x := by
  by_cases hx : x.2.head? = some '"'
  · cases hr : scanQuote m.buf m.buf.length (x.1 + 2) with
    | none =>
      rw [removeQuotesAt_leaves h hx hr]
      exact iff_of_false (by simp) (not_sound h hx hr)
    | some r =>
      rw [removeQuotesAt_cut h hx hr, sound_iff hr]
      simp [(holds_ownText h hx hr).str_eq]
  · rw [removeQuotesAt_skips h hx]
    refine iff_of_true ⟨x.1, m, rfl, ?_⟩ (sound_of_plain hx)
    rw [h.str_eq, quoted_plain hx]

/-- the second name is cut by the scan for the first -/
theorem filesQuoted_hit (h : Held m.buf [x, y]) (hx : x.2.head? = some '"')
    (hr : scanQuote m.buf m.buf.length (x.1 + 2) = some r) (hhit : Hits m.buf x y) :
    FilesQuoted m (some x) (some y) ↔ Sound m.buf x ∧ y.2.head? = some '"' ∧ quoted y.2 = [] := by
  have hy : Holds m.buf y := h.holds y (by simp)
  have hy1 : Holds (cutQuote m.buf r) _ := holds_cutQuote (r := r) hy
  obtain ⟨hcut, hle, hlt⟩ := cut_of_hits hr hhit
  rw [hcut] at hy1
  have hstart : y.2.head? = some '"' → r = y.1 := by
    intro hyq
    refine le_antisymm (stops_at_start hy hyq ?_ hr) hle
    have happart : Apart x y := (List.pairwise_cons.1 h.apart).1 y (by simp)
    obtain ⟨hle', -⟩ := (scanQuote_eq_some_iff (Nat.le_add_right _ _)).1 hr
    have hlen : x.2.length = 1 := congrArg List.length hhit.1
    unfold Apart at happart
    omega
  have hplain : (y.2.take (r - y.1)).head? ≠ some '"' := by
    intro hhead
    have hyq : y.2.head? = some '"' := by
      rw [List.head?_take] at hhead
      split_ifs at hhead
      exact hhead
    rw [hstart hyq, Nat.sub_self] at hhead
    cases hhead
  have hsecond : removeQuotesAt ⟨cutQuote m.buf r, m.saved⟩ y.1 = .ok (y.1, ⟨cutQuote m.buf r, m.saved⟩) :=
    removeQuotesAt_skips (m := ⟨cutQuote m.buf r, m.saved⟩) (x := (y.1, y.2.take (r - y.1))) hy1 hplain
  rw [filesQuoted_run (removeQuotesAt_cut h.head hx hr) hsecond, hy1.str_eq, (holds_ownText h.head hx hr).str_eq,
    sound_iff hr]
  refine and_congr_right fun _ => ⟨fun htext => ?_, fun hy0 => ?_⟩
  · by_cases hyq : y.2.head? = some '"'
    · refine ⟨hyq, ?_⟩
      rw [← htext, hstart hyq, Nat.sub_self]
      rfl
    · rw [quoted_plain hyq] at htext
      have hlen := congrArg List.length htext
      simp only [List.length_take] at hlen
      omega
  · rw [hy0.2, hstart hy0.1, Nat.sub_self]
    rfl

/-- the first name begins with a quote, and its scan does not reach the second -/
theorem filesQuoted_miss (h : Held m.buf [x, y]) (hx : x.2.head? = some '"')
    (hr : scanQuote m.buf m.buf.length (x.1 + 2) = some r) (hmiss : ¬ Hits m.buf x y) :
    FilesQuoted m (some x) (some y) ↔ Sound m.buf x ∧ Sound m.buf y := by
  have hy : Holds m.buf y := h.holds y (by simp)
  have hx1 := holds_ownText h.head hx hr
  have hy1 : Holds (cutQuote m.buf r) y := by
    have hcell := holds_cutQuote (r := r) hy
    rwa [cut_of_not_hits h hx hr hmiss] at hcell
  have hfirst := removeQuotesAt_cut h.head hx hr
  by_cases hyq : y.2.head? = some '"'
  · have hsame := scanQuote_cutQuote m.buf r (y.1 + 2)
    cases hr2 : scanQuote m.buf m.buf.length (y.1 + 2) with
    | none =>
      rw [hr2] at hsame
      refine iff_of_false (filesQuoted_fault (.inr ⟨_, _, hfirst, removeQuotesAt_leaves hy1 hyq hsame⟩)) ?_
      exact fun hs => not_sound hy hyq hr2 hs.2
    | some r2 =>
      rw [hr2] at hsame
      have hx2 := holds_cutQuote (r := r2) hx1
      have hkept : (if x.1 + 1 ≤ r2 ∧ (cutQuote m.buf r)[r2]? = some '"' then (ownText x.2).take (r2 - (x.1 + 1))
          else ownText x.2) = ownText x.2 := by
        split_ifs with hcut
        · apply List.take_of_length_le
          have hlen := length_ownText_le x.2
          obtain ⟨hle, -⟩ := (scanQuote_eq_some_iff (Nat.le_add_right _ _)).1 hr2
          have happart : Apart x y := (List.pairwise_cons.1 h.apart).1 y (by simp)
          rcases happart with hbefore | hbehind
          · omega
          · have hpos : 0 < y.2.length := List.length_pos_of_mem (List.mem_of_mem_head? hyq)
            have hstop := stops_at_start h.head hx (by omega) hr2
            omega
        · rfl
      rw [hkept] at hx2
      rw [filesQuoted_run hfirst (removeQuotesAt_cut hy1 hyq hsame), hx2.str_eq, (holds_ownText hy1 hyq hsame).str_eq,
        sound_iff hr, sound_iff hr2]
  · rw [filesQuoted_run hfirst (removeQuotesAt_skips hy1 hyq), hx1.str_eq, hy1.str_eq, quoted_plain hyq, sound_iff hr]
    simp [sound_of_plain hyq]

/-- the first name does not begin with a quote -/
theorem filesQuoted_plain (h : Held m.buf [x, y]) (hx : x.2.head? ≠ some '"') :
    FilesQuoted m (some x) (some y) ↔ Sound m.buf y ∧ ¬ Hits m.buf y x := by
  have hy : Holds m.buf y := h.holds y (by simp)
  have hfirst := removeQuotesAt_skips h.head hx
  by_cases hyq : y.2.head? = some '"'
  · cases hr : scanQuote m.buf m.buf.length (y.1 + 2) with
    | none =>
      refine iff_of_false (filesQuoted_fault (.inr ⟨_, _, hfirst, removeQuotesAt_leaves hy hyq hr⟩)) ?_
      exact fun hs => not_sound hy hyq hr hs.1
    | some r =>
      have hx1 := holds_cutQuote (r := r) h.head
      rw [filesQuoted_run hfirst (removeQuotesAt_cut hy hyq hr), hx1.str_eq, (holds_ownText hy hyq hr).str_eq,
        sound_iff hr, quoted_plain hx, and_comm]
      refine and_congr_right fun _ => ?_
      by_cases hhit : Hits m.buf y x
      · obtain ⟨hcut, hle, hlt⟩ := cut_of_hits hr hhit
        refine iff_of_false (fun htext => ?_) (fun hn => hn hhit)
        rw [hcut] at htext
        have hlen := congrArg List.length htext
        simp only [List.length_take] at hlen
        omega
      · have hsym : Held m.buf [y, x] := h.perm (List.Perm.swap _ _ _)
        exact iff_of_true (cut_of_not_hits hsym hyq hr hhit) hhit
  · rw [filesQuoted_run hfirst (removeQuotesAt_skips hy hyq), h.head.str_eq, hy.str_eq, quoted_plain hx, quoted_plain hyq]
    refine iff_of_true ⟨rfl, rfl⟩ ⟨sound_of_plain hyq, fun hhit => hyq ?_⟩
    rw [hhit.1]
    rfl

/-- **File names.** -/
theorem filesQuoted_iff {x y : Option Cell} (h : Held m.buf (x.toList ++ y.toList)) :
    FilesQuoted m x y ↔ FilesClear m.buf x y := by
  cases x with
  | none =>
    cases y with
    | none => simp [FilesQuoted, FilesClear, removeFilesQuotesAt, fileBlock, bind, Except.bind, pure, Except.pure]
    | some y =>
      have hy : Holds m.buf y := h.holds y (by simp)
      rw [FilesClear, ← fileQuoted_iff hy]
      cases hrun : removeQuotesAt m y.1 with
      | error e => simp [FilesQuoted, removeFilesQuotesAt, fileBlock, hrun, bind, Except.bind]
      | ok r => simp [FilesQuoted, removeFilesQuotesAt, fileBlock, hrun, bind, Except.bind, pure, Except.pure, Prod.ext_iff]
  | some x =>
    have hx : Holds m.buf x := h.holds x (by simp)
    cases y with
    | none =>
      rw [FilesClear, ← fileQuoted_iff hx]
      cases hrun : removeQuotesAt m x.1 with
      | error e => simp [FilesQuoted, removeFilesQuotesAt, fileBlock, hrun, bind, Except.bind]
      | ok r => simp [FilesQuoted, removeFilesQuotesAt, fileBlock, hrun, bind, Except.bind, pure, Except.pure, Prod.ext_iff]
    | some y =>
      have hxy : Held m.buf [x, y] := h
      rw [FilesClear]
      by_cases hq : x.2.head? = some '"'
      · cases hr : scanQuote m.buf m.buf.length (x.1 + 2) with
        | none =>
          refine iff_of_false (filesQuoted_fault (.inl (removeQuotesAt_leaves hx hq hr))) ?_
          intro hsound
          exact not_sound hx hq hr hsound.1
        | some r =>
          by_cases hhit : Hits m.buf x y
          · rw [if_pos hhit]
            exact filesQuoted_hit hxy hq hr hhit
          · rw [if_neg hhit, and_iff_left fun _ => hq]
            exact filesQuoted_miss hxy hq hr hhit
      · have hmiss : ¬ Hits m.buf x y := fun hhit => hq (by rw [hhit.1]; rfl)
        rw [if_neg hmiss, and_iff_right (sound_of_plain hq), filesQuoted_plain hxy hq]
        exact and_congr_right fun _ => ⟨fun hn hhit => absurd hhit hn, fun hn hhit => hq (hn hhit)⟩

end FilesQuoted

/-! ## Quote removal acts on each string alone -/

/-- **Quoted texts.** The tokens of a command and the two file names become the quoted texts of the words exactly when
their rows are clear. -/
theorem quotesAlone_iff (m : Mem) :
    (∀ p s, Holds m.buf (p, s) → (words s).length < 200 →
      (TokensQuoted m p s ↔ Clear (m.buf.drop (p + s.length + 1)) (s.splitOn ' '))) ∧
    ∀ x y : Option Cell, Held m.buf (x.toList ++ y.toList) → (FilesQuoted m x y ↔ FilesClear m.buf x y) :=
  ⟨fun _ _ h hlen => tokensQuoted_iff h hlen, fun _ _ h => filesQuoted_iff h⟩

/-- the removal is right about `echo "a b"`, whose words are `"a` and `b"`, and about a file name in quotes -/
theorem quotesAlone_iff_example :
    TokensQuoted ⟨"echo \"a b\"".toList ++ [nul], 0⟩ 0 "echo \"a b\"".toList ∧
      FilesQuoted ⟨"\"f\"".toList ++ [nul], 0⟩ (some (0, "\"f\"".toList)) none := by
  constructor
  · have hrow : "echo \"a b\"".toList.splitOn ' ' = ["echo".toList, "\"a".toList, "b\"".toList] := by decide
    refine ((quotesAlone_iff _).1 0 _ (Holds.alone (by decide)) (by decide)).2 ?_
    rw [hrow, clear_word (by decide), clear_word (by decide), clear_word (by decide)]
    exact ⟨by decide, by decide, by decide, trivial⟩
  · have hheld : Held ("\"f\"".toList ++ [nul]) [(0, "\"f\"".toList)] := Held.alone (by decide)
    exact ((quotesAlone_iff _).2 (some (0, "\"f\"".toList)) none hheld).2 (by decide)

/-- the token for the word `""` of `echo ""` is a quote, not the empty text -/
theorem empty_quotes : ¬ ((∀ m p s, Holds m.buf (p, s) → (words s).length < 200 → TokensQuoted m p s) ∧
    ∀ (m : Mem) (x y : Option Cell), Held m.buf (x.toList ++ y.toList) → FilesQuoted m x y) := by
  intro hclaim
  have hholds : Holds (⟨"echo \"\"".toList ++ [nul], 0⟩ : Mem).buf (0, "echo \"\"".toList) := Holds.alone (by decide)
  have hlen : (words "echo \"\"".toList).length < 200 := by decide
  have hrow : "echo \"\"".toList.splitOn ' ' = ["echo".toList, "\"\"".toList] := by decide
  have hclear := hclaim.1 ⟨"echo \"\"".toList ++ [nul], 0⟩ 0 "echo \"\"".toList hholds hlen
  rw [tokensQuoted_iff hholds hlen, hrow, clear_word (by decide), clear_word (by decide)] at hclear
  exact hclear.2.1 (by decide)

end DecsLabs.Shell
