/-
The removal of quotes in a buffer that all strings share. The scan for the closing quote starts two characters behind the
opening one, so behind a quote that is alone it starts in what follows the terminator. `Commands` counts that as a fault;
here the scan goes on in the buffer, as in the memory, and only the end of the buffer stops it.

- `removeQuotesAt`: the block that the removals of quotes repeat.
- `scanQuote_eq_some_iff`: where a scan stops.
- `removeQuotesAt_word`: a word that is not a lone quote is unquoted in its own place.
- `tokensQuotes_eq`, `filesQuotes_eq`: without lone quotes, the functions are those of `Commands`.
-/
import DecsLabs.Shell.Arrays
import DecsLabs.Shell.Removal

namespace DecsLabs.Shell

open DecsLabs.CString

variable {m m' : Mem} {b : List Char} {p q : ℕ} {s u v w : List Char} {l : List Cell}

/-! ## Model -/

/-- `while (s[j] != '"') { if (s[j] == '\0') break; j++; }`, wherever the terminators of the strings are -/
def scanQuote (b : List Char) : ℕ → ℕ → Option ℕ
  | 0, _ => none
  | n + 1, i =>
    match b[i]? with
    | none => none
    | some c => if c = '"' ∨ c = nul then some i else scanQuote b n (i + 1)

/-- the block for the string at `p`; a scan that leaves the buffer is a fault -/
def removeQuotesAt (m : Mem) (p : ℕ) : Except Fault (ℕ × Mem) :=
  if m.buf[p]? = some '"' then
    match scanQuote m.buf m.buf.length (p + 2) with
    | none => .error .beyondTerminator
    | some r => .ok (p + 1, if m.buf[r]? = some '"' then { m with buf := m.buf.set r nul } else m)
  else .ok (p, m)

def removeTokensQuotesAt (m : Mem) (strToken : Slots ℕ) : Except Fault (Slots ℕ × Mem) :=
  tokenLoop removeQuotesAt 200 0 strToken m

def removeFilesQuotesAt (m : Mem) (file : Files ℕ) : Except Fault (Files ℕ × Mem) := do
  let (inp, m) ← fileBlock removeQuotesAt m file.input
  let (out, m) ← fileBlock removeQuotesAt m file.output
  return (⟨inp, out⟩, m)

/-! ## The scan -/

/-- the characters that end a scan -/
def Stops (c : Char) : Prop := c = '"' ∨ c = nul

instance (c : Char) : Decidable (Stops c) := inferInstanceAs (Decidable (_ ∨ _))

/-- a search of the text, not of all characters -/
instance (l : List Char) : Decidable (∃ c ∈ l, Stops c) := List.decidableBEx Stops l

theorem scanQuote_step {n : ℕ} {c : Char} (hc : ¬ Stops c) :
    scanQuote (u ++ c :: v) (n + 1) u.length = scanQuote (u ++ [c] ++ v) n (u ++ [c]).length := by
  have hget : (u ++ c :: v)[u.length]? = some c := by simp
  rw [scanQuote, hget]
  simp only [if_neg (show ¬ (c = '"' ∨ c = nul) from hc)]
  simp

theorem scanQuote_found {n : ℕ} {c : Char} (hv : ∀ x ∈ v, ¬ Stops x) (hc : Stops c) (hn : v.length < n) :
    scanQuote (u ++ (v ++ c :: w)) n u.length = some (u.length + v.length) := by
  induction v generalizing u n with
  | nil =>
    obtain ⟨n, rfl⟩ := Nat.exists_eq_succ_of_ne_zero (Nat.pos_iff_ne_zero.1 hn)
    have hget : (u ++ ([] ++ c :: w))[u.length]? = some c := by simp
    rw [scanQuote, hget]
    exact if_pos hc
  | cons x v ih =>
    obtain ⟨n, rfl⟩ := Nat.exists_eq_succ_of_ne_zero (Nat.pos_iff_ne_zero.1 (Nat.zero_lt_of_lt hn))
    have hrest := ih (u := u ++ [x]) (n := n) (fun y hy => hv y (List.mem_cons_of_mem _ hy))
      (Nat.lt_of_succ_lt_succ hn)
    rw [List.cons_append, scanQuote_step (hv x List.mem_cons_self), hrest, List.length_append, List.length_singleton,
      List.length_cons, Nat.add_assoc, Nat.add_comm 1]

theorem scanQuote_none {n : ℕ} (hv : ∀ x ∈ v, ¬ Stops x) : scanQuote (u ++ v) n u.length = none := by
  induction v generalizing u n with
  | nil =>
    cases n with
    | zero => rfl
    | succ n => simp [scanQuote]
  | cons x v ih =>
    cases n with
    | zero => rfl
    | succ n =>
      rw [scanQuote_step (hv x List.mem_cons_self)]
      exact ih fun y hy => hv y (List.mem_cons_of_mem _ hy)

/-- a text up to its first stop, if it has one -/
theorem exists_stop (v : List Char) : (∀ x ∈ v, ¬ Stops x) ∨
    ∃ y c z, v = y ++ c :: z ∧ (∀ x ∈ y, ¬ Stops x) ∧ Stops c := by
  induction v with
  | nil => exact .inl (by simp)
  | cons x v ih =>
    by_cases hx : Stops x
    · exact .inr ⟨[], x, v, rfl, by simp, hx⟩
    rcases ih with hv | ⟨y, c, z, rfl, hy, hc⟩
    · exact .inl (List.forall_mem_cons.2 ⟨hx, hv⟩)
    · exact .inr ⟨x :: y, c, z, rfl, List.forall_mem_cons.2 ⟨hx, hy⟩, hc⟩

/-- a scan that reads `b` at `k` stops -/
def StopAt (b : List Char) (k : ℕ) : Prop := ∃ c, b[k]? = some c ∧ Stops c

theorem StopAt.lt_length {b : List Char} {k : ℕ} (h : StopAt b k) : k < b.length := by
  obtain ⟨c, hget, -⟩ := h
  exact (List.getElem?_eq_some_iff.1 hget).1

/-- **Where a scan stops.** -/
theorem scanQuote_eq_some_iff {b : List Char} {n i r : ℕ} (hn : b.length ≤ n + i) : scanQuote b n i = some r ↔
    i ≤ r ∧ StopAt b r ∧ ∀ k, i ≤ k → k < r → ¬ StopAt b k := by
  induction n generalizing i with
  | zero =>
    refine iff_of_false (by simp [scanQuote]) ?_
    rintro ⟨hle, hstop, -⟩
    have := hstop.lt_length
    omega
  | succ n ih =>
    have hrest := ih (i := i + 1) (by omega)
    rw [scanQuote]
    cases hget : b[i]? with
    | none =>
      refine iff_of_false (by simp) ?_
      rintro ⟨hle, hstop, -⟩
      have := hstop.lt_length
      rw [List.getElem?_eq_none_iff] at hget
      omega
    | some c =>
      by_cases hc : Stops c
      · have hi : StopAt b i := ⟨c, hget, hc⟩
        simp only [if_pos (show c = '"' ∨ c = nul from hc), Option.some.injEq]
        constructor
        · rintro rfl
          exact ⟨le_rfl, hi, fun k h1 h2 => absurd h2 (Nat.not_lt.2 h1)⟩
        · rintro ⟨hle, -, hbefore⟩
          by_contra hne
          exact hbefore i le_rfl (Nat.lt_of_le_of_ne hle hne) hi
      · have hi : ¬ StopAt b i := by
          rintro ⟨c', hget', hc'⟩
          rw [hget] at hget'
          exact hc (Option.some.inj hget' ▸ hc')
        simp only [if_neg (show ¬ (c = '"' ∨ c = nul) from hc)]
        rw [hrest]
        constructor
        · rintro ⟨hle, hstop, hbefore⟩
          refine ⟨Nat.le_of_succ_le hle, hstop, fun k h1 h2 => ?_⟩
          rcases h1.eq_or_lt with rfl | h1
          · exact hi
          · exact hbefore k h1 h2
        · rintro ⟨hle, hstop, hbefore⟩
          have hne : i ≠ r := fun h => hi (h ▸ hstop)
          exact ⟨Nat.lt_of_le_of_ne hle hne, hstop, fun k h1 h2 => hbefore k (Nat.le_of_succ_le h1) h2⟩

/-! ## One string -/

/-- the characters in front of a quote stop no scan, nor do those of a word without one -/
theorem not_stops {y : List Char} (hq : '"' ∉ y) (hn : nul ∉ y) : ∀ x ∈ y, ¬ Stops x := by
  intro x hx hstop
  rcases hstop with rfl | rfl
  · exact hq hx
  · exact hn hx

/-- the text after the quote that a word begins with, up to the next quote; another word as it is -/
def quoted : List Char → List Char
  | '"' :: t => t.takeWhile (· != '"')
  | w => w

/-- what the block leaves at the place `u.length` of a string, in `r`, whatever follows -/
def Leaves (u r : List Char) (q : ℕ) (w : List Char) : Prop := ∀ v, str (u ++ (r ++ v)) q = w

theorem leaves (u x : List Char) {w : List Char} (y : List Char) (hw : nul ∉ w) :
    Leaves u (x ++ (w ++ nul :: y)) (u.length + x.length) w := by
  intro v
  have hsplit : u ++ (x ++ (w ++ nul :: y) ++ v) = (u ++ x) ++ (w ++ nul :: (y ++ v)) := by simp
  rw [hsplit, ← List.length_append]
  exact str_at (u ++ x) w (y ++ v) hw

/-- a string that does not begin with a quote -/
theorem removeQuotesAt_plain (h : w.head? ≠ some '"') (v : List Char) :
    removeQuotesAt ⟨u ++ (w ++ nul :: v), p⟩ u.length = .ok (u.length, ⟨u ++ (w ++ nul :: v), p⟩) := by
  have hget : (u ++ (w ++ nul :: v))[u.length]? ≠ some '"' := by
    cases w with
    | nil =>
      rw [List.nil_append, get_at]
      decide
    | cons c w => rwa [List.cons_append, get_at]
  exact if_neg hget

/-- the scan that stops behind the quote and one more character, at `c` -/
theorem removeQuotesAt_stop {a c : Char} (hy : ∀ x ∈ v, ¬ Stops x) (hc : Stops c) (w : List Char) :
    removeQuotesAt ⟨u ++ '"' :: a :: (v ++ c :: w), p⟩ u.length =
      .ok (u.length + 1, ⟨u ++ '"' :: a :: (v ++ nul :: w), p⟩) := by
  have hsame : u ++ ['"', a] ++ (v ++ c :: w) = u ++ '"' :: a :: (v ++ c :: w) := by simp
  have hbuf : u ++ '"' :: a :: (v ++ c :: w) = (u ++ ['"', a] ++ v) ++ c :: w := by simp
  have hlen : (u ++ ['"', a]).length = u.length + 2 := by simp
  have hscan : scanQuote (u ++ '"' :: a :: (v ++ c :: w)) (u ++ '"' :: a :: (v ++ c :: w)).length (u.length + 2) =
      some (u ++ ['"', a] ++ v).length := by
    have hfound := scanQuote_found (u := u ++ ['"', a]) (n := (u ++ '"' :: a :: (v ++ c :: w)).length) (w := w) hy hc
      (by simp only [List.length_append, List.length_cons]; omega)
    rw [hsame, hlen] at hfound
    exact hfound.trans (congrArg some (by rw [List.length_append, hlen]))
  have hrest : (u ++ ['"', a] ++ v) ++ nul :: w = u ++ '"' :: a :: (v ++ nul :: w) := by simp
  rw [removeQuotesAt, if_pos (get_at u _ '"')]
  simp only [hscan]
  rw [hbuf, get_at, set_at, hrest]
  rcases hc with rfl | rfl
  · rw [if_pos rfl]
  · rw [if_neg (by decide), ← hrest]

theorem removeQuotesAt_fault {a : Char} (hv : ∀ x ∈ v, ¬ Stops x) :
    removeQuotesAt ⟨u ++ '"' :: a :: v, p⟩ u.length = .error .beyondTerminator := by
  have hscan : scanQuote (u ++ '"' :: a :: v) (u ++ '"' :: a :: v).length (u.length + 2) = none := by
    have hnone := scanQuote_none (u := u ++ ['"', a]) (n := (u ++ '"' :: a :: v).length) hv
    simpa using hnone
  rw [removeQuotesAt, if_pos (get_at u _ '"')]
  simp only [hscan]

/-- **A word.** A word that is not a lone quote is unquoted in its own place. -/
theorem removeQuotesAt_word (hw : nul ∉ w) (hlone : w ≠ ['"']) (v : List Char) :
    ∃ q r, removeQuotesAt ⟨u ++ (w ++ nul :: v), p⟩ u.length = .ok (q, ⟨u ++ (r ++ v), p⟩) ∧
      r.length = w.length + 1 ∧ Leaves u r q (unquote w) := by
  by_cases hq : w.head? = some '"'
  · obtain ⟨a, t, rfl⟩ : ∃ a t, w = '"' :: a :: t := by
      cases w with
      | nil => cases hq
      | cons c w =>
        obtain rfl : c = '"' := Option.some.inj hq
        obtain ⟨a, t, rfl⟩ := List.exists_cons_of_ne_nil fun hnil => hlone (congrArg _ hnil)
        exact ⟨a, t, rfl⟩
    have ha : nul ∉ [a] := fun h => hw (by simp [List.mem_singleton.1 h])
    have ht : nul ∉ t := fun h => hw (by simp [h])
    by_cases hmem : '"' ∈ t
    · obtain ⟨y, z, rfl, hy⟩ := List.eq_append_cons_of_mem hmem
      have hynul : nul ∉ y := fun h => ht (by simp [h])
      have hstops : ∀ x ∈ y, ¬ Stops x := by
        intro x hx hstop
        rcases hstop with rfl | rfl
        · exact hy hx
        · exact hynul hx
      have hrun := removeQuotesAt_stop (u := u) (p := p) (a := a) hstops (.inl rfl) (z ++ nul :: v)
      have hleaves := leaves u ['"'] (z ++ [nul]) (show nul ∉ a :: y by simpa using ⟨by simpa using ha, hynul⟩)
      refine ⟨u.length + 1, '"' :: a :: (y ++ nul :: (z ++ [nul])), by simpa using hrun, by simp; omega, ?_⟩
      rw [unquote, takeWhile_cut hy]
      exact hleaves
    · have hstops : ∀ x ∈ t, ¬ Stops x := by
        intro x hx hstop
        rcases hstop with rfl | rfl
        · exact hmem hx
        · exact ht hx
      have hrun := removeQuotesAt_stop (u := u) (p := p) (a := a) hstops (.inr rfl) v
      have hleaves := leaves u ['"'] [] (show nul ∉ a :: t by simpa using ⟨by simpa using ha, ht⟩)
      refine ⟨u.length + 1, '"' :: a :: (t ++ [nul]), by simpa using hrun, by simp, ?_⟩
      rw [unquote, takeWhile_whole hmem]
      exact hleaves
  · have hun : unquote w = w := by
      unfold unquote
      split
      · exact absurd rfl hq
      · rfl
    have hleaves := leaves u [] [] hw
    refine ⟨u.length, w ++ [nul], ?_, by simp, ?_⟩
    · rw [removeQuotesAt_plain hq]
      simp
    · rw [hun]
      simpa using hleaves

/-- the block of `Commands` counts the scan of a lone quote as a fault, and agrees on other strings -/
theorem removeQuotesAt_eq (h : Holds m.buf (p, w)) (hlone : w ≠ ['"']) : removeQuotesAt m p = removeQuotes m p := by
  have hread : readChar m.buf p 0 = .ok (w.headD nul) := readChar_append (u := []) h
  have hget : m.buf[p]? = (w ++ [nul])[0]? := h.get (Nat.zero_le _)
  match w, hlone with
  | [], _ => simp [removeQuotes, removeQuotesAt, hread, hget, nul, bind, Except.bind, pure, Except.pure]
  | [c], hlone =>
    have hc : c ≠ '"' := fun hc => hlone (by rw [hc])
    simp [removeQuotes, removeQuotesAt, hread, hget, hc, bind, Except.bind, pure, Except.pure]
  | c :: a :: t, _ =>
    by_cases hc : c = '"'
    · subst hc
      have hsuffix : Holds m.buf (p, ['"'] ++ ([a] ++ t)) := h
      have h1 : Holds m.buf (p + 1, [a] ++ t) := hsuffix.suffix
      have hscan : closingQuote m.buf (p + 1) (strlen m.buf (p + 1) + 1) 1 = .ok (1 + (t.takeWhile (· != '"')).length) :=
        closingQuote_spec (u := [a]) (v := t) h1 (by rw [h1.strlen_eq]; simp)
      obtain ⟨u, rfl, hb⟩ := holds_split h
      generalize m.buf.drop (u.length + ('"' :: a :: t).length + 1) = v at hb
      obtain ⟨b, saved⟩ := m
      obtain rfl : b = u ++ ('"' :: a :: t ++ nul :: v) := hb
      have ht : nul ∉ t := fun hn => h.clean (by simp [hn])
      by_cases hq : '"' ∈ t
      · obtain ⟨y, z, rfl, hy⟩ := List.eq_append_cons_of_mem hq
        have hclose : readChar (u ++ ('"' :: a :: (y ++ '"' :: z) ++ nul :: v)) (u.length + 1) (1 + y.length) = .ok '"' := by
          have h2 : Holds (u ++ ('"' :: a :: (y ++ '"' :: z) ++ nul :: v)) (u.length + 1, (a :: y) ++ '"' :: z) := h1
          have hat := readChar_append h2
          rwa [List.length_cons, Nat.add_comm y.length 1] at hat
        have hstop := removeQuotesAt_stop (u := u) (p := saved) (a := a) (not_stops hy fun hn => ht (by simp [hn])) (.inl rfl)
          (z ++ nul :: v)
        have hset : (u ++ ('"' :: a :: (y ++ '"' :: z) ++ nul :: v)).set (u.length + 1 + (1 + y.length)) nul =
            u ++ '"' :: a :: (y ++ nul :: (z ++ nul :: v)) := by
          have hat := set_at (u ++ '"' :: a :: y) (z ++ nul :: v) '"' nul
          have hlen : (u ++ '"' :: a :: y).length = u.length + 1 + (1 + y.length) := by
            simp only [List.length_append, List.length_cons]
            omega
          rw [hlen] at hat
          simpa using hat
        rw [takeWhile_cut hy] at hscan
        have hstrict : removeQuotes ⟨u ++ ('"' :: a :: (y ++ '"' :: z) ++ nul :: v), saved⟩ u.length =
            .ok (u.length + 1, ⟨u ++ '"' :: a :: (y ++ nul :: (z ++ nul :: v)), saved⟩) := by
          simp only [removeQuotes, hread, hscan, hclose, hset, bind, Except.bind, pure, Except.pure]
          simp
        rw [hstrict, ← hstop]
        simp
      · have hclose : readChar (u ++ ('"' :: a :: t ++ nul :: v)) (u.length + 1) (1 + t.length) = .ok nul := by
          have h2 : Holds (u ++ ('"' :: a :: t ++ nul :: v)) (u.length + 1, (a :: t) ++ []) := by simpa using h1
          have hat := readChar_append h2
          rwa [List.length_cons, Nat.add_comm t.length 1] at hat
        have hstop := removeQuotesAt_stop (u := u) (p := saved) (a := a) (not_stops hq ht) (.inr rfl) v
        rw [takeWhile_whole hq] at hscan
        have hstrict : removeQuotes ⟨u ++ ('"' :: a :: t ++ nul :: v), saved⟩ u.length =
            .ok (u.length + 1, ⟨u ++ ('"' :: a :: t ++ nul :: v), saved⟩) := by
          simp only [removeQuotes, hread, hscan, hclose, bind, Except.bind, pure, Except.pure]
          simp [nul]
        rw [hstrict]
        exact hstop
    · simp [removeQuotes, removeQuotesAt, hread, hget, hc, bind, Except.bind, pure, Except.pure]

/-- the loops agree when no token is a lone quote -/
theorem tokenLoop_eq {t : Slots ℕ} {done todo : List Cell} {n : ℕ} (hn : n + done.length = 200)
    (h : Held m.buf ((done ++ todo) ++ l)) (ht : Shows t (done ++ todo)) (hx : ∀ x ∈ todo, x.2 ≠ ['"']) :
    tokenLoop removeQuotesAt n done.length t m = tokenLoop removeQuotes n done.length t m := by
  induction n generalizing m t done todo with
  | zero => rfl
  | succ n ih =>
    cases todo with
    | nil =>
      have hnull := ht.null (by simp; omega)
      rw [List.append_nil] at hnull
      simp [tokenLoop, Slots.read, hnull, bind, Except.bind]
    | cons x todo =>
      have hlone : x.2 ≠ ['"'] := hx x List.mem_cons_self
      have h' : Held m.buf (x :: ((done ++ todo) ++ l)) := by
        rw [List.append_assoc] at h ⊢
        exact h.perm List.perm_middle
      obtain ⟨q, m', hrun, hheld⟩ := removeQuotes_spec h' hlone
      have hheld' : Held m'.buf ((done ++ [(q, unquote x.2)] ++ todo) ++ l) := by
        refine hheld.perm ?_
        rw [List.append_assoc, List.append_assoc, List.append_assoc]
        exact List.perm_middle.symm
      have ht' := ht.update (q, unquote x.2)
      rw [List.append_cons] at ht'
      have hn' : n + (done ++ [(q, unquote x.2)]).length = 200 := by
        rw [List.length_append, List.length_singleton]
        omega
      have hrest := ih hn' hheld' ht'
        fun y hy => hx y (List.mem_cons_of_mem _ hy)
      rw [List.length_append, List.length_singleton] at hrest
      simp only [tokenLoop, ht.read, removeQuotesAt_eq h'.head hlone, hrun, bind, Except.bind]
      exact hrest

/-- **The functions of `Commands`.** They are those of the memory when no string is a lone quote. -/
theorem tokensQuotes_eq {t : Slots ℕ} {toks : List Cell} (h : Held m.buf (toks ++ l)) (ht : Shows t toks)
    (hx : ∀ x ∈ toks, x.2 ≠ ['"']) : removeTokensQuotesAt m t = doubleQuotesRemovalFromTokens m t := by
  have h' : Held m.buf (([] ++ toks) ++ l) := h
  rw [doubleQuotesRemovalFromTokens, removeTokenQuotes_eq]
  exact tokenLoop_eq rfl h' ht hx

theorem fileBlock_eq {x : Option Cell} (h : Held m.buf (x.toList ++ l)) (hx : ∀ c, x = some c → c.2 ≠ ['"']) :
    fileBlock removeQuotesAt m (x.map Prod.fst) = removeFileQuotes m (x.map Prod.fst) := by
  cases x with
  | none => rfl
  | some c =>
    have hc : Holds m.buf (c.1, c.2) := h.holds c (by simp)
    simp only [Option.map_some, fileBlock, removeFileQuotes, removeQuotesAt_eq hc (hx c rfl)]

theorem filesQuotes_eq {x y : Option Cell} (h : Held m.buf (x.toList ++ y.toList)) (hx : ∀ c, x = some c → c.2 ≠ ['"'])
    (hy : ∀ c, y = some c → c.2 ≠ ['"']) : removeFilesQuotesAt m ⟨x.map Prod.fst, y.map Prod.fst⟩ =
      fileDoubleQuotesRemovalFromTokens m ⟨x.map Prod.fst, y.map Prod.fst⟩ := by
  obtain ⟨x', m', hrun, -, hheld⟩ := removeFileQuotes_spec h hx
  have hheld' : Held m'.buf (y.toList ++ x'.toList) := hheld.perm List.perm_append_comm
  have hsecond := fileBlock_eq hheld' hy
  simp only [removeFilesQuotesAt, fileDoubleQuotesRemovalFromTokens, fileBlock_eq h hx, hrun, hsecond, bind, Except.bind]

end DecsLabs.Shell
