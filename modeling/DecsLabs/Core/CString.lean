/-
C strings that share one buffer, and the functions of string.h that look at them or cut them in place. Pointers are
offsets into the buffer. Nothing here is about a particular program.

- `Holds b (p, s)`: at `p` the buffer has the text `s` and its terminator.
- `Held b l`: the buffer holds all the strings of `l`, and they do not overlap. `Held.replace` is the frame rule: a
  function that writes inside one string leaves the others.
- `strtok_cases`, `strtok_two`: calls of `strtok` on a string find its pieces at their places.
- `strsep_cases`: what `strsep` does; `strsep_at`: the same in a buffer that is given by its parts.
-/
import DecsLabs.Core.Pieces

namespace DecsLabs.CString

/-! ## Buffers -/

/-- the terminator -/
def nul : Char := Char.ofNat 0

structure Mem where
  buf : List Char
  /-- where `strtok(NULL, ..)` continues -/
  saved : ℕ
deriving DecidableEq, Repr

/-- the text at `p`, without its terminator -/
def str (b : List Char) (p : ℕ) : List Char := (b.drop p).takeWhile (· != nul)

def strlen (b : List Char) (p : ℕ) : ℕ := (str b p).length

/-- the last occurrence of `c` in the string at `p` -/
def strrchr (b : List Char) (p : ℕ) (c : Char) : Option ℕ :=
  if c ∈ str b p then some (p + (strlen b p - 1 - (str b p).reverse.idxOf c)) else none

/-- `strtok(s, d)` for one delimiter; `none` for `s` continues at the saved position -/
def strtok (m : Mem) (s : Option ℕ) (d : Char) : Option ℕ × Mem :=
  let p := s.getD m.saved
  let q := p + ((str m.buf p).takeWhile (· == d)).length
  let n := ((str m.buf q).takeWhile (· != d)).length
  if n = 0 then (none, { m with saved := q })
  else if n = strlen m.buf q then (some q, { m with saved := q + n })
  else (some q, ⟨m.buf.set (q + n) nul, q + n + 1⟩)

/-- `strsep(&s, d)` for one delimiter: the token, the new `s` and the memory -/
def strsep (m : Mem) (s : Option ℕ) (d : Char) : Option ℕ × Option ℕ × Mem :=
  match s with
  | none => (none, none, m)
  | some p =>
    let n := ((str m.buf p).takeWhile (· != d)).length
    if n = strlen m.buf p then (some p, none, m)
    else (some p, some (p + n + 1), { m with buf := m.buf.set (p + n) nul })

/-! ## Strings in a buffer -/

/-- a pointer and the text it points to -/
abbrev Cell : Type := ℕ × List Char

structure Holds (b : List Char) (x : Cell) : Prop where
  clean : nul ∉ x.2
  text : x.2 ++ [nul] <+: b.drop x.1

variable {b b' : List Char} {p q : ℕ} {s t : List Char} {x y : Cell} {l l' : List Cell} {m : Mem} {d : Char}

theorem Holds.str_eq (h : Holds b x) : str b x.1 = x.2 := by
  obtain ⟨r, hr⟩ := h.text
  rw [str, ← hr, List.append_assoc]
  exact takeWhile_cut h.clean

theorem Holds.strlen_eq (h : Holds b x) : strlen b x.1 = x.2.length := by
  rw [strlen, h.str_eq]

/-- a text and its terminator alone in a buffer -/
theorem Holds.alone (hs : nul ∉ s) : Holds (s ++ [nul]) (0, s) := ⟨hs, List.prefix_rfl⟩

/-- a buffer with a terminator starts with a string -/
theorem Holds.of_mem (h : nul ∈ b) : Holds b (0, str b 0) := by
  obtain ⟨w, r, rfl, hw⟩ := List.eq_append_cons_of_mem h
  have hstr : str (w ++ nul :: r) 0 = w := takeWhile_cut hw
  rw [hstr]
  exact ⟨hw, r, by simp⟩

theorem Holds.get (h : Holds b x) {i : ℕ} (hi : i ≤ x.2.length) : b[x.1 + i]? = (x.2 ++ [nul])[i]? := by
  have hlen : i < (x.2 ++ [nul]).length := by simp; omega
  rw [List.getElem?_eq_getElem hlen, ← List.getElem?_drop]
  exact List.prefix_iff_getElem?.1 h.text i hlen

theorem Holds.of_get (hn : nul ∉ x.2) (h : ∀ i ≤ x.2.length, b[x.1 + i]? = (x.2 ++ [nul])[i]?) : Holds b x := by
  refine ⟨hn, List.prefix_iff_getElem?.2 fun i hi => ?_⟩
  rw [List.getElem?_drop, h i (by simp at hi; omega), List.getElem?_eq_getElem hi]

theorem Holds.lt_length (h : Holds b x) : x.1 + x.2.length < b.length := by
  have := h.get le_rfl
  rw [List.getElem?_append_right le_rfl] at this
  simp only [Nat.sub_self, List.getElem?_cons_zero] at this
  exact (List.getElem?_eq_some_iff.1 this).1

/-- a string of the buffer that was not written to -/
theorem Holds.of_same (h : Holds b x) (hb : ∀ i, x.1 ≤ i → i ≤ x.1 + x.2.length → b'[i]? = b[i]?) : Holds b' x :=
  .of_get h.clean fun i hi => by rw [hb _ (by omega) (by omega), h.get hi]

/-- the rest of a string is a string -/
theorem Holds.suffix (h : Holds b (p, s ++ t)) : Holds b (p + s.length, t) := by
  refine .of_get (fun hn => h.clean (by simp [hn])) fun i hi => ?_
  have := h.get (i := s.length + i) (by simp at hi ⊢; omega)
  rw [List.append_assoc, List.getElem?_append_right (by omega)] at this
  simpa [Nat.add_assoc] using this

/-- writing a terminator cuts a string in two -/
theorem Holds.cut (h : Holds b (p, s ++ d :: t)) :
    Holds (b.set (p + s.length) nul) (p, s) ∧ Holds (b.set (p + s.length) nul) (p + s.length + 1, t) := by
  have hlt := h.lt_length
  simp only [List.length_append, List.length_cons] at hlt
  constructor
  · refine .of_get (fun hn => h.clean (by simp [hn])) fun i hi => ?_
    change i ≤ s.length at hi
    change (b.set (p + s.length) nul)[p + i]? = (s ++ [nul])[i]?
    rcases hi.eq_or_lt with rfl | hi
    · rw [List.getElem?_set_self (by omega)]
      simp
    · have hget := h.get (i := i) (by simp only [List.length_append]; omega)
      rw [List.getElem?_set_ne (by omega), hget, List.append_assoc, List.getElem?_append_left hi,
        List.getElem?_append_left hi]
  · have hrest : Holds b (p + s.length + 1, t) := by
      have : Holds b (p, (s ++ [d]) ++ t) := by simpa using h
      simpa [Nat.add_assoc] using this.suffix
    refine hrest.of_same fun i hi _ => ?_
    exact List.getElem?_set_ne (by simp at hi; omega)

/-! ## Strings that do not overlap -/

def Apart (x y : Cell) : Prop := x.1 + x.2.length < y.1 ∨ y.1 + y.2.length < x.1

/-- the characters of `y` and its terminator are characters of `x` and its terminator -/
def Inside (y x : Cell) : Prop := x.1 ≤ y.1 ∧ y.1 + y.2.length ≤ x.1 + x.2.length

theorem Inside.trans {a b c : Cell} (h1 : Inside a b) (h2 : Inside b c) : Inside a c := by
  unfold Inside at *
  omega

theorem placed_inside {c : Cell} (h : c ∈ placed d p s) : Inside c (p, s) := by
  induction s using piecesInduction d generalizing p with
  | nil => simp at h
  | skip s ih =>
    rw [placed_cons_self] at h
    have hin := ih h
    unfold Inside at *
    simp only [List.length_cons] at *
    omega
  | whole w hw hd =>
    rw [placed_whole hw hd, List.mem_singleton] at h
    rw [h]
    exact ⟨le_rfl, le_rfl⟩
  | cut w r hw hd ih =>
    rw [placed_cut hw hd, List.mem_cons] at h
    unfold Inside
    simp only [List.length_append, List.length_cons]
    rcases h with rfl | h
    · exact ⟨le_rfl, by simp only; omega⟩
    · have hin := ih h
      unfold Inside at hin
      dsimp only at *
      omega

theorem placed_sorted : (placed d p s).Pairwise fun a b => a.1 + a.2.length < b.1 := by
  induction s using piecesInduction d generalizing p with
  | nil => exact .nil
  | skip s ih =>
    rw [placed_cons_self]
    exact ih
  | whole w hw hd =>
    rw [placed_whole hw hd]
    exact List.pairwise_singleton _ _
  | cut w r hw hd ih =>
    rw [placed_cut hw hd]
    refine List.pairwise_cons.2 ⟨fun c hc => ?_, ih⟩
    have hin := (placed_inside hc).1
    dsimp only at *
    omega

structure Held (b : List Char) (l : List Cell) : Prop where
  holds : ∀ x ∈ l, Holds b x
  apart : l.Pairwise Apart

theorem Apart.symm (h : Apart x y) : Apart y x := Or.symm h

theorem Held.perm (h : Held b l) (hl : l.Perm l') : Held b l' :=
  ⟨fun x hx => h.holds x (hl.mem_iff.2 hx), h.apart.perm hl fun h => h.symm⟩

theorem Held.head (h : Held b (x :: l)) : Holds b x := h.holds x (by simp)

theorem Held.sublist (h : Held b l) (hl : l'.Sublist l) : Held b l' :=
  ⟨fun x hx => h.holds x (hl.subset hx), h.apart.sublist hl⟩

theorem Held.alone (hs : nul ∉ s) : Held (s ++ [nul]) [(0, s)] :=
  ⟨List.forall_mem_singleton.2 (Holds.alone hs), List.pairwise_singleton _ _⟩

theorem Held.exchange {l1 l2 : List Cell} (h : Held b (l1 ++ (l2 ++ l))) : Held b (l2 ++ (l1 ++ l)) :=
  h.perm (List.perm_append_comm_assoc l1 l2 l)

/-- three groups take turns at the front -/
theorem Held.rotate {l1 l2 l3 : List Cell} (h : Held b (l1 ++ (l2 ++ (l3 ++ l)))) :
    Held b (l2 ++ (l3 ++ (l1 ++ l))) := by
  rw [← List.append_assoc l2] at h ⊢
  exact h.exchange

/-- **Frame.** A change inside one string keeps the others; it may leave any strings inside the place of the one. -/
theorem Held.replace (h : Held b (x :: l)) (hb : ∀ i, i < x.1 ∨ x.1 + x.2.length < i → b'[i]? = b[i]?)
    (hl' : Held b' l') (hin : ∀ y ∈ l', Inside y x) : Held b' (l' ++ l) := by
  obtain ⟨hx, hrest⟩ := List.pairwise_cons.1 h.apart
  refine ⟨fun y hy => ?_, List.pairwise_append.2 ⟨hl'.apart, hrest, fun y hy z hz => ?_⟩⟩
  · rcases List.mem_append.1 hy with hy | hy
    · exact hl'.holds y hy
    · have happ := hx y hy
      refine (h.holds y (by simp [hy])).of_same fun i h1 h2 => hb i ?_
      rcases happ with h3 | h3 <;> omega
  · have h1 := hx z hz
    have h2 := hin y hy
    unfold Apart Inside at *
    omega

theorem Held.of_cons_self (h : Held b ((p, d :: s) :: l)) : Held b ((p + 1, s) :: l) := by
  have hs : Holds b (p, [d] ++ s) := h.head
  have hone : Held b [(p + 1, s)] := ⟨by simpa using hs.suffix, by simp⟩
  refine h.replace (fun _ _ => rfl) hone fun y hy => ?_
  rw [List.mem_singleton.1 hy]
  exact ⟨Nat.le_succ p, by simp only [List.length_cons]; omega⟩

theorem Held.cut (h : Held b ((p, s ++ d :: t) :: l)) :
    Held (b.set (p + s.length) nul) ((p, s) :: (p + s.length + 1, t) :: l) := by
  obtain ⟨h1, h2⟩ := h.head.cut
  have htwo : Held (b.set (p + s.length) nul) [(p, s), (p + s.length + 1, t)] :=
    ⟨by simp [h1, h2], by simp [Apart]⟩
  refine h.replace (fun i hi => List.getElem?_set_ne ?_) htwo fun y hy => ?_
  · simp only [List.length_append, List.length_cons] at hi
    omega
  · simp only [List.mem_cons, List.not_mem_nil, or_false] at hy
    rcases hy with rfl | rfl
    · exact ⟨le_rfl, by simp⟩
    · exact ⟨by simp only; omega, by simp only [List.length_append, List.length_cons]; omega⟩

/-! ## strrchr -/

theorem strrchr_eq_none_iff (h : Holds b (p, s)) : strrchr b p d = none ↔ d ∉ s := by
  simp [strrchr, h.str_eq]

/-- the length of the part of `s` that begins with the last `d` -/
def suffixLength (d : Char) (s : List Char) : ℕ := s.reverse.idxOf d + 1

theorem strlen_strrchr (h : Holds b (p, s)) (hq : strrchr b p d = some q) : strlen b q = suffixLength d s := by
  simp only [strrchr, h.str_eq, h.strlen_eq] at hq
  split_ifs at hq with hd
  have hidx : s.reverse.idxOf d < s.length := by
    simpa using List.idxOf_lt_length_of_mem (List.mem_reverse.2 hd)
  generalize hk : s.length - 1 - s.reverse.idxOf d = k at hq
  obtain rfl := Option.some.inj hq
  have hsuf : Holds b (p, s.take k ++ s.drop k) := by rwa [List.take_append_drop]
  have hlen : (s.take k).length = k := by rw [List.length_take]; omega
  rw [← hlen, hsuf.suffix.strlen_eq]
  simp only [List.length_drop, suffixLength]
  omega

theorem suffixLength_append (hd : d ∉ t) : suffixLength d (s ++ d :: t) = t.length + 1 := by
  have hrev : d ∉ t.reverse := fun hm => hd (List.mem_reverse.1 hm)
  rw [suffixLength, List.reverse_append, List.reverse_cons, List.append_assoc, List.idxOf_append_of_notMem hrev]
  simp

/-! ## strtok -/

theorem strtok_end (h : Holds m.buf (p, [])) : strtok m (some p) d = (none, { m with saved := p }) := by
  simp [strtok, h.str_eq]

theorem strtok_skip (h : Holds m.buf (p, d :: s)) : strtok m (some p) d = strtok m (some (p + 1)) d := by
  have hs : Holds m.buf (p, [d] ++ s) := h
  have hs' : str m.buf (p + 1) = s := hs.suffix.str_eq
  have hlen : p + (s.takeWhile (· == d)).length.succ = p + 1 + (s.takeWhile (· == d)).length := by omega
  simp [strtok, h.str_eq, hs', hlen]

theorem skip_none (hw : s ≠ []) (hd : d ∉ s) : (s ++ t).takeWhile (· == d) = [] := by
  cases s with
  | nil => exact absurd rfl hw
  | cons c s =>
    have hc : c ≠ d := by
      intro hcd
      exact hd (by simp [hcd])
    simp [hc]

theorem strtok_whole (h : Holds m.buf (p, s)) (hs : s ≠ []) (hd : d ∉ s) :
    strtok m (some p) d = (some p, { m with saved := p + s.length }) := by
  have hskip := skip_none (t := []) hs hd
  rw [List.append_nil] at hskip
  simp [strtok, h.str_eq, hskip, takeWhile_whole hd, hs, strlen]

theorem strtok_cut (h : Holds m.buf (p, s ++ d :: t)) (hs : s ≠ []) (hd : d ∉ s) :
    strtok m (some p) d = (some p, ⟨m.buf.set (p + s.length) nul, p + s.length + 1⟩) := by
  simp [strtok, h.str_eq, skip_none hs hd, takeWhile_cut hd, hs, strlen]

/-- what `strtok(NULL, ..)` will cut: the text `r`, in a cell of its own unless the last token ended the string -/
def Rest (m : Mem) (r : List Char) (tl : List Cell) : Prop :=
  tl = [(m.saved, r)] ∨ tl = [] ∧ r = [] ∧ Holds m.buf (m.saved, [])

/-- **One call of strtok.** There is no piece, or the first one becomes a string of its own and the rest is kept. -/
theorem strtok_cases (h : Held m.buf ((p, s) :: l)) (d : Char) :
    (placed d p s = [] ∧ ∃ m', strtok m (some p) d = (none, m') ∧ m'.buf = m.buf ∧ Holds m.buf (m'.saved, [])) ∨
      ∃ q w r m' tl, strtok m (some p) d = (some q, m') ∧ placed d p s = (q, w) :: placed d m'.saved r ∧
        Held m'.buf ((q, w) :: (tl ++ l)) ∧ Rest m' r tl := by
  induction s using piecesInduction d generalizing p with
  | nil => exact .inl ⟨rfl, _, strtok_end h.head, rfl, h.head⟩
  | skip s ih =>
    rw [strtok_skip h.head, placed_cons_self]
    exact ih h.of_cons_self
  | whole w hw hd =>
    have hend : Holds m.buf (p, w ++ []) := by simpa using h.head
    refine .inr ⟨p, w, [], _, [], strtok_whole h.head hw hd, by simp [placed_whole hw hd], h, .inr ⟨rfl, rfl, ?_⟩⟩
    exact hend.suffix
  | cut w r hw hd _ =>
    exact .inr ⟨p, w, r, _, _, strtok_cut h.head hw hd, placed_cut hw hd, h.cut, .inl rfl⟩

/-- the next call on the same string -/
theorem strtok_next (hr : Rest m s l') (h : Held m.buf (l' ++ l)) (d : Char) :
    (placed d m.saved s = [] ∧ ∃ m', strtok m none d = (none, m') ∧ m'.buf = m.buf ∧ Holds m.buf (m'.saved, [])) ∨
      ∃ q w r m' tl, strtok m none d = (some q, m') ∧ placed d m.saved s = (q, w) :: placed d m'.saved r ∧
        Held m'.buf ((q, w) :: (tl ++ l)) ∧ Rest m' r tl := by
  change _ ∨ ∃ q w r m' tl, strtok m (some m.saved) d = (some q, m') ∧ _
  rcases hr with rfl | ⟨rfl, rfl, hend⟩
  · exact strtok_cases h d
  · exact .inl ⟨rfl, _, strtok_end hend, rfl, hend⟩

/-- **Two calls of strtok.** They find the first two pieces; if there is no second one, the saved position is at an
end. -/
theorem strtok_two (h : Held m.buf ((p, s) :: l)) (d : Char) : ∃ x y : Option Cell, ∃ m' m'' : Mem,
    strtok m (some p) d = (x.map Prod.fst, m') ∧ strtok m' none d = (y.map Prod.fst, m'') ∧
    x = (placed d p s)[0]? ∧ y = (placed d p s)[1]? ∧
    Held m''.buf (x.toList ++ y.toList ++ l) ∧ (y = none → Holds m''.buf (m''.saved, [])) := by
  rcases strtok_cases h d with ⟨hp, m', h1, hb, hend⟩ | ⟨q, w, r, m', tl, h1, hp, hheld, hrest⟩
  · rw [← hb] at hend
    refine ⟨none, none, m', _, h1, strtok_end hend, by simp [hp], by simp [hp], ?_, fun _ => hend⟩
    rw [hb]
    exact h.sublist (List.sublist_cons_self _ _)
  · have hheld' : Held m'.buf (tl ++ (q, w) :: l) := hheld.perm (by simpa using List.perm_middle.symm)
    rcases strtok_next hrest hheld' d with ⟨hr, m'', h2, hb, hend⟩ | ⟨q', w', r', m'', tl', h2, hr, hheld2, -⟩
    · refine ⟨some (q, w), none, m', m'', h1, h2, by simp [hp], by simp [hp, hr], ?_, fun _ => hb ▸ hend⟩
      rw [hb]
      exact hheld.sublist (by simp)
    · refine ⟨some (q, w), some (q', w'), m', m'', h1, h2, by simp [hp], by simp [hp, hr], ?_, fun hy => by cases hy⟩
      have htwo : Held m''.buf ((q', w') :: (q, w) :: l) := hheld2.sublist (by simp)
      exact htwo.perm (List.Perm.swap _ _ _)

theorem strtok_skips {u : List Char} (h : Holds m.buf (p, u ++ s)) (hu : ∀ c ∈ u, c = d) :
    strtok m (some p) d = strtok m (some (p + u.length)) d := by
  induction u generalizing p with
  | nil => rfl
  | cons c u ih =>
    obtain rfl : c = d := hu c (by simp)
    have hrest : Holds m.buf (p, [c] ++ (u ++ s)) := h
    have hstep : strtok m (some (p + 1)) c = strtok m (some (p + 1 + u.length)) c :=
      ih hrest.suffix fun e he => hu e (by simp [he])
    rw [strtok_skip hrest, hstep, List.length_cons, Nat.add_assoc, Nat.add_comm 1]

/-- delimiters before the first piece stay where they are -/
theorem strtok_keeps {u w t : List Char} (h : Holds m.buf (p, u ++ w ++ t)) (hu : ∀ c ∈ u, c = d) (hw : w ≠ [])
    (hd : d ∉ w) (ht : ∀ c ∈ t, c = d) :
    ∃ m' m'', strtok m (some p) d = (some (p + u.length), m') ∧ strtok m' none d = (none, m'') ∧
      Holds m''.buf (p, u ++ w) := by
  have hsuf : Holds m.buf (p + u.length, w ++ t) := by
    rw [List.append_assoc] at h
    exact h.suffix
  have hskip : strtok m (some p) d = strtok m (some (p + u.length)) d := by
    rw [List.append_assoc] at h
    exact strtok_skips h hu
  cases t with
  | nil =>
    rw [List.append_nil] at hsuf h
    have hend : Holds m.buf (p + u.length, w ++ []) := by simpa using hsuf
    exact ⟨_, _, hskip.trans (strtok_whole hsuf hw hd), strtok_end hend.suffix, h⟩
  | cons c t =>
    obtain rfl : c = d := ht c (by simp)
    obtain ⟨hleft, hright⟩ := h.cut
    rw [List.length_append, ← Nat.add_assoc] at hleft hright
    have hheld : Held (m.buf.set (p + u.length + w.length) nul) [(p + u.length + w.length + 1, t)] :=
      ⟨by simpa using hright, by simp⟩
    have hnone : placed c (p + u.length + w.length + 1) t = [] :=
      placed_eq_nil_iff.2 (pieces_eq_nil_iff.2 fun e he => ht e (by simp [he]))
    rcases strtok_cases (m := ⟨m.buf.set (p + u.length + w.length) nul, p + u.length + w.length + 1⟩) hheld c with
      ⟨-, m'', h2, hb, -⟩ | ⟨_, _, _, _, _, -, hp, -⟩
    · refine ⟨_, m'', hskip.trans (strtok_cut hsuf hw hd), h2, ?_⟩
      rw [hb]
      exact hleft
    · rw [hnone] at hp
      cases hp

/-! ## strsep -/

theorem strsep_whole (h : Holds m.buf (p, s)) (hd : d ∉ s) : strsep m (some p) d = (some p, none, m) := by
  simp [strsep, h.str_eq, takeWhile_whole hd, strlen]

theorem strsep_cut (h : Holds m.buf (p, s ++ d :: t)) (hd : d ∉ s) :
    strsep m (some p) d = (some p, some (p + s.length + 1), { m with buf := m.buf.set (p + s.length) nul }) := by
  simp [strsep, h.str_eq, takeWhile_cut hd, strlen]

/-- **One call of strsep.** -/
theorem strsep_cases (h : Held m.buf ((p, s) :: l)) (d : Char) :
    (d ∉ s ∧ strsep m (some p) d = (some p, none, m)) ∨
      ∃ w r m', s = w ++ d :: r ∧ d ∉ w ∧ strsep m (some p) d = (some p, some (p + w.length + 1), m') ∧
        m'.saved = m.saved ∧ Held m'.buf ((p, w) :: (p + w.length + 1, r) :: l) := by
  by_cases hd : d ∈ s
  · obtain ⟨w, r, rfl, hw⟩ := List.eq_append_cons_of_mem hd
    exact .inr ⟨w, r, _, rfl, hw, strsep_cut h.head hw, rfl, h.cut⟩
  · exact .inl ⟨hd, strsep_whole h.head hd⟩

/-! ## Strings between other characters -/

section Between

variable {u v w : List Char}

theorem set_at (x y : List Char) (c d : Char) : (x ++ c :: y).set x.length d = x ++ d :: y := by
  rw [List.set_append_right _ _ le_rfl, Nat.sub_self, List.set_cons_zero]

theorem get_at (x y : List Char) (c : Char) : (x ++ c :: y)[x.length]? = some c := by
  rw [List.getElem?_append_right le_rfl, Nat.sub_self, List.getElem?_cons_zero]

theorem str_at (x y z : List Char) (hy : nul ∉ y) : str (x ++ (y ++ nul :: z)) x.length = y := by
  rw [str, List.drop_left]
  exact takeWhile_cut hy

theorem holds_at (u v : List Char) {w : List Char} (hw : nul ∉ w) : Holds (u ++ (w ++ nul :: v)) (u.length, w) := by
  refine ⟨hw, v, ?_⟩
  rw [List.drop_left]
  simp

/-- a string of a buffer, between what is before and behind it -/
theorem holds_split {b : List Char} (h : Holds b (p, s)) :
    ∃ u, u.length = p ∧ b = u ++ (s ++ nul :: b.drop (p + s.length + 1)) := by
  obtain ⟨v, hv⟩ := h.text
  have hp : p ≤ b.length := (Nat.le_add_right p s.length).trans h.lt_length.le
  have hdrop : b.drop (p + s.length + 1) = v := by
    rw [Nat.add_assoc, ← List.drop_drop, ← hv]
    exact List.drop_left' (by simp)
  refine ⟨b.take p, List.length_take_of_le hp, ?_⟩
  have hb : b.take p ++ b.drop p = b := List.take_append_drop p b
  rw [hdrop, ← List.singleton_append, ← List.append_assoc s, hv, hb]

/-- one call of strsep, in a text that needs no terminator -/
theorem strsep_at (hd : d ∉ w) (hn : nul ∉ w) (hdn : d ≠ nul) : strsep ⟨u ++ (w ++ d :: v), p⟩ (some u.length) d =
    (some u.length, some (u.length + w.length + 1), ⟨u ++ (w ++ nul :: v), p⟩) := by
  have hstr : str (u ++ (w ++ d :: v)) u.length = w ++ d :: v.takeWhile (· != nul) := by
    rw [str, List.drop_left, List.takeWhile_append_of_pos (ne_of_notMem hn), List.takeWhile_cons_of_pos (by simpa using hdn)]
  have hset : (u ++ (w ++ d :: v)).set (u.length + w.length) nul = u ++ (w ++ nul :: v) := by simp
  have hne : w.length ≠ strlen (u ++ (w ++ d :: v)) u.length := by
    rw [strlen, hstr]
    simp
  simp only [strsep, hstr, takeWhile_cut hd, if_neg hne, hset]

end Between

end DecsLabs.CString
