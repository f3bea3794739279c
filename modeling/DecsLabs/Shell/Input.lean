/-
The input loop of the shell (`main` in myshell.c): characters are stored one by one, the buffer grows by 64 when it is
full, and nothing is stored behind the last character. The line is then copied into `input_copy`, a local array of
`input_index` characters.

The two lengths and the index are `unsigned int`. `c` is a `char`, which is signed on the target, so that the character
255 ends the loop as `EOF` does. What `malloc` and `realloc` leave in the bytes that they add is arbitrary.

- `store`, `readLine`: the loop, with the index of every write and the length of the buffer it goes to.
- `stored`: the buffer after `n` characters.
- `in_bounds_iff`, `holds_text_iff`, `copy_overflows`: the writes, the text and the copy of a line.
- `never_exact`: the text and the copy are never both right.
-/
import DecsLabs.Core.CString

namespace DecsLabs.Shell

open DecsLabs.CString

/-! ## Model -/

/-- `EOF` in a `char` -/
def eof : Char := Char.ofNat 255

/-- what an allocation leaves in a byte of the block: `left k i` in the byte `i` of the `k`-th one -/
abbrev Leftover : Type := ℕ → ℕ → Char

structure Reading where
  input : List Char
  maxInputLength : UInt32
  inputIndex : UInt32
  /-- how many times the buffer has grown -/
  grown : ℕ
  /-- the index of every write and the length of the buffer it went to -/
  writes : List (ℕ × ℕ)
deriving DecidableEq, Repr

/-- `n` bytes, the first ones as in `b` -/
def realloc (left : ℕ → Char) (b : List Char) (n : ℕ) : List Char := (List.range n).map fun i => b.getD i (left i)

def Reading.write (s : Reading) (i : ℕ) (c : Char) : Reading :=
  { s with input := s.input.set i c, writes := (i, s.input.length) :: s.writes }

/-- `if (input_index == max_input_length)` -/
def extend (left : Leftover) (s : Reading) : Reading :=
  if s.inputIndex = s.maxInputLength then
    { s with
      maxInputLength := s.maxInputLength + 64
      input := realloc (left (s.grown + 1)) s.input (s.maxInputLength + 64).toNat
      grown := s.grown + 1 }
  else s

/-- one round of the loop -/
def store (left : Leftover) (c : Char) (s : Reading) : Reading :=
  extend left { s.write s.inputIndex.toNat c with inputIndex := s.inputIndex + 1 }

/-- `while (c != '\n' && c != EOF)`, where `c` is the next character that `getchar` returns -/
def inputLoop (left : Leftover) : List Char → Reading → Reading
  | [], s => s
  | c :: typed, s => if c = '\n' ∨ c = eof then s else inputLoop left typed (store left c s)

/-- `malloc(max_input_length)` -/
def fresh (left : Leftover) : Reading := ⟨realloc (left 0) [] 256, 256, 0, 0, []⟩

/-- the buffer after the loop, when `typed` waits on the standard input -/
def readLine (left : Leftover) (typed : List Char) : Reading :=
  inputLoop left typed (if typed.head? = some '\n' then (fresh left).write 0 '\n' else fresh left)

/-- how many bytes `strcpy` writes; `none` when it reads on behind the block -/
def strcpyCount (b : List Char) : Option ℕ := if nul ∈ b then some (strlen b 0 + 1) else none

/-! ## The loop -/

variable {left : Leftover} {l typed rest : List Char} {c : Char} {s : Reading}

/-- the rounds for the characters of `l` -/
def stores (left : Leftover) (l : List Char) (s : Reading) : Reading := l.foldl (fun s c => store left c s) s

theorem inputLoop_append (hl : '\n' ∉ l) (he : eof ∉ l) : inputLoop left (l ++ rest) s =
    inputLoop left rest (stores left l s) := by
  induction l generalizing s with
  | nil => rfl
  | cons c l ih =>
    simp only [List.mem_cons, not_or] at hl he
    have hgo : ¬ (c = '\n' ∨ c = eof) := not_or.2 ⟨Ne.symm hl.1, Ne.symm he.1⟩
    rw [List.cons_append, inputLoop, if_neg hgo, ih hl.2 he.2]
    rfl

/-- a typed line -/
theorem readLine_line (hne : typed ≠ []) (hl : '\n' ∉ typed) (he : eof ∉ typed) :
    readLine left (typed ++ '\n' :: rest) = stores left typed (fresh left) := by
  have hhead : (typed ++ '\n' :: rest).head? ≠ some '\n' := by
    obtain ⟨c, r, rfl⟩ := List.exists_cons_of_ne_nil hne
    intro h
    rw [List.cons_append, List.head?_cons, Option.some.injEq] at h
    exact hl (by simp [h])
  rw [readLine, if_neg hhead, inputLoop_append hl he, inputLoop, if_pos (.inl rfl)]

theorem stores_snoc : stores left (l ++ [c]) s = store left c (stores left l s) := by
  rw [stores, List.foldl_append]
  rfl

@[simp]
theorem extend_writes : (extend left s).writes = s.writes := by
  rw [extend]
  split_ifs <;> rfl

@[simp]
theorem extend_inputIndex : (extend left s).inputIndex = s.inputIndex := by
  rw [extend]
  split_ifs <;> rfl

theorem store_writes : (store left c s).writes = (s.inputIndex.toNat, s.input.length) :: s.writes := extend_writes

/-- what was written stays on record -/
theorem stores_writes : ∀ w ∈ s.writes, w ∈ (stores left l s).writes := by
  induction l using List.reverseRecOn with
  | nil => exact fun w hw => hw
  | append_singleton l c ih =>
    intro w hw
    rw [stores_snoc, store_writes]
    exact List.mem_cons_of_mem _ (ih w hw)

/-! ## The buffer -/

/-- the length of the buffer that holds `n` characters -/
def capacity (n : ℕ) : ℕ := max 256 (64 * (n / 64 + 1))

/-- the allocation that adds the byte `n` -/
def allocation (n : ℕ) : ℕ := n / 64 - 3

/-- the buffer has `room` bytes, the characters of `l` in the first ones, and has grown `grown` times -/
structure Stored (left : Leftover) (l : List Char) (room grown : ℕ) (s : Reading) : Prop where
  index : s.inputIndex.toNat = l.length
  max : s.maxInputLength.toNat = room
  grown : s.grown = grown
  length : s.input.length = room
  text : l <+: s.input
  leftover : ∀ i, l.length ≤ i → i < room → s.input[i]? = some (left (allocation i) i)
  writes : ∀ w ∈ s.writes, w.1 < w.2

theorem capacity_gt (n : ℕ) : n < capacity n := by
  unfold capacity
  omega

/-- the last character of a full buffer -/
theorem capacity_full {n : ℕ} (h : n + 1 = capacity n) :
    capacity (n + 1) = capacity n + 64 ∧ allocation (n + 1) = allocation n + 1 := by
  unfold capacity allocation at *
  omega

theorem capacity_room {n : ℕ} (h : n + 1 ≠ capacity n) :
    capacity (n + 1) = capacity n ∧ allocation (n + 1) = allocation n := by
  unfold capacity allocation at *
  omega

theorem realloc_length (f : ℕ → Char) (b : List Char) (n : ℕ) : (realloc f b n).length = n := by
  simp [realloc]

theorem realloc_get {f : ℕ → Char} {b : List Char} {n i : ℕ} (hi : i < n) :
    (realloc f b n)[i]? = some (b[i]?.getD (f i)) := by
  simp [realloc, hi]

theorem stored_fresh : Stored left [] 256 0 (fresh left) := by
  refine ⟨rfl, rfl, rfl, by simp [fresh, realloc_length], List.nil_prefix, ?_, by simp [fresh]⟩
  intro i _ hi
  have halloc : allocation i = 0 := by
    unfold allocation
    omega
  rw [fresh, realloc_get hi, halloc]
  rfl

variable {room grown : ℕ}

/-- the character goes behind the others -/
theorem Stored.push (h : Stored left l room grown s) (hroom : l.length < room) (hn : l.length + 1 < 2 ^ 32) :
    Stored left (l ++ [c]) room grown { s.write s.inputIndex.toNat c with inputIndex := s.inputIndex + 1 } := by
  refine ⟨?_, h.max, h.grown, ?_, ?_, ?_, ?_⟩
  · rw [UInt32.toNat_add, h.index, List.length_append]
    exact Nat.mod_eq_of_lt hn
  · simp [Reading.write, h.length]
  · obtain ⟨r, hr⟩ := h.text
    have hlen := h.length
    rw [← hr, List.length_append] at hlen
    obtain ⟨d, r', rfl⟩ : ∃ d r', r = d :: r' := by
      refine List.exists_cons_of_ne_nil ?_
      rintro rfl
      simp only [List.length_nil] at hlen
      omega
    exact ⟨r', by simp [Reading.write, h.index, ← hr]⟩
  · intro i hi hlt
    rw [List.length_append, List.length_singleton] at hi
    change (s.input.set s.inputIndex.toNat c)[i]? = _
    rw [List.getElem?_set_ne (by rw [h.index]; omega)]
    exact h.leftover i (by omega) hlt
  · intro w hw
    rcases List.mem_cons.1 hw with rfl | hw
    · rw [h.index, h.length]
      exact hroom
    · exact h.writes w hw

/-- a full buffer grows -/
theorem Stored.grow (h : Stored left l room grown s) (hfull : l.length = room) (hn : room + 64 < 2 ^ 32)
    (halloc : ∀ i, room ≤ i → i < room + 64 → allocation i = grown + 1) :
    Stored left l (room + 64) (grown + 1) (extend left s) := by
  have hmax : (s.maxInputLength + 64).toNat = room + 64 := by
    rw [UInt32.toNat_add, h.max]
    exact Nat.mod_eq_of_lt hn
  have hif : s.inputIndex = s.maxInputLength := UInt32.toNat_inj.1 (by rw [h.index, h.max, hfull])
  rw [extend, if_pos hif, hmax]
  refine ⟨h.index, hmax, congrArg (· + 1) h.grown, realloc_length _ _ _, ?_, ?_, h.writes⟩
  · refine List.prefix_iff_getElem?.2 fun i hi => ?_
    change (realloc _ s.input _)[i]? = _
    rw [realloc_get (by omega), List.prefix_iff_getElem?.1 h.text i hi, Option.getD_some]
  · intro i hi hlt
    change (realloc _ s.input _)[i]? = _
    have hnone : s.input[i]? = none := List.getElem?_eq_none (by rw [h.length]; omega)
    rw [realloc_get hlt, hnone, Option.getD_none, halloc i (by omega) hlt, h.grown]

theorem Stored.keep (h : Stored left l room grown s) (hroom : l.length ≠ room) :
    Stored left l room grown (extend left s) := by
  have hif : s.inputIndex ≠ s.maxInputLength := by
    intro heq
    rw [← h.index, heq, h.max] at hroom
    exact hroom rfl
  rw [extend, if_neg hif]
  exact h

/-- the buffer after the characters of `l` -/
abbrev Buffered (left : Leftover) (l : List Char) (s : Reading) : Prop :=
  Stored left l (capacity l.length) (allocation l.length) s

/-- **One round.** -/
theorem Buffered.store (h : Buffered left l s) (hn : l.length + 1 < 2 ^ 32 - 64) :
    Buffered left (l ++ [c]) (store left c s) := by
  have hpush : Stored left (l ++ [c]) (capacity l.length) (allocation l.length) _ :=
    h.push (c := c) (capacity_gt _) (by omega)
  have hlen : (l ++ [c]).length = l.length + 1 := by simp
  by_cases hfull : l.length + 1 = capacity l.length
  · obtain ⟨hroom, hgrown⟩ := capacity_full hfull
    rw [Buffered, hlen, hroom, hgrown]
    refine hpush.grow (hlen.trans hfull) (by omega) fun i hi hlt => ?_
    unfold capacity at hfull hi hlt
    unfold allocation
    omega
  · obtain ⟨hroom, hgrown⟩ := capacity_room hfull
    rw [Buffered, hlen, hroom, hgrown]
    exact hpush.keep (by rw [hlen]; exact hfull)

/-- **The buffer.** After `n` characters, as long as its length fits into an `unsigned int`. -/
theorem buffered (left : Leftover) (l : List Char) (hn : l.length < 2 ^ 32 - 64) :
    Buffered left l (stores left l (fresh left)) := by
  induction l using List.reverseRecOn with
  | nil => exact stored_fresh
  | append_singleton l c ih =>
    rw [List.length_append, List.length_singleton] at hn
    rw [stores_snoc]
    exact (ih (by omega)).store hn

/-! ## Lines -/

/-- every write goes into the buffer -/
def InBounds (s : Reading) : Prop := ∀ w ∈ s.writes, w.1 < w.2

/-- `strcpy` stays in the block and in an array of `n` bytes -/
def CopyFits (b : List Char) (n : ℕ) : Prop := ∃ k ∈ strcpyCount b, k ≤ n

/-- the length of the buffer wraps around, and `realloc` leaves no byte of it -/
theorem wrapped (left : Leftover) (c : Char) (hn : l.length + 1 = 2 ^ 32 - 64) :
    (stores left (l ++ [c]) (fresh left)).inputIndex.toNat = 2 ^ 32 - 64 ∧
    (stores left (l ++ [c]) (fresh left)).input = [] := by
  have hlast := buffered left l (by omega)
  have hpush := hlast.push (c := c) (capacity_gt _) (by omega)
  have hroom : capacity l.length = 2 ^ 32 - 64 := by
    unfold capacity
    omega
  have hindex := hpush.index
  rw [List.length_append, List.length_singleton, hn] at hindex
  have hmax := hpush.max
  rw [hroom] at hmax
  rw [stores_snoc]
  refine ⟨by rw [store, extend_inputIndex]; exact hindex, ?_⟩
  rw [store, extend, if_pos (UInt32.toNat_inj.1 (hindex.trans hmax.symm))]
  have hzero : (stores left l (fresh left)).maxInputLength + 64 = 0 := by
    refine UInt32.toNat_inj.1 ?_
    rw [UInt32.toNat_add, hlast.max, hroom]
    rfl
  simp only [Reading.write, hzero]
  rfl

/-- **The writes.** -/
theorem in_bounds_iff (left : Leftover) (rest : List Char) (hne : typed ≠ []) (hl : '\n' ∉ typed) (he : eof ∉ typed) :
    InBounds (readLine left (typed ++ '\n' :: rest)) ↔ typed.length ≤ 2 ^ 32 - 64 := by
  rw [readLine_line hne hl he]
  constructor
  · intro h
    by_contra hlong
    push Not at hlong
    obtain ⟨l, r, rfl, hlen⟩ : ∃ l r, typed = l ++ r ∧ l.length = 2 ^ 32 - 65 :=
      ⟨_, _, (List.take_append_drop (2 ^ 32 - 65) typed).symm, by rw [List.length_take]; omega⟩
    rw [List.length_append] at hlong
    match r with
    | [] | [_] =>
      simp only [List.length_nil, List.length_singleton] at hlong
      omega
    | c :: d :: r =>
      obtain ⟨hindex, hnone⟩ := wrapped left c (l := l) (by omega)
      -- the write of `d`
      have hmem : (2 ^ 32 - 64, 0) ∈ (stores left (l ++ c :: d :: r) (fresh left)).writes := by
        have hsplit : l ++ c :: d :: r = l ++ [c] ++ [d] ++ r := by simp
        rw [hsplit, stores, List.foldl_append]
        refine stores_writes _ ?_
        rw [← stores, stores_snoc, store_writes, hindex, hnone]
        exact List.mem_cons_self
      exact absurd (h _ hmem) (Nat.not_lt_zero _)
  · intro hn
    obtain ⟨l, c, rfl⟩ := (List.eq_nil_or_concat' typed).resolve_left hne
    rw [List.length_append, List.length_singleton] at hn
    have hlast := buffered left l (by omega)
    rw [stores_snoc, InBounds, store_writes]
    intro w hw
    rcases List.mem_cons.1 hw with rfl | hw
    · rw [hlast.index, hlast.length]
      exact capacity_gt _
    · exact hlast.writes w hw

/-- **The text.** It ends where the leftover of the allocation happens to be a terminator. -/
theorem holds_text_iff (left : Leftover) (rest : List Char) (hne : typed ≠ []) (hl : '\n' ∉ typed) (he : eof ∉ typed)
    (hz : nul ∉ typed) (hn : typed.length < 2 ^ 32 - 64) :
    Holds (readLine left (typed ++ '\n' :: rest)).input (0, typed) ↔
      left (allocation typed.length) typed.length = nul := by
  rw [readLine_line hne hl he]
  have h := buffered left typed hn
  have hend := h.leftover _ le_rfl (capacity_gt _)
  constructor
  · intro hold
    have hget := hold.get le_rfl
    rw [Nat.zero_add, hend] at hget
    simpa using hget
  · intro hnul
    refine .of_get hz fun i hi => ?_
    rw [Nat.zero_add]
    rcases Nat.lt_or_eq_of_le hi with hlt | rfl
    · rw [List.prefix_iff_getElem?.1 h.text i hlt, List.getElem?_append_left hlt]
      exact (List.getElem?_eq_getElem hlt).symm
    · rw [hend, hnul]
      simp

theorem lt_of_mem_strcpyCount {b : List Char} (h : l <+: b) (hz : nul ∉ l) {k : ℕ} (hk : k ∈ strcpyCount b) :
    l.length < k := by
  obtain ⟨r, rfl⟩ := h
  have hstr : str (l ++ r) 0 = l ++ r.takeWhile (· != nul) := by
    rw [str, List.drop_zero, List.takeWhile_append_of_pos]
    intro c hc
    simpa using ne_of_mem_of_not_mem hc hz
  have hcount : k = strlen (l ++ r) 0 + 1 := by
    unfold strcpyCount at hk
    split_ifs at hk
    · simpa using hk.symm
    · cases hk
  rw [hcount, strlen, hstr, List.length_append]
  omega

/-- **The copy.** It does not fit into an array without room for the terminator. -/
theorem copy_overflows (left : Leftover) (rest : List Char) (hne : typed ≠ []) (hl : '\n' ∉ typed) (he : eof ∉ typed)
    (hz : nul ∉ typed) (hn : typed.length < 2 ^ 32 - 64) :
    ¬ CopyFits (readLine left (typed ++ '\n' :: rest)).input typed.length := by
  rw [readLine_line hne hl he]
  rintro ⟨k, hk, hle⟩
  have := lt_of_mem_strcpyCount (buffered left typed hn).text hz hk
  omega

/-- the line is read as it ought to be -/
structure ReadsExactly (left : Leftover) (typed rest : List Char) : Prop where
  writes : InBounds (readLine left (typed ++ '\n' :: rest))
  text : Holds (readLine left (typed ++ '\n' :: rest)).input (0, typed)
  copy : CopyFits (readLine left (typed ++ '\n' :: rest)).input typed.length

/-- **No line is read as it ought to be.** Where the text ends as it should, its copy is longer than the array. -/
theorem never_exact (left : Leftover) (typed rest : List Char) : ¬ ReadsExactly left typed rest := by
  intro h
  have hpre : typed <+: (readLine left (typed ++ '\n' :: rest)).input := (List.prefix_append _ _).trans h.text.text
  obtain ⟨k, hk, hle⟩ := h.copy
  have := lt_of_mem_strcpyCount hpre h.text.clean hk
  omega

/-- one character, and bytes that are not zero -/
theorem leftover_is_read : ¬ ReadsExactly (fun _ _ => 'z') ['a'] [] ∧
    (readLine (fun _ _ => 'z') "a\n".toList).input.take 3 = "azz".toList := by
  refine ⟨fun h => ?_, by decide⟩
  have hz := h.text.get (i := 1) le_rfl
  exact absurd hz (by decide)

end DecsLabs.Shell
