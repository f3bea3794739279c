/-
The numbers of checkcpupercentage.c, against the formats of /proc. The name of a program may contain blanks, which count
as ends of fields; a counter may be larger than an `int`, and main does not initialise the accumulator.

- `StatLine`, `readsTimes_iff`: exactly when the fields 14 and 15 are read.
- `CpuLine`, `readsTotal_iff`: exactly when the accumulator ends as the sum of the counters.
-/
import DecsLabs.Cpu.Statistics

namespace DecsLabs.Cpu

open DecsLabs.CString DecsLabs.Scanf

/-! ## The times of a process -/

/-- the first 15 fields of a line of /proc/<pid>/stat -/
structure StatLine where
  pid : List Char
  comm : List Char
  /-- the fields 3 to 13 -/
  middle : List (List Char)
  utime : ℕ
  stime : ℕ
  pid_field : Field pid
  comm_clean : nul ∉ comm
  middle_length : middle.length = 11
  middle_field : ∀ w ∈ middle, Field w
  utime_lt : utime < 2 ^ 31
  stime_lt : stime < 2 ^ 31

/-- the fields, with a blank behind each -/
def StatLine.text (l : StatLine) : List Char :=
  ended ' ' (l.pid :: ('(' :: l.comm ++ [')']) :: (l.middle ++ [Nat.toDigits 10 l.utime, Nat.toDigits 10 l.stime]))

/-- the texts between the blanks of the line -/
def StatLine.texts (l : StatLine) : List (List Char) :=
  l.pid :: (('(' :: l.comm ++ [')']).splitOn ' ' ++ (l.middle ++ [Nat.toDigits 10 l.utime, Nat.toDigits 10 l.stime]))

/-- the texts at the places 14 and 15, read as numbers, are the times -/
def StatLine.Coincide (l : StatLine) : Prop :=
  l.texts[13]?.map atoi = some (narrow l.utime) ∧ l.texts[14]?.map atoi = some (narrow l.stime)

theorem ended_append (d : Char) (vs ws : List (List Char)) : ended d (vs ++ ws) = ended d vs ++ ended d ws := by
  rw [ended, ended, ended, List.flatMap_append]

theorem ended_splitOn (d : Char) (s : List Char) : ended d (s.splitOn d) = s ++ [d] := by
  induction s using piecesInduction d with
  | nil => rfl
  | skip s ih =>
    have hsplit : (d :: s).splitOn d = [] :: s.splitOn d := List.splitOn_append_cons_self_of_not_mem List.not_mem_nil s
    rw [hsplit, ended_cons, ih]
    rfl
  | whole w hw hd =>
    rw [List.splitOn_eq_singleton hd, ended_cons]
    rfl
  | cut w r hw hd ih =>
    rw [List.splitOn_append_cons_self_of_not_mem hd, ended_cons, ih, List.append_assoc, List.cons_append]

theorem field_toDigits (n : ℕ) : Field (Nat.toDigits 10 n) := by
  have hdigit : ∀ c : Char, ¬ c.isDigit → c ∉ Nat.toDigits 10 n := fun c hc hmem => hc (toDigits_isDigit n c hmem)
  exact ⟨hdigit ' ' (by decide), hdigit nul (by decide)⟩

section StatLine

variable (l : StatLine)

theorem StatLine.text_eq : l.text = ended ' ' l.texts := by
  rw [text, texts]
  generalize l.middle ++ [Nat.toDigits 10 l.utime, Nat.toDigits 10 l.stime] = ws
  rw [ended_cons, ended_cons, ended_cons, ended_append, ended_splitOn]
  simp

theorem StatLine.texts_field : ∀ w ∈ l.texts, Field w := by
  intro w hw
  simp only [texts, List.mem_cons, List.mem_append, List.not_mem_nil, or_false] at hw
  rcases hw with rfl | hw | hw | rfl | rfl
  · exact l.pid_field
  · obtain ⟨hblank, hsub⟩ := (splitOn_spec ' ' ('(' :: l.comm ++ [')'])).1 w hw
    refine ⟨hblank, fun hn => ?_⟩
    have hmem := hsub hn
    simp only [List.cons_append, List.mem_cons, List.mem_append, List.not_mem_nil, or_false] at hmem
    rcases hmem with h | h | h
    · exact absurd h (by decide)
    · exact l.comm_clean h
    · exact absurd h (by decide)
  · exact l.middle_field w hw
  · exact field_toDigits l.utime
  · exact field_toDigits l.stime

theorem StatLine.texts_length : 15 ≤ l.texts.length := by
  have hpos : 0 < (('(' :: l.comm ++ [')']).splitOn ' ').length := List.length_pos_of_ne_nil (List.splitOn_ne_nil ' ' _)
  have hlen := l.middle_length
  simp only [texts, List.length_cons, List.length_append, List.length_nil]
  omega

/-- a name without blanks leaves every field at its place -/
theorem StatLine.coincide_of_notMem (h : ' ' ∉ l.comm) : l.Coincide := by
  have hcomm : ' ' ∉ '(' :: l.comm ++ [')'] := by simp [h]
  have hlen := l.middle_length
  have hget (w : List (List Char)) (i : ℕ) : (l.pid :: ('(' :: l.comm ++ [')']) :: (l.middle ++ w))[i + 13]? = w[i]? := by
    simp only [List.getElem?_cons_succ]
    rw [List.getElem?_append_right (by omega), hlen]
    rfl
  rw [Coincide, texts, List.splitOn_eq_singleton hcomm, List.singleton_append, hget _ 0, hget _ 1]
  simp [atoi_toDigits]

/-- what the buffer holds after the file has been read into it -/
theorem fill_append {s : List Char} (h : s.length ≤ 200) (tail buffer : List Char) :
    ∃ v, fill (s ++ tail) buffer = s ++ v := by
  rw [fill, List.take_append, List.take_of_length_le h, List.append_assoc]
  exact ⟨_, rfl⟩

/-- **The texts that are read.** -/
theorem StatLine.readUtimeStime_eq (h : l.text.length ≤ 200) (tail buffer : List Char) : ∃ x y,
    l.texts[13]? = some x ∧ l.texts[14]? = some y ∧
      readUtimeStime (l.text ++ tail) buffer = some ((atoi x).toInt, (atoi y).toInt) := by
  have hlen := l.texts_length
  have hsplit : l.texts = l.texts.take 13 ++ ([l.texts[13], l.texts[14]] ++ l.texts.drop 15) := by
    rw [List.cons_append, List.singleton_append, List.cons_getElem_drop_succ, List.cons_getElem_drop_succ,
      List.take_append_drop]
  obtain ⟨v, hv⟩ := fill_append h tail buffer
  have hdata : fill (l.text ++ tail) buffer =
      ended ' ' (l.texts.take 13 ++ [l.texts[13], l.texts[14]]) ++ (ended ' ' (l.texts.drop 15) ++ v) := by
    rw [hv, ← List.append_assoc, ← ended_append, List.append_assoc, ← hsplit, ← text_eq]
  refine ⟨l.texts[13], l.texts[14], List.getElem?_eq_getElem _, List.getElem?_eq_getElem _, ?_⟩
  exact readUtimeStime_ended (fun w hw => l.texts_field w (List.mem_of_mem_take hw)) (List.length_take_of_le (by omega))
    (l.texts_field _ (List.getElem_mem _)) (l.texts_field _ (List.getElem_mem _)) hdata

theorem toInt_atoi_eq_iff {n : ℕ} (hn : n < 2 ^ 31) (w : List Char) : (atoi w).toInt = n ↔ atoi w = narrow n := by
  constructor
  · intro h
    rw [← toInt_narrow_of_lt hn] at h
    exact Int32.toInt_inj.1 h
  · intro h
    rw [h, toInt_narrow_of_lt hn]

/-- **Times.** The fields 14 and 15 are read exactly when the name has no blank, or when the texts that its blanks put
in their places are the same numbers. -/
theorem readsTimes_iff (h : l.text.length ≤ 200) (tail buffer : List Char) :
    readUtimeStime (l.text ++ tail) buffer = some ((l.utime : ℤ), (l.stime : ℤ)) ↔ ' ' ∉ l.comm ∨ l.Coincide := by
  obtain ⟨x, y, hx, hy, hread⟩ := l.readUtimeStime_eq h tail buffer
  rw [or_iff_right_of_imp l.coincide_of_notMem, hread, StatLine.Coincide, hx, hy]
  simp only [Option.map_some, Option.some.injEq, Prod.mk.injEq, toInt_atoi_eq_iff l.utime_lt, toInt_atoi_eq_iff l.stime_lt]

end StatLine

/-- a process with the times 5 and 7 -/
def sampleLine (comm : List Char) (h : nul ∉ comm) : StatLine where
  pid := "1".toList
  comm := comm
  middle := "S".toList :: List.replicate 10 "0".toList
  utime := 5
  stime := 7
  pid_field := by decide
  comm_clean := h
  middle_length := rfl
  middle_field := by decide
  utime_lt := by decide
  stime_lt := by decide

theorem readsTimes_iff_example :
    readUtimeStime ((sampleLine "sh".toList (by decide)).text ++ []) [] = some (5, 7) :=
  (readsTimes_iff (sampleLine "sh".toList (by decide)) (by decide) [] []).2 (.inl (by decide))

/-- the name `tmux: server` moves every field by one place, and the times are read as 0 and 5 -/
theorem name_with_blank : ¬ ∀ l : StatLine, l.text.length ≤ 200 → ∀ tail buffer,
    readUtimeStime (l.text ++ tail) buffer = some ((l.utime : ℤ), (l.stime : ℤ)) := by
  intro h
  have hlen : (sampleLine "tmux: server".toList (by decide)).text.length ≤ 200 := by decide
  have hread := h _ hlen [] []
  obtain ⟨x, y, hx, -, hrun⟩ := (sampleLine "tmux: server".toList (by decide)).readUtimeStime_eq hlen [] []
  have hzero : x = ['0'] := Option.some.inj (hx.symm.trans (by decide))
  rw [hrun, hzero] at hread
  have hutime : (atoi ['0']).toInt = 5 := (Prod.mk.inj (Option.some.inj hread)).1
  exact absurd hutime (by decide)

/-! ## The total of all times -/

/-- the first line of /proc/stat: `cpu`, `blanks + 1` blanks, and counters between single blanks -/
structure CpuLine where
  blanks : ℕ
  counters : List ℕ
  counters_lt : ∀ c ∈ counters, c < 2 ^ 63

def CpuLine.text (l : CpuLine) : List Char :=
  "cpu".toList ++ ' ' :: (List.replicate l.blanks ' ' ++ join ' ' (Nat.toDigits 10) l.counters)

/-- what narrowing takes from a counter, in units of 2^32 -/
def wraps (c : ℕ) : ℕ := (c + 2 ^ 31) / 2 ^ 32

/-- empty texts between blanks add nothing -/
theorem times_eq_words (s : List Char) : times s = ((words s).map fun w => (atoi w).toInt).sum := by
  rw [times, words, pieces_eq_filter]
  generalize s.splitOn ' ' = ws
  induction ws with
  | nil => rfl
  | cons w ws ih =>
    by_cases hw : w = []
    · rw [List.filter_cons_of_neg (by simp [hw]), List.map_cons, List.sum_cons, ih, hw, atoi_nil]
      exact zero_add _
    · rw [List.filter_cons_of_pos (by simp [hw]), List.map_cons, List.map_cons, List.sum_cons, List.sum_cons, ih]

theorem words_counters (counters : List ℕ) :
    words (join ' ' (Nat.toDigits 10) counters) = counters.map (Nat.toDigits 10) := by
  cases counters with
  | nil => rfl
  | cons c cs =>
    have hfield : ∀ w ∈ (c :: cs).map (Nat.toDigits 10), ' ' ∉ w := by
      intro w hw
      obtain ⟨n, -, rfl⟩ := List.mem_map.1 hw
      exact (field_toDigits n).1
    have hsplit : (join ' ' (Nat.toDigits 10) (c :: cs)).splitOn ' ' = (c :: cs).map (Nat.toDigits 10) :=
      List.splitOn_intercalate ' ' hfield (by simp)
    rw [words, pieces_eq_filter, hsplit, List.filter_eq_self]
    intro w hw
    obtain ⟨n, -, rfl⟩ := List.mem_map.1 hw
    simp [Nat.toDigits_ne_nil]

theorem sum_narrow {counters : List ℕ} (h : ∀ c ∈ counters, c < 2 ^ 63) :
    (counters.map fun c : ℕ => (narrow c).toInt).sum = (counters.sum : ℤ) - 2 ^ 32 * ((counters.map wraps).sum : ℕ) := by
  induction counters with
  | nil => rfl
  | cons c cs ih =>
    have hc : (narrow c).toInt = c - 2 ^ 32 * (wraps c : ℕ) := toInt_narrow (h c List.mem_cons_self)
    have hcs := ih fun x hx => h x (List.mem_cons_of_mem _ hx)
    rw [List.map_cons, List.sum_cons, List.sum_cons, List.map_cons, List.sum_cons, hc, hcs]
    push_cast
    ring

section CpuLine

variable (l : CpuLine)

theorem mem_join {α : Type} {d c : Char} {text : α → List Char} {xs : List α} (h : c ∈ join d text xs) :
    c = d ∨ ∃ x ∈ xs, c ∈ text x := by
  induction xs with
  | nil => cases h
  | cons x xs ih =>
    cases xs with
    | nil =>
      rw [join_singleton] at h
      exact .inr ⟨x, List.mem_cons_self, h⟩
    | cons y xs =>
      rw [join_cons_cons, List.mem_append, List.mem_cons] at h
      rcases h with h | rfl | h
      · exact .inr ⟨x, List.mem_cons_self, h⟩
      · exact .inl rfl
      · rcases ih h with rfl | ⟨z, hz, hc⟩
        · exact .inl rfl
        · exact .inr ⟨z, List.mem_cons_of_mem _ hz, hc⟩

theorem CpuLine.mem_text {c : Char} (h : c ∈ l.text) : c ∈ "cpu ".toList ∨ c.isDigit := by
  simp only [text, List.mem_append, List.mem_cons, List.mem_replicate] at h
  rcases h with h | rfl | ⟨-, rfl⟩ | h
  · refine .inl ?_
    revert h
    simp
    tauto
  · exact .inl (by decide)
  · exact .inl (by decide)
  · rcases mem_join h with rfl | ⟨n, -, hn⟩
    · exact .inl (by decide)
    · exact .inr (toDigits_isDigit n c hn)

/-- **What is added.** -/
theorem CpuLine.readTotaltime_eq (h : l.text.length + 1 ≤ 200) (rest buffer : List Char) (total : ℤ) :
    readTotaltime (l.text ++ '\n' :: rest) buffer total =
      some (total + ((l.counters.sum : ℤ) - 2 ^ 32 * ((l.counters.map wraps).sum : ℕ))) := by
  have hline : (l.text ++ ['\n']).length ≤ 200 := by rwa [List.length_append]
  obtain ⟨v, hv⟩ := fill_append hline rest buffer
  rw [List.append_assoc, List.append_assoc] at hv
  have hclean : '\n' ∉ l.text ∧ nul ∉ l.text := by
    constructor
    · intro hmem
      rcases l.mem_text hmem with h' | h' <;> exact absurd h' (by decide)
    · intro hmem
      rcases l.mem_text hmem with h' | h' <;> exact absurd h' (by decide)
  have hread := readTotaltime_line total (by decide : ' ' ∉ "cpu".toList) hclean hv
  have htimes : times (List.replicate l.blanks ' ' ++ join ' ' (Nat.toDigits 10) l.counters) =
      (l.counters.sum : ℤ) - 2 ^ 32 * ((l.counters.map wraps).sum : ℕ) := by
    calc
      _ = ((words (join ' ' (Nat.toDigits 10) l.counters)).map fun w => (atoi w).toInt).sum := by
        rw [times_eq_words, words, pieces_replicate_append]
      _ = (l.counters.map fun c : ℕ => (narrow c).toInt).sum := by
        rw [words_counters, List.map_map]
        refine congrArg List.sum (List.map_congr_left fun c _ => ?_)
        rw [Function.comp_apply, atoi_toDigits]
      _ = _ := sum_narrow l.counters_lt
  rw [← htimes]
  exact hread

/-- **Total.** The accumulator ends as the sum of the counters exactly when it makes up before for what narrowing takes
from them. -/
theorem readsTotal_iff (h : l.text.length + 1 ≤ 200) (rest buffer : List Char) (total : ℤ) :
    readTotaltime (l.text ++ '\n' :: rest) buffer total = some (l.counters.sum : ℤ) ↔
      total = 2 ^ 32 * ((l.counters.map wraps).sum : ℕ) := by
  rw [l.readTotaltime_eq h, Option.some.injEq]
  constructor
  · intro heq
    omega
  · intro heq
    omega

/-- counters that an `int` holds, and an accumulator that is 0 -/
theorem readsTotal_of_small (h : l.text.length + 1 ≤ 200) (hsmall : ∀ c ∈ l.counters, c < 2 ^ 31) (rest buffer : List Char) :
    readTotaltime (l.text ++ '\n' :: rest) buffer 0 = some (l.counters.sum : ℤ) := by
  have hzero : (l.counters.map wraps).sum = 0 := by
    apply List.sum_eq_zero
    intro k hk
    obtain ⟨c, hc, rfl⟩ := List.mem_map.1 hk
    have hlt := hsmall c hc
    exact Nat.div_eq_of_lt (by omega)
  rw [l.readTotaltime_eq h, hzero]
  simp

end CpuLine

/-- a line with one counter -/
def oneCounter (c : ℕ) (h : c < 2 ^ 63) : CpuLine := ⟨1, [c], by simpa using h⟩

/-- an accumulator that makes up for the counter 2^31 -/
theorem readsTotal_iff_example :
    readTotaltime ((oneCounter (2 ^ 31) (by decide)).text ++ '\n' :: []) [] (2 ^ 32) = some (2 ^ 31) :=
  (readsTotal_iff (oneCounter (2 ^ 31) (by decide)) (by decide) [] [] (2 ^ 32)).2 (by decide)

/-- the accumulator 1 is not reset -/
theorem old_accumulator : ¬ ∀ l : CpuLine, l.text.length + 1 ≤ 200 → ∀ rest buffer total,
    readTotaltime (l.text ++ '\n' :: rest) buffer total = some (l.counters.sum : ℤ) := by
  intro h
  have hlen : (oneCounter 7 (by decide)).text.length + 1 ≤ 200 := by decide
  have hread := h _ hlen [] [] 1
  rw [CpuLine.readTotaltime_eq _ hlen] at hread
  simp [oneCounter, wraps] at hread

end DecsLabs.Cpu
