/-
A part of a buffer that ends with a terminator, at another place and between other characters. The functions of string.h
do the same there: they look at no character in front of it or behind it. Nothing here is about a particular program.

- `Mem.within u v m`: the memory `m` with `u` in front of it and `v` behind it.
- `Inner n c m`: the memory ends with a terminator at `n`, and with the character `c` in front of it.
- `str_within`, `strtok_within`, `strsep_within`, `strrchr_within`: the functions on such a part.
-/
import DecsLabs.Core.CString

namespace DecsLabs.CString

variable {u v b : List Char} {m : Mem} {n k i : ℕ} {c d : Char} {p : Option ℕ}

/-- `m` between `u` and `v` -/
def Mem.within (u v : List Char) (m : Mem) : Mem := ⟨u ++ (m.buf ++ v), u.length + m.saved⟩

/-- the buffer ends with a terminator at `n` -/
def EndsAt (n : ℕ) (b : List Char) : Prop := ∃ s, b = s ++ [nul] ∧ s.length = n

/-- and `strtok` continues in it; the last character is `c`, unless a terminator was written there -/
structure Inner (n : ℕ) (c : Char) (m : Mem) : Prop where
  ends : EndsAt n m.buf
  saved : m.saved ≤ n
  last : m.buf.getD (n - 1) nul = c ∨ m.buf.getD (n - 1) nul = nul

theorem EndsAt.length (h : EndsAt n b) : b.length = n + 1 := by
  obtain ⟨s, rfl, rfl⟩ := h
  simp

theorem EndsAt.set (h : EndsAt n b) (i : ℕ) : EndsAt n (b.set i nul) := by
  obtain ⟨s, rfl, rfl⟩ := h
  rcases Nat.lt_or_ge i s.length with hi | hi
  · exact ⟨s.set i nul, by rw [List.set_append_left _ _ hi], List.length_set⟩
  · refine ⟨s, ?_, rfl⟩
    rw [List.set_append_right _ _ hi]
    rcases Nat.eq_zero_or_pos (i - s.length) with h0 | h0
    · rw [h0]
      rfl
    · obtain ⟨j, hj⟩ := Nat.exists_eq_succ_of_ne_zero h0.ne'
      rw [hj]
      rfl

theorem Inner.set (h : Inner n c m) (i : ℕ) {j : ℕ} (hj : j ≤ n) : Inner n c ⟨m.buf.set i nul, j⟩ := by
  refine ⟨h.ends.set i, hj, ?_⟩
  simp only [List.getD_eq_getElem?_getD, List.getElem?_set]
  split_ifs
  · exact .inr rfl
  · exact .inr rfl
  · exact h.last

theorem Inner.move (h : Inner n c m) {j : ℕ} (hj : j ≤ n) : Inner n c { m with saved := j } :=
  ⟨h.ends, hj, h.last⟩

/-- a string in the buffer ends there -/
theorem EndsAt.str_le (h : EndsAt n b) (hk : k ≤ n) : k + strlen b k ≤ n := by
  obtain ⟨s, rfl, rfl⟩ := h
  have hdrop : (s ++ [nul]).drop k = s.drop k ++ [nul] := List.drop_append_of_le_length hk
  have hle : (str (s ++ [nul]) k).length ≤ (s.drop k).length := by
    rw [str, hdrop]
    by_cases hmem : nul ∈ s.drop k
    · obtain ⟨y, z, hyz, hy⟩ := List.eq_append_cons_of_mem hmem
      rw [hyz, List.append_assoc, List.cons_append, takeWhile_cut hy, List.length_append]
      exact Nat.le_add_right _ _
    · rw [takeWhile_cut hmem]
  rw [List.length_drop] at hle
  rw [strlen]
  omega

theorem str_within (h : EndsAt n b) (hk : k ≤ n) : str (u ++ (b ++ v)) (u.length + k) = str b k := by
  obtain ⟨s, rfl, rfl⟩ := h
  have hdrop : (s ++ [nul]).drop k = s.drop k ++ [nul] := List.drop_append_of_le_length hk
  have hdrop' : (s ++ [nul] ++ v).drop k = s.drop k ++ nul :: v := by
    rw [List.append_assoc, List.drop_append_of_le_length hk]
    rfl
  rw [str, str, List.drop_length_add_append, hdrop', hdrop]
  by_cases hmem : nul ∈ s.drop k
  · obtain ⟨y, z, hyz, hy⟩ := List.eq_append_cons_of_mem hmem
    rw [hyz, List.append_assoc, List.append_assoc, List.cons_append, List.cons_append, takeWhile_cut hy, takeWhile_cut hy]
  · rw [takeWhile_cut hmem, takeWhile_cut hmem]

theorem strlen_within (h : EndsAt n b) (hk : k ≤ n) : strlen (u ++ (b ++ v)) (u.length + k) = strlen b k := by
  rw [strlen, str_within h hk, strlen]

theorem set_within (hi : i < b.length) (x : Char) :
    (u ++ (b ++ v)).set (u.length + i) x = u ++ (b.set i x ++ v) := by
  rw [List.set_append_right _ _ (Nat.le_add_right _ _), Nat.add_sub_cancel_left, List.set_append_left _ _ hi]

theorem getD_within (hi : i < b.length) : (u ++ (b ++ v)).getD (u.length + i) nul = b.getD i nul := by
  rw [List.getD_eq_getElem?_getD, List.getElem?_append_right (Nat.le_add_right _ _), Nat.add_sub_cancel_left,
    List.getElem?_append_left hi, List.getD_eq_getElem?_getD]

/-- **strtok** -/
theorem strtok_within (h : Inner n c m) (hp : p.getD m.saved ≤ n) :
    (∀ u v, strtok (m.within u v) (p.map (u.length + ·)) d =
      ((strtok m p d).1.map (u.length + ·), (strtok m p d).2.within u v)) ∧
    Inner n c (strtok m p d).2 ∧ ∀ q ∈ (strtok m p d).1, q ≤ n := by
  generalize hk : p.getD m.saved = k at hp
  have hplace (u : List Char) : (p.map (u.length + ·)).getD (u.length + m.saved) = u.length + k := by
    rw [← hk]
    cases p <;> rfl
  have hlen := h.ends.str_le hp
  have hskip : ((str m.buf k).takeWhile (· == d)).length ≤ strlen m.buf k := (List.takeWhile_prefix _).length_le
  generalize ha : ((str m.buf k).takeWhile (· == d)).length = a at hskip
  have hq : k + a ≤ n := by omega
  have hlen' := h.ends.str_le hq
  have hword : ((str m.buf (k + a)).takeWhile (· != d)).length ≤ strlen m.buf (k + a) :=
    (List.takeWhile_prefix _).length_le
  generalize hw : ((str m.buf (k + a)).takeWhile (· != d)).length = w at hword
  have hown : strtok m p d = if w = 0 then (none, { m with saved := k + a })
      else if w = strlen m.buf (k + a) then (some (k + a), { m with saved := k + a + w })
      else (some (k + a), ⟨m.buf.set (k + a + w) nul, k + a + w + 1⟩) := by
    simp only [strtok, hk, ha, hw]
  refine ⟨fun u v => ?_, ?_⟩
  · have hthere : strtok (m.within u v) (p.map (u.length + ·)) d =
        if w = 0 then (none, { m.within u v with saved := u.length + (k + a) })
        else if w = strlen m.buf (k + a) then (some (u.length + (k + a)), { m.within u v with saved := u.length + (k + a + w) })
        else (some (u.length + (k + a)),
          ⟨(m.within u v).buf.set (u.length + (k + a + w)) nul, u.length + (k + a + w + 1)⟩) := by
      simp only [strtok, Mem.within, hplace, str_within h.ends hp, ha, Nat.add_assoc u.length, str_within h.ends hq, hw,
        strlen_within h.ends hq]
    rw [hthere, hown]
    split_ifs with h0 h1
    · rfl
    · rfl
    · have hlt : k + a + w < m.buf.length := by
        rw [h.ends.length]
        omega
      simp only [Mem.within, set_within hlt]
      rfl
  · rw [hown]
    split_ifs with h0 h1
    · exact ⟨h.move hq, by simp⟩
    · exact ⟨h.move (by omega), by simpa using hq⟩
    · exact ⟨h.set _ (by omega), by simpa using hq⟩

/-- **strsep** -/
theorem strsep_within (h : Inner n c m) (hp : ∀ q ∈ p, q ≤ n) :
    (∀ u v, strsep (m.within u v) (p.map (u.length + ·)) d =
      ((strsep m p d).1.map (u.length + ·), (strsep m p d).2.1.map (u.length + ·), (strsep m p d).2.2.within u v)) ∧
    Inner n c (strsep m p d).2.2 ∧ (∀ q ∈ (strsep m p d).1, q ≤ n) ∧ ∀ q ∈ (strsep m p d).2.1, q ≤ n := by
  cases p with
  | none => exact ⟨fun _ _ => rfl, h, by simp [strsep], by simp [strsep]⟩
  | some k =>
    have hk : k ≤ n := hp k rfl
    have hlen := h.ends.str_le hk
    have hword : ((str m.buf k).takeWhile (· != d)).length ≤ strlen m.buf k := (List.takeWhile_prefix _).length_le
    generalize hw : ((str m.buf k).takeWhile (· != d)).length = w at hword
    have hown : strsep m (some k) d = if w = strlen m.buf k then (some k, none, m)
        else (some k, some (k + w + 1), { m with buf := m.buf.set (k + w) nul }) := by
      simp only [strsep, hw]
    refine ⟨fun u v => ?_, ?_⟩
    · have hthere : strsep (m.within u v) (some (u.length + k)) d =
          if w = strlen m.buf k then (some (u.length + k), none, m.within u v)
          else (some (u.length + k), some (u.length + (k + w + 1)),
            { m.within u v with buf := (m.within u v).buf.set (u.length + (k + w)) nul }) := by
        simp only [strsep, Mem.within, str_within h.ends hk, hw, strlen_within h.ends hk, Nat.add_assoc u.length]
      rw [Option.map_some, hthere, hown]
      split_ifs with h1
      · rfl
      · have hlt : k + w < m.buf.length := by
          rw [h.ends.length]
          omega
        simp only [Mem.within, set_within hlt]
        rfl
    · rw [hown]
      split_ifs with h1
      · exact ⟨h, by simpa using hk, by simp⟩
      · exact ⟨h.set _ h.saved, by simpa using hk, by simp only [Option.mem_def, Option.some.injEq]; omega⟩

/-- **strrchr** -/
theorem strrchr_within (h : EndsAt n b) (hk : k ≤ n) (c : Char) :
    strrchr (u ++ (b ++ v)) (u.length + k) c = (strrchr b k c).map (u.length + ·) ∧ ∀ q ∈ strrchr b k c, q ≤ n := by
  have hlen := h.str_le hk
  unfold strrchr
  rw [str_within h hk, strlen_within h hk]
  split_ifs with hc
  · refine ⟨by rw [Option.map_some, Nat.add_assoc], ?_⟩
    simp only [Option.mem_def, Option.some.injEq]
    omega
  · exact ⟨rfl, by simp⟩

end DecsLabs.CString
