/-
The two functions of checkcpupercentage.c that read numbers from /proc. `read` puts the first 200 bytes of a file in front
of what the buffer holds; fields are found by a number of calls of `strsep`. To call `atoi` on NULL stops the program.

- `readUtimeStime`: the times of a process, from the fields 14 and 15 of its line.
- `readTotaltime`: the counters of the first line, added to what the accumulator holds.
- `readUtimeStime_ended`, `readTotaltime_line`: what they compute, by the texts between the blanks.
-/
import DecsLabs.Core.CString
import DecsLabs.Core.Scanf

namespace DecsLabs.Cpu

open DecsLabs.CString DecsLabs.Scanf

/-! ## Model -/

/-- `read(fd, buffer, 200)` -/
def fill (data buffer : List Char) : List Char := data.take 200 ++ buffer.drop (min 200 data.length)

/-- `for (int i = 0; i < n; i++) strsep(&buffer, " ")` -/
def skipFields : ℕ → Mem → Option ℕ → Option ℕ × Mem
  | 0, m, buffer => (buffer, m)
  | n + 1, m, buffer =>
    let (_, buffer, m) := strsep m buffer ' '
    skipFields n m buffer

/-- `atoi(s)` -/
def atoiAt (m : Mem) (s : Option ℕ) : Option ℤ := s.map fun p => (atoi (str m.buf p)).toInt

/-- `*utime` and `*stime` -/
def readUtimeStime (data buffer : List Char) : Option (ℤ × ℤ) := do
  let (p, m) := skipFields 13 ⟨fill data buffer, 0⟩ (some 0)
  let (s, p, m) := strsep m p ' '
  let utime ← atoiAt m s
  let (s, _, m) := strsep m p ' '
  let stime ← atoiAt m s
  return (utime, stime)

/-- `while (time != NULL)`; `none` when the rounds are used up -/
def addTimes : ℕ → Mem → Option ℕ → Option ℕ → ℤ → Option ℤ
  | 0, _, _, _, _ => none
  | n + 1, m, time, cpu, totaltime =>
    match time with
    | none => some totaltime
    | some q =>
      let totaltime := totaltime + (atoi (str m.buf q)).toInt
      let (time, cpu, m) := strsep m cpu ' '
      addTimes n m time cpu totaltime

/-- `*totaltime`, from what it is before the call -/
def readTotaltime (data buffer : List Char) (totaltime : ℤ) : Option ℤ :=
  let (cpu, _, m) := strsep ⟨fill data buffer, 0⟩ (some 0) '\n'
  let (_, cpu, m) := strsep m cpu ' '
  let (time, cpu, m) := strsep m cpu ' '
  addTimes ((fill data buffer).length + 2) m time cpu totaltime

variable {u v w : List Char} {ws : List (List Char)} {p n : ℕ}

/-! ## Fields that end at a blank -/

/-- each text with `d` behind it -/
def ended (d : Char) (ws : List (List Char)) : List Char := ws.flatMap (· ++ [d])

@[simp] theorem ended_cons (d : Char) : ended d (w :: ws) = w ++ d :: ended d ws := by
  simp [ended]

/-- what a field may consist of -/
def Field (w : List Char) : Prop := ' ' ∉ w ∧ nul ∉ w

instance (w : List Char) : Decidable (Field w) := inferInstanceAs (Decidable (_ ∧ _))

theorem strsep_field (hw : Field w) : strsep ⟨u ++ (w ++ ' ' :: v), p⟩ (some u.length) ' ' =
    (some u.length, some (u ++ (w ++ [nul])).length, ⟨(u ++ (w ++ [nul])) ++ v, p⟩) := by
  rw [strsep_at hw.1 hw.2 (by decide)]
  simp [Nat.add_assoc]

theorem str_field (hw : Field w) (u v : List Char) : str ((u ++ (w ++ [nul])) ++ v) u.length = w := by
  have hstr := str_at u w v hw.2
  simpa using hstr

/-- **The fields that are skipped.** -/
theorem skipFields_ended (hws : ∀ w ∈ ws, Field w) :
    skipFields ws.length ⟨u ++ (ended ' ' ws ++ v), p⟩ (some u.length) =
      (some (u ++ ended nul ws).length, ⟨(u ++ ended nul ws) ++ v, p⟩) := by
  induction ws generalizing u with
  | nil => simp [skipFields, ended]
  | cons w ws ih =>
    have hw : Field w := hws w List.mem_cons_self
    have hrest := ih (u := u ++ (w ++ [nul])) fun x hx => hws x (List.mem_cons_of_mem _ hx)
    rw [ended_cons, List.append_assoc, List.cons_append, List.length_cons, skipFields, strsep_field hw]
    simp only [hrest]
    simp

theorem readUtimeStime_ended {data buffer x y : List Char} (hws : ∀ w ∈ ws, Field w) (hlen : ws.length = 13)
    (hx : Field x) (hy : Field y) (hdata : fill data buffer = ended ' ' (ws ++ [x, y]) ++ v) :
    readUtimeStime data buffer = some ((atoi x).toInt, (atoi y).toInt) := by
  have hbuf : fill data buffer = [] ++ (ended ' ' ws ++ (x ++ ' ' :: (y ++ ' ' :: v))) := by
    rw [hdata]
    simp [ended]
  have hskip := skipFields_ended (u := []) (v := x ++ ' ' :: (y ++ ' ' :: v)) (p := 0) hws
  rw [hlen, ← hbuf] at hskip
  simp only [List.length_nil, List.nil_append] at hskip
  have hfirst := strsep_field (u := ended nul ws) (v := y ++ ' ' :: v) (p := 0) hx
  have hsecond := strsep_field (u := ended nul ws ++ (x ++ [nul])) (v := v) (p := 0) hy
  simp only [readUtimeStime, hskip, hfirst, hsecond, atoiAt, str_field hx, str_field hy, Option.map_some, bind,
    Option.bind, pure]

/-! ## The counters of a line -/

/-- what the texts between the blanks add -/
def times (s : List Char) : ℤ := ((s.splitOn ' ').map fun w => (atoi w).toInt).sum

theorem times_whole (h : ' ' ∉ w) : times w = (atoi w).toInt := by
  rw [times, List.splitOn_eq_singleton h, List.map_singleton, List.sum_singleton]

theorem times_cut (h : ' ' ∉ w) (r : List Char) : times (w ++ ' ' :: r) = (atoi w).toInt + times r := by
  rw [times, List.splitOn_append_cons_self_of_not_mem h, List.map_cons, List.sum_cons, times]

/-- **The loop.** From the call of `strsep` on a text on, it adds the numbers between the blanks. -/
theorem addTimes_text {s : List Char} {q : ℕ} {m : Mem} (total : ℤ) (h : Holds m.buf (q, s)) (hn : s.length + 1 < n) :
    (match strsep m (some q) ' ' with | (time, cpu, m) => addTimes n m time cpu total) = some (total + times s) := by
  induction n generalizing s q m total with
  | zero => omega
  | succ n ih =>
    by_cases hs : ' ' ∈ s
    · obtain ⟨w, r, rfl, hw⟩ := List.eq_append_cons_of_mem hs
      obtain ⟨hleft, hright⟩ := h.cut
      have hlen : r.length + 1 < n := by
        simp only [List.length_append, List.length_cons] at hn
        omega
      have hrest := ih (m := { m with buf := m.buf.set (q + w.length) nul }) (total + (atoi w).toInt) hright hlen
      rw [strsep_cut h hw, times_cut hw, ← add_assoc]
      simp only [addTimes, hleft.str_eq]
      exact hrest
    · obtain ⟨n, rfl⟩ := Nat.exists_eq_succ_of_ne_zero (by omega : n ≠ 0)
      rw [strsep_whole h hs, times_whole hs]
      simp only [addTimes, h.str_eq, strsep]

/-- **The line.** -/
theorem readTotaltime_line {data buffer name r : List Char} (total : ℤ) (hname : ' ' ∉ name)
    (hclean : '\n' ∉ name ++ ' ' :: r ∧ nul ∉ name ++ ' ' :: r) (hdata : fill data buffer = name ++ ' ' :: r ++ '\n' :: v) :
    readTotaltime data buffer total = some (total + times r) := by
  have hfirst := strsep_at (u := []) (v := v) (p := 0) hclean.1 hclean.2 (by decide)
  have hholds : Holds (name ++ ' ' :: r ++ nul :: v) (0, name ++ ' ' :: r) := holds_at [] v hclean.2
  have hsecond : strsep ⟨name ++ ' ' :: r ++ nul :: v, 0⟩ (some 0) ' ' = _ := strsep_cut hholds hname
  have hright : Holds ((name ++ ' ' :: r ++ nul :: v).set (0 + name.length) nul) (0 + name.length + 1, r) := hholds.cut.2
  simp only [List.nil_append, List.length_nil, ← hdata] at hfirst
  have hn : r.length + 1 < (fill data buffer).length + 2 := by
    rw [hdata]
    simp only [List.length_append, List.length_cons]
    omega
  have hloop := addTimes_text (m := ⟨_, 0⟩) total hright hn
  simp only [readTotaltime, hfirst, hsecond]
  exact hloop

end DecsLabs.Cpu
