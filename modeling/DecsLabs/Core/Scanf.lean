/-
`fscanf` on a text: the directives `%d` and `%c` and white space, with the meaning of the C standard. Nothing here is
about a particular program.

A white-space directive reads up to the first character that is not white space, and `%d` does so before its number;
`%c` reads one character, whatever it is. Reading ends at the first directive that fails, so the number of values is
what `fscanf` returns, except that it returns `EOF` for none at the end of the text. The standard leaves a number
undefined that is no `int`; as in common libraries it is cut off at the bounds of `long` and narrowed.

- `fscanf`: the values that a format reads, and the rest of the text.
- `numeral`: a number as `printf` writes it.
- `fscanf_numeral`: a number is read back when no digit follows it.
- `atoi`: `strtol` narrowed to `int`; `atoi_toDigits` is what it makes of a number without a sign.
- `scanNumber`, `scanWord`: numbers where a `long` has 32 bits, and `%s`, for programs that read on after a failure.
-/
import Mathlib.Tactic

namespace DecsLabs.Scanf

/-! ## Reading -/

/-- `isspace` in the C locale -/
def isSpace (c : Char) : Bool := c = ' ' ∨ 9 ≤ c.toNat ∧ c.toNat ≤ 13

inductive Directive where
  /-- `%d` -/
  | int
  /-- `%c` -/
  | char
  | space
deriving DecidableEq, Repr

inductive Value where
  | int (n : Int32)
  | char (c : Char)
deriving DecidableEq, Repr

def skipSpace (s : List Char) : List Char := s.dropWhile isSpace

/-- an `int` from a number of any size -/
def narrow (v : ℤ) : Int32 := Int32.ofInt (max (-2 ^ 63) (min v (2 ^ 63 - 1)))

/-- the digits at the start of `s`, with a sign that is already read -/
def scanDigits (sign : ℤ) (s : List Char) : Option (Int32 × List Char) :=
  if s.takeWhile Char.isDigit = [] then none
  else some (narrow (sign * Nat.ofDigitChars 10 (s.takeWhile Char.isDigit) 0), s.dropWhile Char.isDigit)

/-- `%d` -/
def scanInt (s : List Char) : Option (Int32 × List Char) :=
  match skipSpace s with
  | '-' :: t => scanDigits (-1) t
  | '+' :: t => scanDigits 1 t
  | t => scanDigits 1 t

/-- the values that are read, and what is left of the text -/
def fscanf : List Directive → List Char → List Value × List Char
  | [], s => ([], s)
  | .space :: f, s => fscanf f (skipSpace s)
  | .char :: _, [] => ([], [])
  | .char :: f, c :: s => (.char c :: (fscanf f s).1, (fscanf f s).2)
  | .int :: f, s =>
    match scanInt s with
    | none => ([], s)
    | some (n, s) => (.int n :: (fscanf f s).1, (fscanf f s).2)

/-! ## Numbers that are read back -/

/-- `%d` of `printf` -/
def numeral (v : ℤ) : List Char := if v < 0 then '-' :: Nat.toDigits 10 v.natAbs else Nat.toDigits 10 v.natAbs

/-- what follows does not continue a number -/
def Ends (s : List Char) : Prop := ∀ c ∈ s.head?, ¬ c.isDigit

variable {s : List Char} {c : Char} {f : List Directive}

theorem isDigit_range (h : c.isDigit) : 48 ≤ c.toNat ∧ c.toNat ≤ 57 := by
  simp only [Char.isDigit, Bool.and_eq_true, decide_eq_true_eq] at h
  exact ⟨UInt32.le_iff_toNat_le.1 h.1, UInt32.le_iff_toNat_le.1 h.2⟩

theorem not_isSpace_of_isDigit (h : c.isDigit) : isSpace c = false := by
  have hrange := isDigit_range h
  have hne : c ≠ ' ' := by
    rintro rfl
    exact absurd hrange.1 (by decide)
  simp only [isSpace, decide_eq_false_iff_not, not_or]
  exact ⟨hne, by omega⟩

theorem skipSpace_cons (h : isSpace c = false) : skipSpace (c :: s) = c :: s := by
  rw [skipSpace, List.dropWhile_cons_of_neg (by simp [h])]

theorem skipSpace_space (h : isSpace c = true) : skipSpace (c :: s) = skipSpace s := by
  rw [skipSpace, List.dropWhile_cons_of_pos h, skipSpace]

theorem ends_space (h : isSpace c) : Ends (c :: s) := by
  intro d hd hdigit
  cases hd
  rw [not_isSpace_of_isDigit hdigit] at h
  cases h

theorem digits_split {d : List Char} (hd : ∀ c ∈ d, c.isDigit) (hs : Ends s) :
    (d ++ s).takeWhile Char.isDigit = d ∧ (d ++ s).dropWhile Char.isDigit = s := by
  have hrest : s.takeWhile Char.isDigit = [] ∧ s.dropWhile Char.isDigit = s := by
    cases s with
    | nil => exact ⟨rfl, rfl⟩
    | cons c s =>
      have hc : ¬ c.isDigit := hs c rfl
      exact ⟨List.takeWhile_cons_of_neg hc, List.dropWhile_cons_of_neg hc⟩
  rw [List.takeWhile_append_of_pos hd, List.dropWhile_append_of_pos hd, hrest.1, hrest.2, List.append_nil]
  exact ⟨rfl, rfl⟩

theorem toDigits_isDigit (n : ℕ) : ∀ c ∈ Nat.toDigits 10 n, c.isDigit :=
  fun _ hc => Nat.isDigit_of_mem_toDigits (by decide) (by decide) hc

theorem scanDigits_toDigits (sign : ℤ) (n : ℕ) (hs : Ends s) :
    scanDigits sign (Nat.toDigits 10 n ++ s) = some (narrow (sign * n), s) := by
  obtain ⟨htake, hdrop⟩ := digits_split (toDigits_isDigit n) hs
  rw [scanDigits, htake, hdrop, if_neg Nat.toDigits_ne_nil, Nat.ofDigitChars_ten_toDigits]

theorem narrow_toInt (n : Int32) : narrow n.toInt = n := by
  have hlo := n.le_toInt
  have hhi := n.toInt_lt
  rw [narrow, min_eq_left (by omega), max_eq_right (by omega), Int32.ofInt_toInt]

/-- the first character of a number -/
theorem numeral_cons (v : ℤ) : ∃ c t, numeral v = c :: t ∧ isSpace c = false := by
  unfold numeral
  split_ifs
  · exact ⟨'-', _, rfl, by decide⟩
  · obtain ⟨c, t, ht⟩ := List.exists_cons_of_ne_nil (Nat.toDigits_ne_nil (n := v.natAbs) (b := 10))
    exact ⟨c, t, ht, not_isSpace_of_isDigit (toDigits_isDigit v.natAbs c (by simp [ht]))⟩

/-- a number without a sign -/
theorem scanInt_digit (hc : c.isDigit) : scanInt (c :: s) = scanDigits 1 (c :: s) := by
  rw [scanInt, skipSpace_cons (not_isSpace_of_isDigit hc)]
  split
  · exact absurd hc (by simp_all)
  · exact absurd hc (by simp_all)
  · rfl

/-- **A number is read back.** -/
theorem scanInt_numeral (n : Int32) (hs : Ends s) : scanInt (numeral n.toInt ++ s) = some (n, s) := by
  unfold numeral
  split_ifs with hn
  · have hsign : scanInt ('-' :: (Nat.toDigits 10 n.toInt.natAbs ++ s)) =
        scanDigits (-1) (Nat.toDigits 10 n.toInt.natAbs ++ s) := rfl
    have hval : (-1 : ℤ) * n.toInt.natAbs = n.toInt := by omega
    rw [List.cons_append, hsign, scanDigits_toDigits _ _ hs, hval, narrow_toInt]
  · obtain ⟨c, t, ht⟩ := List.exists_cons_of_ne_nil (Nat.toDigits_ne_nil (n := n.toInt.natAbs) (b := 10))
    have hc : c.isDigit := toDigits_isDigit n.toInt.natAbs c (by simp [ht])
    have hval : (1 : ℤ) * n.toInt.natAbs = n.toInt := by omega
    have hdigits : scanInt (Nat.toDigits 10 n.toInt.natAbs ++ s) =
        scanDigits 1 (Nat.toDigits 10 n.toInt.natAbs ++ s) := by
      rw [ht, List.cons_append, scanInt_digit hc]
    rw [hdigits, scanDigits_toDigits _ _ hs, hval, narrow_toInt]

theorem fscanf_numeral (n : Int32) (hs : Ends s) :
    fscanf (.int :: f) (numeral n.toInt ++ s) = (.int n :: (fscanf f s).1, (fscanf f s).2) := by
  rw [fscanf, scanInt_numeral n hs]

/-- white space before a number -/
theorem skipSpace_numeral (v : ℤ) : skipSpace (numeral v ++ s) = numeral v ++ s := by
  obtain ⟨c, t, ht, hc⟩ := numeral_cons v
  rw [ht, List.cons_append, skipSpace_cons hc]

/-! ## atoi -/

/-- `(int) strtol(s, NULL, 10)`, which is 0 without a number -/
def atoi (s : List Char) : Int32 := ((scanInt s).map Prod.fst).getD 0

@[simp] theorem atoi_nil : atoi [] = 0 := rfl

theorem atoi_toDigits (n : ℕ) : atoi (Nat.toDigits 10 n) = narrow n := by
  obtain ⟨c, t, ht⟩ := List.exists_cons_of_ne_nil (Nat.toDigits_ne_nil (n := n) (b := 10))
  have hc : c.isDigit := toDigits_isDigit n c (by simp [ht])
  have hends : Ends [] := by simp [Ends]
  have hdigits := scanDigits_toDigits 1 n hends
  rw [List.append_nil, one_mul] at hdigits
  rw [atoi, ht, scanInt_digit hc, ← ht, hdigits]
  rfl

/-- a number below 2^63 is narrowed by a multiple of 2^32 -/
theorem toInt_narrow {n : ℕ} (h : n < 2 ^ 63) : (narrow n).toInt = n - 2 ^ 32 * ((n + 2 ^ 31) / 2 ^ 32 : ℕ) := by
  have hlong : max (-2 ^ 63) (min (n : ℤ) (2 ^ 63 - 1)) = n := by omega
  have hsize : Int32.size = 2 ^ 32 := rfl
  rw [narrow, hlong, Int32.toInt_ofInt, hsize, Int.bmod_def]
  push_cast
  split_ifs <;> omega

theorem toInt_narrow_of_lt {n : ℕ} (h : n < 2 ^ 31) : (narrow n).toInt = n := by
  have hquot : (n + 2 ^ 31) / 2 ^ 32 = 0 := Nat.div_eq_of_lt (by omega)
  rw [toInt_narrow (h.trans (by decide)), hquot]
  simp


/-! ## Numbers of 32 bits, and words -/

/-- the digits at the start of `s` with their sign, and what is left of the text -/
def scanMagnitude (neg : Bool) (s : List Char) : Option (Bool × ℕ) × List Char :=
  if s.takeWhile Char.isDigit = [] then (none, s)
  else (some (neg, Nat.ofDigitChars 10 (s.takeWhile Char.isDigit) 0), s.dropWhile Char.isDigit)

/-- a sign without a number is read and lost -/
def scanNumber (s : List Char) : Option (Bool × ℕ) × List Char :=
  match skipSpace s with
  | '-' :: t => scanMagnitude true t
  | '+' :: t => scanMagnitude false t
  | t => scanMagnitude false t

/-- `strtol` where a `long` has 32 bits -/
def toLong (v : Bool × ℕ) : Int32 :=
  Int32.ofInt (max (-2 ^ 31) (min (if v.1 then -(v.2 : ℤ) else v.2) (2 ^ 31 - 1)))

/-- `strtoul` where a `long` has 32 bits -/
def toULong (v : Bool × ℕ) : UInt32 :=
  if v.2 < 2 ^ 32 then if v.1 then -UInt32.ofNat v.2 else UInt32.ofNat v.2 else 0xFFFFFFFF

/-- `%d` and `%u` there, where a variable keeps its value when there is no number -/
def readLong (old : Int32) (s : List Char) : Int32 × List Char :=
  ((scanNumber s).1.elim old toLong, (scanNumber s).2)

/-- `%s`, which fails at the end of the text only -/
def scanWord (s : List Char) : Option (List Char × List Char) :=
  if skipSpace s = [] then none
  else some ((skipSpace s).takeWhile fun c => !isSpace c, (skipSpace s).dropWhile fun c => !isSpace c)

theorem scanMagnitude_toDigits (neg : Bool) (n : ℕ) (hs : Ends s) :
    scanMagnitude neg (Nat.toDigits 10 n ++ s) = (some (neg, n), s) := by
  obtain ⟨htake, hdrop⟩ := digits_split (toDigits_isDigit n) hs
  rw [scanMagnitude, htake, hdrop, if_neg Nat.toDigits_ne_nil, Nat.ofDigitChars_ten_toDigits]

theorem scanNumber_toDigits (n : ℕ) (hs : Ends s) : scanNumber (Nat.toDigits 10 n ++ s) = (some (false, n), s) := by
  obtain ⟨c, t, ht⟩ := List.exists_cons_of_ne_nil (Nat.toDigits_ne_nil (n := n) (b := 10))
  have hc : c.isDigit := toDigits_isDigit n c (by simp [ht])
  have hskip : skipSpace (Nat.toDigits 10 n ++ s) = c :: (t ++ s) := by
    rw [ht, List.cons_append, skipSpace_cons (not_isSpace_of_isDigit hc)]
  have hmag := scanMagnitude_toDigits false n hs
  rw [ht, List.cons_append] at hmag
  rw [scanNumber, hskip]
  split
  · exact absurd hc (by simp_all)
  · exact absurd hc (by simp_all)
  · exact hmag

theorem scanNumber_numeral (v : ℤ) (hs : Ends s) : scanNumber (numeral v ++ s) = (some (decide (v < 0), v.natAbs), s) := by
  unfold numeral
  split_ifs with hv
  · rw [decide_eq_true hv]
    exact scanMagnitude_toDigits true _ hs
  · rw [decide_eq_false hv]
    exact scanNumber_toDigits _ hs

theorem readLong_numeral (old n : Int32) (hs : Ends s) : readLong old (numeral n.toInt ++ s) = (n, s) := by
  have hlo := n.le_toInt
  have hhi := n.toInt_lt
  have hval : (if decide (n.toInt < 0) then -(n.toInt.natAbs : ℤ) else n.toInt.natAbs) = n.toInt := by
    by_cases hn : n.toInt < 0
    · rw [if_pos (decide_eq_true hn)]
      omega
    · rw [if_neg (by simpa using hn)]
      omega
  rw [readLong, scanNumber_numeral _ hs, Option.elim_some, toLong, hval, min_eq_left (by omega), max_eq_right (by omega),
    Int32.ofInt_toInt]

theorem toULong_toNat (n : UInt32) : toULong (false, n.toNat) = n := by
  rw [toULong, if_pos n.toNat_lt]
  exact UInt32.ofNat_toNat

/-- reading does not make the text longer -/
theorem scanNumber_length (s : List Char) : (scanNumber s).2.length ≤ s.length := by
  have hmag : ∀ neg (t : List Char), (scanMagnitude neg t).2.length ≤ t.length := by
    intro neg t
    unfold scanMagnitude
    split_ifs
    · exact le_rfl
    · exact (List.dropWhile_sublist _).length_le
  have hskip : (skipSpace s).length ≤ s.length := (List.dropWhile_sublist _).length_le
  unfold scanNumber
  split
  · rename_i t ht
    rw [ht, List.length_cons] at hskip
    exact (hmag true t).trans (Nat.le_of_succ_le hskip)
  · rename_i t ht
    rw [ht, List.length_cons] at hskip
    exact (hmag false t).trans (Nat.le_of_succ_le hskip)
  · exact (hmag false _).trans hskip

/-- a word has a character, and what is left is shorter -/
theorem scanWord_some {w rest : List Char} (h : scanWord s = some (w, rest)) :
    ∃ c t, w = c :: t ∧ rest.length < s.length := by
  unfold scanWord at h
  split_ifs at h with hnil
  cases h
  obtain ⟨c, t, ht⟩ := List.exists_cons_of_ne_nil hnil
  have hhead := List.head?_dropWhile_not isSpace s
  have hskip : (skipSpace s).length ≤ s.length := (List.dropWhile_sublist _).length_le
  rw [← skipSpace, ht] at hhead
  have hc : isSpace c = false := hhead
  rw [ht, List.length_cons] at hskip
  refine ⟨c, t.takeWhile fun d => !isSpace d, ?_, ?_⟩
  · rw [ht, List.takeWhile_cons_of_pos (by simp [hc])]
  · rw [ht, List.dropWhile_cons_of_pos (by simp [hc])]
    exact (List.dropWhile_sublist _).length_le.trans_lt hskip

/-- a word without white space in it, up to the white space behind it -/
theorem scanWord_cons {c : Char} {w rest : List Char} (hw : ∀ d ∈ c :: w, isSpace d = false)
    (hrest : ∀ d ∈ rest.head?, isSpace d = true) : scanWord (c :: w ++ rest) = some (c :: w, rest) := by
  have hskip : skipSpace (c :: w ++ rest) = c :: w ++ rest := skipSpace_cons (hw c List.mem_cons_self)
  have hall : ∀ d ∈ c :: w, (!isSpace d) = true := by
    intro d hd
    rw [hw d hd]
    rfl
  have htail : rest.takeWhile (fun d => !isSpace d) = [] ∧ rest.dropWhile (fun d => !isSpace d) = rest := by
    cases rest with
    | nil => exact ⟨rfl, rfl⟩
    | cons d rest =>
      have hd : ¬ (!isSpace d) = true := by simp [hrest d rfl]
      exact ⟨List.takeWhile_cons_of_neg hd, List.dropWhile_cons_of_neg hd⟩
  rw [scanWord, hskip, if_neg (by simp), List.takeWhile_append_of_pos hall, List.dropWhile_append_of_pos hall, htail.1,
    htail.2, List.append_nil]

end DecsLabs.Scanf
