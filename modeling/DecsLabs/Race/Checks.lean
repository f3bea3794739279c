/-
What `parseInput` does not check. Its count becomes the size of the array and the bound of the loop, in both places as a
`size_t`; its printing delay becomes a divisor in the Reporter. The count does no harm: a count below 0 asks for more than
any block, and without an array the first entry is refused.

- `Complete`: as many entries as were announced, and a winner, follow the numbers.
- `readEntries_room`: the loop with an array that is large enough.
- `arrayCapacity_room`: an array that is granted is large enough.
- `safe_iff`: exactly which files are refused or lead to a race that is safe to run.
- `delay_zero`: a file that divides by zero.
-/
import DecsLabs.Race.Format
import DecsLabs.Race.Threads

namespace DecsLabs.HareTortoise

open DecsLabs.Scanf DecsLabs.Pthread

/-! ## Safety -/

def RaceFile.race (f : RaceFile) : Race :=
  ⟨f.header.printingDelay, f.header.tortoiseSpeed, f.header.hareSpeed, f.header.hareSleepTime,
    f.header.hareTurtleDistanceForSleep, f.header.finishDistance, f.reposition⟩

/-- where the Reporter goes from `if(clock_tick%printing_delay==0)` in a tick -/
def afterPrint (r : Race) (m : Mem) : Option ReportPc :=
  match reportCode r .print with
  | .act f => some (f m).2
  | _ => none

theorem afterPrint_crash (r : Race) (m : Mem) : afterPrint r m = some .crash ↔ r.printingDelay = 0 := by
  simp only [afterPrint, reportCode]
  split_ifs with hd ht <;> simp [hd]

/-- nothing is stored outside of the array, and a race that is accepted has all its entries and no division by zero -/
structure SafeToRun (result : Except Stop RaceFile) : Prop where
  inBounds : result ≠ .error .outOfBounds
  stored : ∀ f, result = .ok f → 0 ≤ f.header.repositioningCount.toInt ∧
    (f.reposition.length : ℤ) = f.header.repositioningCount.toInt
  divides : ∀ f, result = .ok f → ∀ m, afterPrint f.race m ≠ some .crash

/-- `n` entries and a winner -/
def Complete : ℕ → List Char → Prop
  | 0, text => text ≠ []
  | n + 1, text => ∃ player time distance rest,
    fscanf entryFormat text = ([.char player, .int time, .int distance], rest) ∧ Complete n rest

/-- the loop has an array, or does not need one -/
def HasArray (malloc : ℕ → Bool) (count : Int32) : Prop := count.toInt = 0 ∨ malloc (arrayBytes count)

/-- a file with a winner behind its entries has a printing delay -/
def Sound (malloc : ℕ → Bool) (text : List Char) : Prop :=
  ∀ header rest, readHeader text = .ok (header, rest) → HasArray malloc header.repositioningCount →
    Complete (toSize header.repositioningCount) rest → header.printingDelay ≠ 0

/-! ## The loop -/

variable {malloc : ℕ → Bool} {text rest : List Char} {n i : ℕ} {capacity : Option ℕ} {count : Int32}

theorem readInt_error {e : Stop} (h : readInt text = .error e) : e = .wrongFormat := by
  unfold readInt at h
  split at h <;> cases h
  rfl

theorem bind_error {α β : Type} {x : Except Stop α} {f : α → Except Stop β} {e : Stop} (h : (x >>= f) = .error e) :
    x = .error e ∨ ∃ a, x = .ok a ∧ f a = .error e := by
  cases x with
  | error _ =>
    cases h
    exact .inl rfl
  | ok a => exact .inr ⟨a, rfl, h⟩

theorem readHeader_error {e : Stop} (h : readHeader text = .error e) : e = .wrongFormat := by
  unfold readHeader at h
  iterate 7
    rcases bind_error h with h | ⟨a, -, h⟩
    · exact readInt_error h
  cases h

/-- with room for every entry -/
theorem readEntries_room (text : List Char) (h : n ≠ 0 → ∃ size, capacity = some size ∧ i + n ≤ size) :
    (∃ l rest, readEntries capacity n i text = .ok (l, rest) ∧ l.length = n ∧ (Complete n text ↔ rest ≠ [])) ∨
    readEntries capacity n i text = .error .wrongFormat ∧ ¬ Complete n text := by
  induction n generalizing i text with
  | zero => exact .inl ⟨[], text, rfl, rfl, Iff.rfl⟩
  | succ n ih =>
    obtain ⟨size, rfl, hsize⟩ := h n.succ_ne_zero
    have hi : i < size := by omega
    simp only [readEntries]
    split
    · next s hs =>
      refine .inr ⟨rfl, ?_⟩
      rintro ⟨_, _, _, _, h, -⟩
      rw [h] at hs
      cases hs
    · next player time distance s hs =>
      have hcomplete : Complete (n + 1) text ↔ Complete n s := by
        rw [Complete]
        constructor
        · rintro ⟨_, _, _, _, h, hrest⟩
          rw [h] at hs
          cases hs
          exact hrest
        · exact fun hrest => ⟨_, _, _, _, hs, hrest⟩
      rw [if_pos hi, hcomplete]
      rcases ih (i := i + 1) s (fun _ => ⟨size, rfl, by omega⟩) with ⟨l, rest, hl, hlen, hiff⟩ | ⟨hl, hno⟩
      · exact .inl ⟨_, rest, by rw [hl]; rfl, by rw [List.length_cons, hlen], hiff⟩
      · exact .inr ⟨by rw [hl]; rfl, hno⟩
    · next hnil hfull =>
      rw [if_pos hi]
      refine .inr ⟨rfl, ?_⟩
      rintro ⟨_, _, _, _, h, -⟩
      exact hfull _ _ _ _ h

/-! ## Sizes -/

theorem toSize_nonneg (h : 0 ≤ count.toInt) : (toSize count : ℤ) = count.toInt := by
  have hlt := count.toInt_lt
  unfold toSize
  omega

theorem toSize_neg (h : count.toInt < 0) : (toSize count : ℤ) = 2 ^ 64 + count.toInt := by
  have hle := count.le_toInt
  unfold toSize
  omega

/-- the array of a negative count is larger than any block -/
theorem arrayBytes_neg (h : count.toInt < 0) : 2 ^ 63 ≤ arrayBytes count := by
  have hsize := toSize_neg h
  have hle := count.le_toInt
  have hwrap : 12 * toSize count = 2 ^ 64 * 11 + (12 * toSize count - 2 ^ 64 * 11) := by omega
  rw [arrayBytes, entryBytes, hwrap, Nat.mul_add_mod, Nat.mod_eq_of_lt (by omega)]
  omega

/-- what is granted is large enough -/
theorem arrayCapacity_room (hm : ∀ n, malloc n → n < 2 ^ 63) (h : HasArray malloc count) :
    0 ≤ count.toInt ∧ (toSize count ≠ 0 → ∃ size, arrayCapacity malloc count = some size ∧ 0 + toSize count ≤ size) := by
  have h0 : 0 ≤ count.toInt := by
    rcases h with h | h
    · exact h.ge
    · by_contra hneg
      exact absurd (hm _ h) (not_lt.2 (arrayBytes_neg (not_le.1 hneg)))
  have hsize := toSize_nonneg h0
  have hlt := count.toInt_lt
  refine ⟨h0, fun hne => ?_⟩
  rcases h with h | h
  · omega
  · refine ⟨_, if_pos h, ?_⟩
    unfold arrayBytes entryBytes
    omega

/-! ## Files -/

/-- a file that is refused -/
theorem safe_of_wrongFormat : SafeToRun (.error .wrongFormat) := by
  constructor
  · intro h
    cases h
  · intro f h
    cases h
  · intro f h
    cases h

theorem readWinner_nil : readWinner [] = .error .wrongFormat := rfl

theorem readWinner_cons (w : Char) (s : List Char) : readWinner (w :: s) = .ok w := rfl

theorem parseInput_header {header : Header} (h : readHeader text = .ok (header, rest)) :
    parseInput malloc text = parseRest malloc header rest := by
  rw [parseInput, h]
  rfl

/-- with an array -/
theorem parseRest_room (hm : ∀ n, malloc n → n < 2 ^ 63) {header : Header}
    (harray : HasArray malloc header.repositioningCount) :
    SafeToRun (parseRest malloc header text) ↔
      (Complete (toSize header.repositioningCount) text → header.printingDelay ≠ 0) := by
  obtain ⟨h0, hroom⟩ := arrayCapacity_room hm harray
  rcases readEntries_room text hroom with ⟨l, rest, hl, hlen, hiff⟩ | ⟨hl, hno⟩
  · simp only [parseRest, hl, bind, Except.bind, pure, Except.pure]
    cases rest with
    | nil =>
      rw [readWinner_nil]
      exact iff_of_true safe_of_wrongFormat fun hc => absurd rfl (hiff.1 hc)
    | cons w s =>
      rw [readWinner_cons]
      have hcomplete := hiff.2 (List.cons_ne_nil w s)
      have hlength : (l.length : ℤ) = header.repositioningCount.toInt := by rw [hlen, toSize_nonneg h0]
      constructor
      · intro hsafe _ hd
        have hm := hsafe.divides _ rfl initial.mem
        exact hm ((afterPrint_crash _ _).2 hd)
      · intro hd
        constructor
        · intro h
          cases h
        · intro f h
          cases h
          exact ⟨h0, hlength⟩
        · intro f h m hm
          cases h
          exact hd hcomplete ((afterPrint_crash _ _).1 hm)
  · simp only [parseRest, hl, bind, Except.bind]
    exact iff_of_true safe_of_wrongFormat fun hc => absurd hc hno

/-- without an array the first entry is refused -/
theorem parseRest_null {header : Header} (hnone : ¬ HasArray malloc header.repositioningCount) :
    parseRest malloc header text = .error .wrongFormat := by
  obtain ⟨hcount, hm⟩ := not_or.1 hnone
  have hpos : toSize header.repositioningCount ≠ 0 := by
    have hlt := header.repositioningCount.toInt_lt
    have hle := header.repositioningCount.le_toInt
    unfold toSize
    omega
  obtain ⟨n, hn⟩ := Nat.exists_eq_succ_of_ne_zero hpos
  simp only [parseRest, arrayCapacity, if_neg hm, hn, readEntries, bind, Except.bind]

/-- **What is accepted is safe to run.** Exactly for these files, when no block is larger than `PTRDIFF_MAX`. -/
theorem safe_iff (hm : ∀ n, malloc n → n < 2 ^ 63) (text : List Char) :
    SafeToRun (parseInput malloc text) ↔ Sound malloc text := by
  cases h : readHeader text with
  | error e =>
    have he := readHeader_error h
    refine iff_of_true ?_ fun header rest hok => ?_
    · rw [parseInput, h, he]
      exact safe_of_wrongFormat
    · rw [h] at hok
      cases hok
  | ok v =>
    obtain ⟨header, rest⟩ := v
    have hsound : Sound malloc text ↔ (HasArray malloc header.repositioningCount →
        Complete (toSize header.repositioningCount) rest → header.printingDelay ≠ 0) := by
      constructor
      · exact fun hs => hs header rest h
      · intro hs header' rest' hok
        rw [h] at hok
        cases hok
        exact hs
    rw [parseInput_header h, hsound]
    by_cases harray : HasArray malloc header.repositioningCount
    · rw [parseRest_room hm harray]
      exact ⟨fun hd _ => hd, fun hs => hs harray⟩
    · rw [parseRest_null harray]
      exact iff_of_true safe_of_wrongFormat fun hyes => absurd hyes harray

/-- a `malloc` that grants every block it can -/
def grants (n : ℕ) : Bool := n < 2 ^ 63

theorem safe_iff_example : SafeToRun (parseInput grants "5\n1\n2\n3\n4\n10\n0\nH".toList) := by
  refine (safe_iff (fun n hn => by simpa [grants] using hn) _).2 ?_
  intro header rest h _ _
  have hok : readHeader "5\n1\n2\n3\n4\n10\n0\nH".toList = .ok (⟨5, 1, 2, 3, 4, 10, 0⟩, ['H']) := rfl
  rw [hok] at h
  cases h
  decide

/-- a printing delay of 0 -/
theorem delay_zero : ¬ SafeToRun (parseInput grants "0\n1\n2\n3\n4\n10\n0\nH".toList) := by
  intro h
  have hok : parseInput grants "0\n1\n2\n3\n4\n10\n0\nH".toList = .ok ⟨⟨0, 1, 2, 3, 4, 10, 0⟩, [], 'H'⟩ := rfl
  exact h.divides _ hok initial.mem rfl

/-- a count below 0 -/
example : parseInput grants "5\n1\n2\n3\n4\n10\n-1\nH".toList = .error .wrongFormat := rfl

end DecsLabs.HareTortoise
