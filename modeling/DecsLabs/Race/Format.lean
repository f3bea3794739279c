/-
The input file of the race (`parseInput` in hare_tortoise_runner.c): seven numbers, the entries for the Randomizer, and
the winner. The array of entries has the size that `malloc` is asked for, which is computed from the count that was
read; an `int` that meets a `size_t` is converted to it.

`malloc` is a parameter: whether a block of that many bytes is granted. To store outside of the array stops the program.
If no array is granted, the first `%c` of the loop has a NULL argument, which `fscanf` refuses.

- `parseInput`: the race and the winner, or how it stops.
- `raceText`: a race as the file has it.
- `parseInput_text`: such a file is read back.
-/
import DecsLabs.Core.Scanf
import DecsLabs.Race.Sequential

namespace DecsLabs.HareTortoise

open DecsLabs.Scanf

/-! ## Model -/

/-- the numbers at the start of the file -/
structure Header where
  printingDelay : Int32
  tortoiseSpeed : Int32
  hareSpeed : Int32
  hareSleepTime : Int32
  hareTurtleDistanceForSleep : Int32
  finishDistance : Int32
  repositioningCount : Int32
deriving DecidableEq, Repr

/-- `struct race` and the winner, after the file was read -/
structure RaceFile where
  header : Header
  reposition : List Repositioning
  w : Char
deriving DecidableEq, Repr

inductive Stop where
  /-- `wrong input file format`, and -1 is returned -/
  | wrongFormat
  /-- an entry is stored outside of the array -/
  | outOfBounds
deriving DecidableEq, Repr

/-- `"%d\n"` -/
def numberFormat : List Directive := [.int, .space]

/-- `"%c %d %d\n"` -/
def entryFormat : List Directive := [.char, .space, .int, .space, .int, .space]

/-- `"%c\n"` -/
def winnerFormat : List Directive := [.char, .space]

/-- `if (fscanf(f,"%d\n",..) != 1)` -/
def readInt (text : List Char) : Except Stop (Int32 × List Char) :=
  match fscanf numberFormat text with
  | ([.int n], text) => .ok (n, text)
  | _ => .error .wrongFormat

def readHeader (text : List Char) : Except Stop (Header × List Char) := do
  let (printingDelay, text) ← readInt text
  let (tortoiseSpeed, text) ← readInt text
  let (hareSpeed, text) ← readInt text
  let (hareSleepTime, text) ← readInt text
  let (hareTurtleDistanceForSleep, text) ← readInt text
  let (finishDistance, text) ← readInt text
  let (repositioningCount, text) ← readInt text
  return (⟨printingDelay, tortoiseSpeed, hareSpeed, hareSleepTime, hareTurtleDistanceForSleep, finishDistance,
    repositioningCount⟩, text)

/-- `n` rounds of the loop from the index `i`, for an array of `capacity` entries, or none -/
def readEntries (capacity : Option ℕ) : ℕ → ℕ → List Char → Except Stop (List Repositioning × List Char)
  | 0, _, text => .ok ([], text)
  | n + 1, i, text =>
    match capacity with
    -- `&((race->reposition)[0].player)` is NULL, and no later round is reached
    | none => .error .wrongFormat
    | some size =>
      match fscanf entryFormat text with
      | ([], _) => .error .wrongFormat
      | ([.char player, .int time, .int distance], text) =>
        if i < size then do
          let (reposition, text) ← readEntries capacity n (i + 1) text
          return (⟨player, time, distance⟩ :: reposition, text)
        else .error .outOfBounds
      -- a part of the entry is stored
      | _ => if i < size then .error .wrongFormat else .error .outOfBounds

def readWinner (text : List Char) : Except Stop Char :=
  match fscanf winnerFormat text with
  | ([.char w], _) => .ok w
  | _ => .error .wrongFormat

/-- an `int` converted to `size_t` -/
def toSize (n : Int32) : ℕ := (n.toInt % 2 ^ 64).toNat

/-- `sizeof(struct Repositioning)` -/
def entryBytes : ℕ := 12

/-- `sizeof(struct Repositioning) * race->repositioning_count` -/
def arrayBytes (count : Int32) : ℕ := entryBytes * toSize count % 2 ^ 64

/-- how many entries the array has, if `malloc` does not return NULL -/
def arrayCapacity (malloc : ℕ → Bool) (count : Int32) : Option ℕ :=
  if malloc (arrayBytes count) then some (arrayBytes count / entryBytes) else none

/-- `parseInput` behind the numbers -/
def parseRest (malloc : ℕ → Bool) (header : Header) (text : List Char) : Except Stop RaceFile := do
  let count := header.repositioningCount
  let (reposition, text) ← readEntries (arrayCapacity malloc count) (toSize count) 0 text
  let w ← readWinner text
  return ⟨header, reposition, w⟩

/-- `parseInput` on a file that could be opened -/
def parseInput (malloc : ℕ → Bool) (text : List Char) : Except Stop RaceFile := do
  let (header, text) ← readHeader text
  parseRest malloc header text

/-! ## Files -/

def Race.header (r : Race) : Header :=
  ⟨r.printingDelay, r.tortoiseSpeed, r.hareSpeed, r.hareSleepTime, r.hareTurtleDistanceForSleep, r.finishDistance,
    Int32.ofInt r.reposition.length⟩

def numberLine (n : Int32) (rest : List Char) : List Char := numeral n.toInt ++ '\n' :: rest

def headerText (h : Header) (rest : List Char) : List Char :=
  numberLine h.printingDelay <| numberLine h.tortoiseSpeed <| numberLine h.hareSpeed <| numberLine h.hareSleepTime <|
    numberLine h.hareTurtleDistanceForSleep <| numberLine h.finishDistance <| numberLine h.repositioningCount rest

/-- `player time distance` -/
def entryLine (e : Repositioning) (rest : List Char) : List Char :=
  e.player :: ' ' :: (numeral e.time.toInt ++ ' ' :: numberLine e.distance rest)

def entriesText (l : List Repositioning) (rest : List Char) : List Char := l.foldr entryLine rest

/-- the file of a race, with or without a line end behind the winner -/
def raceText (r : Race) (w : Char) (lineEnd : Bool) : List Char :=
  headerText r.header <| entriesText r.reposition <| w :: if lineEnd then ['\n'] else []

/-! ## Reading back -/

variable {s : List Char}

theorem numberLine_ends (n : Int32) : skipSpace (numberLine n s) = numberLine n s := skipSpace_numeral n.toInt

/-- `"%d\n"`, or the end of a longer format -/
theorem fscanf_numberLine (n : Int32) (hs : skipSpace s = s) :
    fscanf numberFormat (numberLine n s) = ([.int n], s) := by
  have hspace : fscanf [.space] ('\n' :: s) = ([], s) := by
    rw [fscanf, skipSpace_space (by decide), hs, fscanf]
  rw [numberFormat, numberLine, fscanf_numeral n (ends_space (by decide)), hspace]

theorem readInt_line (n : Int32) (hs : skipSpace s = s) : readInt (numberLine n s) = .ok (n, s) := by
  rw [readInt, fscanf_numberLine n hs]

theorem readHeader_text (h : Header) (hs : skipSpace s = s) : readHeader (headerText h s) = .ok (h, s) := by
  simp only [readHeader, headerText, readInt_line _ hs, readInt_line _ (numberLine_ends _), bind, Except.bind, pure,
    Except.pure]

theorem fscanf_entryLine (e : Repositioning) (hs : skipSpace s = s) :
    fscanf entryFormat (entryLine e s) = ([.char e.player, .int e.time, .int e.distance], s) := by
  have hdistance : fscanf (.space :: numberFormat) (' ' :: numberLine e.distance s) = ([.int e.distance], s) := by
    rw [fscanf, skipSpace_space (by decide), numberLine_ends, fscanf_numberLine _ hs]
  have htime : fscanf (.space :: .int :: .space :: numberFormat)
      (' ' :: (numeral e.time.toInt ++ ' ' :: numberLine e.distance s)) = ([.int e.time, .int e.distance], s) := by
    rw [fscanf, skipSpace_space (by decide), skipSpace_numeral, fscanf_numeral _ (ends_space (by decide)), hdistance]
  rw [entryLine, entryFormat, fscanf]
  rw [numberFormat] at htime
  rw [htime]

/-- a text that starts with a player or with the winner -/
theorem entriesText_starts {l : List Repositioning} (hl : ∀ e ∈ l, isSpace e.player = false) (hs : skipSpace s = s) :
    skipSpace (entriesText l s) = entriesText l s := by
  cases l with
  | nil => exact hs
  | cons e l => exact skipSpace_cons (hl e List.mem_cons_self)

theorem readEntries_text {capacity : ℕ} {l : List Repositioning} (hl : ∀ e ∈ l, isSpace e.player = false)
    (hs : skipSpace s = s) {i : ℕ} (hi : i + l.length ≤ capacity) :
    readEntries (some capacity) l.length i (entriesText l s) = .ok (l, s) := by
  induction l generalizing i with
  | nil => rfl
  | cons e l ih =>
    have hl' : ∀ e ∈ l, isSpace e.player = false := fun e he => hl e (List.mem_cons_of_mem _ he)
    have hline := fscanf_entryLine e (entriesText_starts hl' hs)
    rw [List.length_cons] at hi ⊢
    have hlt : i < capacity := by omega
    change readEntries (some capacity) (l.length + 1) i (entryLine e (entriesText l s)) = _
    simp only [readEntries]
    rw [hline]
    simp only [hlt, if_true, ih hl' (i := i + 1) (by omega), bind, Except.bind, pure, Except.pure]

theorem toSize_length {n : ℕ} (hn : n < 2 ^ 31) : toSize (Int32.ofInt n) = n := by
  rw [toSize, Int32.toInt_ofInt_of_le (by omega) (by omega)]
  omega

theorem arrayBytes_length {n : ℕ} (hn : n < 2 ^ 31) : arrayBytes (Int32.ofInt n) = entryBytes * n := by
  rw [arrayBytes, toSize_length hn, entryBytes]
  omega

/-- **The file is read back.** Every race, with any list of entries. -/
theorem parseInput_text (malloc : ℕ → Bool) (r : Race) (w : Char) (lineEnd : Bool)
    (hcount : r.reposition.length < 2 ^ 31) (hplayer : ∀ e ∈ r.reposition, isSpace e.player = false)
    (hw : isSpace w = false) (hm : malloc (entryBytes * r.reposition.length)) :
    parseInput malloc (raceText r w lineEnd) = .ok ⟨r.header, r.reposition, w⟩ := by
  have hwin : skipSpace (w :: if lineEnd then ['\n'] else []) = w :: if lineEnd then ['\n'] else [] := skipSpace_cons hw
  have hheader := readHeader_text r.header (entriesText_starts hplayer hwin)
  have hcapacity : arrayCapacity malloc r.header.repositioningCount = some r.reposition.length := by
    have hbytes : arrayBytes r.header.repositioningCount = entryBytes * r.reposition.length := arrayBytes_length hcount
    rw [arrayCapacity, hbytes, if_pos hm]
    exact congrArg some (Nat.mul_div_cancel_left _ (by decide))
  have hsize : toSize r.header.repositioningCount = r.reposition.length := toSize_length hcount
  have hentries : readEntries (some r.reposition.length) r.reposition.length 0 _ = .ok (r.reposition, _) :=
    readEntries_text hplayer hwin (by omega)
  have hwinner : readWinner (w :: if lineEnd then ['\n'] else []) = .ok w := by
    cases lineEnd <;> rfl
  simp only [parseInput, parseRest, raceText, hheader, hcapacity, hsize, hentries, hwinner, bind, Except.bind, pure,
    Except.pure]

/-- a player that is a digit, and one that is a sign -/
def signedRace : Race := ⟨1, 10, 200, 2, 1, -1000, [⟨'7', 2, 100⟩, ⟨'-', 3, -10⟩]⟩

theorem parseInput_text_example : parseInput (fun n => decide (n < 2 ^ 63)) (raceText signedRace 'H' false) =
    .ok ⟨signedRace.header, signedRace.reposition, 'H'⟩ :=
  parseInput_text _ signedRace 'H' false (by decide) (by decide) (by decide) (by decide)

end DecsLabs.HareTortoise
