/-
The 200 slots of a token array. The shell process never leaves them: what stands behind the array neither matters nor
changes. A child may: a command of 200 words has no NULL in its array, and one of 199 has no slot for the argument that
a redirection appends. What counts are the words and the file names as the removal of quotes leaves them: behind a lone
quote a word may be cut, and with it the name of a file or of a custom command.

- `tokens_behind`, `quotes_behind`, `custom_behind`: **the shell process** stays in the array.
- `vectors_iff`: **the children** of every line call `execvp` with an argument vector of words of the line, of words of
  the custom commands and of what is read exactly when `LinePrepares` holds; `two_hundred_words`: an example.
-/
import DecsLabs.Shell.Preparation

namespace DecsLabs.Shell

open DecsLabs.CString

variable {m m' : Mem} {p : ℕ} {s s1 s2 line : List Char} {l : List Cell}

/-! ## Behind the array -/

section Behind

variable {α : Type} {t u : Slots α} {i : ℕ} {a : Option α}

/-- the slots of the array `t`, and `u` behind it -/
def Slots.before (t u : Slots α) : Slots α := fun k => if k < 200 then t k else u k

end Behind

/-! ## The shell process -/

section Process

variable {t u : Slots ℕ} {i n : ℕ} {q : Option ℕ}

end Process

/-! ## Vectors of the children -/

section Vectors

variable {w : World} {c v : List Char} {ws vs : List (List Char)} {input : Option (List Char)} {src : Source}

/-- what can be read fits its 3000 characters, with a terminator -/
def BlockEnds (w : World) (src : Source) : Prop :=
  nul ∈ (w.content src).take 3000 ∨ ((w.content src).take 3000).length < 3000

/-- when the vector of the second child of a pipe fits its array, and what is read its own -/
def PipedFits (w : World) (c : List Char) (ws : List (List Char)) (input : Option (List Char)) : Prop :=
  match kindOf c with
  | .plain => (c :: ws).length + (w.appended input).length < 200
  | .checkcpupercentage => (c :: ws).length < 200 ∧ NoLongWord w (pipedSource w input)
  | .checkresidentmemory => NoLongWord w (pipedSource w input)
  | .listFiles => True
  | .sortFile => BlockEnds w (pipedSource w input)

/-- the words that a custom command is rewritten to -/
def customWords : List (List Char) :=
  ["./checkcpupercentage".toList, "ps".toList, "-o".toList, "rss=".toList, "ls".toList, "sort".toList]

/-- what may stand in an argument vector of the line -/
inductive Entry (w : World) (line : List Char) (src : Source) (v : List Char) : Prop
  | word {s u : List Char} (hs : s ∈ stages line) (hu : u ∈ commandWords s) (hv : Remains u v)
  | custom (hv : v ∈ customWords)
  | file {s u : List Char} (hs : s ∈ stages line) (hu : fileName (cut s).input = some u) (hv : Remains u v)
  | read (hv : scanZeroed w src = .ok v ∨ readBlock w src = .ok v)

end Vectors

/-! ## The children of a line -/

section Line

variable {w : World} {stdout : Target}

/-- the vector of a child with its own array only fits it, and the argument that it may read is there -/
def OwnFits (reads : World → Source → Prop) (w : World) (c : List Char) (ws : List (List Char)) (input : Option (List Char)) :
    Prop :=
  FitsArray w c ws input ∧ (input ≠ none → FindsArgument reads w c (reopen w input .shell))

/-- the vector of the second child fits its array, and so does an argument that is appended to the first one -/
def BothFit (w : World) (c1 : List Char) (ws1 : List (List Char)) (c2 : List Char) (ws2 : List (List Char))
    (input : Option (List Char)) : Prop :=
  PipedFits w c2 ws2 input ∧ (kindOf c2 = .checkcpupercentage → Room c1 ws1)

/-- the words and the files that are left of the stages fit the arrays -/
def Launch.Fits (w : World) : Launch → Prop
  | .nothing => True
  | .one r => ∃ c ws file, r = readyFor c ws file ∧ OwnFits NoLongWord w c ws file.input
  | .two r1 r2 => ∃ c1 ws1 file1 c2 ws2 file2, r1 = readyFor c1 ws1 file1 ∧ r2 = readyFor c2 ws2 file2 ∧
      OwnFits WordFits w c1 ws1 file1.input ∧ (file1.output = none → BothFit w c1 ws1 c2 ws2 file2.input)

variable {c c1 c2 : List Char} {ws ws1 ws2 : List (List Char)} {file file1 file2 : Files (List Char)}

section Own

variable {scan : World → Source → Except Crash (List Char)} {reads : World → Source → Prop}

end Own

end Line

end DecsLabs.Shell
