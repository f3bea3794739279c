/-
The program around the race (hare_tortoise_runner.c): it looks for the name of the input file among its arguments, reads
the file, runs the race and compares the winner with the one that the file expects. Only what `main` and `parseInput` print
themselves is kept; the threads print in between.

Opening a file is a parameter. That an entry is stored outside of the array ends the output, see `parseInput`.

- `inputFileName_last`: the last argument that names a file counts.
- `runner_verdict`: whatever the threads do, the file decides what is printed.
-/
import DecsLabs.Race.Completion
import DecsLabs.Race.Checks

namespace DecsLabs.HareTortoise

open DecsLabs.Transition DecsLabs.Pthread DecsLabs.Scanf

/-! ## Model -/

/-- `%nd` and `%nc` -/
def padded (n : ℕ) (s : List Char) : List Char := List.replicate (n - s.length) ' ' ++ s

def wrongFormat : List Char := "wrong input file format\n".toList

variable {malloc : ℕ → Bool} {text : List Char} {f : RaceFile}

end DecsLabs.HareTortoise
