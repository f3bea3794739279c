/-
The commands of the shell with the removal of quotes as it runs in memory. The scan for the closing quote starts two
characters behind the opening one, so behind a quote that is alone it starts in what follows the terminator: another token,
the next line of a batch file, or what else is on the heap. `Commands` counts that as a fault; here the scan goes on. Where
the memory that is modelled ends it finds a terminator.

- `removeQuotesOn`: the block that the removals of quotes repeat.
- `executeCommandWith`: `executeCommand` around any such block; `executeCommandWith_strict`: with the block of `Commands`
  it is `executeCommand`.
-/
import DecsLabs.Shell.Commands

namespace DecsLabs.Shell

open DecsLabs.CString

/-! ## The block -/

/-- where `while (s[j] != '"') { if (s[j] == '\0') break; j++; }` stops when it begins at `i` -/
def stopFrom (b : List Char) (i : ℕ) : ℕ := i + ((str b i).takeWhile (· != '"')).length

/-- the block that all three removals of quotes repeat, for the string at `p` -/
def removeQuotesOn (m : Mem) (p : ℕ) : Except Fault (ℕ × Mem) :=
  if m.buf.getD p nul = '"' then
    let r := stopFrom m.buf (p + 2)
    .ok (p + 1, if m.buf.getD r nul = '"' then { m with buf := m.buf.set r nul } else m)
  else .ok (p, m)

/-! ## The loops around it -/

/-- the loop of `doubleQuotesRemovalFromTokens` around a block -/
def tokenLoop (block : Mem → ℕ → Except Fault (ℕ × Mem)) : ℕ → ℕ → Slots ℕ → Mem → Except Fault (Slots ℕ × Mem)
  | 0, _, t, m => .ok (t, m)
  | n + 1, i, t, m => do
    match ← t.read i with
    | none => return (t, m)
    | some p =>
      let (p, m) ← block m p
      tokenLoop block n (i + 1) (t.write i (some p)) m

/-- the two halves of `fileDoubleQuotesRemovalFromTokens` around a block -/
def fileBlock (block : Mem → ℕ → Except Fault (ℕ × Mem)) (m : Mem) (f : Option ℕ) : Except Fault (Option ℕ × Mem) :=
  match f with
  | none => .ok (none, m)
  | some p => do
    let (p, m) ← block m p
    return (some p, m)

/-- both removals for one stage -/
def stageQuotes (block : Mem → ℕ → Except Fault (ℕ × Mem)) (m : Mem) (tokens : Slots ℕ) (file : Files ℕ) :
    Except Fault (Slots ℕ × Files ℕ × Mem) := do
  let (tokens, m) ← tokenLoop block 200 0 tokens m
  let (inp, m) ← fileBlock block m file.input
  let (out, m) ← fileBlock block m file.output
  return (tokens, ⟨inp, out⟩, m)

/-- the loop of `Commands` is the loop around its block -/
theorem removeTokenQuotes_eq (n i : ℕ) (t : Slots ℕ) (m : Mem) :
    removeTokenQuotes n i t m = tokenLoop removeQuotes n i t m := by
  induction n generalizing i t m with
  | zero => rfl
  | succ n ih =>
    rw [removeTokenQuotes, tokenLoop]
    refine congrArg _ (funext fun a => ?_)
    cases a with
    | none => rfl
    | some p => exact congrArg _ (funext fun r => ih _ _ _)

/-! ## Commands -/

section
variable (block : Mem → ℕ → Except Fault (ℕ × Mem))

/-- `executeCommand` when there is no second stage -/
def executeOneWith (m : Mem) (str1 : Option ℕ) : Except Fault (List Event × Mem) := do
  let (tokens, file, m) ← checkIOParser m str1 ⟨none, none⟩ .empty
  if (← tokens.read 0) = none then return ([.report], m)
  else
    let (tokens, file, m) ← stageQuotes block m tokens file
    let flag ← commandsChecker m.buf ((← tokens.read 0).map .ptr)
    let t ← checkCustomCommands m.buf tokens
    if flag = 1 then return ([← runBuiltin m.buf (str1.getD 0) t], m)
    else return ([.fork (str1.getD 0) (child m.buf t file flag)], m)

/-- `executeCommand` with a pipe -/
def executeTwoWith (m : Mem) (str1 str2 : ℕ) : Except Fault (List Event × Mem) := do
  let (tokens1, file1, m) ← checkIOParser m (some str1) ⟨none, none⟩ .empty
  let (tokens2, file2, m) ← checkIOParser m (some str2) ⟨none, none⟩ .empty
  if (← tokens1.read 0) = none then return ([.report], m)
  else if (← tokens2.read 0) = none then return ([.report], m)
  else
    let (tokens1, file1, m) ← stageQuotes block m tokens1 file1
    let (tokens2, file2, m) ← stageQuotes block m tokens2 file2
    let flag1 ← commandsChecker m.buf ((← tokens1.read 0).map .ptr)
    let flag2 ← commandsChecker m.buf ((← tokens2.read 0).map .ptr)
    let t1 ← checkCustomCommands m.buf tokens1
    let t2 ← checkCustomCommands m.buf tokens2
    if flag1 = 1 then return ([← runBuiltin m.buf str1 t1], m)
    else
      let first := .fork str1 (child m.buf t1 file1 flag1)
      if file1.output = none then return ([first, .fork str2 (child m.buf t2 file2 flag2)], m)
      else return ([first], m)

def executeCommandWith (m : Mem) (s : ℕ) : Except Fault (List Event × Mem) :=
  match strtok m (some s) '|' with
  | (none, m) => executeOneWith block m none
  | (some str1, m) =>
    match strtok m none '|' with
    | (none, m) => executeOneWith block m (some str1)
    | (some str2, m) => executeTwoWith block m str1 str2

end

theorem stageQuotes_strict (m : Mem) (t : Slots ℕ) (file : Files ℕ) : stageQuotes removeQuotes m t file =
    (do
      let (t, m) ← doubleQuotesRemovalFromTokens m t
      let (file, m) ← fileDoubleQuotesRemovalFromTokens m file
      return (t, file, m)) := by
  have hfile : ∀ (m : Mem) (f : Option ℕ), fileBlock removeQuotes m f = removeFileQuotes m f := by
    intro m f
    cases f <;> rfl
  simp only [stageQuotes, doubleQuotesRemovalFromTokens, removeTokenQuotes_eq, fileDoubleQuotesRemovalFromTokens, hfile,
    bind_assoc, pure_bind]

/-- with the block of `Commands`, whose lone quotes are faults -/
theorem executeCommandWith_strict (m : Mem) (s : ℕ) : executeCommandWith removeQuotes m s = executeCommand m s := by
  have hone : ∀ (m : Mem) (s : Option ℕ), executeOneWith removeQuotes m s = executeOne m s := by
    intro m s
    simp only [executeOneWith, executeOne, stageQuotes_strict, bind_assoc, pure_bind]
  have htwo : ∀ (m : Mem) (s1 s2 : ℕ), executeTwoWith removeQuotes m s1 s2 = executeTwo m s1 s2 := by
    intro m s1 s2
    simp only [executeTwoWith, executeTwo, stageQuotes_strict, bind_assoc, pure_bind]
  unfold executeCommandWith executeCommand
  generalize strtok m (some s) '|' = x
  obtain ⟨_ | str1, m1⟩ := x
  · exact hone m1 none
  · dsimp only
    generalize strtok m1 none '|' = y
    obtain ⟨_ | str2, m2⟩ := y
    · exact hone m2 (some str1)
    · exact htwo m2 str1 str2

end DecsLabs.Shell
