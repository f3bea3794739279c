/-
The shell of assignment 1 (myshell.c): from a line to the processes that it starts.

The line is in one buffer, which `strtok`, `strsep` and the removal of quotes cut in place. What can go wrong in the
shell's own process is a `Fault`: NULL passed to `strcmp`, a token slot that was never written, a character behind the
terminator of the string that is scanned. Loops have a bound on their rounds; to run out of it is a fault of its own.
Forks succeed, and a child has a copy of the memory.

- `checkIOParser`: the tokens and the file names of one stage.
- `executeCommand`: one or two stages.
- `commaChecker`, `processLine`: the parts of a line.
-/
import DecsLabs.Core.CString

namespace DecsLabs.Shell

open DecsLabs.CString

/-! ## Faults, slots and files -/

inductive Fault where
  | nullArgument
  | unwrittenSlot
  | beyondTerminator
  /-- the bound on the rounds of a loop is used up -/
  | noReturn
deriving DecidableEq, Repr

/-- an array of pointers (`none` inside for NULL); a slot that was never written is `none` -/
abbrev Slots (α : Type) : Type := ℕ → Option (Option α)

/-- `char *tokens[200]` before anything is written -/
def Slots.empty {α : Type} : Slots α := fun _ => none

def Slots.read {α : Type} (t : Slots α) (i : ℕ) : Except Fault (Option α) :=
  match t i with
  | none => .error .unwrittenSlot
  | some a => .ok a

def Slots.write {α : Type} (t : Slots α) (i : ℕ) (a : Option α) : Slots α := Function.update t i (some a)

/-- `file[0]` and `file[1]` -/
@[ext]
structure Files (α : Type) where
  input : Option α
  output : Option α
deriving DecidableEq, Repr

/-- an entry of an argument vector: in the line or a literal of the program -/
inductive Arg where
  | ptr (p : ℕ)
  | lit (s : List Char)
deriving DecidableEq, Repr

def Arg.text (b : List Char) : Arg → List Char
  | .ptr p => str b p
  | .lit s => s

/-- `strcmp(s, lit) == 0` -/
def strcmp (b : List Char) (s : Option Arg) (lit : List Char) : Except Fault Bool :=
  match s with
  | none => .error .nullArgument
  | some a => .ok (a.text b = lit)

/-- `p[j]` in a scan of the string at `p` -/
def readChar (b : List Char) (p j : ℕ) : Except Fault Char :=
  if j ≤ strlen b p then .ok (b.getD (p + j) nul) else .error .beyondTerminator

def builtinCommands : List (List Char) := ["cd".toList, "exit".toList]

def customCommands : List (List Char) :=
  ["checkcpupercentage".toList, "checkresidentmemory".toList, "listFiles".toList, "sortFile".toList]

/-- the first loops of `CommandsChecker`: is `command` one of `names` -/
def matchesOne (b : List Char) (command : Option Arg) : List (List Char) → Except Fault Bool
  | [] => .ok false
  | name :: names => do
    if ← strcmp b command name then return true
    else matchesOne b command names

/-- 0 neither, 1 built-in, 2 custom -/
def commandsChecker (b : List Char) (command : Option Arg) : Except Fault ℕ :=
  if command = none then .ok 0
  else do
    if ← matchesOne b command builtinCommands then return 1
    else if ← matchesOne b command customCommands then return 2
    else return 0

/-! ## Tokens -/

/-- the loop of `removeSpacesAndCreateTokens`: an empty token is overwritten by the next one -/
def removeSpacesLoop : ℕ → ℕ → Option ℕ → Slots ℕ → Mem → Except Fault (Slots ℕ × Mem)
  | 0, _, _, _, _ => .error .noReturn
  | n + 1, i, p, t, m =>
    if i < 200 then
      let (tok, p, m) := strsep m p ' '
      let t := t.write i tok
      match tok with
      | none => .ok (t, m)
      | some q => removeSpacesLoop n (if strlen m.buf q = 0 then i else i + 1) p t m
    else .ok (t, m)

def removeSpacesAndCreateTokens (m : Mem) (tokensWithSpaces : Option ℕ) (finalTokens : Slots ℕ) :
    Except Fault (Slots ℕ × Mem) :=
  let rounds := match tokensWithSpaces with
    | none => 1
    | some p => strlen m.buf p + 2
  removeSpacesLoop rounds 0 tokensWithSpaces finalTokens m

/-- `while (strcmp(f, " ") == 0) f = strtok(NULL, " ")` -/
def skipBlankTokens : ℕ → Option ℕ → Mem → Except Fault (Option ℕ × Mem)
  | 0, _, _ => .error .noReturn
  | n + 1, f, m => do
    if ← strcmp m.buf (f.map .ptr) [' '] then
      let (f, m) := strtok m none ' '
      skipBlankTokens n f m
    else return (f, m)

/-- the block of `fileRemoveSpacesAndCreateTokens` for one file -/
def trimFile (m : Mem) (filewithSpace finalFile : Option ℕ) : Except Fault (Option ℕ × Mem) :=
  match filewithSpace with
  | none => .ok (finalFile, m)
  | some p =>
    let (f, m') := strtok m (some p) ' '
    skipBlankTokens (strlen m.buf p + 1) f m'

def fileRemoveSpacesAndCreateTokens (m : Mem) (filewithSpace : Option (Files ℕ)) (finalFile : Files ℕ) :
    Except Fault (Files ℕ × Mem) :=
  match filewithSpace with
  | none => .ok (finalFile, m)
  | some f => do
    let (inp, m) ← trimFile m f.input finalFile.input
    let (out, m) ← trimFile m f.output finalFile.output
    return (⟨inp, out⟩, m)

def tokenizeCommandsAndArguments (m : Mem) (icommand : Option ℕ) (str1Tokens : Slots ℕ)
    (tempfile : Option (Files ℕ)) (file : Files ℕ) : Except Fault (Slots ℕ × Files ℕ × Mem) := do
  let (tokens, m) ← removeSpacesAndCreateTokens m icommand str1Tokens
  let (file, m) ← fileRemoveSpacesAndCreateTokens m tempfile file
  return (tokens, file, m)

/-- `int len = strlen(out_checker) - strlen(in_checker)`; the difference of two `size_t` is narrowed to `int` -/
def suffixDifference (b : List Char) (outChecker inChecker : ℕ) : Int32 :=
  Int32.ofInt (strlen b outChecker - strlen b inChecker)

/-- the cut of a stage at its operators: `icommand` and `tempfile` -/
def splitStage (m : Mem) (str1 : ℕ) : Option ℕ × Files ℕ × Mem :=
  match strrchr m.buf str1 '<', strrchr m.buf str1 '>' with
  | none, none => (some str1, ⟨none, none⟩, m)
  | some _, none =>
    let (icommand, m) := strtok m (some str1) '<'
    let (inp, m) := strtok m none '<'
    (icommand, ⟨inp, none⟩, m)
  | none, some _ =>
    let (icommand, m) := strtok m (some str1) '>'
    let (out, m) := strtok m none '>'
    (icommand, ⟨none, out⟩, m)
  | some inChecker, some outChecker =>
    if 0 < suffixDifference m.buf outChecker inChecker then
      let (icommand, m) := strtok m (some str1) '>'
      let (temp, m) := strtok m none '>'
      let (out, m) := strtok m temp '<'
      let (inp, m) := strtok m none '<'
      (icommand, ⟨inp, out⟩, m)
    else
      let (icommand, m) := strtok m (some str1) '<'
      let (temp, m) := strtok m none '<'
      let (inp, m) := strtok m temp '>'
      let (out, m) := strtok m none '>'
      (icommand, ⟨inp, out⟩, m)

def checkIOParser (m : Mem) (str1 : Option ℕ) (file : Files ℕ) (str1Tokens : Slots ℕ) :
    Except Fault (Slots ℕ × Files ℕ × Mem) :=
  match str1 with
  | none => .ok (str1Tokens, file, m)
  | some p =>
    let (icommand, tempfile, m) := splitStage m p
    tokenizeCommandsAndArguments m icommand str1Tokens (some tempfile) file

/-! ## Quotes -/

/-- `while (s[j] != '"') { if (s[j] == '\0') break; j++; }` -/
def closingQuote (b : List Char) (p : ℕ) : ℕ → ℕ → Except Fault ℕ
  | 0, _ => .error .noReturn
  | n + 1, j => do
    let c ← readChar b p j
    if c = '"' then return j
    else if c = nul then return j
    else closingQuote b p n (j + 1)

/-- the block that all three removals of quotes repeat, for the string at `p` -/
def removeQuotes (m : Mem) (p : ℕ) : Except Fault (ℕ × Mem) := do
  if (← readChar m.buf p 0) = '"' then
    let j ← closingQuote m.buf (p + 1) (strlen m.buf (p + 1) + 1) 1
    if (← readChar m.buf (p + 1) j) = '"' then
      return (p + 1, { m with buf := m.buf.set (p + 1 + j) nul })
    else return (p + 1, m)
  else return (p, m)

/-- `n` rounds of the loop, from the slot `i` -/
def removeTokenQuotes : ℕ → ℕ → Slots ℕ → Mem → Except Fault (Slots ℕ × Mem)
  | 0, _, t, m => .ok (t, m)
  | n + 1, i, t, m => do
    match ← t.read i with
    | none => return (t, m)
    | some p =>
      let (p, m) ← removeQuotes m p
      removeTokenQuotes n (i + 1) (t.write i (some p)) m

def doubleQuotesRemovalFromTokens (m : Mem) (strToken : Slots ℕ) : Except Fault (Slots ℕ × Mem) :=
  removeTokenQuotes 200 0 strToken m

def removeFileQuotes (m : Mem) (f : Option ℕ) : Except Fault (Option ℕ × Mem) :=
  match f with
  | none => .ok (none, m)
  | some p => do
    let (p, m) ← removeQuotes m p
    return (some p, m)

def fileDoubleQuotesRemovalFromTokens (m : Mem) (file : Files ℕ) : Except Fault (Files ℕ × Mem) := do
  let (inp, m) ← removeFileQuotes m file.input
  let (out, m) ← removeFileQuotes m file.output
  return (⟨inp, out⟩, m)

/-! ## Commands -/

/-- the slots, with room for literals -/
def lifted (t : Slots ℕ) : Slots Arg := fun i => (t i).map fun a => a.map .ptr

def checkCustomCommands (b : List Char) (tokens : Slots ℕ) : Except Fault (Slots Arg) := do
  let t := lifted tokens
  if ← strcmp b (← t.read 0) "checkresidentmemory".toList then
    let t := t.write 0 (some (.lit "ps".toList))
    let t := t.write 3 (← t.read 1)
    let t := t.write 1 (some (.lit "-o".toList))
    let t := t.write 2 (some (.lit "rss=".toList))
    return t.write 4 none
  else if ← strcmp b (← t.read 0) "listFiles".toList then
    return (t.write 0 (some (.lit "ls".toList))).write 1 none
  else if ← strcmp b (← t.read 0) "sortFile".toList then
    return (t.write 0 (some (.lit "sort".toList))).write 2 none
  else return t

/-- the texts of the slots before the first NULL, 200 at most -/
def argv (b : List Char) (t : Slots Arg) : ℕ → ℕ → List (List Char)
  | 0, _ => []
  | n + 1, i => match t i with
    | some (some a) => a.text b :: argv b t n (i + 1)
    | _ => []

/-- what a forked child starts with -/
structure Child where
  argv : List (List Char)
  file : Files (List Char)
  commandCheckerFlag : ℕ
deriving DecidableEq, Repr

/-- what the shell process does for a part of a line; `stage` points to the stage it does it for -/
inductive Event where
  /-- `Illegal command or arguments` -/
  | report
  | chdir (stage : ℕ) (dir : Option (List Char))
  | exit (stage : ℕ)
  | fork (stage : ℕ) (child : Child)
deriving DecidableEq, Repr

def runBuiltin (b : List Char) (stage : ℕ) (t : Slots Arg) : Except Fault Event := do
  if ← strcmp b (← t.read 0) "cd".toList then return .chdir stage ((← t.read 1).map fun a => a.text b)
  else if ← strcmp b (← t.read 0) "exit".toList then return .exit stage
  else return .report

def child (b : List Char) (t : Slots Arg) (file : Files ℕ) (flag : ℕ) : Child :=
  ⟨argv b t 200 0, ⟨file.input.map (str b), file.output.map (str b)⟩, flag⟩

/-- `executeCommand` when there is no second stage -/
def executeOne (m : Mem) (str1 : Option ℕ) : Except Fault (List Event × Mem) := do
  let (tokens, file, m) ← checkIOParser m str1 ⟨none, none⟩ .empty
  if (← tokens.read 0) = none then return ([.report], m)
  else
    let (tokens, m) ← doubleQuotesRemovalFromTokens m tokens
    let (file, m) ← fileDoubleQuotesRemovalFromTokens m file
    let flag ← commandsChecker m.buf ((← tokens.read 0).map .ptr)
    let t ← checkCustomCommands m.buf tokens
    if flag = 1 then return ([← runBuiltin m.buf (str1.getD 0) t], m)
    else return ([.fork (str1.getD 0) (child m.buf t file flag)], m)

/-- `executeCommand` with a pipe: the second stage is forked when the first is, and has no output file -/
def executeTwo (m : Mem) (str1 str2 : ℕ) : Except Fault (List Event × Mem) := do
  let (tokens1, file1, m) ← checkIOParser m (some str1) ⟨none, none⟩ .empty
  let (tokens2, file2, m) ← checkIOParser m (some str2) ⟨none, none⟩ .empty
  if (← tokens1.read 0) = none then return ([.report], m)
  else if (← tokens2.read 0) = none then return ([.report], m)
  else
    let (tokens1, m) ← doubleQuotesRemovalFromTokens m tokens1
    let (file1, m) ← fileDoubleQuotesRemovalFromTokens m file1
    let (tokens2, m) ← doubleQuotesRemovalFromTokens m tokens2
    let (file2, m) ← fileDoubleQuotesRemovalFromTokens m file2
    let flag1 ← commandsChecker m.buf ((← tokens1.read 0).map .ptr)
    let flag2 ← commandsChecker m.buf ((← tokens2.read 0).map .ptr)
    let t1 ← checkCustomCommands m.buf tokens1
    let t2 ← checkCustomCommands m.buf tokens2
    if flag1 = 1 then return ([← runBuiltin m.buf str1 t1], m)
    else
      let first := .fork str1 (child m.buf t1 file1 flag1)
      if file1.output = none then return ([first, .fork str2 (child m.buf t2 file2 flag2)], m)
      else return ([first], m)

def executeCommand (m : Mem) (s : ℕ) : Except Fault (List Event × Mem) :=
  match strtok m (some s) '|' with
  | (none, m) => executeOne m none
  | (some str1, m) =>
    match strtok m none '|' with
    | (none, m) => executeOne m (some str1)
    | (some str2, m) => executeTwo m str1 str2

/-! ## Lines -/

/-- a call of `executeCommand`, in the shell process or in a child that does nothing else -/
structure Call where
  part : ℕ
  result : Except Fault (List Event)

def call (m : Mem) (part : ℕ) : Call := ⟨part, (executeCommand m part).map Prod.fst⟩

/-- returns 1 and forks a child for each of the first two parts, or returns 0 -/
def commaChecker (m : Mem) (input : ℕ) : ℕ × List Call × Mem :=
  match strtok m (some input) ';' with
  | (none, m) => (0, [], m)
  | (some command1, m) =>
    match strtok m none ';' with
    | (none, m) => (0, [], m)
    | (some command2, m) => (1, [call m command1, call m command2], m)

/-- `if (commaChecker(input) == 0) executeCommand(input)` -/
def processLine (m : Mem) (input : ℕ) : List Call :=
  match commaChecker m input with
  | (0, _, m) => [call m input]
  | (_, calls, _) => calls

end DecsLabs.Shell
