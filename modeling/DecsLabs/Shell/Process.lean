/-
The shell process (`main`, `commaChecker` and `executeCommand` in myshell.c): what a line does to its directory, its
descriptors and its children. The line is parsed as in `Removal`: behind a lone quote the removal of quotes goes on in what
follows the line, which is the next line of a batch file or the heap. Forks succeed, and a child works on its own copy of
everything, so that of the children only their number matters.

- `Env`: what the system answers while a line is processed.
- `runCommand`, `runLine`: `executeCommand` in the shell process, and `commaChecker` before it.
- `runBatch`, `mainLine`: the rest of `main`.
-/
import DecsLabs.Shell.Removal

namespace DecsLabs.Shell

open DecsLabs.CString

variable {Dir : Type}

/-! ## System calls -/

@[ext]
structure Process (Dir : Type) where
  cwd : Dir
  running : Bool
  /-- the open descriptors -/
  fds : Finset ℕ
  /-- the children that were not waited for -/
  children : ℕ

structure Env (Dir : Type) where
  /-- the directory that a path leads to -/
  chdir : Dir → List Char → Option Dir
  /-- what can be read from a file, if it can be opened -/
  contents : Dir → List Char → Option (List Char)
  /-- no descriptor reaches it -/
  limit : ℕ
  /-- `fdpipes` when `pipe` fails -/
  stale : ℕ × ℕ
  /-- what follows a block on the heap -/
  heap : List Char

def lowestFree (fds : Finset ℕ) : ℕ := Nat.find (Infinite.exists_notMem_finset fds)

namespace Process

/-- `exit`, or the end of the process by a fault -/
def exit (s : Process Dir) : Process Dir := { s with running := false }

def fork (s : Process Dir) : Process Dir := { s with children := s.children + 1 }

/-- `wait(NULL)` -/
def wait (s : Process Dir) : Process Dir := { s with children := s.children - 1 }

/-- `chdir` fails for NULL -/
def chdir (env : Env Dir) (dir : Option (List Char)) (s : Process Dir) : Process Dir :=
  match dir.bind (env.chdir s.cwd) with
  | none => s
  | some d => { s with cwd := d }

def close (fd : ℕ) (s : Process Dir) : Process Dir := { s with fds := s.fds.erase fd }

/-- `open` of a file that is there -/
def openFile (env : Env Dir) (s : Process Dir) : Option (ℕ × Process Dir) :=
  let fd := lowestFree s.fds
  if fd < env.limit then some (fd, { s with fds := insert fd s.fds }) else none

/-- `pipe(fdpipes)`, whose result nobody looks at -/
def pipe (env : Env Dir) (s : Process Dir) : (ℕ × ℕ) × Process Dir :=
  let r := lowestFree s.fds
  let w := lowestFree (insert r s.fds)
  if w < env.limit then ((r, w), { s with fds := insert w (insert r s.fds) }) else (env.stale, s)

end Process

/-! ## Commands -/

/-- one event of a command without a pipe; a child is waited for -/
def act (env : Env Dir) (s : Process Dir) : Event → Process Dir
  | .report => s
  | .chdir _ dir => s.chdir env dir
  | .exit _ => s.exit
  | .fork _ _ => s.fork.wait

/-- two stages: the pipe is made before the first fork, and its read end is closed after the second one -/
def actTwo (env : Env Dir) (s : Process Dir) : List Event → Process Dir
  | [.fork _ _] =>
    let (fdpipes, s) := s.pipe env
    s.fork.wait.close fdpipes.2
  | [.fork _ _, .fork _ _] =>
    let (fdpipes, s) := s.pipe env
    ((s.fork.wait.close fdpipes.2).fork.wait).close fdpipes.1
  | es => es.foldl (act env) s

/-- is there a second stage -/
def isPiped (m : Mem) (input : ℕ) : Bool :=
  match strtok m (some input) '|' with
  | (none, _) => false
  | (some _, m) => (strtok m none '|').1.isSome

/-- `executeCommand` in the shell process -/
def runCommand (env : Env Dir) (m : Mem) (input : ℕ) (s : Process Dir) : Process Dir × Mem :=
  match executeCommandWith removeQuotesOn m input with
  | .error _ => (s.exit, m)
  | .ok (es, m') => (if isPiped m input then actTwo env s es else es.foldl (act env) s, m')

/-- `if (commaChecker(input) == 0) executeCommand(input)`; a child for each part, and they are waited for at the end -/
def runLine (env : Env Dir) (m : Mem) (input : ℕ) (s : Process Dir) : Process Dir × Mem :=
  match commaChecker m input with
  | (0, _, m) => runCommand env m input s
  | (_, _, m) => (s.fork.fork.wait.wait, m)

/-! ## Main -/

def bufferSize : ℕ := 5000

/-- `calloc(buffer_size, sizeof(char))` with the file in it, and what follows it on the heap -/
def batchBuffer (env : Env Dir) (c : List Char) : List Char :=
  c.take bufferSize ++ List.replicate (bufferSize - c.length) nul ++ (env.heap ++ [nul])

/-- the loop over the lines of the buffer -/
def batchLoop (env : Env Dir) : ℕ → Option ℕ → Mem → Process Dir → Process Dir
  | 0, _, _, s => s
  | n + 1, buffer, m, s =>
    match strsep m buffer '\n' with
    | (none, _, _) => s
    | (some command, buffer, m) =>
      if strlen m.buf command = 0 then s
      else
        let (s, m) := runLine env m command s
        if s.running then batchLoop env n buffer m s else s

/-- the file that `executeCommands` names; `none` when a token is written behind the five slots -/
def batchName (line : List Char) : Option (Option (List Char)) :=
  match tokenizeCommandsAndArguments ⟨line ++ [nul], 0⟩ (some 0) .empty none ⟨none, none⟩ with
  | .error _ => none
  | .ok (tokens, _, m) => if (tokens 5).isSome then none else (tokens 1).map fun a => a.map (str m.buf)

def runBatch (env : Env Dir) (name : Option (List Char)) (s : Process Dir) : Process Dir :=
  match name.bind (env.contents s.cwd) with
  | none => s
  | some c =>
    match s.openFile env with
    | none => s
    | some (fd, s) => batchLoop env bufferSize (some 0) ⟨batchBuffer env c, 0⟩ (s.close fd)

/-- one round of `main` after the line was read; `none` when a token is written behind the five slots -/
def mainLine (env : Env Dir) (line : List Char) (s : Process Dir) : Option (Process Dir) :=
  if line = [] then some s
  else
    match strtok ⟨line ++ [nul], 0⟩ (some 0) ' ' with
    | (none, _) => some s
    | (some first, copy) =>
      if str copy.buf first = "exit".toList ∨ str copy.buf first = "\"exit\"".toList then some s.exit
      else if str copy.buf first = "executeCommands".toList then (batchName line).map fun name => runBatch env name s
      else some (runLine env ⟨line ++ nul :: env.heap, 0⟩ 0 s).1

end DecsLabs.Shell
