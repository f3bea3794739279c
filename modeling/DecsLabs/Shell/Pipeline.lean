/-
A pipe of two stages while it runs (`executeCommand` in myshell.c, `a | b` without redirections, `a` not a built-in
command). Three processes share the pipe: the shell, which waits for the first child before it forks the second one, and
the two children. The ends that a process has open are counted: a child starts with the ends of the shell, `dup2` adds
one, and a process that ends gives all of them back.

The pipe holds at most `capacity` bytes. The first child writes `output` bytes, each time as many as there is room for
or fewer, and the second one reads to the end of the file.

- `State`, `step`: the processes, and the steps of each.
- `phase_run`: the states of a run are those that the code of the shell goes through.
- `never_stuck_iff`: somebody can always go on, exactly when the output fits into the pipe.
- `shell_hangs`: an output that does not.
-/
import DecsLabs.Core.Transition

namespace DecsLabs.Shell.Pipeline

open DecsLabs.Transition

/-! ## Processes -/

/-- how many descriptors of a process are ends of the pipe -/
structure Ends where
  read : ℕ
  write : ℕ
deriving DecidableEq, Repr

/-- a child, by what it does next -/
inductive Child (π : Type) where
  | absent
  | alive (pc : π) (ends : Ends)
  | exited
  /-- the shell has waited for it -/
  | waited
deriving DecidableEq, Repr

inductive FirstPc where
  /-- `dup2(fdpipes[1], 1)` -/
  | dup2
  | writing (left : ℕ)
deriving DecidableEq, Repr

inductive SecondPc where
  /-- `dup2(fdpipes[0], 0)` -/
  | dup2
  /-- `close(fdpipes[0])` -/
  | close
  | reading
deriving DecidableEq, Repr

inductive ShellPc where
  | pipe
  | fork
  | wait
  | closeWrite
  | forkPipe
  | waitPipe
  | closeRead
  | prompt
deriving DecidableEq, Repr

structure State where
  shell : ShellPc
  /-- the ends of the shell -/
  fdpipes : Ends
  first : Child FirstPc
  second : Child SecondPc
  /-- the bytes in the pipe -/
  buffer : ℕ
deriving DecidableEq, Repr

def Child.ends {π : Type} : Child π → Ends
  | .alive _ e => e
  | _ => ⟨0, 0⟩

def Child.isAlive {π : Type} : Child π → Bool
  | .alive _ _ => true
  | _ => false

def readers (s : State) : ℕ := s.fdpipes.read + s.first.ends.read + s.second.ends.read

def writers (s : State) : ℕ := s.fdpipes.write + s.first.ends.write + s.second.ends.write

/-! ## Steps -/

/-- `wait(NULL)`, then on to `pc`: blocks while there are children and none has ended -/
def waitAny (s : State) (pc : ShellPc) : Option State :=
  if s.first = .exited then some { s with first := .waited, shell := pc }
  else if s.second = .exited then some { s with second := .waited, shell := pc }
  else if s.first.isAlive ∨ s.second.isAlive then none
  else some { s with shell := pc }

def shellStep (s : State) : Option State :=
  match s.shell with
  | .pipe => some { s with shell := .fork, fdpipes := ⟨s.fdpipes.read + 1, s.fdpipes.write + 1⟩ }
  | .fork => some { s with shell := .wait, first := .alive .dup2 s.fdpipes }
  | .wait => waitAny s .closeWrite
  | .closeWrite => some { s with shell := .forkPipe, fdpipes := ⟨s.fdpipes.read, s.fdpipes.write - 1⟩ }
  | .forkPipe => some { s with shell := .waitPipe, second := .alive .dup2 s.fdpipes }
  | .waitPipe => waitAny s .closeRead
  | .closeRead => some { s with shell := .prompt, fdpipes := ⟨s.fdpipes.read - 1, s.fdpipes.write⟩ }
  | .prompt => none

/-- a step of the first child; a write moves `bytes` bytes -/
def firstStep (capacity output : ℕ) (s : State) (bytes : ℕ) : Option State :=
  match s.first with
  | .alive .dup2 e => some { s with first := .alive (.writing output) ⟨e.read, e.write + 1⟩ }
  | .alive (.writing left) e =>
    if left = 0 then some { s with first := .exited }
    -- nobody can read: SIGPIPE
    else if readers s = 0 then some { s with first := .exited }
    else if 0 < bytes ∧ bytes ≤ left ∧ s.buffer + bytes ≤ capacity then
      some { s with first := .alive (.writing (left - bytes)) e, buffer := s.buffer + bytes }
    else none
  | _ => none

/-- a step of the second child; a read moves `bytes` bytes -/
def secondStep (s : State) (bytes : ℕ) : Option State :=
  match s.second with
  | .alive .dup2 e => some { s with second := .alive .close ⟨e.read + 1, e.write⟩ }
  | .alive .close e => some { s with second := .alive .reading ⟨e.read - 1, e.write⟩ }
  | .alive .reading _ =>
    if 0 < bytes ∧ bytes ≤ s.buffer then some { s with buffer := s.buffer - bytes }
    else if s.buffer = 0 ∧ writers s = 0 then some { s with second := .exited }
    else none
  | _ => none

inductive Move where
  | shell
  | first (bytes : ℕ)
  | second (bytes : ℕ)
deriving DecidableEq, Repr

def step (capacity output : ℕ) (s : State) : Move → Option State
  | .shell => shellStep s
  | .first bytes => firstStep capacity output s bytes
  | .second bytes => secondStep s bytes

/-- the shell has parsed the line -/
def parsed : State := ⟨.pipe, ⟨0, 0⟩, .absent, .absent, 0⟩

/-! ## Runs -/

variable {capacity output : ℕ} {s t : State} {o : Move}

/-- where a run can be -/
inductive Phase (capacity output : ℕ) : State → Prop where
  | pipe : Phase capacity output ⟨.pipe, ⟨0, 0⟩, .absent, .absent, 0⟩
  | fork : Phase capacity output ⟨.fork, ⟨1, 1⟩, .absent, .absent, 0⟩
  | forked : Phase capacity output ⟨.wait, ⟨1, 1⟩, .alive .dup2 ⟨1, 1⟩, .absent, 0⟩
  | writing {left buffer : ℕ} (hsum : left + buffer = output) (hroom : buffer ≤ capacity) :
      Phase capacity output ⟨.wait, ⟨1, 1⟩, .alive (.writing left) ⟨1, 2⟩, .absent, buffer⟩
  | written : Phase capacity output ⟨.wait, ⟨1, 1⟩, .exited, .absent, output⟩
  | closeWrite : Phase capacity output ⟨.closeWrite, ⟨1, 1⟩, .waited, .absent, output⟩
  | forkPipe : Phase capacity output ⟨.forkPipe, ⟨1, 0⟩, .waited, .absent, output⟩
  | forkedPipe : Phase capacity output ⟨.waitPipe, ⟨1, 0⟩, .waited, .alive .dup2 ⟨1, 0⟩, output⟩
  | dupped : Phase capacity output ⟨.waitPipe, ⟨1, 0⟩, .waited, .alive .close ⟨2, 0⟩, output⟩
  | reading {buffer : ℕ} : Phase capacity output ⟨.waitPipe, ⟨1, 0⟩, .waited, .alive .reading ⟨1, 0⟩, buffer⟩
  | read : Phase capacity output ⟨.waitPipe, ⟨1, 0⟩, .waited, .exited, 0⟩
  | closeRead : Phase capacity output ⟨.closeRead, ⟨1, 0⟩, .waited, .waited, 0⟩
  | prompt : Phase capacity output ⟨.prompt, ⟨0, 0⟩, .waited, .waited, 0⟩

theorem phase_shell (h : Phase capacity output s) (hst : shellStep s = some t) : Phase capacity output t := by
  cases h <;> simp [shellStep, waitAny, Child.isAlive] at hst <;> subst hst
  · exact .fork
  · exact .forked
  · exact .closeWrite
  · exact .forkPipe
  · exact .forkedPipe
  · exact .closeRead
  · exact .prompt

theorem phase_first {bytes : ℕ} (h : Phase capacity output s) (hst : firstStep capacity output s bytes = some t) :
    Phase capacity output t := by
  cases h with
  | forked =>
    cases hst
    exact .writing rfl (Nat.zero_le _)
  | @writing left buffer hsum hroom =>
    simp only [firstStep] at hst
    split_ifs at hst with hleft hread hmove
    · cases hst
      obtain rfl : buffer = output := by omega
      exact .written
    · -- the shell has the read end open
      simp [readers] at hread
    · cases hst
      exact .writing (by omega) hmove.2.2
  | _ => cases hst

theorem phase_second {bytes : ℕ} (h : Phase capacity output s) (hst : secondStep s bytes = some t) :
    Phase capacity output t := by
  cases h with
  | forkedPipe =>
    cases hst
    exact .dupped
  | dupped =>
    cases hst
    exact .reading
  | reading =>
    simp only [secondStep] at hst
    split_ifs at hst with hmove hend
    · cases hst
      exact .reading
    · cases hst
      rw [hend.1]
      exact .read
  | _ => cases hst

theorem phase_run (h : Reach (step capacity output) parsed s) : Phase capacity output s := by
  refine h.invariant .pipe fun s o t _ hs _ hst => ?_
  cases o with
  | shell => exact phase_shell hs hst
  | first bytes => exact phase_first hs hst
  | second bytes => exact phase_second hs hst

/-! ## Progress -/

def Enabled (capacity output : ℕ) (s : State) : Prop := ∃ o, (step capacity output s o).isSome

/-- until the shell is back at its prompt, some process can go on -/
def NeverStuck (capacity output : ℕ) : Prop :=
  ∀ s, Reach (step capacity output) parsed s → s.shell ≠ .prompt → Enabled capacity output s

theorem phase_enabled (hfit : output ≤ capacity) (h : Phase capacity output s) (hs : s.shell ≠ .prompt) :
    Enabled capacity output s := by
  cases h with
  | forked => exact ⟨.first 0, rfl⟩
  | @writing left buffer hsum hroom =>
    refine ⟨.first 1, ?_⟩
    by_cases hleft : left = 0
    · simp [step, firstStep, hleft]
    · -- a byte that is not yet written has its place in the pipe
      have hmove : 0 < 1 ∧ 1 ≤ left ∧ buffer + 1 ≤ capacity := by omega
      simp [step, firstStep, hleft, readers, hmove]
  | forkedPipe | dupped => exact ⟨.second 0, rfl⟩
  | @reading buffer =>
    refine ⟨.second 1, ?_⟩
    by_cases hempty : buffer = 0
    · simp [step, secondStep, hempty, writers, Child.ends]
    · have hmove : 0 < 1 ∧ 1 ≤ buffer := by omega
      simp [step, secondStep, hmove]
  | prompt => exact absurd rfl hs
  | _ => exact ⟨.shell, rfl⟩

/-- the pipe is full, and the shell waits for the child that waits for room -/
def full (capacity output : ℕ) : State :=
  ⟨.wait, ⟨1, 1⟩, .alive (.writing (output - capacity)) ⟨1, 2⟩, .absent, capacity⟩

theorem reach_full (hC : 1 ≤ capacity) (h : capacity < output) :
    Reach (step capacity output) parsed (full capacity output) := by
  have hmove : 0 < capacity ∧ capacity ≤ output ∧ 0 + capacity ≤ capacity := by omega
  have hne : output ≠ 0 := by omega
  have hrun : run (step capacity output) parsed [.shell, .shell, .first 0, .first capacity] =
      some (full capacity output) := by
    simp [run, step, shellStep, firstStep, parsed, readers, full, hmove, hne]
  exact reach_of_run hrun

theorem full_stuck (h : capacity < output) : ¬ Enabled capacity output (full capacity output) := by
  rintro ⟨o, ho⟩
  cases o with
  | shell => simp [step, shellStep, waitAny, full, Child.isAlive] at ho
  | first bytes =>
    have hleft : output - capacity ≠ 0 := by omega
    simp [step, firstStep, full, readers, hleft] at ho
    omega
  | second bytes => simp [step, secondStep, full] at ho

/-- **A pipeline gets stuck when its first stage writes more than the pipe holds.** -/
theorem never_stuck_iff (hC : 1 ≤ capacity) : NeverStuck capacity output ↔ output ≤ capacity := by
  constructor
  · intro h
    by_contra hlt
    push Not at hlt
    exact full_stuck hlt (h _ (reach_full hC hlt) (by simp [full]))
  · intro hfit s hr hs
    exact phase_enabled hfit (phase_run hr) hs

theorem never_stuck_iff_example : NeverStuck 4096 4096 := (never_stuck_iff (by decide)).2 le_rfl

/-- two bytes for a pipe that holds one -/
theorem shell_hangs : ¬ NeverStuck 1 2 := by
  intro h
  have hrun : run (step 1 2) parsed [.shell, .shell, .first 0, .first 1] = some (full 1 2) := rfl
  exact full_stuck one_lt_two (h _ (reach_of_run hrun) (by decide))

end DecsLabs.Shell.Pipeline
