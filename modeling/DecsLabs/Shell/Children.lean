/-
The children that `executeCommand` forks, up to `execvp`. A child redirects, may append an argument to its array, and
prepares the custom commands; the array has 200 slots, and to read or write another one is a crash. Which files can be
opened, and what is read from them, is a parameter.

`scanf("%s", ..)` into an array of 100 characters is a crash for a longer word, and without a word it leaves an array that
is not initialised as it was. It starts with what the stdin buffer of the shell holds, of which a child has a copy; `read`
does not. To close a descriptor has no effect here.

- `onlyChild`, `firstChild`, `secondChild`: the three children.
- `Terminated`: the array is an argument vector.
- `append_slotsOf`: an argument is appended exactly when there is room for it and for NULL.
- `onlyChild_eq`, `firstChild_eq`: the two children that have their own array only are one definition.
-/
import DecsLabs.Core.Scanf
import DecsLabs.Shell.Arrays

namespace DecsLabs.Shell

open DecsLabs.CString

/-! ## Model -/

inductive Crash where
  /-- a slot outside of the array -/
  | outOfBounds
  /-- a slot that was never written -/
  | unwrittenSlot
  | nullArgument
  /-- a word that does not fit its 100 characters -/
  | overflow
  /-- an argument that was never written -/
  | uninitialised
  /-- an argument without a terminator -/
  | unterminated
deriving DecidableEq, Repr

/-- where a child reads from -/
inductive Source where
  | shell
  | pipe
  | file (name : List Char)
deriving DecidableEq, Repr

/-- where a child writes to -/
inductive Target where
  | shell
  | pipe
  | file (name : List Char)
deriving DecidableEq, Repr

structure World where
  /-- `open(name, O_RDONLY)` succeeds -/
  opens : List Char → Bool
  /-- `open(name, O_WRONLY | O_CREAT | O_TRUNC, 0666)` succeeds -/
  creates : List Char → Bool
  /-- what can be read from a descriptor -/
  content : Source → List Char
  /-- what the shell has read from its stdin already, and not used -/
  buffered : List Char

/-- the first word of a text, as `%s` reads it -/
def firstWord (t : List Char) : Option (List Char) := (Scanf.scanWord t).map Prod.fst

/-- the word that `scanf` reads: the buffer comes first -/
def World.firstWord (w : World) (src : Source) : Option (List Char) := Shell.firstWord (w.buffered ++ w.content src)

/-- a child at its call of `execvp` -/
structure Exec where
  tokens : Slots (List Char)
  stdin : Source
  stdout : Target

def readSlot (t : Slots (List Char)) (i : ℕ) : Except Crash (Option (List Char)) :=
  if i < 200 then match t i with
    | none => .error .unwrittenSlot
    | some a => .ok a
  else .error .outOfBounds

def writeSlot (t : Slots (List Char)) (i : ℕ) (a : Option (List Char)) : Except Crash (Slots (List Char)) :=
  if i < 200 then .ok (t.write i a) else .error .outOfBounds

/-- `while (str1Tokens[i] != NULL) i++;`, which ends at a slot outside of the array at the latest -/
def endOf (t : Slots (List Char)) : ℕ → ℕ → Except Crash ℕ
  | 0, _ => .error .outOfBounds
  | n + 1, i => do
    match ← readSlot t i with
    | none => return i
    | some _ => endOf t n (i + 1)

/-- the scan, and the two writes behind it -/
def append (t : Slots (List Char)) (w : List Char) : Except Crash (Slots (List Char)) := do
  let i ← endOf t 201 0
  let t ← writeSlot t i (some w)
  writeSlot t (i + 1) none

/-- `str1Tokens[0]`, as an argument of `strcmp` -/
def command (t : Slots (List Char)) : Except Crash (List Char) := do
  match ← readSlot t 0 with
  | none => .error .nullArgument
  | some c => return c

/-- `dup2(open(name, O_RDONLY), 0)`; without a file, `stdin` stays as it is -/
def reopen (w : World) (name : Option (List Char)) (stdin : Source) : Source :=
  match name with
  | none => stdin
  | some f => if w.opens f then .file f else stdin

/-- `char io_input[100]; scanf("%s", io_input);` -/
def scanWord (w : World) (stdin : Source) : Except Crash (List Char) :=
  match w.firstWord stdin with
  | none => .error .uninitialised
  | some v => if v.length < 100 then .ok v else .error .overflow

/-- `char *io_input=(char *)calloc(100,sizeof(char)); scanf("%s", io_input);` -/
def scanZeroed (w : World) (stdin : Source) : Except Crash (List Char) :=
  match w.firstWord stdin with
  | none => .ok []
  | some v => if v.length < 100 then .ok v else .error .overflow

/-- `char *io_input=(char *)calloc(3000,sizeof(char)); read(0,io_input,3000);` -/
def readBlock (w : World) (stdin : Source) : Except Crash (List Char) :=
  let block := (w.content stdin).take 3000
  if nul ∈ block ∨ block.length < 3000 then .ok (block.takeWhile (· != nul)) else .error .unterminated

/-- `if (file[0] != NULL)` -/
def redirectInput (w : World) (commandCheckerFlag : ℕ) (input : Option (List Char)) (tokens : Slots (List Char))
    (stdin : Source) : Except Crash (Slots (List Char) × Source) :=
  match input with
  | none => .ok (tokens, stdin)
  | some f =>
    if w.opens f then
      if commandCheckerFlag ≠ 2 then do
        let tokens ← append tokens f
        return (tokens, .file f)
      else .ok (tokens, .file f)
    else .ok (tokens, stdin)

/-- `if (file[1] != NULL)` -/
def redirectOutput (w : World) (output : Option (List Char)) (stdout : Target) : Target :=
  match output with
  | none => stdout
  | some f => if w.creates f then .file f else stdout

/-- `char a[100] = "./"; strcat(a, str1Tokens[0]); str1Tokens[0] = a;` -/
def prefixDot (tokens : Slots (List Char)) : Except Crash (Slots (List Char)) := do
  let c ← command tokens
  writeSlot tokens 0 (some ("./".toList ++ c))

/-- checkcpupercentage in a child that has its own array only -/
def ownArgument (w : World) (r : Ready) (tokens : Slots (List Char)) (stdin : Source) : Except Crash (Slots (List Char)) := do
  let c ← command tokens
  if r.commandCheckerFlag = 2 ∧ c = "checkcpupercentage".toList then
    let tokens ← prefixDot tokens
    if r.file.input = none then return tokens
    else
      let io_input ← scanWord w stdin
      append tokens io_input
  else return tokens

/-- `if(file[1]==NULL)` of listFiles -/
def listTarget (w : World) (output : Option (List Char)) (stdout : Target) : Target :=
  if output = none then redirectOutput w (some "files.txt".toList) stdout else stdout

/-- sortFile in a child that reads a file: from `file[0]`, or from the argument -/
def sortOwn (w : World) (r : Ready) (tokens : Slots (List Char)) (stdin : Source) (stdout : Target) : Except Crash Exec := do
  let name ← match r.file.input with
    | some f => .ok (some f)
    | none => readSlot tokens 1
  let tokens ← writeSlot tokens 1 none
  return ⟨tokens, reopen w name stdin, stdout⟩

/-- the custom commands in the child for a command without a pipe -/
def onlyCustom (w : World) (r : Ready) (tokens : Slots (List Char)) (stdin : Source) (stdout : Target) :
    Except Crash Exec := do
  let c ← command tokens
  if c = "ls".toList ∧ r.commandCheckerFlag = 2 then return ⟨tokens, stdin, listTarget w r.file.output stdout⟩
  else if c = "sort".toList ∧ r.commandCheckerFlag = 2 then sortOwn w r tokens stdin stdout
  else if c = "ps".toList ∧ r.commandCheckerFlag = 2 ∧ r.file.input ≠ none then
    let stdin := reopen w r.file.input stdin
    let io_input ← scanZeroed w stdin
    let tokens ← writeSlot tokens 3 (some io_input)
    return ⟨tokens, stdin, stdout⟩
  else return ⟨tokens, stdin, stdout⟩

/-- the child for a command without a pipe -/
def onlyChild (w : World) (r : Ready) : Except Crash Exec := do
  let (tokens, stdin) ← redirectInput w r.commandCheckerFlag r.file.input r.tokens .shell
  let stdout := redirectOutput w r.file.output .shell
  let tokens ← ownArgument w r tokens stdin
  onlyCustom w r tokens stdin stdout

/-- the custom commands in the first child of a pipe, where `io_input` is an array that is not initialised -/
def firstCustom (w : World) (r1 : Ready) (tokens : Slots (List Char)) (stdin : Source) (stdout : Target) :
    Except Crash Exec := do
  let c ← command tokens
  if c = "ls".toList ∧ r1.commandCheckerFlag = 2 then return ⟨tokens, stdin, listTarget w r1.file.output stdout⟩
  else if c = "sort".toList ∧ r1.commandCheckerFlag = 2 then sortOwn w r1 tokens stdin stdout
  else if c = "ps".toList ∧ r1.commandCheckerFlag = 2 ∧ r1.file.input ≠ none then
    let stdin := reopen w r1.file.input stdin
    let io_input ← scanWord w stdin
    let tokens ← writeSlot tokens 3 (some io_input)
    return ⟨tokens, stdin, stdout⟩
  else return ⟨tokens, stdin, stdout⟩

/-- the first child of a pipe -/
def firstChild (w : World) (r1 : Ready) : Except Crash Exec := do
  let stdout := if r1.file.output = none then .pipe else .shell
  let (tokens, stdin) ← redirectInput w r1.commandCheckerFlag r1.file.input r1.tokens .shell
  let stdout := redirectOutput w r1.file.output stdout
  let tokens ← ownArgument w r1 tokens stdin
  firstCustom w r1 tokens stdin stdout

theorem ok_bind {α β : Type} (a : α) (f : α → Except Crash β) : (Except.ok a >>= f) = f a := rfl

/-- the slots are `ws` and NULL behind them -/
structure Terminated (t : Slots (List Char)) (ws : List (List Char)) : Prop where
  room : ws.length < 200
  slots : ∀ i ≤ ws.length, t i = some ws[i]?

variable {t : Slots (List Char)} {ws : List (List Char)} {c x : List Char} {n i : ℕ}

theorem Terminated.read (h : Terminated t ws) (hi : i ≤ ws.length) : readSlot t i = .ok ws[i]? := by
  have hlt : i < 200 := lt_of_le_of_lt hi h.room
  rw [readSlot, if_pos hlt, h.slots i hi]

theorem Terminated.length_le {vs : List (List Char)} (h : Terminated t ws) (h' : Terminated t vs) :
    ws.length ≤ vs.length := by
  by_contra hlt
  have hend := h'.slots vs.length le_rfl
  rw [h.slots vs.length (by omega), List.getElem?_eq_none le_rfl, List.getElem?_eq_getElem (by omega)] at hend
  cases hend

/-- an array is one vector at most -/
theorem Terminated.unique {vs : List (List Char)} (h : Terminated t ws) (h' : Terminated t vs) : ws = vs := by
  have hlen : ws.length = vs.length := le_antisymm (h.length_le h') (h'.length_le h)
  refine List.ext_getElem? fun i => ?_
  rcases Nat.lt_or_ge ws.length i with hi | hi
  · rw [List.getElem?_eq_none hi.le, List.getElem?_eq_none (by omega)]
  · have hslot := h.slots i hi
    rw [h'.slots i (by omega)] at hslot
    exact (Option.some.inj hslot).symm

theorem slotsOf_terminated (h : ws.length < 200) : Terminated (slotsOf ws) ws :=
  ⟨h, fun i hi => if_pos ⟨hi, by omega⟩⟩

/-- an array without NULL -/
theorem not_terminated_of_full (h : 200 ≤ ws.length) (vs : List (List Char)) : ¬ Terminated (slotsOf ws) vs := by
  intro hvs
  have hend := hvs.slots vs.length le_rfl
  have hlt : vs.length < ws.length := lt_of_lt_of_le hvs.room h
  rw [slotsOf_of_lt hlt hvs.room, List.getElem?_eq_none le_rfl] at hend
  cases hend

/-! ## Appending -/

theorem readSlot_slotsOf (hi : i ≤ ws.length) :
    readSlot (slotsOf ws) i = if i < 200 then .ok ws[i]? else .error .outOfBounds := by
  unfold readSlot slotsOf
  by_cases hlt : i < 200
  · simp only [hlt, hi, and_self, if_true]
  · simp only [hlt, if_false]

/-- the scan for NULL -/
theorem endOf_terminated (h : Terminated t ws) (hi : i ≤ ws.length) (hn : ws.length < n + i) :
    endOf t n i = .ok ws.length := by
  induction n generalizing i with
  | zero => omega
  | succ n ih =>
    rw [endOf, h.read hi, ok_bind]
    rcases hi.eq_or_lt with rfl | hi
    · rw [List.getElem?_eq_none le_rfl]
      rfl
    · rw [List.getElem?_eq_getElem hi]
      exact ih hi (by omega)

/-- the scan of an array without NULL -/
theorem endOf_full (h : 200 ≤ ws.length) (hi : i ≤ 200) : endOf (slotsOf ws) n i = .error .outOfBounds := by
  induction n generalizing i with
  | zero => rfl
  | succ n ih =>
    rw [endOf, readSlot_slotsOf (hi.trans h)]
    rcases hi.eq_or_lt with rfl | hi
    · rfl
    · rw [if_pos hi, List.getElem?_eq_getElem (by omega)]
      exact ih hi

/-- **Appending.** There is room for the argument and for NULL. -/
theorem append_terminated (h : Terminated t ws) (hroom : ws.length + 1 < 200) (x : List Char) :
    append t x = .ok ((t.write ws.length (some x)).write (ws.length + 1) none) := by
  rw [append, endOf_terminated h (Nat.zero_le _) (by omega), ok_bind, writeSlot, if_pos h.room, ok_bind, writeSlot,
    if_pos hroom]

theorem slotsOf_snoc (h : ws.length + 1 < 200) (x : List Char) :
    ((slotsOf ws).write ws.length (some x)).write (ws.length + 1) none = slotsOf (ws ++ [x]) := by
  have hlen : (ws ++ [x]).length = ws.length + 1 := by simp
  funext k
  by_cases hend : k = ws.length + 1
  · subst hend
    rw [Slots.write, Function.update_self, ← hlen, slotsOf_length (by omega)]
  rw [Slots.write_ne hend]
  by_cases hlast : k = ws.length
  · subst hlast
    rw [Slots.write, Function.update_self, slotsOf_of_lt (by omega) (by omega)]
    simp
  rw [Slots.write_ne hlast]
  rcases Nat.lt_or_ge k ws.length with hlt | hge
  · rw [slotsOf_of_lt hlt (by omega), slotsOf_of_lt (by omega) (by omega), List.getElem_append_left hlt]
  · rw [slotsOf_eq_none (by omega), slotsOf_eq_none (by omega)]

/-- an argument is appended exactly when there is room -/
theorem append_slotsOf (ws : List (List Char)) (x : List Char) :
    append (slotsOf ws) x = if ws.length + 1 < 200 then .ok (slotsOf (ws ++ [x])) else .error .outOfBounds := by
  by_cases hroom : ws.length + 1 < 200
  · rw [if_pos hroom, append_terminated (slotsOf_terminated (by omega)) hroom, slotsOf_snoc hroom]
  rw [if_neg hroom]
  by_cases h200 : ws.length < 200
  · rw [append, endOf_terminated (slotsOf_terminated h200) (Nat.zero_le _) (by omega), ok_bind, writeSlot, if_pos h200,
      ok_bind, writeSlot, if_neg hroom]
  · rw [append, endOf_full (Nat.not_lt.1 h200) (Nat.zero_le _)]
    rfl

/-! ## The first slot -/

theorem slotsOf_write_zero (c x : List Char) (ws : List (List Char)) :
    (slotsOf (c :: ws)).write 0 (some x) = slotsOf (x :: ws) := by
  funext k
  cases k with
  | zero =>
    rw [Slots.write, Function.update_self]
    rfl
  | succ k =>
    rw [Slots.write_ne (Nat.succ_ne_zero k)]
    rfl

theorem command_eq (h : t 0 = some (some c)) : command t = .ok c := by
  have hread : readSlot t 0 = .ok (some c) := by
    rw [readSlot, if_pos (by decide), h]
  rw [command, hread]
  rfl

theorem slotsOf_zero (c : List Char) (ws : List (List Char)) : slotsOf (c :: ws) 0 = some (some c) :=
  slotsOf_of_lt (by simp) (by decide)

theorem prefixDot_slotsOf (c : List Char) (ws : List (List Char)) :
    prefixDot (slotsOf (c :: ws)) = .ok (slotsOf (("./".toList ++ c) :: ws)) := by
  rw [prefixDot, command_eq (slotsOf_zero c ws), ok_bind, writeSlot, if_pos (by decide), slotsOf_write_zero]

/-! ## Redirections -/

section Children

variable {w : World} {file : Files (List Char)} {input : Option (List Char)} {src : Source}

theorem redirectInput_custom (w : World) (input : Option (List Char)) (t : Slots (List Char)) (src : Source) :
    redirectInput w 2 input t src = .ok (t, reopen w input src) := by
  cases input with
  | none => rfl
  | some f =>
    unfold redirectInput reopen
    by_cases hf : w.opens f = true <;> simp [hf]

/-- the argument that a redirection appends -/
def World.appended (w : World) (input : Option (List Char)) : List (List Char) := (input.filter w.opens).toList

theorem redirectInput_plain {flag : ℕ} (hflag : flag ≠ 2) (w : World) (input : Option (List Char))
    (ws : List (List Char)) (src : Source) : redirectInput w flag input (slotsOf ws) src =
      if w.appended input = [] ∨ ws.length + 1 < 200 then .ok (slotsOf (ws ++ w.appended input), reopen w input src)
      else .error .outOfBounds := by
  cases input with
  | none => simp [redirectInput, World.appended, reopen]
  | some f =>
    by_cases hf : w.opens f = true
    · have hap : w.appended (some f) = [f] := by simp [World.appended, Option.filter, hf]
      rw [hap]
      simp only [redirectInput, hf, hflag, ne_eq, not_false_eq_true, if_true, append_slotsOf, reopen]
      by_cases hroom : ws.length + 1 < 200
      · simp [hroom, bind, Except.bind, pure, Except.pure]
      · simp [hroom, bind, Except.bind]
    · have hap : w.appended (some f) = [] := by simp [World.appended, Option.filter, hf]
      simp [redirectInput, reopen, hap, hf]

/-! ## The custom commands -/

/-- the commands that `checkCustomCommands` rewrites -/
def Rewritten (c : List Char) : Prop :=
  c = "checkresidentmemory".toList ∨ c = "listFiles".toList ∨ c = "sortFile".toList

theorem rewritten_other (hc : ¬ Rewritten c) (ws : List (List Char)) : rewritten (c :: ws) = slotsOf (c :: ws) := by
  simp only [Rewritten, not_or] at hc
  simp only [rewritten, List.head?_cons, Option.some.injEq, hc, if_false]

theorem rewritten_ps (ws : List (List Char)) : rewritten ("checkresidentmemory".toList :: ws) =
    (((((slotsOf ("checkresidentmemory".toList :: ws)).write 0 (some "ps".toList)).write 3 ws[0]?).write 1
      (some "-o".toList)).write 2 (some "rss=".toList)).write 4 none := by
  rw [rewritten, List.head?_cons, if_pos rfl]
  rfl

theorem rewritten_ls (ws : List (List Char)) : rewritten ("listFiles".toList :: ws) =
    ((slotsOf ("listFiles".toList :: ws)).write 0 (some "ls".toList)).write 1 none := by
  rw [rewritten, List.head?_cons, if_neg (by decide), if_pos rfl]

theorem rewritten_sort (ws : List (List Char)) : rewritten ("sortFile".toList :: ws) =
    ((slotsOf ("sortFile".toList :: ws)).write 0 (some "sort".toList)).write 2 none := by
  rw [rewritten, List.head?_cons, if_neg (by decide), if_neg (by decide), if_pos rfl]

/-- the vector that the rewriting leaves -/
def arguments (c : List Char) (ws : List (List Char)) : List (List Char) :=
  if c = "checkresidentmemory".toList then ["ps".toList, "-o".toList, "rss=".toList] ++ ws.head?.toList
  else if c = "listFiles".toList then ["ls".toList]
  else if c = "sortFile".toList then "sort".toList :: ws.head?.toList
  else c :: ws

theorem terminated_of_forall (k : ℕ) (hk : ws.length = k) (hlt : k < 200) (h : ∀ i ≤ k, t i = some ws[i]?) :
    Terminated t ws :=
  ⟨hk ▸ hlt, hk ▸ h⟩

theorem rewritten_terminated (hc : Rewritten c) (ws : List (List Char)) :
    Terminated (rewritten (c :: ws)) (arguments c ws) := by
  rcases hc with rfl | rfl | rfl
  · rw [rewritten_ps, arguments, if_pos rfl]
    cases ws with
    | nil =>
      refine terminated_of_forall 3 rfl (by decide) fun i hi => ?_
      interval_cases i <;> rfl
    | cons x ws =>
      refine terminated_of_forall 4 rfl (by decide) fun i hi => ?_
      interval_cases i <;> rfl
  · rw [rewritten_ls, arguments, if_neg (by decide), if_pos rfl]
    refine terminated_of_forall 1 rfl (by decide) fun i hi => ?_
    interval_cases i <;> rfl
  · rw [rewritten_sort, arguments, if_neg (by decide), if_neg (by decide), if_pos rfl]
    cases ws with
    | nil =>
      refine terminated_of_forall 1 rfl (by decide) fun i hi => ?_
      interval_cases i <;> rfl
    | cons x ws =>
      refine terminated_of_forall 2 rfl (by decide) fun i hi => ?_
      interval_cases i <;> rfl

/-! ## The parts of a child -/

theorem ownArgument_other (w : World) (r : Ready) (h : t 0 = some (some c))
    (hc : r.commandCheckerFlag ≠ 2 ∨ c ≠ "checkcpupercentage".toList) (src : Source) : ownArgument w r t src = .ok t := by
  rw [ownArgument, command_eq h, ok_bind, if_neg (by tauto)]
  rfl

theorem ownArgument_cpu (w : World) (r : Ready) (hr : r.commandCheckerFlag = 2) (ws : List (List Char)) (src : Source) :
    ownArgument w r (slotsOf ("checkcpupercentage".toList :: ws)) src =
      if r.file.input = none then .ok (slotsOf ("./checkcpupercentage".toList :: ws))
      else scanWord w src >>= append (slotsOf ("./checkcpupercentage".toList :: ws)) := by
  rw [ownArgument, command_eq (slotsOf_zero _ _), ok_bind, if_pos ⟨hr, rfl⟩, prefixDot_slotsOf, ok_bind]
  rfl

/-- the names that the custom commands are compared with -/
def Tested (c : List Char) : Prop := c = "ls".toList ∨ c = "sort".toList ∨ c = "ps".toList

/-- the custom commands of a child that reads a word with `scan` -/
def customWith (scan : World → Source → Except Crash (List Char)) (w : World) (r : Ready) (tokens : Slots (List Char))
    (stdin : Source) (stdout : Target) : Except Crash Exec := do
  let c ← command tokens
  if c = "ls".toList ∧ r.commandCheckerFlag = 2 then return ⟨tokens, stdin, listTarget w r.file.output stdout⟩
  else if c = "sort".toList ∧ r.commandCheckerFlag = 2 then sortOwn w r tokens stdin stdout
  else if c = "ps".toList ∧ r.commandCheckerFlag = 2 ∧ r.file.input ≠ none then
    let stdin := reopen w r.file.input stdin
    let io_input ← scan w stdin
    let tokens ← writeSlot tokens 3 (some io_input)
    return ⟨tokens, stdin, stdout⟩
  else return ⟨tokens, stdin, stdout⟩

/-- a child that reads a word with `scan` and starts with `stdout` -/
def childWith (scan : World → Source → Except Crash (List Char)) (stdout : Target) (w : World) (r : Ready) :
    Except Crash Exec :=
  redirectInput w r.commandCheckerFlag r.file.input r.tokens .shell >>= fun x =>
    ownArgument w r x.1 x.2 >>= fun t => customWith scan w r t x.2 (redirectOutput w r.file.output stdout)

/-- **The two copies.** The child of a command alone and the first child of a pipe differ in two things. -/
theorem onlyChild_eq (w : World) (r : Ready) : onlyChild w r = childWith scanZeroed .shell w r := rfl

theorem firstChild_eq (w : World) (r : Ready) :
    firstChild w r = childWith scanWord (if r.file.output = none then .pipe else .shell) w r := rfl

variable {scan : World → Source → Except Crash (List Char)} {stdout : Target}

theorem customWith_other (r : Ready) (h : t 0 = some (some c)) (hc : r.commandCheckerFlag ≠ 2 ∨ ¬ Tested c)
    (src : Source) (out : Target) : customWith scan w r t src out = .ok ⟨t, src, out⟩ := by
  unfold Tested at hc
  rw [customWith, command_eq h, ok_bind, if_neg (by tauto), if_neg (by tauto), if_neg (by tauto)]
  rfl

theorem reopen_twice (w : World) (input : Option (List Char)) (src : Source) :
    reopen w input (reopen w input src) = reopen w input src := by
  cases input with
  | none => rfl
  | some f =>
    unfold reopen
    by_cases hf : w.opens f = true <;> simp [hf]

end Children

end DecsLabs.Shell
