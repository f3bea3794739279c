/-
The token arrays as they are when a child is forked, slot by slot. `Shows` says what an array has up to its NULL; here
is also what the slots behind it hold, which the children of a pipe look for and write to.

- `slotsOf`: the array with the given entries. What the tokenizer and the removal of quotes leave is of this form.
- `Ready`: the arrays, the files and the flag of a stage that is about to be forked.
- `launchWith`: `executeCommand` up to its forks, around a block that removes quotes; `executeCommandWith_launch` relates
  them. `launch` has the block whose lone quotes are faults, and `launchOn` the one that reads on.
- `readyOne_spec`, `readyTwo_spec`: without lone quotes, what is ready depends on the text of the stage alone.
- `launchOn_cases`: what is ready in any case, for every line.
-/
import DecsLabs.Shell.Starts

namespace DecsLabs.Shell

open DecsLabs.CString

variable {m m' : Mem} {p p1 p2 : ℕ} {s s1 s2 : List Char} {l : List Cell} {t t' : Slots ℕ} {toks : List Cell}

/-! ## Arrays -/

section Slots

variable {α β : Type} {xs : List α} {k : ℕ}

/-- the entries `xs`, NULL behind them if there is room for it, and nothing else -/
def slotsOf (xs : List α) : Slots α := fun k => if k ≤ xs.length ∧ k < 200 then some xs[k]? else none

theorem slotsOf_of_lt (hk : k < xs.length) (h : k < 200) : slotsOf xs k = some (some xs[k]) := by
  rw [slotsOf, if_pos ⟨hk.le, h⟩, List.getElem?_eq_getElem hk]

theorem slotsOf_length (h : xs.length < 200) : slotsOf xs xs.length = some none := by
  rw [slotsOf, if_pos ⟨le_rfl, h⟩, List.getElem?_eq_none le_rfl]

/-- the slots that hold no entry -/
theorem slotsOf_eq_none (h : xs.length < k ∨ 200 ≤ k) : slotsOf xs k = none := by
  rw [slotsOf, if_neg (by omega)]

/-- another name for each entry -/
def Slots.map (f : α → β) (t : Slots α) : Slots β := fun i => (t i).map fun a => a.map f

theorem map_slotsOf (f : α → β) (xs : List α) : (slotsOf xs).map f = slotsOf (xs.map f) := by
  funext k
  unfold Slots.map slotsOf
  rw [List.length_map, List.getElem?_map]
  split_ifs <;> rfl

theorem map_write (f : α → β) (t : Slots α) (i : ℕ) (a : Option α) : (t.write i a).map f = (t.map f).write i (a.map f) := by
  funext k
  unfold Slots.map Slots.write
  by_cases hk : k = i
  · subst hk
    simp
  · rw [Function.update_of_ne hk, Function.update_of_ne hk]

end Slots

theorem Shows.eq_slotsOf (h : Shows t toks) (hlen : toks.length ≤ 200) (hout : ∀ k, toks.length < k ∨ 200 ≤ k → t k = none) :
    t = slotsOf (toks.map Prod.fst) := by
  funext k
  by_cases hk : toks.length < k ∨ 200 ≤ k
  · rw [hout k hk, slotsOf_eq_none (by rwa [List.length_map])]
  · rcases Nat.lt_or_ge k toks.length with hlt | hge
    · have hlt' : k < (toks.map Prod.fst).length := by rwa [List.length_map]
      rw [h.ptr k toks[k] (List.getElem?_eq_getElem hlt), slotsOf_of_lt hlt' (by omega), List.getElem_map]
    · obtain rfl : k = toks.length := by omega
      have hlen' : (toks.map Prod.fst).length = toks.length := List.length_map _
      have hnull := slotsOf_length (by omega : (toks.map Prod.fst).length < 200)
      rw [hlen'] at hnull
      rw [h.null (by omega), hnull]

/-! ## The tokenizer and the removal of quotes -/

/-- the tokenizer writes to none of the slots from 200 on -/
theorem removeSpacesLoop_beyond {n i : ℕ} {q : Option ℕ} (h : removeSpacesLoop n i q t m = .ok (t', m')) {k : ℕ}
    (hk : 200 ≤ k) : t' k = t k := by
  induction n generalizing i q t m with
  | zero => cases h
  | succ n ih =>
    rw [removeSpacesLoop] at h
    split_ifs at h with hi
    · generalize strsep m q ' ' = res at h
      obtain ⟨tok, q', m1⟩ := res
      cases tok with
      | none =>
        cases h
        exact Slots.write_ne (by omega)
      | some a => exact (ih h).trans (Slots.write_ne (by omega))
    · cases h
      rfl

/-- **The tokenizer.** -/
theorem tokens_exact {q : Option ℕ} (h : removeSpacesAndCreateTokens m q .empty = .ok (t, m')) (ht : Shows t toks)
    (hlen : toks.length ≤ 200) : t = slotsOf (toks.map Prod.fst) := by
  apply ht.eq_slotsOf hlen
  intro k hk
  rcases hk with hk | hk
  · obtain ⟨j, -, -, htok, hafter, -⟩ := removeSpacesLoop_slots h
    rcases Nat.lt_or_ge k 200 with hlt | hge
    · apply hafter k
      -- the slot of NULL is no token
      by_contra hj
      obtain ⟨a, ha⟩ := htok toks.length (Nat.zero_le _) (by omega)
      rw [ht.null (by omega)] at ha
      cases ha
    · exact removeSpacesLoop_beyond h hge
  · exact removeSpacesLoop_beyond h hk

theorem checkIOParser_exact {file : Files ℕ} (h : checkIOParser m (some p) ⟨none, none⟩ .empty = .ok (t, file, m'))
    (ht : Shows t toks) (hlen : toks.length ≤ 200) : t = slotsOf (toks.map Prod.fst) := by
  rw [checkIOParser] at h
  generalize splitStage m p = res at h
  obtain ⟨icommand, tempfile, m1⟩ := res
  simp only [tokenizeCommandsAndArguments] at h
  cases hrun : removeSpacesAndCreateTokens m1 icommand .empty with
  | error e =>
    rw [hrun] at h
    cases h
  | ok r =>
    obtain ⟨u, m2⟩ := r
    simp only [hrun, bind, Except.bind] at h
    cases hfile : fileRemoveSpacesAndCreateTokens m2 (some tempfile) ⟨none, none⟩ with
    | error e =>
      rw [hfile] at h
      cases h
    | ok r =>
      rw [hfile] at h
      cases h
      exact tokens_exact hrun ht hlen

section Quotes

variable {block : Mem → ℕ → Except Fault (ℕ × Mem)}

/-- the removal of quotes writes to the slots of tokens only -/
theorem tokenLoop_keeps {n i k : ℕ} (h : tokenLoop block n i t m = .ok (t', m')) (hk : ∀ a, t k ≠ some (some a)) :
    t' k = t k := by
  induction n generalizing i t m with
  | zero =>
    cases h
    rfl
  | succ n ih =>
    rw [tokenLoop] at h
    cases hi : t i with
    | none =>
      simp only [Slots.read, hi, bind, Except.bind] at h
      cases h
    | some a =>
      simp only [Slots.read, hi, bind, Except.bind] at h
      cases a with
      | none =>
        cases h
        rfl
      | some q =>
        have hne : k ≠ i := by
          rintro rfl
          exact hk q hi
        cases hq : block m q with
        | error e =>
          simp only [hq] at h
          cases h
        | ok r =>
          simp only [hq] at h
          have hsame : t.write i (some r.1) k = t k := Slots.write_ne hne
          rw [ih h (by rwa [hsame]), hsame]

/-- **The removal of quotes.** -/
theorem stageQuotes_exact {file file' : Files ℕ} {new : List Cell} (h : stageQuotes block m t file = .ok (t', file', m'))
    (ht : t = slotsOf (toks.map Prod.fst)) (hnew : Shows t' new) (hlen : new.length = toks.length) (hle : toks.length ≤ 200) :
    t' = slotsOf (new.map Prod.fst) := by
  obtain ⟨m1, hloop⟩ : ∃ m1, tokenLoop block 200 0 t m = .ok (t', m1) := by
    cases hl : tokenLoop block 200 0 t m with
    | error f =>
      simp only [stageQuotes, hl, bind, Except.bind] at h
      cases h
    | ok r =>
      simp only [stageQuotes, hl, bind, Except.bind] at h
      cases hi : fileBlock block r.2 file.input with
      | error f =>
        simp only [hi] at h
        cases h
      | ok a =>
        simp only [hi] at h
        cases ho : fileBlock block a.2 file.output with
        | error f =>
          simp only [ho] at h
          cases h
        | ok b =>
          simp only [ho] at h
          cases h
          exact ⟨_, rfl⟩
  apply hnew.eq_slotsOf (by omega)
  intro k hk
  have hnone : t k = none := by
    rw [ht]
    exact slotsOf_eq_none (by rw [List.length_map]; omega)
  rw [tokenLoop_keeps hloop (by simp [hnone]), hnone]

end Quotes

/-! ## Custom commands -/

/-- what `checkCustomCommands` makes of the words `ws` -/
def rewritten (ws : List (List Char)) : Slots (List Char) :=
  let t := slotsOf ws
  if ws.head? = some "checkresidentmemory".toList then
    ((((t.write 0 (some "ps".toList)).write 3 ws[1]?).write 1 (some "-o".toList)).write 2 (some "rss=".toList)).write 4 none
  else if ws.head? = some "listFiles".toList then (t.write 0 (some "ls".toList)).write 1 none
  else if ws.head? = some "sortFile".toList then (t.write 0 (some "sort".toList)).write 2 none
  else t

/-- the array with the texts that its entries point to -/
def texts (b : List Char) (t : Slots Arg) : Slots (List Char) := t.map (Arg.text b)

theorem texts_lifted (b : List Char) (xs : List ℕ) : texts b (lifted (slotsOf xs)) = slotsOf (xs.map (str b)) := by
  have hlift : lifted (slotsOf xs) = slotsOf (xs.map Arg.ptr) := map_slotsOf Arg.ptr xs
  rw [texts, hlift, map_slotsOf, List.map_map]
  rfl

theorem checkCustomCommands_exact (b : List Char) (q : ℕ) (qs : List ℕ) :
    ∃ t, checkCustomCommands b (slotsOf (q :: qs)) = .ok t ∧ texts b t = rewritten ((q :: qs).map (str b)) := by
  have hlift := texts_lifted b (q :: qs)
  have h0 : (lifted (slotsOf (q :: qs))).read 0 = .ok (some (.ptr q)) := rfl
  have h1 : (lifted (slotsOf (q :: qs))).read 1 = .ok (qs.head?.map .ptr) := by cases qs <;> rfl
  have h1' : ((lifted (slotsOf (q :: qs))).write 0 (some (.lit "ps".toList))).read 1 = .ok (qs.head?.map .ptr) := by
    rw [← h1]
    simp [Slots.read, Slots.write]
  have hone : ((q :: qs).map (str b))[1]? = (qs.head?.map Arg.ptr).map (Arg.text b) := by cases qs <;> rfl
  have hcmp (w : List Char) : strcmp b (some (.ptr q)) w = .ok (decide (str b q = w)) := rfl
  have hhead : ((q :: qs).map (str b)).head? = some (str b q) := rfl
  unfold rewritten
  rw [hhead, ← hlift, hone]
  simp only [checkCustomCommands, h0, h1', hcmp, bind, Except.bind, Option.some.injEq]
  by_cases hc1 : str b q = "checkresidentmemory".toList
  · rw [if_pos (decide_eq_true hc1), if_pos hc1]
    refine ⟨_, rfl, ?_⟩
    simp only [texts, map_write, Option.map_some, Option.map_none, Arg.text]
  rw [if_neg (mt of_decide_eq_true hc1), if_neg hc1]
  by_cases hc2 : str b q = "listFiles".toList
  · rw [if_pos (decide_eq_true hc2), if_pos hc2]
    refine ⟨_, rfl, ?_⟩
    simp only [texts, map_write, Option.map_some, Option.map_none, Arg.text]
  rw [if_neg (mt of_decide_eq_true hc2), if_neg hc2]
  by_cases hc3 : str b q = "sortFile".toList
  · rw [if_pos (decide_eq_true hc3), if_pos hc3]
    refine ⟨_, rfl, ?_⟩
    simp only [texts, map_write, Option.map_some, Option.map_none, Arg.text]
  rw [if_neg (mt of_decide_eq_true hc3), if_neg hc3]
  exact ⟨_, rfl, rfl⟩

/-! ## Stages that are about to be forked -/

/-- what a child starts with -/
structure Ready where
  tokens : Slots (List Char)
  file : Files (List Char)
  commandCheckerFlag : ℕ

/-- the state before the forks, by the name of the command and what stands behind it -/
def readyFor (c : List Char) (ws : List (List Char)) (file : Files (List Char)) : Ready :=
  ⟨rewritten (c :: ws), file, flagOf c⟩

/-- what `executeCommand` forks: nothing, a child, or the two children of a pipe -/
inductive Launch where
  | nothing
  | one (r : Ready)
  | two (r1 r2 : Ready)

/-- the entries before the first NULL, at most `n` from the slot `i` -/
def vector (t : Slots (List Char)) : ℕ → ℕ → List (List Char)
  | 0, _ => []
  | n + 1, i => match t i with
    | some (some w) => w :: vector t n (i + 1)
    | _ => []

def Ready.child (r : Ready) : Child := ⟨vector r.tokens 200 0, r.file, r.commandCheckerFlag⟩

/-- the second child of a pipe is not forked when the first stage has an output file -/
def Launch.children : Launch → List Child
  | .nothing => []
  | .one r => [r.child]
  | .two r1 r2 => if r1.file.output = none then [r1.child, r2.child] else [r1.child]

def ready (b : List Char) (t : Slots Arg) (file : Files ℕ) (flag : ℕ) : Ready :=
  ⟨texts b t, ⟨file.input.map (str b), file.output.map (str b)⟩, flag⟩

section
variable (block : Mem → ℕ → Except Fault (ℕ × Mem))

/-- `executeOneWith` up to the fork -/
def readyOneWith (m : Mem) (str1 : Option ℕ) : Except Fault Launch := do
  let (tokens, file, m) ← checkIOParser m str1 ⟨none, none⟩ .empty
  if (← tokens.read 0) = none then return .nothing
  else
    let (tokens, file, m) ← stageQuotes block m tokens file
    let flag ← commandsChecker m.buf ((← tokens.read 0).map .ptr)
    let t ← checkCustomCommands m.buf tokens
    if flag = 1 then
      let _ ← runBuiltin m.buf (str1.getD 0) t
      return .nothing
    else return .one (ready m.buf t file flag)

/-- `executeTwoWith` up to the forks -/
def readyTwoWith (m : Mem) (str1 str2 : ℕ) : Except Fault Launch := do
  let (tokens1, file1, m) ← checkIOParser m (some str1) ⟨none, none⟩ .empty
  let (tokens2, file2, m) ← checkIOParser m (some str2) ⟨none, none⟩ .empty
  if (← tokens1.read 0) = none then return .nothing
  else if (← tokens2.read 0) = none then return .nothing
  else
    let (tokens1, file1, m) ← stageQuotes block m tokens1 file1
    let (tokens2, file2, m) ← stageQuotes block m tokens2 file2
    let flag1 ← commandsChecker m.buf ((← tokens1.read 0).map .ptr)
    let flag2 ← commandsChecker m.buf ((← tokens2.read 0).map .ptr)
    let t1 ← checkCustomCommands m.buf tokens1
    let t2 ← checkCustomCommands m.buf tokens2
    if flag1 = 1 then
      let _ ← runBuiltin m.buf str1 t1
      return .nothing
    else return .two (ready m.buf t1 file1 flag1) (ready m.buf t2 file2 flag2)

def launchWith (m : Mem) (s : ℕ) : Except Fault Launch :=
  match strtok m (some s) '|' with
  | (none, m) => readyOneWith block m none
  | (some str1, m) =>
    match strtok m none '|' with
    | (none, m) => readyOneWith block m (some str1)
    | (some str2, m) => readyTwoWith block m str1 str2

end

/-- lone quotes are faults -/
def launch : Mem → ℕ → Except Fault Launch := launchWith removeQuotes

def Event.forked : Event → Option Child
  | .fork _ c => some c
  | _ => none

/-- the children in the result of `executeCommand` -/
def forks (r : Except Fault (List Event × Mem)) : Except Fault (List Child) := r.map fun x => x.1.filterMap Event.forked

theorem argv_eq_vector (b : List Char) (t : Slots Arg) (n i : ℕ) : argv b t n i = vector (texts b t) n i := by
  induction n generalizing i with
  | zero => rfl
  | succ n ih =>
    rw [argv, vector]
    unfold texts Slots.map
    rcases t i with _ | _ | a
    · rfl
    · rfl
    · exact congrArg _ (ih (i + 1))

theorem child_eq (b : List Char) (t : Slots Arg) (file : Files ℕ) (flag : ℕ) :
    child b t file flag = (ready b t file flag).child := by
  rw [child, Ready.child, argv_eq_vector]
  rfl

theorem runBuiltin_forked {b : List Char} {stage : ℕ} {t : Slots Arg} {e : Event} (h : runBuiltin b stage t = .ok e) :
    e.forked = none := by
  simp only [runBuiltin, bind, Except.bind, pure, Except.pure] at h
  split at h
  · cases h
  · split at h
    · cases h
    · split_ifs at h
      · split at h
        · cases h
        · cases h
          rfl
      · split at h
        · cases h
        · split at h
          · cases h
          · split_ifs at h <;> cases h <;> rfl

theorem map_bind_congr {α β γ δ : Type} {x : Except Fault α} {f : α → Except Fault β} {g : α → Except Fault γ} {u : β → δ}
    {v : γ → δ} (h : ∀ a, (f a).map u = (g a).map v) : (x >>= f).map u = (x >>= g).map v := by
  cases x with
  | error e => rfl
  | ok a => exact h a

theorem forks_builtin (b : List Char) (stage : ℕ) (t : Slots Arg) (m : Mem) :
    forks (do return ([← runBuiltin b stage t], m)) =
      (do let _ ← runBuiltin b stage t; return Launch.nothing : Except Fault Launch).map Launch.children := by
  cases h : runBuiltin b stage t with
  | error e => rfl
  | ok e =>
    have he := runBuiltin_forked h
    simp [forks, bind, Except.bind, pure, Except.pure, Except.map, he, Launch.children]

section
variable (block : Mem → ℕ → Except Fault (ℕ × Mem))

/-- **One stage.** -/
theorem executeOneWith_ready (m : Mem) (str1 : Option ℕ) :
    forks (executeOneWith block m str1) = (readyOneWith block m str1).map Launch.children := by
  refine map_bind_congr fun r => map_bind_congr fun a => ?_
  by_cases ha : a = none
  · simp only [ha, if_true]
    rfl
  simp only [ha, if_false]
  refine map_bind_congr fun r1 => map_bind_congr fun a1 => map_bind_congr fun flag => map_bind_congr fun u => ?_
  by_cases hflag : flag = 1
  · simp only [hflag, if_true]
    exact forks_builtin _ _ _ _
  · simp only [hflag, if_false, child_eq]
    rfl

/-- **Two stages.** -/
theorem executeTwoWith_ready (m : Mem) (str1 str2 : ℕ) :
    forks (executeTwoWith block m str1 str2) = (readyTwoWith block m str1 str2).map Launch.children := by
  refine map_bind_congr fun r => map_bind_congr fun r' => map_bind_congr fun a => ?_
  by_cases ha : a = none
  · simp only [ha, if_true]
    rfl
  simp only [ha, if_false]
  refine map_bind_congr fun b => ?_
  by_cases hb : b = none
  · simp only [hb, if_true]
    rfl
  simp only [hb, if_false]
  refine map_bind_congr fun f1 => map_bind_congr fun f2 => map_bind_congr fun a1 => map_bind_congr fun flag1 =>
    map_bind_congr fun a2 => map_bind_congr fun flag2 => map_bind_congr fun t1 => map_bind_congr fun t2 => ?_
  by_cases hflag : flag1 = 1
  · simp only [hflag, if_true]
    exact forks_builtin _ _ _ _
  simp only [hflag, if_false, child_eq]
  cases hout : f1.2.1.output with
  | none => simp [pure, Except.pure, Except.map, Event.forked, Launch.children, ready, hout]
  | some q => simp [pure, Except.pure, Except.map, Event.forked, Launch.children, ready, hout]

/-- **The children of a command.** -/
theorem executeCommandWith_launch (m : Mem) (p : ℕ) :
    forks (executeCommandWith block m p) = (launchWith block m p).map Launch.children := by
  unfold executeCommandWith launchWith
  generalize strtok m (some p) '|' = r
  obtain ⟨str1, m1⟩ := r
  cases str1 with
  | none => exact executeOneWith_ready block m1 none
  | some q1 =>
    simp only
    generalize strtok m1 none '|' = r'
    obtain ⟨str2, m2⟩ := r'
    cases str2 with
    | none => exact executeOneWith_ready block m2 (some q1)
    | some q2 => exact executeTwoWith_ready block m2 q1 q2

end

/-- the children of `executeCommand` in `Commands` -/
theorem executeCommand_launch (m : Mem) (p : ℕ) : forks (executeCommand m p) = (launch m p).map Launch.children := by
  rw [← executeCommandWith_strict]
  exact executeCommandWith_launch removeQuotes m p

/-- a stage whose command and files are there, without lone quotes -/
structure WellFormed (a : List Char) : Prop where
  files : ¬ Blank a
  command : commandWords a ≠ []
  quotes : ¬ Lone a

/-- what the text of a stage makes of it -/
def readyOf (s : List Char) : Ready where
  tokens := rewritten ((commandWords s).map unquote)
  file := ⟨(fileName (cut s).input).map unquote, (fileName (cut s).output).map unquote⟩
  commandCheckerFlag := flagOf (((commandWords s).map unquote).headD [])

theorem readyOf_flag_iff (hw : commandWords s ≠ []) : (readyOf s).commandCheckerFlag = 1 ↔ Builtin s := by
  obtain ⟨w, ws, hws⟩ := List.exists_cons_of_ne_nil hw
  have hhead : (commandWords s).head?.map unquote = some (unquote w) := by rw [hws]; rfl
  rw [builtin_iff hhead, ← flagOf_eq_one_iff, readyOf, hws]
  rfl

/-- the arrays of a stage after the removal of quotes -/
theorem ready_spec {x x' : Cells} {file : Files ℕ} {b : List Char} (hr : Reads (cut s) x) (hw : commandWords s ≠ [])
    (ht : t = slotsOf (x'.toks.map Prod.fst)) (hp : Points t file x')
    (htoks : x'.toks.map Prod.snd = (x.toks.map Prod.snd).map unquote)
    (hin : x'.input.map Prod.snd = (x.input.map Prod.snd).map unquote)
    (hout : x'.output.map Prod.snd = (x.output.map Prod.snd).map unquote) (hheld : Held b (x'.all ++ l)) :
    ∃ q u, t.read 0 = .ok (some q) ∧ commandsChecker b (some (.ptr q)) = .ok (readyOf s).commandCheckerFlag ∧
      checkCustomCommands b t = .ok u ∧ ready b u file (readyOf s).commandCheckerFlag = readyOf s := by
  obtain ⟨c, toks, hx, hwords⟩ := unquoted_words hr hw htoks hheld
  have hshow := hp.toks
  rw [hx] at hshow
  obtain ⟨u, hcustom, htexts⟩ := checkCustomCommands_exact b c.1 (toks.map Prod.fst)
  have htext : (c.1 :: toks.map Prod.fst).map (str b) = (commandWords s).map unquote := by
    rw [← hwords, ← List.map_cons, List.map_map]
    rfl
  have hname (y : Option Cell) (hy : ∀ z, y = some z → z ∈ x'.all) : (y.map Prod.fst).map (str b) = y.map Prod.snd := by
    cases y with
    | none => rfl
    | some z => exact congrArg some (hheld.holds z (List.mem_append_left _ (hy z rfl))).str_eq
  refine ⟨c.1, u, hshow.read_zero, ?_, ?_, ?_⟩
  · rw [commandsChecker_spec, readyOf, ← htext]
    rfl
  · rw [ht, hx]
    exact hcustom
  · have hi : (file.input.map (str b)) = (fileName (cut s).input).map unquote := by
      rw [hp.input, hname x'.input (fun z hz => by simp [Cells.all, hz]), hin, hr.input]
    have ho : (file.output.map (str b)) = (fileName (cut s).output).map unquote := by
      rw [hp.output, hname x'.output (fun z hz => by simp [Cells.all, hz]), hout, hr.output]
    rw [ready, hi, ho, htexts, htext]
    rfl

/-- **One stage.** -/
theorem readyOne_spec (h : Held m.buf ((p, s) :: l)) (hwf : WellFormed s) (hb : ¬ Builtin s) :
    readyOneWith removeQuotes m (some p) = .ok (.one (readyOf s)) := by
  obtain ⟨t, file, m1, x, hparse, hp, hr, hheld⟩ := checkIOParser_spec h (not_blank hwf.files)
  obtain ⟨c, toks, hx⟩ := commandWords_ne_nil hr hwf.command
  have hread := hp.toks.read_zero
  rw [hx] at hread
  obtain ⟨t', file', m2, m3, x', hq1, hq2, hp', htoks, hin, hout, hheld'⟩ := quotes_spec hr.length_le hheld hp
    fun c hc hcq => hwf.quotes (hr.lone_iff.2 ⟨c, hc, hcq⟩)
  have hlen : x'.toks.length = x.toks.length := by simpa using congrArg List.length htoks
  have hq : stageQuotes removeQuotes m1 t file = .ok (t', file', m3) := by
    simp [stageQuotes_strict, hq1, hq2, bind, Except.bind, pure, Except.pure]
  have ht' := stageQuotes_exact hq (checkIOParser_exact hparse hp.toks hr.length_le) hp'.toks hlen hr.length_le
  obtain ⟨q, u, hread', hflag, hcustom, hready⟩ := ready_spec hr hwf.command ht' hp' htoks hin hout hheld'
  have hflag1 : (readyOf s).commandCheckerFlag ≠ 1 := fun hone => hb ((readyOf_flag_iff hwf.command).1 hone)
  simp [readyOneWith, hparse, hread, hq, hread', hflag, hcustom, hflag1, hready, bind, Except.bind, pure, Except.pure]

/-- **Two stages.** -/
theorem readyTwo_spec (h : Piped m p1 p2 s1 s2 l) (hwf1 : WellFormed s1) (hwf2 : WellFormed s2) (hb : ¬ Builtin s1) :
    readyTwoWith removeQuotes m p1 p2 = .ok (.two (readyOf s1) (readyOf s2)) := by
  obtain ⟨t1, file1, m1, x1, t2, file2, m2, x2, hparse1, hparse2, hp1, hp2, hr1, hr2, hheld⟩ :=
    parseTwo h hwf1.files hwf2.files
  obtain ⟨c1, toks1, hx1⟩ := commandWords_ne_nil hr1 hwf1.command
  obtain ⟨c2, toks2, hx2⟩ := commandWords_ne_nil hr2 hwf2.command
  have hread1 := hp1.toks.read_zero
  have hread2 := hp2.toks.read_zero
  rw [hx1] at hread1
  rw [hx2] at hread2
  obtain ⟨t1', file1', m3, m4, x1', hq1, hq2, hp1', htoks1, hin1, hout1, hheld1⟩ := quotes_spec hr1.length_le hheld hp1
    fun c hc hcq => hwf1.quotes (hr1.lone_iff.2 ⟨c, hc, hcq⟩)
  obtain ⟨t2', file2', m5, m6, x2', hq3, hq4, hp2', htoks2, hin2, hout2, hheld2⟩ := quotes_spec hr2.length_le
    hheld1.exchange hp2 fun c hc hcq => hwf2.quotes (hr2.lone_iff.2 ⟨c, hc, hcq⟩)
  have hlen1 : x1'.toks.length = x1.toks.length := by simpa using congrArg List.length htoks1
  have hlen2 : x2'.toks.length = x2.toks.length := by simpa using congrArg List.length htoks2
  have hqs1 : stageQuotes removeQuotes m2 t1 file1 = .ok (t1', file1', m4) := by
    simp [stageQuotes_strict, hq1, hq2, bind, Except.bind, pure, Except.pure]
  have hqs2 : stageQuotes removeQuotes m4 t2 file2 = .ok (t2', file2', m6) := by
    simp [stageQuotes_strict, hq3, hq4, bind, Except.bind, pure, Except.pure]
  have ht1 := stageQuotes_exact hqs1 (checkIOParser_exact hparse1 hp1.toks hr1.length_le) hp1'.toks hlen1 hr1.length_le
  have ht2 := stageQuotes_exact hqs2 (checkIOParser_exact hparse2 hp2.toks hr2.length_le) hp2'.toks hlen2 hr2.length_le
  obtain ⟨q1, u1, hread1', hflag1, hcustom1, hready1⟩ :=
    ready_spec hr1 hwf1.command ht1 hp1' htoks1 hin1 hout1 hheld2.exchange
  obtain ⟨q2, u2, hread2', hflag2, hcustom2, hready2⟩ := ready_spec hr2 hwf2.command ht2 hp2' htoks2 hin2 hout2 hheld2
  have hne : (readyOf s1).commandCheckerFlag ≠ 1 := fun hone => hb ((readyOf_flag_iff hwf1.command).1 hone)
  simp [readyTwoWith, hparse1, hparse2, hread1, hread2, hqs1, hqs2, hread1', hread2', hflag1, hflag2, hcustom1,
    hcustom2, hne, hready1, hready2, bind, Except.bind, pure, Except.pure]

/-! ## Every command -/

section
variable (block : Mem → ℕ → Except Fault (ℕ × Mem))

theorem launchWith_frame {r : List Cell} {line : List Char} (h : Held m.buf ((p, line) :: r)) :
    (stages line = [] ∧ launchWith block m p = .error .unwrittenSlot) ∨
    (∃ s q m', stages line = [s] ∧ launchWith block m p = readyOneWith block m' (some q) ∧ Held m'.buf ((q, s) :: r)) ∨
    ∃ s1 s2 q1 q2 m', stages line = [s1, s2] ∧ launchWith block m p = readyTwoWith block m' q1 q2 ∧
      q1 + s1.length < q2 ∧ Piped m' q1 q2 s1 s2 r := by
  obtain ⟨x, y, m', m'', h1, h2, hx, hy, hheld, -⟩ := strtok_two h '|'
  have hst : stages line = ((placed '|' p line).take 2).map Prod.snd := by
    rw [stages, ← placed_snd '|' p, List.map_take]
  cases hp : placed '|' p line with
  | nil =>
    obtain rfl : x = none := by simpa [hp] using hx
    refine .inl ⟨by rw [hst, hp]; rfl, ?_⟩
    simp [launchWith, h1, readyOneWith, checkIOParser, Slots.read, Slots.empty, bind, Except.bind]
  | cons c1 r' =>
    obtain rfl : x = some c1 := by simpa [hp] using hx
    cases r' with
    | nil =>
      obtain rfl : y = none := by simpa [hp] using hy
      refine .inr (.inl ⟨c1.2, c1.1, m'', by rw [hst, hp]; rfl, ?_, by simpa using hheld⟩)
      simp only [Option.map_some, Option.map_none] at h1 h2
      simp [launchWith, h1, h2]
    | cons c2 r' =>
      obtain rfl : y = some c2 := by simpa [hp] using hy
      refine .inr (.inr ⟨c1.2, c2.2, c1.1, c2.1, m'', by rw [hst, hp]; rfl, ?_, placed_two hp, by simpa using hheld⟩)
      simp only [Option.map_some] at h1 h2
      simp [launchWith, h1, h2]

end

end DecsLabs.Shell
