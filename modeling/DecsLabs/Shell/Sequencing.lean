/-
A list of two commands and the same commands on lines of their own. `commaChecker` runs both parts of a list in
children, so a list does not change the shell itself, unless `main` has taken the first word of the line before.

- `ActsAsLines`: the list leaves the shell in the directory of the two lines, and running if they do.
- `Inert`: a command that changes neither on a line of its own.
- `lists_act`, `lists_keep`: exactly which lists act as the two lines.
- `list_effect`: what a list does to the shell.
- `list_keeps_directory`: a list that does not act as its two lines.
-/
import DecsLabs.Shell.Prompt

namespace DecsLabs.Shell

open DecsLabs.CString

variable {Dir : Type} {env : Env Dir} {s t : Process Dir} {a b : List Char}

/-! ## Single commands -/

/-- a command without a semicolon, a bar or quotes, and with a command word -/
structure Single where
  text : List Char
  clean : ∀ c ∈ text, c ≠ ';' ∧ c ≠ '|' ∧ c ≠ '"' ∧ c ≠ nul
  word : words (beforeOperator text) ≠ []

variable (x y : Single)

theorem Single.semicolonless : ';' ∉ x.text := fun h => (x.clean _ h).1 rfl

theorem Single.barless : '|' ∉ x.text := fun h => (x.clean _ h).2.1 rfl

theorem Single.quoteless : '"' ∉ x.text := fun h => (x.clean _ h).2.2.1 rfl

theorem Single.nulless : nul ∉ x.text := fun h => (x.clean _ h).2.2.2 rfl

theorem Single.words_ne : words x.text ≠ [] := by
  intro h
  apply x.word
  rw [pieces_eq_nil_iff] at h ⊢
  intro c hc
  exact h c ((List.takeWhile_prefix _).subset hc)

theorem Single.text_ne : x.text ≠ [] := by
  intro h
  apply x.words_ne
  rw [h]
  rfl

/-- the effect of a single command in the shell -/
theorem lineEffect_single (env : Env Dir) (s : Process Dir) :
    lineEffect env x.text s =
      if Blank x.text then s.exit
      else if (commandWords x.text).head? = some "exit".toList then s.exit
      else if (commandWords x.text).head? = some "cd".toList then s.chdir env (commandWords x.text)[1]?
      else if commandWords x.text = [] then s
      else s.fork.wait := by
  have hdirect : directText x.text = some x.text := by
    have hskip : (x.text ++ []).takeWhile (· == ';') = [] := skip_none x.text_ne x.semicolonless
    rw [List.append_nil] at hskip
    rw [directText, pieces_whole x.text_ne x.semicolonless]
    simp only [hskip, List.nil_append]
  have hstages : stages x.text = [x.text] := by
    rw [stages, pieces_whole x.text_ne x.barless]
    rfl
  have hplain : ∀ w ∈ commandWords x.text, unquote w = w ∧ opened w = w := by
    intro w hw
    have hquote : '"' ∉ w := fun hq => x.quoteless (commandWords_subset hw hq)
    exact ⟨unquote_of_notMem hquote, opened_of_notMem hquote⟩
  have hunquote : (commandWords x.text).map unquote = commandWords x.text := by
    calc (commandWords x.text).map unquote = (commandWords x.text).map id :=
          List.map_congr_left fun w hw => (hplain w hw).1
      _ = commandWords x.text := List.map_id _
  have hopened : (commandWords x.text).map opened = commandWords x.text := by
    calc (commandWords x.text).map opened = (commandWords x.text).map id :=
          List.map_congr_left fun w hw => (hplain w hw).2
      _ = commandWords x.text := List.map_id _
  have hbuiltin : Builtin x.text ↔ (commandWords x.text).head? = some "exit".toList ∨
      (commandWords x.text).head? = some "cd".toList := by
    rw [Builtin, ← List.head?_map, hunquote]
    simp [builtinCommands, or_comm]
  rw [lineEffect, hdirect]
  simp only [commandEffect, hstages, hbuiltin, builtinEffect, hopened, builtinEvent]
  by_cases hblank : Blank x.text
  · simp only [hblank, if_true]
  cases hw : commandWords x.text with
  | nil => simp [hblank]
  | cons w ws =>
    by_cases hexit : w = "exit".toList
    · subst hexit
      simp [hblank, act]
    · by_cases hcd : w = "cd".toList
      · subst hcd
        simp [hblank, act]
      · simp only [hblank, hexit, hcd, List.head?_cons, Option.some.injEq, or_self, reduceCtorEq, if_false]

/-! ## Lists -/

/-- a line, and then another one if the shell still runs -/
def mainLines (env env' : Env Dir) (a b : List Char) (s : Process Dir) : Option (Process Dir) :=
  (mainLine env a s).bind fun t => if t.running then mainLine env' b t else some t

/-- the directory is the same, and both run or neither does -/
structure SameState (s t : Process Dir) : Prop where
  cwd : t.cwd = s.cwd
  running : t.running = s.running

theorem SameState.refl (s : Process Dir) : SameState s s := ⟨rfl, rfl⟩

/-- the list leaves the shell as the two lines do, whatever the system answers -/
def ActsAsLines (a b : List Char) : Prop :=
  ∀ (Dir : Type) (env env' : Env Dir) (s : Process Dir), s.running = true →
    ∃ t t', mainLine env (a ++ ';' :: b) s = some t ∧ mainLines env env' a b s = some t' ∧ SameState t t'

/-- not `exit`, not `cd` to a directory, no batch file, and no redirection without a file -/
def Inert (c : List Char) : Prop :=
  match words c with
  | [] => True
  | w :: ws =>
    w ≠ "exit".toList ∧
    if w = "executeCommands".toList then ws = []
    else
      ¬ Blank c ∧ (commandWords c).head? ≠ some "exit".toList ∧
        ((commandWords c).head? = some "cd".toList → (commandWords c)[1]? = none)

/-- `main` executes the line itself -/
def Taken (l : List Char) : Prop :=
  (words l).head? = some "exit".toList ∨ (words l).head? = some "executeCommands".toList

/-- `main` takes the first word for its own, or neither command would change the shell -/
def ListKeeps (a b : List Char) : Prop :=
  match words (a ++ ';' :: b) with
  | [] => False
  | w :: ws =>
    if w = "exit".toList then True
    else if w = "executeCommands".toList then ws.length < 4 ∧ ws.head? = (words a).tail.head? ∧ Inert b
    else Inert a ∧ Inert b

variable {w : List Char} {ws : List (List Char)}

theorem inert_iff (hw : words a = w :: ws) :
    Inert a ↔ w ≠ "exit".toList ∧
      if w = "executeCommands".toList then ws = []
      else
        ¬ Blank a ∧ (commandWords a).head? ≠ some "exit".toList ∧
          ((commandWords a).head? = some "cd".toList → (commandWords a)[1]? = none) := by
  rw [Inert, hw]

theorem taken_iff (hw : words a = w :: ws) : Taken a ↔ w = "exit".toList ∨ w = "executeCommands".toList := by
  rw [Taken, hw, List.head?_cons, Option.some.injEq, Option.some.injEq]

/-- a line without quotes -/
theorem mainEffect_quoteless (env : Env Dir) (s : Process Dir) (hquote : '"' ∉ a) (hw : words a = w :: ws) :
    mainEffect env a s =
      if w = "exit".toList then some s.exit
      else if w = "executeCommands".toList then if ws.length < 4 then some (runBatch env ws.head? s) else none
      else some (lineEffect env a s) := by
  have hne : w ≠ "\"exit\"".toList := by
    intro he
    have hmem : w ∈ words a := hw ▸ List.mem_cons_self
    apply hquote
    apply (piece_spec hmem).2.2
    rw [he]
    decide
  simp only [mainEffect, hw, hne, or_false]

/-- a batch file, unless a token is written behind the slots -/
theorem mainEffect_batch (env : Env Dir) (s : Process Dir) (hquote : '"' ∉ a) (hw : words a = w :: ws)
    (hbatch : w = "executeCommands".toList) :
    mainEffect env a s = if ws.length < 4 then some (runBatch env ws.head? s) else none := by
  have hexit : w ≠ "exit".toList := by
    rw [hbatch]
    decide
  rw [mainEffect_quoteless env s hquote hw, if_neg hexit, if_pos hbatch]

/-- an inert command changes nothing -/
theorem inert_keeps (h : Inert x.text) (env : Env Dir) (s : Process Dir) :
    ∃ t, mainEffect env x.text s = some t ∧ SameState s t := by
  obtain ⟨w, ws, hw⟩ := List.exists_cons_of_ne_nil x.words_ne
  rw [mainEffect_quoteless env s x.quoteless hw]
  rw [inert_iff hw] at h
  obtain ⟨hexit, hrest⟩ := h
  rw [if_neg hexit]
  split_ifs at hrest with hbatch
  · rw [if_pos hbatch, hrest]
    exact ⟨s, rfl, rfl, rfl⟩
  · obtain ⟨hblank, hexit', hcd⟩ := hrest
    rw [if_neg hbatch]
    refine ⟨_, rfl, ?_⟩
    rw [lineEffect_single, if_neg hblank, if_neg hexit']
    split_ifs with hcd'
    · rw [hcd hcd']
      exact ⟨rfl, rfl⟩
    · exact ⟨rfl, rfl⟩
    · exact ⟨rfl, rfl⟩

/-! ## Other commands change something -/

/-- `chdir` leads to another directory, a file says `exit`, and `open` finds a descriptor -/
def adverse (fds : Finset ℕ) : Env ℕ :=
  ⟨fun d _ => some (d + 1), fun _ _ => some "exit".toList, lowestFree fds + 1, (0, 0), []⟩

/-- a single file that says `exit` -/
def oneFile (name : Option (List Char)) : Env ℕ :=
  { adverse ∅ with contents := fun _ f => if some f = name then some "exit".toList else none }

theorem runBatch_exit {env : Env Dir} {name : Option (List Char)} (s : Process Dir)
    (hname : name.bind (env.contents s.cwd) = some "exit".toList) (hfree : lowestFree s.fds < env.limit) :
    runBatch env name s = s.exit := by
  have hheld := batchBuffer_held env "exit".toList
  rw [batchBuffer_short env (by decide) (by decide)] at hheld
  have hline : lineEffect env "exit".toList s = s.exit := rfl
  rw [runBatch_eq, hname]
  simp only [hfree, if_true]
  rw [← hline]
  exact batchLoop_last 4999 hheld (by decide) (by decide)

theorem runBatch_missing {env : Env Dir} {name : Option (List Char)} (s : Process Dir)
    (hname : name.bind (env.contents s.cwd) = none) : runBatch env name s = s := by
  rw [runBatch_eq, hname]

/-- no command leads back, and one that is not inert leads away or ends the shell -/
theorem adverse_spec {s t : Process ℕ} (ht : mainEffect (adverse s.fds) x.text s = some t) :
    s.cwd ≤ t.cwd ∧ (¬ Inert x.text → t.running = true → s.cwd < t.cwd) := by
  obtain ⟨w, ws, hw⟩ := List.exists_cons_of_ne_nil x.words_ne
  rw [mainEffect_quoteless _ s x.quoteless hw] at ht
  rw [inert_iff hw]
  split_ifs at ht with hexit hbatch hlen
  · cases ht
    exact ⟨le_rfl, fun _ hrun => nomatch hrun⟩
  · cases ht
    cases ws with
    | nil => exact ⟨le_rfl, fun hi => absurd ⟨hexit, by rw [if_pos hbatch]⟩ hi⟩
    | cons v ws =>
      rw [runBatch_exit s rfl (Nat.lt_succ_self _)]
      exact ⟨le_rfl, fun _ hrun => nomatch hrun⟩
  · cases ht
    rw [if_neg hbatch, lineEffect_single]
    split_ifs with hblank hexit' hcd hnone
    · exact ⟨le_rfl, fun _ hrun => nomatch hrun⟩
    · exact ⟨le_rfl, fun _ hrun => nomatch hrun⟩
    · cases harg : (commandWords x.text)[1]? with
      | none => exact ⟨le_rfl, fun hi => absurd ⟨hexit, hblank, hexit', fun _ => rfl⟩ hi⟩
      | some d => exact ⟨Nat.le_succ s.cwd, fun _ _ => Nat.lt_succ_self s.cwd⟩
    · exact ⟨le_rfl, fun hi => absurd ⟨hexit, hblank, hexit', fun h => absurd h hcd⟩ hi⟩
    · exact ⟨le_rfl, fun hi => absurd ⟨hexit, hblank, hexit', fun h => absurd h hcd⟩ hi⟩

/-! ## Which lists act as lines -/

theorem list_quoteless : '"' ∉ x.text ++ ';' :: y.text := by
  simp [x.quoteless, y.quoteless]

theorem list_nulless : nul ∉ x.text ++ ';' :: y.text := by
  have hne : nul ≠ ';' := by decide
  simp [x.nulless, y.nulless, hne]

theorem words_list_ne : words (x.text ++ ';' :: y.text) ≠ [] := by
  intro h
  have hchars := pieces_eq_nil_iff.1 h ';' (by simp)
  exact absurd hchars (by decide)

/-- the parts of a list run in children -/
theorem mainLine_list (env : Env Dir) (s : Process Dir) (h : ¬ Taken (x.text ++ ';' :: y.text)) :
    mainLine env (x.text ++ ';' :: y.text) s = some s.fork.fork.wait.wait := by
  have hdirect : directText (x.text ++ ';' :: y.text) = none := by
    rw [directText, pieces_cut x.text_ne x.semicolonless, pieces_whole y.text_ne y.semicolonless]
  obtain ⟨w, ws, hw⟩ := List.exists_cons_of_ne_nil (words_list_ne x y)
  rw [taken_iff hw, not_or] at h
  rw [mainLine_spec env s (list_nulless x y), mainEffect_quoteless env s (list_quoteless x y) hw, if_neg h.1, if_neg h.2,
    lineEffect, hdirect]

/-- the first word of a list is that of its first command, or it has the semicolon in it -/
theorem words_list (hw : words (x.text ++ ';' :: y.text) = w :: ws) (hd : ';' ∉ w) :
    ∃ vs, words x.text = w :: vs ∧ ws ≠ [] ∧ vs.length ≤ ws.length := by
  obtain ⟨v, vs, hv⟩ := List.exists_cons_of_ne_nil x.words_ne
  rcases pieces_append_cons (by decide : ';' ≠ ' ') hv y.text with ⟨us, hus, hne, hlen⟩ | ⟨u, us, hus⟩
  · rw [words, hus] at hw
    cases hw
    exact ⟨vs, hv, hne, hlen⟩
  · rw [words, hus] at hw
    cases hw
    exact absurd (by simp) hd

/-- the two lines, when the first one leaves `t` -/
theorem mainLines_of_first {env : Env Dir} (env' : Env Dir) (ht : mainEffect env x.text s = some t) :
    mainLines env env' x.text y.text s = if t.running then mainEffect env' y.text t else some t := by
  rw [mainLines, mainLine_spec env s x.nulless, ht, Option.bind_some, mainLine_spec env' t y.nulless]

theorem lists_act (h : ListKeeps x.text y.text) : ActsAsLines x.text y.text := by
  intro Dir env env' s hs
  unfold ListKeeps at h
  obtain ⟨w, ws, hw⟩ := List.exists_cons_of_ne_nil (words_list_ne x y)
  simp only [hw] at h
  split_ifs at h with hexit hbatch
  · obtain ⟨vs, hv, -⟩ := words_list x y hw (by rw [hexit]; decide)
    have hlist : mainEffect env (x.text ++ ';' :: y.text) s = some s.exit := by
      rw [mainEffect_quoteless env s (list_quoteless x y) hw, if_pos hexit]
    have hfirst : mainEffect env x.text s = some s.exit := by
      rw [mainEffect_quoteless env s x.quoteless hv, if_pos hexit]
    rw [mainLine_spec env s (list_nulless x y), hlist]
    exact ⟨s.exit, s.exit, rfl, mainLines_of_first x y env' hfirst, .refl _⟩
  · obtain ⟨hlen, hname, hinert⟩ := h
    obtain ⟨vs, hv, -, hle⟩ := words_list x y hw (by rw [hbatch]; decide)
    rw [hv, List.tail_cons] at hname
    have hlist : mainEffect env (x.text ++ ';' :: y.text) s = some (runBatch env ws.head? s) := by
      rw [mainEffect_batch env s (list_quoteless x y) hw hbatch, if_pos hlen]
    have hfirst : mainEffect env x.text s = some (runBatch env ws.head? s) := by
      rw [mainEffect_batch env s x.quoteless hv hbatch, if_pos (lt_of_le_of_lt hle hlen), hname]
    generalize runBatch env ws.head? s = t at hlist hfirst
    obtain ⟨t', ht', hsame⟩ := inert_keeps y hinert env' t
    rw [mainLine_spec env s (list_nulless x y), hlist, mainLines_of_first x y env' hfirst]
    split_ifs
    · exact ⟨t, t', rfl, ht', hsame⟩
    · exact ⟨t, t, rfl, rfl, .refl t⟩
  · obtain ⟨hx, hy⟩ := h
    have htaken : ¬ Taken (x.text ++ ';' :: y.text) := by
      rw [taken_iff hw, not_or]
      exact ⟨hexit, hbatch⟩
    obtain ⟨t, ht, hsame⟩ := inert_keeps x hx env s
    obtain ⟨t', ht', hsame'⟩ := inert_keeps y hy env' t
    have hrun : t.running = true := hsame.running.trans hs
    rw [mainLine_list x y env s htaken, mainLines_of_first x y env' ht, if_pos hrun]
    exact ⟨_, t', rfl, ht', hsame'.cwd.trans hsame.cwd, hsame'.running.trans hsame.running⟩

/-- the second command is inert when the two lines end where they started, whatever it meets -/
theorem second_inert {env : Env ℕ} {s t u : Process ℕ} (ht : mainEffect env x.text s = some t) (hle : s.cwd ≤ t.cwd)
    (hu : mainLines env (adverse t.fds) x.text y.text s = some u) (hcwd : u.cwd = s.cwd) (hrun : u.running = true) :
    t.running = true ∧ t.cwd = s.cwd ∧ Inert y.text := by
  rw [mainLines_of_first x y _ ht] at hu
  split_ifs at hu with htrun
  · obtain ⟨hley, hlt⟩ := adverse_spec y hu
    refine ⟨htrun, le_antisymm (hcwd ▸ hley) hle, ?_⟩
    by_contra hnot
    have hmoved : t.cwd < u.cwd := hlt hnot hrun
    exact absurd (hcwd ▸ hmoved) (not_lt_of_ge hle)
  · cases hu
    exact absurd hrun htrun

def startState : Process ℕ := ⟨0, true, ∅, 0⟩

section Batch

variable {n f : Option (List Char)}

theorem runBatch_none (s : Process ℕ) : runBatch (oneFile none) n s = s := by
  apply runBatch_missing
  cases n <;> simp [oneFile]

theorem runBatch_other (hne : n ≠ f) (s : Process ℕ) : runBatch (oneFile f) n s = s := by
  apply runBatch_missing
  cases n with
  | none => rfl
  | some g => simp [oneFile, hne]

theorem runBatch_named (hf : f ≠ none) : runBatch (oneFile f) f startState = startState.exit := by
  obtain ⟨g, rfl⟩ := Option.ne_none_iff_exists'.1 hf
  apply runBatch_exit
  · simp [oneFile]
  · exact Nat.lt_succ_self _

variable (h : ActsAsLines x.text y.text)
  (hlist : ∀ env, mainEffect env (x.text ++ ';' :: y.text) startState = some (runBatch env f startState))
  (hfirst : ∀ env, mainEffect env x.text startState = some (runBatch env n startState))

include h hlist hfirst

/-- without files the batch files do nothing, and only the second command is left -/
theorem inert_behind_batch : Inert y.text := by
  obtain ⟨t, u, ht, hu, hsame⟩ := h ℕ (oneFile none) (adverse ∅) startState rfl
  rw [mainLine_spec _ _ (list_nulless x y), hlist, runBatch_none] at ht
  cases ht
  have hstart : mainEffect (oneFile none) x.text startState = some startState := by
    rw [hfirst, runBatch_none]
  exact (second_inert x y hstart le_rfl hu hsame.cwd hsame.running).2.2

/-- if the file of the list says `exit`, it is that of the line, since no other is there -/
theorem same_batch (hf : f ≠ none) : f = n := by
  by_contra hne
  have hinert := inert_behind_batch x y h hlist hfirst
  obtain ⟨t, u, ht, hu, hsame⟩ := h ℕ (oneFile f) (adverse ∅) startState rfl
  rw [mainLine_spec _ _ (list_nulless x y), hlist, runBatch_named hf] at ht
  cases ht
  have hstart : mainEffect (oneFile f) x.text startState = some startState := by
    rw [hfirst, runBatch_other fun he => hne he.symm]
  obtain ⟨u', hu', hsame'⟩ := inert_keeps y hinert (adverse ∅) startState
  have hrunning : startState.running = true := rfl
  rw [mainLines_of_first x y _ hstart, if_pos hrunning, hu'] at hu
  cases hu
  have hrun : startState.exit.running = startState.running := hsame.running.symm.trans hsame'.running
  cases hrun

end Batch

/-- the shell executes the batch file of the list -/
theorem keeps_of_batch (h : ActsAsLines x.text y.text) (hw : words (x.text ++ ';' :: y.text) = w :: ws)
    (hbatch : w = "executeCommands".toList) :
    ws.length < 4 ∧ ws.head? = (words x.text).tail.head? ∧ Inert y.text := by
  have hline (env : Env ℕ) := mainEffect_batch env startState (list_quoteless x y) hw hbatch
  have hlen : ws.length < 4 := by
    by_contra hlen
    obtain ⟨t, -, ht, -⟩ := h ℕ (adverse ∅) (adverse ∅) startState rfl
    rw [mainLine_spec _ _ (list_nulless x y), hline, if_neg hlen] at ht
    cases ht
  obtain ⟨vs, hv, hne, hle⟩ := words_list x y hw (by rw [hbatch]; decide)
  have hlist (env : Env ℕ) : mainEffect env (x.text ++ ';' :: y.text) startState =
      some (runBatch env ws.head? startState) := by
    rw [hline, if_pos hlen]
  have hfirst (env : Env ℕ) : mainEffect env x.text startState = some (runBatch env vs.head? startState) := by
    rw [mainEffect_batch env startState x.quoteless hv hbatch, if_pos (lt_of_le_of_lt hle hlen)]
  have hnamed : ws.head? ≠ none := by
    rw [Ne, List.head?_eq_none_iff]
    exact hne
  rw [hv, List.tail_cons]
  exact ⟨hlen, same_batch x y h hlist hfirst hnamed, inert_behind_batch x y h hlist hfirst⟩

/-- the shell leaves the list to its children -/
theorem inert_of_children (h : ActsAsLines x.text y.text) (htaken : ¬ Taken (x.text ++ ';' :: y.text)) :
    Inert x.text ∧ Inert y.text := by
  obtain ⟨t, ht⟩ : ∃ t, mainEffect (adverse startState.fds) x.text startState = some t := by
    obtain ⟨-, u, -, hu, -⟩ := h ℕ (adverse ∅) (adverse ∅) startState rfl
    obtain ⟨t, ht, -⟩ := Option.bind_eq_some_iff.1 hu
    rw [mainLine_spec _ _ x.nulless] at ht
    exact ⟨t, ht⟩
  obtain ⟨hle, hlt⟩ := adverse_spec x ht
  obtain ⟨s, u, hs, hu, hsame⟩ := h ℕ (adverse ∅) (adverse t.fds) startState rfl
  rw [mainLine_list x y _ _ htaken] at hs
  cases hs
  obtain ⟨hrun, hcwd, hy⟩ := second_inert x y ht hle hu hsame.cwd hsame.running
  refine ⟨?_, hy⟩
  by_contra hx
  have hmoved : startState.cwd < t.cwd := hlt hx hrun
  exact absurd hcwd (ne_of_gt hmoved)

theorem lists_keep (h : ActsAsLines x.text y.text) : ListKeeps x.text y.text := by
  unfold ListKeeps
  obtain ⟨w, ws, hw⟩ := List.exists_cons_of_ne_nil (words_list_ne x y)
  simp only [hw]
  by_cases hexit : w = "exit".toList
  · rw [if_pos hexit]
    trivial
  · rw [if_neg hexit]
    by_cases hbatch : w = "executeCommands".toList
    · rw [if_pos hbatch]
      exact keeps_of_batch x y h hw hbatch
    · rw [if_neg hbatch]
      apply inert_of_children x y h
      rw [taken_iff hw, not_or]
      exact ⟨hexit, hbatch⟩

/-- **Lists.** The commands of a list run in children, unless `main` executes the line itself, so the list acts as its
two lines exactly if `main` does so or neither command would change the shell. -/
theorem list_effect :
    (¬ Taken (x.text ++ ';' :: y.text) → ∀ (Dir : Type) (env : Env Dir) (s : Process Dir),
      ∃ t, mainLine env (x.text ++ ';' :: y.text) s = some t ∧ SameState s t) ∧
    (ActsAsLines x.text y.text ↔ ListKeeps x.text y.text) := by
  constructor
  · intro htaken Dir env s
    exact ⟨_, mainLine_list x y env s htaken, rfl, rfl⟩
  · exact ⟨lists_keep x y, lists_act x y⟩

def changeDirectory : Single := ⟨"cd x ".toList, by simp [nul], by decide⟩

def printDirectory : Single := ⟨" pwd".toList, by simp [nul], by decide⟩

/-- `cd x ; pwd` leaves the shell where it was -/
theorem list_keeps_directory :
    mainLine (adverse ∅) "cd x ; pwd".toList startState = some startState ∧
    mainLines (adverse ∅) (adverse ∅) changeDirectory.text printDirectory.text startState =
      some { startState with cwd := 1 } ∧
    ¬ ActsAsLines changeDirectory.text printDirectory.text := by
  have hlist : mainLine (adverse ∅) "cd x ; pwd".toList startState = some startState :=
    mainLine_spec _ _ (list_nulless changeDirectory printDirectory)
  have hcd : mainEffect (adverse ∅) changeDirectory.text startState = some { startState with cwd := 1 } := rfl
  have hlines := mainLines_of_first changeDirectory printDirectory (adverse ∅) hcd
  refine ⟨hlist, hlines, ?_⟩
  intro h
  obtain ⟨t, u, ht, hu, hsame⟩ := h ℕ (adverse ∅) (adverse ∅) startState rfl
  obtain rfl : startState = t := Option.some.inj (hlist.symm.trans ht)
  obtain rfl : { startState with cwd := 1 } = u := Option.some.inj (hlines.symm.trans hu)
  exact absurd hsame.cwd (by decide)

end DecsLabs.Shell
