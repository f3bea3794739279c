/-
The batch files of `executeCommands` (`main` in myshell.c). The line that names the file is tokenized into five slots;
the file is read into a block of 5000 bytes and cut at its newlines up to an empty line.

- `staysInside_iff`: exactly when the five slots are enough.
- `batchStrings`: the strings that are passed to `commaChecker`; `passedStrings_spec` are they as parts of a text, of which
  a lone quote may have cut the end.
- `EndsShell`: a line after which the shell does not run any more.
- `passesAll_iff`: exactly when these are the lines of the file, whatever follows the block in the memory.
-/
import DecsLabs.Shell.Locality

namespace DecsLabs.Shell

open DecsLabs.CString

variable {m m' : Mem} {p : ℕ} {l : List Char} {r : List Cell} {Dir : Type} {env : Env Dir} {s : Process Dir}

/-! ## The line that names the file -/

/-- five slots are enough for the tokens, and slot 1 holds the second word or NULL -/
def StaysInside (l : List Char) (result : Except Fault (Slots ℕ × Files ℕ × Mem)) : Prop :=
  ∃ t file m', result = .ok (t, file, m') ∧ (∀ k, 5 ≤ k → t k = none) ∧
    ∃ a, t 1 = some a ∧ a.map (str m'.buf) = (words l)[1]?

/-- the tokens of a line, and where they are -/
theorem tokenize_spec (h : Holds m.buf (p, l)) : ∃ toks m',
    tokenizeCommandsAndArguments m (some p) .empty none ⟨none, none⟩ =
      .ok (slotsOf (toks.map Prod.fst), ⟨none, none⟩, m') ∧
    toks.map Prod.snd = (words l).take 200 ∧ Held m'.buf toks := by
  have hone : Held m.buf ((some (p, l)).toList ++ []) := ⟨by simpa using h, by simp⟩
  obtain ⟨toks, t, m', hrun, hshow, htoks, hheld⟩ := removeSpacesAndCreateTokens_spec hone
  have hlen : toks.length ≤ 200 := by
    have := congrArg List.length htoks
    simp only [List.length_map, List.length_take] at this
    omega
  have hexact := tokens_exact hrun hshow hlen
  rw [Option.map_some] at hrun
  refine ⟨toks, m', ?_, htoks, by simpa using hheld⟩
  rw [← hexact]
  simp only [tokenizeCommandsAndArguments, hrun, fileRemoveSpacesAndCreateTokens, bind, Except.bind, pure, Except.pure]

/-- **Five slots.** They are enough for exactly four words. -/
theorem staysInside_iff (h : Holds m.buf (p, l)) (hfirst : (words l).head? = some "executeCommands".toList) :
    StaysInside l (tokenizeCommandsAndArguments m (some p) .empty none ⟨none, none⟩) ↔ (words l).length ≤ 4 := by
  obtain ⟨toks, m', hrun, htoks, hheld⟩ := tokenize_spec h
  have hlen := congrArg List.length htoks
  simp only [List.length_map, List.length_take] at hlen
  rw [hrun]
  constructor
  · rintro ⟨t, file, m'', heq, hnone, -⟩
    cases heq
    by_contra hcon
    have hfive := hnone 5 le_rfl
    rw [slotsOf, List.length_map, if_pos (by omega)] at hfive
    cases hfive
  · intro hle
    refine ⟨_, _, _, rfl, fun k hk => ?_, (toks.map Prod.fst)[1]?, ?_, ?_⟩
    · exact slotsOf_eq_none (by rw [List.length_map]; omega)
    · have hpos : 0 < (words l).length := List.length_pos_of_mem (List.mem_of_mem_head? hfirst)
      rw [slotsOf, List.length_map, if_pos (by omega)]
    · rw [List.take_of_length_le (by omega)] at htoks
      rw [← htoks, List.getElem?_map, List.getElem?_map, Option.map_map]
      cases hone : toks[1]? with
      | none => rfl
      | some c => exact congrArg some (hheld.holds c (List.mem_of_getElem? hone)).str_eq

theorem staysInside_iff_example : StaysInside "executeCommands cmds.txt".toList
    (tokenizeCommandsAndArguments ⟨"executeCommands cmds.txt".toList ++ [nul], 0⟩ (some 0) .empty none ⟨none, none⟩) :=
  (staysInside_iff (.alone (by decide)) (by decide)).2 (by decide)

/-- NULL is written behind the five slots -/
theorem five_words : ¬ StaysInside "executeCommands a b c d".toList
    (tokenizeCommandsAndArguments ⟨"executeCommands a b c d".toList ++ [nul], 0⟩ (some 0) .empty none ⟨none, none⟩) := by
  rintro ⟨t, file, m', hrun, hnone, -⟩
  have hfive : t 5 = some none := by
    cases hrun
    rfl
  rw [hnone 5 le_rfl] at hfive
  cases hfive

/-! ## The strings of a batch file -/

/-- the loop of `batchLoop`, with the strings that it passes to `commaChecker` -/
def batchStrings (env : Env Dir) : ℕ → Option ℕ → Mem → Process Dir → List (List Char)
  | 0, _, _, _ => []
  | n + 1, buffer, m, s =>
    match strsep m buffer '\n' with
    | (none, _, _) => []
    | (some command, buffer, m) =>
      if strlen m.buf command = 0 then []
      else
        let (s, m') := runLine env m command s
        str m.buf command :: if s.running then batchStrings env n buffer m' s else []

/-- the strings of `runBatch` -/
def passedStrings (env : Env Dir) (name : Option (List Char)) (s : Process Dir) : List (List Char) :=
  match name.bind (env.contents s.cwd) with
  | none => []
  | some c =>
    match s.openFile env with
    | none => []
    | some (fd, s) => batchStrings env bufferSize (some 0) ⟨batchBuffer env c, 0⟩ (s.close fd)

/-! ## Lines that end the shell -/

/-- a command that is not survived, or `exit` -/
def EndsCommand (c : List Char) : Prop :=
  stages c = [] ∨ (∃ a ∈ stages c, Blank a) ∨
    (∀ a ∈ stages c, commandWords a ≠ []) ∧
      ∃ a ∈ (stages c).head?, (commandWords a).head?.map opened = some "exit".toList

instance (c : List Char) : Decidable (EndsCommand c) := by
  unfold EndsCommand
  infer_instance

/-- a line whose command runs in the shell itself and ends it -/
def EndsShell (l : List Char) : Prop := ∃ c ∈ directText l, EndsCommand c

instance (l : List Char) : Decidable (EndsShell l) := inferInstanceAs (Decidable (∃ c ∈ directText l, _))

theorem builtinEffect_running (env : Env Dir) {a : List Char} (s : Process Dir) (hb : Builtin a) :
    (builtinEffect env a s).running = true ↔
      s.running = true ∧ (commandWords a).head?.map opened ≠ some "exit".toList := by
  obtain ⟨v, hv⟩ : ∃ v, (commandWords a).head?.map opened = some v := by
    obtain ⟨_, -, hhead⟩ := hb
    obtain ⟨w, hw, -⟩ := Option.map_eq_some_iff.1 hhead
    exact ⟨opened w, by rw [hw, Option.map_some]⟩
  have hw := (builtin_iff_opened hv).1 hb
  rw [builtinEffect, builtinEvent, List.head?_map, hv]
  simp only [builtinCommands, List.mem_cons, List.not_mem_nil, or_false] at hw
  rcases hw with rfl | rfl
  · rw [if_pos rfl]
    have hne : some "cd".toList ≠ some "exit".toList := by decide
    simp only [act, Process.chdir, hne, ne_eq, not_false_eq_true, and_true]
    split <;> rfl
  · have hne : ¬ some "exit".toList = some "cd".toList := by decide
    rw [if_neg hne]
    simp [act, Process.exit]

theorem pipeEffect_running (env : Env Dir) (both : Prop) [Decidable both] (s : Process Dir) :
    (pipeEffect env both s).running = s.running := by
  have hpipe : (s.pipe env).2.running = s.running := by
    simp only [Process.pipe]
    split_ifs <;> rfl
  rw [← hpipe]
  unfold pipeEffect
  split_ifs <;> rfl

theorem not_exit {a : List Char} (hb : ¬ Builtin a) : (commandWords a).head?.map opened ≠ some "exit".toList :=
  fun h => hb ((builtin_iff_opened h).2 (by decide))

theorem commandEffect_running (env : Env Dir) (c : List Char) (s : Process Dir) :
    (commandEffect env c s).running = true ↔ s.running = true ∧ ¬ EndsCommand c := by
  have hexit : s.exit.running = false := rfl
  have hlen : (stages c).length ≤ 2 := List.length_take_le _ _
  unfold commandEffect EndsCommand
  match hst : stages c with
  | [] => simp [hexit]
  | [a] =>
    simp only [List.mem_singleton, exists_eq_left, forall_eq, List.head?_cons, Option.mem_def, Option.some.injEq,
      exists_eq_left', reduceCtorEq, false_or]
    by_cases hb : Blank a
    · simp [hb, hexit]
    by_cases hw : commandWords a = []
    · simp [hb, hw]
    by_cases hbuiltin : Builtin a
    · simp [hb, hw, hbuiltin, builtinEffect_running]
    · have hne := not_exit hbuiltin
      have hrun : s.fork.wait.running = s.running := rfl
      simp only [hb, hw, hbuiltin, hne, hrun, if_false, false_or, and_false, not_false_eq_true, and_true]
  | [a, b] =>
    simp only [List.mem_cons, List.not_mem_nil, or_false, exists_eq_or_imp, exists_eq_left, forall_eq_or_imp, forall_eq,
      List.head?_cons, Option.mem_def, Option.some.injEq, exists_eq_left', reduceCtorEq, false_or]
    by_cases hb : Blank a ∨ Blank b
    · simp [hb, hexit]
    by_cases hw : commandWords a = [] ∨ commandWords b = []
    · have hw' : ¬ (¬ commandWords a = [] ∧ ¬ commandWords b = []) := by tauto
      simp [hb, hw, hw']
    obtain ⟨hw1, hw2⟩ := not_or.1 hw
    by_cases hbuiltin : Builtin a
    · simp [hb, hw1, hw2, hbuiltin, builtinEffect_running]
    · have hne := not_exit hbuiltin
      simp only [hb, hw, hbuiltin, hne, pipeEffect_running, if_false, false_or, and_false, not_false_eq_true,
        and_true]
  | a :: b :: x :: rest =>
    rw [hst] at hlen
    simp at hlen

theorem lineEffect_running (env : Env Dir) (l : List Char) (s : Process Dir) :
    (lineEffect env l s).running = true ↔ s.running = true ∧ ¬ EndsShell l := by
  unfold lineEffect EndsShell
  cases directText l with
  | none => simp [Process.fork, Process.wait]
  | some c => simp [commandEffect_running]

/-! ## The strings as parts of a text -/

/-- the text behind the line `w`, after the line -/
def textBehind (w t : List Char) : List Char := if Spills w then t.takeWhile (· != '"') else t

/-- the text that the block of a file holds -/
def batchText (env : Env Dir) (c : List Char) : List Char := str (batchBuffer env c) 0

/-- what is passed of a text -/
def passed : ℕ → List Char → List (List Char)
  | 0, _ => []
  | n + 1, t =>
    let w := t.takeWhile (· != '\n')
    if w = [] then [] else w :: if EndsShell w then [] else passed n (textBehind w (t.drop (w.length + 1)))

theorem passed_nil (n : ℕ) : passed n [] = [] := by
  cases n <;> rfl

theorem passed_newline (n : ℕ) (t : List Char) : passed n ('\n' :: t) = [] := by
  cases n <;> rfl

theorem passed_whole {w : List Char} (n : ℕ) (hw : w ≠ []) (hn : '\n' ∉ w) : passed (n + 1) w = [w] := by
  have hdrop : w.drop (w.length + 1) = [] := List.drop_eq_nil_of_le (Nat.le_succ _)
  have hnil : textBehind w [] = [] := by
    unfold textBehind
    split_ifs <;> rfl
  simp only [passed, takeWhile_whole hn, if_neg hw, hdrop, hnil, passed_nil, ite_self]

theorem passed_cut {w : List Char} (n : ℕ) (t : List Char) (hw : w ≠ []) (hn : '\n' ∉ w) :
    passed (n + 1) (w ++ '\n' :: t) = w :: if EndsShell w then [] else passed n (textBehind w t) := by
  have hdrop : (w ++ '\n' :: t).drop (w.length + 1) = t := by
    rw [List.drop_length_add_append]
    rfl
  simp only [passed, takeWhile_cut hn, if_neg hw, hdrop]

theorem runLine_running (env : Env Dir) (s : Process Dir) (h : Held m.buf ((p, l) :: r)) :
    (runLine env m p s).1.running = true ↔ s.running = true ∧ ¬ EndsShell l := by
  obtain ⟨m', hrun, -⟩ := runLine_spec env s h
  rw [hrun, lineEffect_running]

theorem batchStrings_none (n : ℕ) : batchStrings env n none m s = [] := by
  cases n <;> rfl

/-- **The loop.** -/
theorem batchStrings_spec {u t v : List Char} {x : ℕ} (n : ℕ) (hs : s.running = true) (hn : nul ∉ t) :
    batchStrings env n (some u.length) ⟨u ++ (t ++ nul :: v), x⟩ s = passed n t := by
  induction n generalizing u t v x s with
  | zero => rfl
  | succ n ih =>
    have hheld : Held (⟨u ++ (t ++ nul :: v), x⟩ : Mem).buf [(u.length, t)] :=
      ⟨List.forall_mem_singleton.2 ⟨hn, v, by simp⟩, List.pairwise_singleton _ _⟩
    by_cases hline : '\n' ∈ t
    · obtain ⟨w, t', rfl, hw⟩ := List.eq_append_cons_of_mem hline
      have hset : (u ++ (w ++ '\n' :: t' ++ nul :: v)).set (u.length + w.length) nul =
          u ++ (w ++ nul :: (t' ++ nul :: v)) := by
        rw [List.append_assoc, List.cons_append, List.set_append_right _ _ (Nat.le_add_right _ _), Nat.add_sub_cancel_left,
          List.set_append_right _ _ le_rfl, Nat.sub_self, List.set_cons_zero]
      have hcut : Held (u ++ (w ++ nul :: (t' ++ nul :: v))) [(u.length, w)] :=
        ⟨List.forall_mem_singleton.2 ⟨fun h => hn (by simp [h]), t' ++ nul :: v, by simp⟩, List.pairwise_singleton _ _⟩
      rw [batchStrings, strsep_cut hheld.head hw]
      simp only [hset, hcut.head.strlen_eq, hcut.head.str_eq]
      by_cases hne : w = []
      · subst hne
        exact (passed_newline (n + 1) t').symm
      simp only [List.length_eq_zero_iff, hne, if_false, passed_cut n t' hne hw]
      have hrun := runLine_running (m := ⟨u ++ (w ++ nul :: (t' ++ nul :: v)), x⟩) env s hcut
      by_cases hend : EndsShell w
      · rw [if_pos hend, if_neg fun h => (hrun.1 h).2 hend]
      · have hrunning := hrun.2 ⟨hs, hend⟩
        obtain ⟨b, hb, hbuf⟩ := runLine_behind hrunning
        obtain ⟨v', hv'⟩ : ∃ v', (if Spills w then cropTail (t' ++ nul :: v) else t' ++ nul :: v) = textBehind w t' ++ nul :: v' := by
          unfold textBehind
          split_ifs
          · exact cropTail_str fun h => hn (by simp [h])
          · exact ⟨v, rfl⟩
        have hbehind : nul ∉ textBehind w t' := by
          intro h
          refine hn ?_
          unfold textBehind at h
          split_ifs at h
          · simp [(List.takeWhile_prefix _).subset h]
          · simp [h]
        have hplace : u.length + w.length + 1 = (u ++ b).length := by rw [List.length_append, hb, Nat.add_assoc]
        rw [if_neg hend, if_pos hrunning]
        generalize (runLine env ⟨u ++ (w ++ nul :: (t' ++ nul :: v)), x⟩ u.length s).1 = s' at hrunning
        generalize (runLine env ⟨u ++ (w ++ nul :: (t' ++ nul :: v)), x⟩ u.length s).2 = m' at hbuf
        obtain ⟨buf, y⟩ := m'
        obtain rfl : buf = u ++ b ++ (textBehind w t' ++ nul :: v') := by
          rw [List.append_assoc, ← hv']
          exact hbuf
        rw [hplace, ih hrunning hbehind]
    · rw [batchStrings, strsep_whole hheld.head hline]
      simp only [hheld.head.strlen_eq, hheld.head.str_eq]
      by_cases ht : t = []
      · subst ht
        rfl
      · simp only [List.length_eq_zero_iff, ht, if_false, batchStrings_none, ite_self, passed_whole n ht hline]

/-- a file that can be opened -/
theorem passedStrings_spec {name c : List Char} (hs : s.running = true) (hc : env.contents s.cwd name = some c)
    (hfd : lowestFree s.fds < env.limit) :
    passedStrings env (some name) s = passed bufferSize (batchText env c) := by
  have hmem : nul ∈ batchBuffer env c := by simp [batchBuffer]
  obtain ⟨t, v, htv, ht⟩ := List.eq_append_cons_of_mem hmem
  have htext : batchText env c = t := by
    rw [batchText, htv]
    exact takeWhile_cut ht
  have hbind : (some name).bind (env.contents s.cwd) = some c := hc
  have hrun : batchStrings env bufferSize (some 0) ⟨t ++ nul :: v, 0⟩ s = passed bufferSize t :=
    batchStrings_spec (u := []) bufferSize hs ht
  simp only [passedStrings, hbind, Process.openFile, hfd, if_true, close_open (lowestFree_notMem _), htext, htv]
  exact hrun

/-! ## Lines of a text -/

section Text

variable {c t w : List Char} {ls : List (List Char)}

/-- a text is a line, or begins with a line and a newline -/
@[elab_as_elim]
theorem linesInduction {motive : List Char → Prop} (whole : ∀ w, '\n' ∉ w → motive w)
    (cut : ∀ w t, '\n' ∉ w → motive t → motive (w ++ '\n' :: t)) (c : List Char) : motive c := by
  induction c using piecesInduction '\n' with
  | nil => exact whole [] List.not_mem_nil
  | skip t ih => exact cut [] t List.not_mem_nil ih
  | whole w _ hw => exact whole w hw
  | cut w t _ hw ih => exact cut w t hw ih

/-- the lines of a file that are commands -/
def commandLines (c : List Char) : List (List Char) := (c.splitOn '\n').filter (· ≠ [])

/-- the lines `ls`, with a newline between two of them -/
def textOf (ls : List (List Char)) : List Char := ['\n'].intercalate ls

def IsLine (w : List Char) : Prop := w ≠ [] ∧ '\n' ∉ w

theorem textOf_cons (w : List Char) (hls : ls ≠ []) : textOf (w :: ls) = w ++ '\n' :: textOf ls := by
  obtain ⟨v, vs, rfl⟩ := List.exists_cons_of_ne_nil hls
  rw [textOf, List.intercalate_cons_cons, List.append_assoc]
  rfl

theorem textOf_singleton (w : List Char) : textOf [w] = w := List.intercalate_singleton

theorem mem_splitOn {w : List Char} (h : w ∈ c.splitOn '\n') : '\n' ∉ w := by
  induction c using linesInduction with
  | whole v hv =>
    rw [List.splitOn_eq_singleton hv, List.mem_singleton] at h
    rwa [h]
  | cut v t hv ih =>
    rw [List.splitOn_append_cons_self_of_not_mem hv] at h
    rcases List.mem_cons.1 h with rfl | h
    · exact hv
    · exact ih h

theorem commandLines_isLine (h : w ∈ commandLines c) : IsLine w := by
  obtain ⟨hmem, hne⟩ := List.mem_filter.1 h
  exact ⟨of_decide_eq_true hne, mem_splitOn hmem⟩

/-- there are no more lines than characters -/
theorem length_le_textOf (h : ∀ w ∈ ls, IsLine w) : ls.length ≤ (textOf ls).length := by
  induction ls with
  | nil => exact Nat.zero_le _
  | cons w ls ih =>
    have hw : 0 < w.length := List.length_pos_of_ne_nil (h w (by simp)).1
    have hrest := ih fun v hv => h v (List.mem_cons_of_mem _ hv)
    by_cases hls : ls = []
    · rw [hls, textOf_singleton, List.length_singleton]
      exact hw
    · rw [textOf_cons w hls, List.length_cons, List.length_append, List.length_cons]
      omega

/-- the lines of a text up to the first empty one -/
def batchLines (t : List Char) : List (List Char) := (t.splitOn '\n').takeWhile (· ≠ [])

theorem batchLines_cut (hw : w ≠ []) (hn : '\n' ∉ w) : batchLines (w ++ '\n' :: t) = w :: batchLines t := by
  rw [batchLines, List.splitOn_append_cons_self_of_not_mem hn, List.takeWhile_cons_of_pos (by simpa using hw)]
  rfl

theorem batchLines_whole (hw : w ≠ []) (hn : '\n' ∉ w) : batchLines w = [w] := by
  rw [batchLines, List.splitOn_eq_singleton hn, List.takeWhile_cons_of_pos (by simpa using hw), List.takeWhile_nil]

theorem batchLines_empty (t : List Char) : batchLines ('\n' :: t) = [] := by
  have hsplit : ([] ++ '\n' :: t).splitOn '\n' = [] :: t.splitOn '\n' :=
    List.splitOn_append_cons_self_of_not_mem List.not_mem_nil t
  rw [batchLines, ← List.nil_append ('\n' :: t), hsplit]
  rfl

theorem batchLines_newline (h : ∀ w ∈ ls, IsLine w) (t : List Char) (hls : ls ≠ []) :
    batchLines (textOf ls ++ '\n' :: t) = ls ++ batchLines t := by
  induction ls with
  | nil => exact absurd rfl hls
  | cons w ls ih =>
    have hw := h w (by simp)
    by_cases hnil : ls = []
    · rw [hnil, textOf_singleton, batchLines_cut hw.1 hw.2]
      rfl
    · rw [textOf_cons w hnil, List.append_assoc, List.cons_append, batchLines_cut hw.1 hw.2,
        ih (fun v hv => h v (List.mem_cons_of_mem _ hv)) hnil]
      rfl

/-- the lines that the loop finds stand at the start of the text -/
theorem batchLines_prefix (h : ls <+: batchLines t) (hls : ls ≠ []) : ∃ r, t = textOf ls ++ r ∧ ∀ c ∈ r.head?, c = '\n' := by
  induction t using linesInduction generalizing ls with
  | whole w hw =>
    have hne : w ≠ [] := by
      rintro rfl
      exact hls (List.prefix_nil.1 h)
    rw [batchLines_whole hne hw] at h
    obtain ⟨v, vs, rfl⟩ := List.exists_cons_of_ne_nil hls
    obtain ⟨rfl, hvs⟩ := List.cons_prefix_cons.1 h
    obtain rfl := List.prefix_nil.1 hvs
    exact ⟨[], by rw [textOf_singleton, List.append_nil], by simp⟩
  | cut w t hw ih =>
    have hne : w ≠ [] := by
      rintro rfl
      rw [List.nil_append, batchLines_empty] at h
      exact hls (List.prefix_nil.1 h)
    rw [batchLines_cut hne hw] at h
    obtain ⟨v, vs, rfl⟩ := List.exists_cons_of_ne_nil hls
    obtain ⟨rfl, hvs⟩ := List.cons_prefix_cons.1 h
    by_cases hnil : vs = []
    · exact ⟨'\n' :: t, by rw [hnil, textOf_singleton], by simp⟩
    · obtain ⟨r, rfl, hr⟩ := ih hvs hnil
      exact ⟨r, by rw [textOf_cons v hnil, List.append_assoc, List.cons_append], hr⟩

theorem batchLines_ne_nil (hw : IsLine w) (r : List Char) : batchLines (w ++ r) ≠ [] := by
  by_cases hr : '\n' ∈ r
  · obtain ⟨a, b, rfl, ha⟩ := List.eq_append_cons_of_mem hr
    have hne : w ++ a ≠ [] := by simp [hw.1]
    have hnew : '\n' ∉ w ++ a := by simp [hw.2, ha]
    rw [← List.append_assoc, batchLines_cut hne hnew]
    exact List.cons_ne_nil _ _
  · have hne : w ++ r ≠ [] := by simp [hw.1]
    have hnew : '\n' ∉ w ++ r := by simp [hw.2, hr]
    rw [batchLines_whole hne hnew]
    exact List.cons_ne_nil _ _

/-- less text, fewer lines -/
theorem batchLines_length_mono (t r : List Char) : (batchLines t).length ≤ (batchLines (t ++ r)).length := by
  induction t using linesInduction with
  | whole w hw =>
    by_cases hne : w = []
    · subst hne
      exact Nat.zero_le _
    rw [batchLines_whole hne hw, List.length_singleton]
    exact List.length_pos_of_ne_nil (batchLines_ne_nil ⟨hne, hw⟩ r)
  | cut w t hw ih =>
    rw [List.append_assoc, List.cons_append]
    by_cases hne : w = []
    · subst hne
      rw [List.nil_append, batchLines_empty]
      exact Nat.zero_le _
    · rw [batchLines_cut hne hw, batchLines_cut hne hw]
      exact Nat.succ_le_succ ih

/-- no line that is a command stands behind an empty one -/
def Contiguous (c : List Char) : Prop := (c.splitOn '\n').Pairwise fun a b => a = [] → b = []

theorem takeWhile_eq_filter_iff {α : Type} (q : α → Bool) (xs : List α) :
    xs.takeWhile q = xs.filter q ↔ xs.Pairwise fun a b => q b = true → q a = true := by
  induction xs with
  | nil => simp
  | cons a xs ih =>
    rw [List.pairwise_cons]
    by_cases ha : q a = true
    · rw [List.takeWhile_cons_of_pos ha, List.filter_cons_of_pos ha, List.cons.injEq, eq_self_iff_true, true_and, ih]
      simp [ha]
    · rw [List.takeWhile_cons_of_neg ha, List.filter_cons_of_neg ha, eq_comm, List.filter_eq_nil_iff]
      constructor
      · intro h
        refine ⟨fun b hb hqb => absurd hqb (h b hb), List.pairwise_of_forall_mem_list ?_⟩
        intro x _ y hy hqy
        exact absurd hqy (h y hy)
      · intro h b hb hqb
        exact ha (h.1 b hb hqb)

theorem contiguous_iff (c : List Char) : Contiguous c ↔ batchLines c = commandLines c := by
  rw [batchLines, commandLines, takeWhile_eq_filter_iff]
  apply List.Pairwise.iff
  intro a b
  simp only [decide_eq_true_eq]
  tauto

/-- behind the commands of a file there are only newlines -/
theorem textOf_append_nils (ls : List (List Char)) (k : ℕ) :
    ∃ j, textOf (ls ++ List.replicate k []) = textOf ls ++ List.replicate j '\n' := by
  induction ls with
  | nil =>
    induction k with
    | zero => exact ⟨0, rfl⟩
    | succ k ih =>
      obtain ⟨j, hj⟩ := ih
      by_cases hk : k = 0
      · subst hk
        exact ⟨0, rfl⟩
      · have hne : List.replicate k ([] : List Char) ≠ [] := by simpa using hk
        refine ⟨j + 1, ?_⟩
        rw [List.nil_append] at hj
        rw [List.nil_append, List.replicate_succ, textOf_cons [] hne, hj, List.replicate_succ]
        rfl
  | cons w ls ih =>
    obtain ⟨j, hj⟩ := ih
    by_cases hls : ls = []
    · subst hls
      cases k with
      | zero => exact ⟨0, by simp⟩
      | succ k =>
        have hne : ([] : List (List Char)) ++ List.replicate (k + 1) [] ≠ [] := by simp
        refine ⟨j + 1, ?_⟩
        rw [List.cons_append, textOf_cons w hne, hj, textOf_singleton, List.replicate_succ]
        rfl
    · have hne : ls ++ List.replicate k [] ≠ [] := by simp [hls]
      refine ⟨j, ?_⟩
      rw [List.cons_append, textOf_cons w hne, hj, textOf_cons w hls, List.append_assoc, List.cons_append]

theorem Contiguous.shape (h : Contiguous c) : ∃ j, c = textOf (commandLines c) ++ List.replicate j '\n' := by
  have htake : (c.splitOn '\n').takeWhile (· ≠ []) = commandLines c := (contiguous_iff c).1 h
  have hdrop : ∃ k, (c.splitOn '\n').dropWhile (· ≠ []) = List.replicate k [] := by
    refine ⟨_, List.eq_replicate_iff.2 ⟨rfl, ?_⟩⟩
    intro w hw
    have hpair := List.Pairwise.sublist (List.dropWhile_sublist (fun v => decide (v ≠ []))) h
    have hhead := List.head?_dropWhile_not (fun v => decide (v ≠ [])) (c.splitOn '\n')
    generalize (c.splitOn '\n').dropWhile (fun v => decide (v ≠ [])) = vs at hw hpair hhead
    cases vs with
    | nil => cases hw
    | cons v vs =>
      have hv : v = [] := by simpa using hhead
      rcases List.mem_cons.1 hw with rfl | hw
      · exact hv
      · exact (List.pairwise_cons.1 hpair).1 w hw hv
  obtain ⟨k, hk⟩ := hdrop
  obtain ⟨j, hj⟩ := textOf_append_nils (commandLines c) k
  refine ⟨j, ?_⟩
  rw [← hj, ← htake, ← hk, List.takeWhile_append_dropWhile]
  exact (List.intercalate_splitOn '\n').symm

end Text

/-! ## Whole files -/

/-- the lines up to the first one that ends the shell -/
def upToEnd : List (List Char) → List (List Char)
  | [] => []
  | l :: ls => l :: if EndsShell l then [] else upToEnd ls

theorem upToEnd_eq_iff (ls xs : List (List Char)) : upToEnd ls = xs ↔
    ∃ rest, ls = xs ++ rest ∧ (∀ l ∈ xs.dropLast, ¬ EndsShell l) ∧ (rest = [] ∨ ∃ l ∈ xs.getLast?, EndsShell l) := by
  induction xs generalizing ls with
  | nil =>
    cases ls with
    | nil => simp [upToEnd]
    | cons l ls => simp [upToEnd]
  | cons x xs ih =>
    cases ls with
    | nil => simp [upToEnd]
    | cons l ls =>
      rw [upToEnd, List.cons.injEq]
      by_cases hl : EndsShell l
      · rw [if_pos hl]
        constructor
        · rintro ⟨rfl, rfl⟩
          exact ⟨ls, rfl, by simp, .inr (by simpa using hl)⟩
        · rintro ⟨rest, heq, halive, -⟩
          obtain ⟨rfl, rfl⟩ := List.cons.inj heq
          refine ⟨rfl, ?_⟩
          cases xs with
          | nil => rfl
          | cons y ys => exact absurd hl (halive l (by simp))
      · rw [if_neg hl, ih]
        constructor
        · rintro ⟨rfl, rest, rfl, halive, hend⟩
          refine ⟨rest, rfl, ?_, ?_⟩
          · intro y hy
            cases xs with
            | nil => cases hy
            | cons z zs =>
              rw [List.dropLast_cons_cons] at hy
              rcases List.mem_cons.1 hy with rfl | hy
              · exact hl
              · exact halive y hy
          · cases xs with
            | nil => exact .inl (by simpa using hend)
            | cons z zs => simpa using hend
        · rintro ⟨rest, heq, halive, hend⟩
          obtain ⟨rfl, rfl⟩ := List.cons.inj heq
          refine ⟨rfl, rest, rfl, ?_, ?_⟩
          · intro y hy
            cases xs with
            | nil => cases hy
            | cons z zs => exact halive y (by rw [List.dropLast_cons_cons]; exact List.mem_cons_of_mem _ hy)
          · cases xs with
            | nil => exact .inl (hend.resolve_right (by simpa using hl))
            | cons z zs => simpa using hend

/-- what the block of a file holds up to the first NUL, when `h` follows it in the memory -/
def blockText (c h : List Char) : List Char := if c.length < bufferSize then c else c.take bufferSize ++ h

theorem batchText_eq {c : List Char} (env : Env Dir) (h : nul ∉ c) :
    batchText env c = blockText c (env.heap.takeWhile (· != nul)) := by
  unfold blockText
  split_ifs with hc
  · exact batchBuffer_short env h hc
  · have hzero : bufferSize - c.length = 0 := by omega
    have htake : nul ∉ c.take bufferSize := fun hn => h (List.mem_of_mem_take hn)
    rw [batchText, batchBuffer, hzero, List.replicate_zero, List.append_nil, str, List.drop_zero,
      List.takeWhile_append_of_pos (ne_of_notMem htake)]
    congr 1
    by_cases hn : nul ∈ env.heap
    · obtain ⟨a, b, hab, ha⟩ := List.eq_append_cons_of_mem hn
      rw [hab, List.append_assoc, List.cons_append, takeWhile_cut ha, takeWhile_cut ha]
    · rw [takeWhile_whole hn, takeWhile_cut hn]

/-- the strings that are passed are the commands of the file `c`, whatever follows the block -/
def PassesAll (c : List Char) : Prop :=
  ∀ (Dir : Type) (env : Env Dir) (name : List Char) (s : Process Dir), s.running = true →
    env.contents s.cwd name = some c → lowestFree s.fds < env.limit → passedStrings env (some name) s = commandLines c

theorem passesAll_iff_text {c : List Char} (hc : nul ∉ c) :
    PassesAll c ↔ ∀ h, nul ∉ h → passed bufferSize (blockText c h) = commandLines c := by
  constructor
  · intro hpass h hh
    have hrun := hpass Unit ⟨fun _ _ => none, fun _ _ => some c, lowestFree ∅ + 1, (0, 0), h⟩ [] ⟨(), true, ∅, 0⟩ rfl rfl
      (Nat.lt_succ_self _)
    rwa [passedStrings_spec rfl rfl (Nat.lt_succ_self _), batchText_eq _ hc, takeWhile_whole hh] at hrun
  · intro hall Dir env name s hs hcontents hfd
    rw [passedStrings_spec hs hcontents hfd, batchText_eq _ hc]
    apply hall
    intro hn
    simpa using List.mem_takeWhile_imp hn

/-- no quote stands in a line behind one whose removal of quotes goes on behind it -/
def Unspilt (ls : List (List Char)) : Prop := ls.Pairwise fun a b => Spills a → '"' ∉ b

/-- when a file is executed as a whole: its commands are not interrupted by an empty line, none of them but the last ends
the shell, none of them is cut by a lone quote, and they fit the block with a newline and an empty line behind them (or the
last one ends the shell) -/
structure Whole (c : List Char) : Prop where
  contiguous : Contiguous c
  survived : ∀ l ∈ (commandLines c).dropLast, ¬ EndsShell l
  unspilt : Unspilt (commandLines c)
  room : c.length < bufferSize ∨ (textOf (commandLines c)).length + 2 ≤ bufferSize ∨
    (textOf (commandLines c)).length + 1 = bufferSize ∧ ∃ l ∈ (commandLines c).getLast?, EndsShell l

section Whole

variable {c t w : List Char} {ls : List (List Char)}

/-- what may stand behind the lines `ls`: nothing, or a newline and an empty line, unless the last of them ends the shell -/
def Closes (ls : List (List Char)) (r : List Char) : Prop :=
  r = [] ∨ ∃ r', r = '\n' :: r' ∧ ((∀ c ∈ r'.head?, c = '\n') ∨ ∃ l ∈ ls.getLast?, EndsShell l)

/-- a text that is cut behind the lines -/
theorem Closes.cut {r : List Char} (h : Closes ls r) : Closes ls (r.takeWhile (· != '"')) := by
  rcases h with rfl | ⟨r', rfl, h⟩
  · exact .inl rfl
  · refine .inr ⟨r'.takeWhile (· != '"'), rfl, h.imp (fun hr c hc => hr c ?_) id⟩
    cases r' with
    | nil => cases hc
    | cons x xs =>
      rw [List.takeWhile_cons] at hc
      split_ifs at hc
      · exact hc
      · cases hc

theorem passed_closed {r : List Char} (n : ℕ) (h : ∀ c ∈ r.head?, c = '\n') : passed n r = [] := by
  cases r with
  | nil => exact passed_nil n
  | cons x r =>
    obtain rfl := h x rfl
    exact passed_newline n r

theorem notMem_textOf {c : Char} (hc : c ≠ '\n') (h : ∀ w ∈ ls, c ∉ w) : c ∉ textOf ls := by
  induction ls with
  | nil => exact List.not_mem_nil
  | cons w ls ih =>
    have hw := h w List.mem_cons_self
    have hrest := ih fun v hv => h v (List.mem_cons_of_mem _ hv)
    by_cases hls : ls = []
    · rwa [hls, textOf_singleton]
    · rw [textOf_cons w hls]
      simp [hw, hc, hrest]

/-- **Lines that are passed.** -/
theorem passed_textOf {r : List Char} {n : ℕ} (hlines : ∀ w ∈ ls, IsLine w) (hend : ∀ l ∈ ls.dropLast, ¬ EndsShell l)
    (hun : Unspilt ls) (hn : ls.length ≤ n) (hr : Closes ls r) : passed n (textOf ls ++ r) = ls := by
  induction ls generalizing n r with
  | nil =>
    rcases hr with rfl | ⟨r', rfl, -⟩
    · exact passed_nil n
    · exact passed_newline n r'
  | cons w ls ih =>
    obtain ⟨n, rfl⟩ : ∃ k, n = k + 1 := Nat.exists_eq_succ_of_ne_zero (by
      rw [List.length_cons] at hn
      omega)
    have hw := hlines w List.mem_cons_self
    obtain ⟨hhead, htail⟩ := List.pairwise_cons.1 hun
    by_cases hls : ls = []
    · subst hls
      rw [textOf_singleton]
      rcases hr with rfl | ⟨r', rfl, hr⟩
      · rw [List.append_nil, passed_whole n hw.1 hw.2]
      · rw [passed_cut n r' hw.1 hw.2]
        by_cases hew : EndsShell w
        · rw [if_pos hew]
        · have hhead' := hr.resolve_right (by simpa using hew)
          have hcloses : Closes [] ('\n' :: r') := .inr ⟨r', rfl, .inl hhead'⟩
          have hcut := hcloses.cut
          rw [if_neg hew, passed_closed]
          unfold textBehind
          split_ifs
          · rcases hcut with hcut | ⟨x, hx, hx'⟩
            · cases hcut
            · obtain rfl := (List.cons.inj hx).2
              exact hx'.resolve_right (by simp)
          · exact hhead'
    · have hdrop : (w :: ls).dropLast = w :: ls.dropLast := by
        obtain ⟨v, vs, rfl⟩ := List.exists_cons_of_ne_nil hls
        rfl
      rw [hdrop] at hend
      have hnext {r : List Char} (hr : Closes (w :: ls) r) : Closes ls r := by
        obtain ⟨v, vs, rfl⟩ := List.exists_cons_of_ne_nil hls
        exact hr
      rw [textOf_cons w hls, List.append_assoc, List.cons_append, passed_cut n _ hw.1 hw.2,
        if_neg (hend w List.mem_cons_self)]
      have hrest {r : List Char} (hr : Closes (w :: ls) r) : passed n (textOf ls ++ r) = ls :=
        ih (fun v hv => hlines v (List.mem_cons_of_mem _ hv)) (fun v hv => hend v (List.mem_cons_of_mem _ hv)) htail
          (Nat.le_of_succ_le_succ hn) (hnext hr)
      unfold textBehind
      split_ifs with hspills
      · have hquotes : '"' ∉ textOf ls := notMem_textOf (by decide) fun v hv => hhead v hv hspills
        rw [List.takeWhile_append_of_pos (ne_of_notMem hquotes), hrest hr.cut]
      · rw [hrest hr]

theorem count_textBehind (w t : List Char) : (textBehind w t).count '"' ≤ t.count '"' := by
  unfold textBehind
  split_ifs
  · exact (List.takeWhile_sublist _).count_le _
  · exact le_rfl

/-- a text is a line, or it is cut at its first newline -/
theorem line_cases (t : List Char) : '\n' ∉ t ∨ ∃ w t', t = w ++ '\n' :: t' ∧ '\n' ∉ w := by
  by_cases h : '\n' ∈ t
  · exact .inr (List.eq_append_cons_of_mem h)
  · exact .inl h

theorem passed_count (n : ℕ) (t : List Char) : (passed n t).flatten.count '"' ≤ t.count '"' := by
  induction n generalizing t with
  | zero => exact Nat.zero_le _
  | succ n ih =>
    rcases line_cases t with hn | ⟨w, t', rfl, hn⟩
    · by_cases ht : t = []
      · subst ht
        exact Nat.zero_le _
      · rw [passed_whole n ht hn, List.flatten_singleton]
    · by_cases hw : w = []
      · subst hw
        rw [List.nil_append, passed_newline]
        exact Nat.zero_le _
      · have hrest := (ih (textBehind w t')).trans (count_textBehind w t')
        rw [passed_cut n t' hw hn, List.flatten_cons, List.count_append, List.count_append,
          List.count_cons_of_ne (by decide)]
        split_ifs
        · simp
        · omega

/-- no quote is lost when all of them are passed -/
theorem unspilt_of_passed (n : ℕ) (h : t.count '"' ≤ (passed n t).flatten.count '"') :
    Unspilt (passed n t) ∧ upToEnd ((batchLines t).take n) = passed n t := by
  induction n generalizing t with
  | zero => exact ⟨.nil, rfl⟩
  | succ n ih =>
    rcases line_cases t with hn | ⟨w, t', rfl, hn⟩
    · by_cases ht : t = []
      · subst ht
        exact ⟨.nil, rfl⟩
      · rw [passed_whole n ht hn, batchLines_whole ht hn]
        exact ⟨List.pairwise_singleton _ _, by simp [upToEnd]⟩
    · by_cases hw : w = []
      · subst hw
        rw [List.nil_append, passed_newline, batchLines_empty]
        exact ⟨.nil, rfl⟩
      · rw [passed_cut n t' hw hn] at h ⊢
        rw [batchLines_cut hw hn, List.take_succ_cons, upToEnd]
        by_cases hend : EndsShell w
        · rw [if_pos hend, if_pos hend]
          exact ⟨List.pairwise_singleton _ _, rfl⟩
        rw [if_neg hend] at h ⊢
        rw [if_neg hend]
        rw [List.flatten_cons, List.count_append, List.count_append, List.count_cons_of_ne (by decide)] at h
        have hpassed := passed_count n (textBehind w t')
        -- behind a line that goes on there is no quote at all
        have hnone (hspills : Spills w) : '"' ∉ t' := by
          have hzero : (textBehind w t').count '"' = 0 := by
            rw [textBehind, if_pos hspills, List.count_eq_zero]
            intro hmem
            simpa using List.mem_takeWhile_imp hmem
          rw [← List.count_eq_zero]
          omega
        have hbehind : textBehind w t' = t' := by
          unfold textBehind
          split_ifs with hspills
          · exact takeWhile_whole (hnone hspills)
          · rfl
        rw [hbehind] at h hpassed ⊢
        obtain ⟨hun, hlines⟩ := ih (t := t') (by omega)
        refine ⟨List.pairwise_cons.2 ⟨fun b hb hspills hmem => ?_, hun⟩, by rw [hlines]⟩
        have hcount : (passed n t').flatten.count '"' = 0 := by
          rw [List.count_eq_zero.2 (hnone hspills)] at hpassed
          omega
        exact List.count_eq_zero.1 hcount (List.mem_flatten.2 ⟨b, hb, hmem⟩)

/-- all quotes of a file are in its commands -/
theorem count_commandLines (c : List Char) : (commandLines c).flatten.count '"' = c.count '"' := by
  induction c using linesInduction with
  | whole w hw =>
    rw [commandLines, List.splitOn_eq_singleton hw]
    by_cases hne : w = []
    · subst hne
      rfl
    · rw [List.filter_cons_of_pos (by simpa using hne), List.filter_nil, List.flatten_singleton]
  | cut w t hw ih =>
    rw [commandLines] at ih ⊢
    rw [List.splitOn_append_cons_self_of_not_mem hw, List.count_append, List.count_cons_of_ne (by decide), ← ih]
    by_cases hne : w = []
    · subst hne
      rw [List.filter_cons_of_neg (by simp), List.count_nil, Nat.zero_add]
    · rw [List.filter_cons_of_pos (by simpa using hne), List.flatten_cons, List.count_append]

/-- the block of a long file whose commands fit it -/
theorem take_block {t : List Char} {j : ℕ} (hlen : bufferSize ≤ (t ++ List.replicate j '\n').length)
    (ht : t.length ≤ bufferSize) :
    (t ++ List.replicate j '\n').take bufferSize = t ++ List.replicate (bufferSize - t.length) '\n' := by
  rw [List.length_append, List.length_replicate] at hlen
  rw [List.take_append, List.take_of_length_le ht, List.take_replicate, min_eq_left (by omega)]

theorem Whole.passes (hw : Whole c) (h : List Char) : passed bufferSize (blockText c h) = commandLines c := by
  have hlines : ∀ v ∈ commandLines c, IsLine v := fun v hv => commandLines_isLine hv
  have hcount := length_le_textOf hlines
  obtain ⟨j, hj⟩ := hw.contiguous.shape
  have hlength := congrArg List.length hj
  rw [List.length_append] at hlength
  by_cases hshort : c.length < bufferSize
  · rw [blockText, if_pos hshort]
    conv_lhs => rw [hj]
    refine passed_textOf hlines hw.survived hw.unspilt (by omega) ?_
    cases j with
    | zero => exact .inl rfl
    | succ j =>
      refine .inr ⟨List.replicate j '\n', rfl, .inl fun x hx => ?_⟩
      exact List.eq_of_mem_replicate (List.mem_of_mem_head? hx)
  have htake {k : ℕ} (hk : (textOf (commandLines c)).length + k = bufferSize) :
      c.take bufferSize = textOf (commandLines c) ++ List.replicate k '\n' := by
    rw [hj, List.length_append, not_lt, ← List.length_append] at hshort
    calc c.take bufferSize = (textOf (commandLines c) ++ List.replicate j '\n').take bufferSize := by rw [← hj]
      _ = textOf (commandLines c) ++ List.replicate (bufferSize - (textOf (commandLines c)).length) '\n' :=
        take_block hshort (by omega)
      _ = textOf (commandLines c) ++ List.replicate k '\n' := by rw [← hk, Nat.add_sub_cancel_left]
  rw [blockText, if_neg hshort]
  rcases hw.room with hlt | hfit | ⟨hfull, hend⟩
  · exact absurd hlt hshort
  · -- an empty line is in the block
    obtain ⟨k, hk⟩ := Nat.exists_eq_add_of_le hfit
    rw [htake (k := k + 2) (by omega), List.append_assoc]
    refine passed_textOf hlines hw.survived hw.unspilt (by omega) (.inr ⟨'\n' :: (List.replicate k '\n' ++ h), rfl, .inl ?_⟩)
    simp
  · -- the block ends with the newline of the last command
    rw [htake hfull, List.append_assoc]
    exact passed_textOf hlines hw.survived hw.unspilt (by omega) (.inr ⟨h, rfl, .inr hend⟩)

theorem Whole.of_lines (hun : Unspilt (commandLines c))
    (hall : ∀ h, '"' ∉ h → nul ∉ h → upToEnd ((batchLines (blockText c h)).take bufferSize) = commandLines c) :
    Whole c := by
  have hcount := length_le_textOf fun v hv => commandLines_isLine (c := c) hv
  have hstart (h : List Char) (hq : '"' ∉ h) (hh : nul ∉ h) : commandLines c <+: batchLines (blockText c h) := by
    obtain ⟨rest, hrest, -⟩ := (upToEnd_eq_iff _ _).1 (hall h hq hh)
    exact (hrest ▸ List.prefix_append _ _ : commandLines c <+: (batchLines (blockText c h)).take bufferSize).trans
      (List.take_prefix _ _)
  have hcontiguous : Contiguous c := by
    rw [contiguous_iff]
    have hsub : (batchLines c).Sublist (commandLines c) := by
      have hfilter : batchLines c = (batchLines c).filter (· ≠ []) :=
        (List.filter_eq_self.2 fun v hv => List.mem_takeWhile_imp (hv : v ∈ (c.splitOn '\n').takeWhile (· ≠ []))).symm
      rw [hfilter]
      exact (List.takeWhile_sublist _).filter _
    apply hsub.eq_of_length_le
    have hle := (hstart [] List.not_mem_nil List.not_mem_nil).length_le
    unfold blockText at hle
    split_ifs at hle
    · exact hle
    · rw [List.append_nil] at hle
      have hmono := batchLines_length_mono (c.take bufferSize) (c.drop bufferSize)
      rw [List.take_append_drop] at hmono
      exact hle.trans hmono
  obtain ⟨j, hj⟩ := hcontiguous.shape
  refine ⟨hcontiguous, ?_, hun, ?_⟩
  · obtain ⟨rest, -, halive, -⟩ := (upToEnd_eq_iff _ _).1 (hall [] List.not_mem_nil List.not_mem_nil)
    exact halive
  by_contra hroom
  rw [not_or, not_or, not_lt, not_le] at hroom
  obtain ⟨hlong, hfit, hfull⟩ := hroom
  have hne : commandLines c ≠ [] := by
    intro hnil
    rw [hnil] at hfit
    exact absurd hfit (by decide)
  have hblock (h : List Char) : blockText c h = c.take bufferSize ++ h := if_neg (not_lt.2 hlong)
  rcases Nat.lt_trichotomy (textOf (commandLines c)).length bufferSize with hlt | heq | hgt
  · -- the line behind the block is executed as well
    have hone : (textOf (commandLines c)).length + 1 = bufferSize := by omega
    have htake : c.take bufferSize = textOf (commandLines c) ++ ['\n'] := by
      rw [hj] at hlong
      calc c.take bufferSize = (textOf (commandLines c) ++ List.replicate j '\n').take bufferSize := by rw [← hj]
        _ = textOf (commandLines c) ++ List.replicate (bufferSize - (textOf (commandLines c)).length) '\n' :=
          take_block hlong hlt.le
        _ = textOf (commandLines c) ++ ['\n'] := by rw [← hone, Nat.add_sub_cancel_left]; rfl
    have hrun := hall ['x'] (by decide) (by decide)
    have hx : batchLines ['x'] = [['x']] := batchLines_whole (by decide) (by decide)
    rw [hblock, htake, List.append_assoc] at hrun
    change upToEnd ((batchLines (textOf (commandLines c) ++ '\n' :: ['x'])).take bufferSize) = _ at hrun
    rw [batchLines_newline (fun v hv => commandLines_isLine hv) _ hne, hx,
      List.take_of_length_le (by rw [List.length_append, List.length_singleton]; omega), upToEnd_eq_iff] at hrun
    obtain ⟨rest, hrest, -, hend⟩ := hrun
    obtain rfl := List.append_cancel_left hrest
    exact hfull ⟨hone, hend.resolve_left (by simp)⟩
  · -- the last line goes on behind the block
    have htake : c.take bufferSize = textOf (commandLines c) := by
      conv_lhs => rw [hj]
      rw [← heq, List.take_left']
      rfl
    obtain ⟨r, hr, hhead⟩ := batchLines_prefix (hstart ['x'] (by decide) (by decide)) hne
    rw [hblock, htake] at hr
    obtain rfl := List.append_cancel_left hr
    exact absurd (hhead 'x' rfl) (by decide)
  · -- the last lines do not fit the block
    obtain ⟨r, hr, -⟩ := batchLines_prefix (hstart [] List.not_mem_nil List.not_mem_nil) hne
    rw [hblock, List.append_nil] at hr
    have hle := congrArg List.length hr
    rw [List.length_append, List.length_take] at hle
    omega

theorem Whole.of_passes (hall : ∀ h, nul ∉ h → passed bufferSize (blockText c h) = commandLines c) : Whole c := by
  have hlost {h : List Char} (hq : '"' ∉ h) (hh : nul ∉ h) :
      (blockText c h).count '"' ≤ (passed bufferSize (blockText c h)).flatten.count '"' := by
    rw [hall h hh, count_commandLines]
    unfold blockText
    split_ifs
    · exact le_rfl
    · rw [List.count_append, List.count_eq_zero.2 hq, Nat.add_zero]
      exact (List.take_sublist _ _).count_le _
  refine .of_lines ?_ fun h hq hh => ?_
  · rw [← hall [] List.not_mem_nil]
    exact (unspilt_of_passed _ (hlost List.not_mem_nil List.not_mem_nil)).1
  · rw [(unspilt_of_passed _ (hlost hq hh)).2, hall h hh]

/-- **Batch files.** For every file without NUL. -/
theorem passesAll_iff (hc : nul ∉ c) : PassesAll c ↔ Whole c := by
  rw [passesAll_iff_text hc]
  constructor
  · exact Whole.of_passes
  · exact fun hw h _ => hw.passes h

end Whole

theorem passesAll_iff_example : PassesAll "ls -l\npwd\n\n".toList :=
  (passesAll_iff (by decide)).2 ⟨by unfold Contiguous; decide, by decide, by unfold Unspilt; decide, .inl (by decide)⟩

/-- the loop stops at the empty line -/
theorem blank_line : ¬ PassesAll "ls\n\npwd\n".toList := by
  intro h
  have hcontiguous := (Whole.of_passes ((passesAll_iff_text (by decide)).1 h)).contiguous
  exact absurd hcontiguous (by unfold Contiguous; decide)

end DecsLabs.Shell
