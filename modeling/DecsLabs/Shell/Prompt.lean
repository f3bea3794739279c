/-
What a line does to the shell process, in terms of the text of the line. Nothing is left of the buffer that the tokens
share: a lone quote may change the texts behind it, but not what the line itself does to the shell.

- `commandEffect`, `lineEffect`, `mainEffect`: the effect of a text.
- `runCommand_spec`, `runLine_spec`: the shell has this effect, and the other strings of the buffer are still there.
- `batchLoop_last`: the last line of a batch file.
- `mainLine_spec`: every line.
-/
import DecsLabs.Shell.Process
import DecsLabs.Shell.Starts

namespace DecsLabs.Shell

open DecsLabs.CString

variable {Dir : Type} {env : Env Dir} {m : Mem} {p : ℕ} {l : List Char} {r : List Cell} {s : Process Dir}

/-! ## Effects -/

/-- the effect of the built-in command of a stage -/
def builtinEffect (env : Env Dir) (a : List Char) (s : Process Dir) : Process Dir :=
  act env s (builtinEvent 0 ((commandWords a).map opened))

/-- `pipe`, and a fork for the first stage, or for both -/
def pipeEffect (env : Env Dir) (both : Prop) [Decidable both] (s : Process Dir) : Process Dir :=
  let (fdpipes, s) := s.pipe env
  let s := s.fork.wait.close fdpipes.2
  if both then s.fork.wait.close fdpipes.1 else s

/-- a text that is passed to `executeCommand` -/
def commandEffect (env : Env Dir) (l : List Char) (s : Process Dir) : Process Dir :=
  match stages l with
  | [] => s.exit
  | [a] =>
    if Blank a then s.exit
    else if commandWords a = [] then s
    else if Builtin a then builtinEffect env a s
    else s.fork.wait
  | a :: b :: _ =>
    if Blank a ∨ Blank b then s.exit
    else if commandWords a = [] ∨ commandWords b = [] then s
    else if Builtin a then builtinEffect env a s
    else pipeEffect env ((cut a).output = none) s

/-- the text that the shell executes itself, unless the line has two parts -/
def directText (l : List Char) : Option (List Char) :=
  match pieces ';' l with
  | [] => some l
  | [w] => some (l.takeWhile (· == ';') ++ w)
  | _ => none

def lineEffect (env : Env Dir) (l : List Char) (s : Process Dir) : Process Dir :=
  match directText l with
  | none => s.fork.fork.wait.wait
  | some c => commandEffect env c s

/-- a line that is typed at the prompt -/
def mainEffect (env : Env Dir) (l : List Char) (s : Process Dir) : Option (Process Dir) :=
  match words l with
  | [] => some s
  | w :: ws =>
    if w = "exit".toList ∨ w = "\"exit\"".toList then some s.exit
    else if w = "executeCommands".toList then if ws.length < 4 then some (runBatch env ws.head? s) else none
    else some (lineEffect env l s)

/-! ## Commands -/

theorem isPiped_iff (h : Held m.buf ((p, l) :: r)) : isPiped m p = decide (2 ≤ (placed '|' p l).length) := by
  obtain ⟨x, y, m', m'', h1, h2, hx, hy, -, -⟩ := strtok_two h '|'
  match hp : placed '|' p l with
  | [] =>
    obtain rfl : x = none := by simpa [hp] using hx
    simp [isPiped, h1]
  | [c] =>
    obtain rfl : x = some c := by simpa [hp] using hx
    obtain rfl : y = none := by simpa [hp] using hy
    rw [Option.map_some] at h1
    simp [isPiped, h1, h2]
  | c :: d :: _ =>
    obtain rfl : x = some c := by simpa [hp] using hx
    obtain rfl : y = some d := by simpa [hp] using hy
    rw [Option.map_some] at h1
    simp [isPiped, h1, h2]

theorem act_builtin (stage : ℕ) (a : List Char) (s : Process Dir) :
    act env s (builtinEvent stage ((commandWords a).map opened)) = builtinEffect env a s := by
  unfold builtinEffect builtinEvent
  split_ifs <;> rfl

/-- **A command.** -/
theorem runCommand_spec (env : Env Dir) (s : Process Dir) (h : Held m.buf ((p, l) :: r)) :
    ∃ m', runCommand env m p s = (commandEffect env l s, m') ∧ Rests m'.buf r := by
  have hpiped := isPiped_iff h
  have hrest : Rests m.buf r := .of_held (h.sublist (List.sublist_cons_self _ _))
  rcases executeCommandWith_frame removeQuotesOn h with
    ⟨hp, hrun⟩ | ⟨a, q, m', hp, hrun, hheld⟩ | ⟨a, b, r', q1, q2, m', hp, hrun, hheld⟩
  · have hst : stages l = [] := by rw [stages, ← placed_snd _ p, hp]; rfl
    exact ⟨m, by rw [runCommand, hrun, commandEffect, hst], hrest⟩
  · have hst : stages l = [a] := by rw [stages, ← placed_snd _ p, hp]; rfl
    have hone : isPiped m p = false := by rw [hpiped, hp]; rfl
    unfold runCommand commandEffect
    rw [hrun, hst, hone]
    by_cases hb : Blank a
    · refine ⟨m, ?_, hrest⟩
      rw [executeOneWith_blank _ hheld hb]
      simp only [hb, if_true]
    by_cases hw : commandWords a = []
    · obtain ⟨m'', hok, hr⟩ := executeOneWith_report removeQuotesOn hheld hb hw
      refine ⟨m'', ?_, hr⟩
      rw [hok]
      simp [hb, hw, act]
    obtain ⟨e, m'', hok, he, hr⟩ := executeOneOn_event hheld hb hw
    refine ⟨m'', ?_, hr⟩
    rw [hok]
    cases he with
    | builtin hbuiltin => simp [hb, hw, hbuiltin, act_builtin]
    | program hbuiltin => simp [hb, hw, hbuiltin, act]
  · have hst : stages l = [a, b] := by rw [stages, ← placed_snd _ p, hp]; rfl
    have htwo : isPiped m p = true := by rw [hpiped, hp]; simp
    unfold runCommand commandEffect
    rw [hrun, hst, htwo]
    by_cases hb : Blank a ∨ Blank b
    · refine ⟨m, ?_, hrest⟩
      rw [executeTwoWith_blank _ hheld hb]
      simp only [hb, if_true]
    obtain ⟨hb1, hb2⟩ := not_or.1 hb
    by_cases hw : commandWords a = [] ∨ commandWords b = []
    · obtain ⟨m'', hok, hr⟩ := executeTwoWith_report removeQuotesOn hheld hb1 hb2 hw
      refine ⟨m'', ?_, hr⟩
      rw [hok]
      simp [hb, hw, act, actTwo]
    obtain ⟨hw1, hw2⟩ := not_or.1 hw
    obtain ⟨es, m'', hok, he, hr⟩ := executeTwoOn_events hheld (placed_two hp) hb1 hb2 hw1 hw2
    refine ⟨m'', ?_, hr⟩
    rw [hok]
    cases he with
    | builtin hbuiltin =>
      have hact : actTwo env s [builtinEvent q1 ((commandWords a).map opened)] = builtinEffect env a s := by
        rw [← act_builtin q1]
        unfold builtinEvent
        split_ifs <;> rfl
      simp [hb, hw, hbuiltin, hact]
    | output hbuiltin ho => simp [hb, hw, hbuiltin, ho, actTwo, pipeEffect]
    | both hbuiltin ho => simp [hb, hw, hbuiltin, ho, actTwo, pipeEffect]

/-! ## Lines -/

/-- a part that is alone on its line: what `strtok` leaves from the start of the line -/
theorem takeWhile_semicolons {u w t : List Char} (hu : ∀ c ∈ u, c = ';') (hw : w ≠ []) (hd : ';' ∉ w) :
    (u ++ w ++ t).takeWhile (· == ';') = u := by
  rw [List.append_assoc, List.takeWhile_append_of_pos (by simpa using hu), skip_none hw hd, List.append_nil]

theorem inside_prefix {u w t : List Char} : Inside (p, u ++ w) (p, u ++ w ++ t) :=
  ⟨le_rfl, by simp⟩

/-- **A line.** -/
theorem runLine_spec (env : Env Dir) (s : Process Dir) (h : Held m.buf ((p, l) :: r)) :
    ∃ m', runLine env m p s = (lineEffect env l s, m') ∧ Rests m'.buf r := by
  obtain ⟨x, y, m', m'', h1, h2, hx, hy, hheld, -⟩ := strtok_two h ';'
  match hp : placed ';' p l with
  | [] =>
    have hd : directText l = some l := by rw [directText, placed_eq_nil_iff.1 hp]
    rcases strtok_cases h ';' with ⟨-, m1, h1', hb, -⟩ | ⟨_, _, _, _, _, -, hp', -⟩
    · have hline : runLine env m p s = runCommand env m1 p s := by simp [runLine, commaChecker, h1']
      rw [hline, lineEffect, hd]
      exact runCommand_spec env s (hb ▸ h)
    · rw [hp] at hp'
      cases hp'
  | [c] =>
    obtain rfl : x = some c := by simpa [hp] using hx
    obtain rfl : y = none := by simpa [hp] using hy
    obtain ⟨u, t, rfl, hq, hu, ht⟩ := placed_single hp
    have hpieces : pieces ';' (u ++ c.2 ++ t) = [c.2] := by rw [← placed_snd ';' p, hp]; rfl
    obtain ⟨hw, hd, -⟩ := piece_spec (hpieces ▸ List.mem_singleton_self c.2 : c.2 ∈ pieces ';' (u ++ c.2 ++ t))
    obtain ⟨m1, m2, h1', h2', hhold⟩ := strtok_keeps h.head hu hw hd ht
    rw [h1'] at h1
    obtain rfl : m1 = m' := congrArg Prod.snd h1
    rw [h2'] at h2
    obtain rfl : m2 = m'' := congrArg Prod.snd h2
    have hdirect : directText (u ++ c.2 ++ t) = some (u ++ c.2) := by
      rw [directText, hpieces]
      exact congrArg (fun v => some (v ++ c.2)) (takeWhile_semicolons hu hw hd)
    have hline : runLine env m p s = runCommand env m2 p s := by simp [runLine, commaChecker, h1', h2']
    have hheld' : Held m2.buf ((p, u ++ c.2) :: r) := by
      refine ⟨?_, ?_⟩
      · intro z hz
        rcases List.mem_cons.1 hz with rfl | hz
        · exact hhold
        · exact hheld.holds z (by simp [hz])
      · obtain ⟨hp1, hp2⟩ := List.pairwise_cons.1 h.apart
        refine List.pairwise_cons.2 ⟨fun z hz => ?_, hp2⟩
        have hin : Inside (p, u ++ c.2) (p, u ++ c.2 ++ t) := inside_prefix
        have hap := hp1 z hz
        unfold Apart Inside at *
        omega
    rw [hline, lineEffect, hdirect]
    exact runCommand_spec env s hheld'
  | c :: d :: r' =>
    obtain rfl : x = some c := by simpa [hp] using hx
    obtain rfl : y = some d := by simpa [hp] using hy
    rw [Option.map_some] at h1 h2
    have hdirect : directText l = none := by rw [directText, ← placed_snd ';' p, hp]; rfl
    refine ⟨m'', ?_, .of_held (hheld.sublist (by simp))⟩
    rw [lineEffect, hdirect]
    simp [runLine, commaChecker, h1, h2]

/-! ## Batch files -/

theorem batchLoop_none (n : ℕ) : batchLoop env n none m s = s := by
  cases n <;> rfl

/-- the last line of a batch file -/
theorem batchLoop_last (n : ℕ) (h : Held m.buf ((p, l) :: r)) (hl : l ≠ []) (hn : '\n' ∉ l) :
    batchLoop env (n + 1) (some p) m s = lineEffect env l s := by
  rcases strsep_cases h '\n' with ⟨-, hsep⟩ | ⟨w, t', m', rfl, -⟩
  · obtain ⟨m', hrun, -⟩ := runLine_spec env s h
    rw [batchLoop, hsep]
    simp only [h.head.strlen_eq, List.length_eq_zero_iff, hl, if_false, hrun, batchLoop_none, ite_self]
  · simp at hn

theorem batchBuffer_held (env : Env Dir) (c : List Char) :
    Held (⟨batchBuffer env c, 0⟩ : Mem).buf [(0, str (batchBuffer env c) 0)] := by
  have hmem : nul ∈ batchBuffer env c := by simp [batchBuffer]
  exact ⟨by simpa using Holds.of_mem hmem, by simp⟩

/-- a text that fits the buffer -/
theorem batchBuffer_short {c : List Char} (env : Env Dir) (h : nul ∉ c) (hc : c.length < bufferSize) :
    str (batchBuffer env c) 0 = c := by
  obtain ⟨k, hk⟩ : ∃ k, bufferSize - c.length = k + 1 := ⟨bufferSize - c.length - 1, by omega⟩
  rw [batchBuffer, List.take_of_length_le hc.le, hk, List.replicate_succ, List.append_assoc, List.cons_append]
  exact takeWhile_cut h

/-- **The name of a batch file.** The second word, when there are at most four. -/
theorem batchName_spec {w : List Char} {ws : List (List Char)} (h : nul ∉ l) (hw : words l = w :: ws) :
    batchName l = if ws.length < 4 then some ws.head? else none := by
  have hstart : Held (⟨l ++ [nul], 0⟩ : Mem).buf ((some (0, l)).toList ++ []) := Held.alone h
  obtain ⟨toks, t, m', hrun, hshow, htoks, hheld⟩ := removeSpacesAndCreateTokens_spec hstart
  simp only [Option.map_some, Option.getD_some, hw] at hrun htoks
  have hname : batchName l = if (t 5).isSome then none else (t 1).map fun a => a.map (str m'.buf) := by
    simp only [batchName, tokenizeCommandsAndArguments, hrun, fileRemoveSpacesAndCreateTokens, bind, Except.bind, pure,
      Except.pure]
  rw [hname]
  have hcount := congrArg List.length htoks
  simp only [List.length_map, List.length_take, List.length_cons] at hcount
  by_cases hlen : ws.length < 4
  · rw [List.take_of_length_le (by simp only [List.length_cons]; omega)] at htoks
    obtain ⟨c, cs, rfl⟩ : ∃ c cs, toks = c :: cs := List.exists_cons_of_ne_nil (by rintro rfl; cases htoks)
    have hnone : t 5 = none := by
      obtain ⟨j, -, -, htok, hafter, -⟩ := removeSpacesLoop_slots hrun
      refine hafter 5 (lt_of_not_ge fun hj => ?_)
      have hnull := hshow.null (by omega)
      obtain ⟨a, ha⟩ := htok (c :: cs).length (Nat.zero_le _) (by omega)
      rw [hnull] at ha
      cases ha
    have hone : t 1 = some (cs.head?.map Prod.fst) := by
      have hread := hshow.read_one
      unfold Slots.read at hread
      cases ht : t 1 with
      | none => simp [ht] at hread
      | some a => simpa [ht] using hread
    have hhead : (cs.head?.map Prod.fst).map (str m'.buf) = ws.head? := by
      rw [List.map_cons, List.cons.injEq] at htoks
      rw [← htoks.2, List.head?_map]
      cases cs with
      | nil => rfl
      | cons d cs => simp [(hheld.holds d (by simp)).str_eq]
    rw [hnone, hone, if_pos hlen, Option.map_some, hhead]
    rfl
  · have hsome : (t 5).isSome := by
      rcases Nat.lt_or_ge 5 toks.length with hlt | hge
      · rw [hshow.ptr 5 toks[5] (List.getElem?_eq_getElem hlt)]
        rfl
      · have hnull := hshow.null (by omega)
        rw [show toks.length = 5 by omega] at hnull
        rw [hnull]
        rfl
    rw [if_pos hsome, if_neg hlen]

theorem close_open {fd : ℕ} (h : fd ∉ s.fds) : ({ s with fds := insert fd s.fds } : Process Dir).close fd = s := by
  ext1
  · rfl
  · rfl
  · exact Finset.erase_insert h
  · rfl

theorem lowestFree_notMem (fds : Finset ℕ) : lowestFree fds ∉ fds := Nat.find_spec (Infinite.exists_notMem_finset fds)

/-- the file is open only while it is read -/
theorem runBatch_eq (env : Env Dir) (name : Option (List Char)) (s : Process Dir) :
    runBatch env name s =
      match name.bind (env.contents s.cwd) with
      | none => s
      | some c =>
        if lowestFree s.fds < env.limit then batchLoop env bufferSize (some 0) ⟨batchBuffer env c, 0⟩ s else s := by
  unfold runBatch
  cases name.bind (env.contents s.cwd) with
  | none => rfl
  | some c =>
    simp only [Process.openFile]
    by_cases hfd : lowestFree s.fds < env.limit
    · simp only [hfd, if_true, close_open (lowestFree_notMem _)]
    · simp only [hfd, if_false]

/-! ## Main -/

theorem typed_held (env : Env Dir) (h : nul ∉ l) : Held (⟨l ++ nul :: env.heap, 0⟩ : Mem).buf [(0, l)] :=
  ⟨List.forall_mem_singleton.2 ⟨h, env.heap, by simp⟩, List.pairwise_singleton _ _⟩

/-- **A line at the prompt.** -/
theorem mainLine_spec (env : Env Dir) (s : Process Dir) (h : nul ∉ l) : mainLine env l s = mainEffect env l s := by
  have hheld : Held (⟨l ++ [nul], 0⟩ : Mem).buf [(0, l)] := Held.alone h
  unfold mainLine mainEffect
  by_cases hl : l = []
  · subst hl
    rfl
  rw [if_neg hl]
  rcases strtok_cases hheld ' ' with ⟨hp, m', htok, -⟩ | ⟨q, w, t, m', tl, htok, hp, hheld', -⟩
  · have hwords : words l = [] := placed_eq_nil_iff.1 hp
    rw [htok, hwords]
  · have hwords : words l = w :: words t := by rw [words, ← placed_snd ' ' 0, hp, List.map_cons, placed_snd]
    have hline : Held (⟨l ++ nul :: env.heap, 0⟩ : Mem).buf [(0, l)] := typed_held env h
    obtain ⟨m'', hrun, -⟩ := runLine_spec env s hline
    rw [htok, hwords]
    simp only [hheld'.head.str_eq, hrun, batchName_spec h hwords]
    split_ifs <;> simp

end DecsLabs.Shell
