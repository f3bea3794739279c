/-
The descriptors and the children of the shell. What a line opens it closes again, and every child is waited for, except
that the read end of a pipe is closed only when the second stage is forked.

- `Keeps`: which commands give back their pipe.
- `command_keeps_iff`: exactly these leave the descriptors as they were.
- `no_trace`: in every run of such lines, after every line.
- `read_end_leaks`: a line that leaves a descriptor open.
-/
import DecsLabs.Core.Transition
import DecsLabs.Shell.Prompt

namespace DecsLabs.Shell

open DecsLabs.CString DecsLabs.Transition

variable {Dir : Type} {env : Env Dir} {s t : Process Dir} {l : List Char} {fds : Finset ℕ}

/-! ## Pipes -/

/-- `pipe` finds two descriptors -/
def TwoFree (env : Env Dir) (fds : Finset ℕ) : Prop := lowestFree (insert (lowestFree fds) fds) < env.limit

instance (env : Env Dir) (fds : Finset ℕ) : Decidable (TwoFree env fds) := inferInstanceAs (Decidable (_ < _))

/-- what is closed after the forks is what the pipe has opened, or nothing that was open -/
def GivesBack (env : Env Dir) (fds : Finset ℕ) (both : Prop) : Prop :=
  if TwoFree env fds then both else env.stale.2 ∉ fds ∧ (both → env.stale.1 ∉ fds)

theorem lowestFree_le_card (fds : Finset ℕ) : lowestFree fds ≤ fds.card := by
  by_contra hlt
  push Not at hlt
  have hsub : Finset.range (fds.card + 1) ⊆ fds := by
    intro n hn
    have hn' : n < lowestFree fds := by
      rw [Finset.mem_range] at hn
      omega
    exact not_not.1 (Nat.find_min (Infinite.exists_notMem_finset fds) hn')
  have hcard := Finset.card_le_card hsub
  rw [Finset.card_range] at hcard
  omega

theorem twoFree_of_card (h : fds.card + 1 < env.limit) : TwoFree env fds := by
  have hle := lowestFree_le_card (insert (lowestFree fds) fds)
  rw [Finset.card_insert_of_notMem (lowestFree_notMem fds)] at hle
  exact lt_of_le_of_lt hle h

theorem erase_both_iff {w r : ℕ} : (fds.erase w).erase r = fds ↔ w ∉ fds ∧ r ∉ fds := by
  constructor
  · intro h
    rw [← h]
    simp
  · intro h
    rw [Finset.erase_eq_of_notMem h.1, Finset.erase_eq_of_notMem h.2]

theorem pipeEffect_fds (env : Env Dir) (both : Prop) [Decidable both] (s : Process Dir) :
    (pipeEffect env both s).fds = s.fds ↔ GivesBack env s.fds both := by
  have hr := lowestFree_notMem s.fds
  have hw := lowestFree_notMem (insert (lowestFree s.fds) s.fds)
  unfold pipeEffect Process.pipe GivesBack TwoFree
  by_cases hfree : lowestFree (insert (lowestFree s.fds) s.fds) < env.limit
  · simp only [hfree, if_true]
    by_cases hboth : both
    · simp only [hboth, if_true, Process.fork, Process.wait, Process.close, Finset.erase_insert hw,
        Finset.erase_insert hr]
    · simp only [hboth, if_false, iff_false, Process.fork, Process.wait, Process.close, Finset.erase_insert hw]
      intro h
      have hmem : lowestFree s.fds ∈ insert (lowestFree s.fds) s.fds := Finset.mem_insert_self _ _
      rw [h] at hmem
      exact hr hmem
  · simp only [hfree, if_false]
    by_cases hboth : both
    · simp only [hboth, if_true, Process.fork, Process.wait, Process.close, true_implies]
      exact erase_both_iff
    · simp only [hboth, if_false, Process.fork, Process.wait, Process.close, false_implies, and_true]
      exact Finset.erase_eq_self

theorem pipeEffect_children (env : Env Dir) (both : Prop) [Decidable both] (s : Process Dir) :
    (pipeEffect env both s).children = s.children := by
  have hpipe : (s.pipe env).2.children = s.children := by
    unfold Process.pipe
    dsimp only
    split_ifs <;> rfl
  unfold pipeEffect
  generalize s.pipe env = res at hpipe
  dsimp only
  split_ifs <;> exact hpipe

/-! ## Commands -/

/-- the files of a stage are named, and it has a command -/
structure Started (a : List Char) : Prop where
  files : ¬ Blank a
  command : commandWords a ≠ []

/-- the text is no pipe with a program in front, or it gives back the ends -/
def CommandKeeps (env : Env Dir) (fds : Finset ℕ) (l : List Char) : Prop :=
  ∀ a b, stages l = [a, b] → Started a → Started b → ¬ Builtin a → GivesBack env fds ((cut a).output = none)

theorem builtinEffect_fds (a : List Char) :
    (builtinEffect env a s).fds = s.fds ∧ (builtinEffect env a s).children = s.children := by
  unfold builtinEffect builtinEvent
  split_ifs
  · simp only [act, Process.chdir]
    split <;> exact ⟨rfl, rfl⟩
  · exact ⟨rfl, rfl⟩

/-- **A command.** Every child is waited for, and the descriptors are as before exactly for these texts. -/
theorem command_keeps_iff (env : Env Dir) (l : List Char) (s : Process Dir) :
    (commandEffect env l s).children = s.children ∧
    ((commandEffect env l s).fds = s.fds ↔ CommandKeeps env s.fds l) := by
  unfold commandEffect CommandKeeps
  match hst : stages l with
  | [] => exact ⟨rfl, iff_of_true rfl (by simp)⟩
  | [a] =>
    have hvacuous : ∀ a' b, [a] = [a', b] → Started a' → Started b → ¬ Builtin a' →
        GivesBack env s.fds ((cut a').output = none) := by simp
    simp only [iff_true_right hvacuous]
    split_ifs with hb hw hbuiltin
    · exact ⟨rfl, rfl⟩
    · exact ⟨rfl, rfl⟩
    · exact (builtinEffect_fds a).symm
    · exact ⟨rfl, rfl⟩
  | a :: b :: c =>
    have hc : c = [] := by
      have hlen := congrArg List.length hst
      simp only [stages, List.length_take, List.length_cons] at hlen
      exact List.eq_nil_of_length_eq_zero (by omega)
    subst hc
    by_cases hstart : Started a ∧ Started b ∧ ¬ Builtin a
    · obtain ⟨ha, hb, hbuiltin⟩ := hstart
      simp only [ha.files, hb.files, ha.command, hb.command, hbuiltin, or_self, if_false]
      refine ⟨pipeEffect_children env _ s, (pipeEffect_fds env _ s).trans ?_⟩
      constructor
      · intro h a' b' hab _ _ _
        cases hab
        exact h
      · intro h
        exact h a b rfl ha hb hbuiltin
    · have hvacuous : ∀ a' b', [a, b] = [a', b'] → Started a' → Started b' → ¬ Builtin a' →
          GivesBack env s.fds ((cut a').output = none) := by
        intro a' b' hab ha hb hbuiltin
        cases hab
        exact absurd ⟨ha, hb, hbuiltin⟩ hstart
      simp only [iff_true_right hvacuous]
      split_ifs with hb hw hbuiltin
      · exact ⟨rfl, rfl⟩
      · exact ⟨rfl, rfl⟩
      · exact (builtinEffect_fds a).symm
      · rw [not_or] at hb hw
        exact absurd ⟨⟨hb.1, hw.1⟩, ⟨hb.2, hw.2⟩, hbuiltin⟩ hstart

/-! ## Lines -/

/-- the descriptors and the children are those of `s` -/
structure Traceless (s t : Process Dir) : Prop where
  fds : t.fds = s.fds
  children : t.children = s.children

/-- the command that the shell executes itself, if there is one, gives back its pipe -/
def LineKeeps (env : Env Dir) (fds : Finset ℕ) (l : List Char) : Prop :=
  ∀ c, directText l = some c → CommandKeeps env fds c

/-- so do the lines of a batch file, each as it stands in the buffer when the loop reaches it -/
def LinesKeep (env : Env Dir) : ℕ → Option ℕ → Mem → Process Dir → Prop
  | 0, _, _, _ => True
  | n + 1, buffer, m, s =>
    match strsep m buffer '\n' with
    | (none, _, _) => True
    | (some command, buffer, m) =>
      str m.buf command ≠ [] →
        LineKeeps env s.fds (str m.buf command) ∧
          ((runLine env m command s).1.running →
            LinesKeep env n buffer (runLine env m command s).2 (runLine env m command s).1)

/-- and so does a line that is typed at the prompt -/
def Keeps (env : Env Dir) (l : List Char) (s : Process Dir) : Prop :=
  match words l with
  | [] => True
  | w :: ws =>
    if w = "exit".toList ∨ w = "\"exit\"".toList then True
    else if w = "executeCommands".toList then
      ∀ c, ws.head?.bind (env.contents s.cwd) = some c →
        LinesKeep env bufferSize (some 0) ⟨batchBuffer env c, 0⟩ s
    else LineKeeps env s.fds l

theorem line_traceless (h : LineKeeps env s.fds l) : Traceless s (lineEffect env l s) := by
  unfold lineEffect
  cases hd : directText l with
  | none => exact ⟨rfl, rfl⟩
  | some c =>
    obtain ⟨hchildren, hfds⟩ := command_keeps_iff env c s
    exact ⟨hfds.2 (h c hd), hchildren⟩

theorem Traceless.trans {u : Process Dir} (h1 : Traceless s t) (h2 : Traceless t u) : Traceless s u :=
  ⟨h2.fds.trans h1.fds, h2.children.trans h1.children⟩

/-- **The loop over a batch file.** -/
theorem lines_traceless {m : Mem} {p : ℕ} {w : List Char} (n : ℕ) (hheld : Held m.buf [(p, w)])
    (h : LinesKeep env n (some p) m s) : Traceless s (batchLoop env n (some p) m s) := by
  induction n generalizing p w m s with
  | zero => exact ⟨rfl, rfl⟩
  | succ n ih =>
    rcases strsep_cases hheld '\n' with ⟨hn, hsep⟩ | ⟨a, w, m', rfl, hn, hsep, -, hheld'⟩
    · by_cases hw : w = []
      · subst hw
        simp only [batchLoop, hsep, hheld.head.strlen_eq, List.length_nil, if_true]
        exact ⟨rfl, rfl⟩
      · rw [LinesKeep, hsep] at h
        simp only [hheld.head.str_eq] at h
        rw [batchLoop_last n hheld hw hn]
        exact line_traceless (h hw).1
    · rw [LinesKeep, hsep] at h
      rw [batchLoop, hsep]
      simp only [hheld'.head.str_eq, hheld'.head.strlen_eq, List.length_eq_zero_iff] at h ⊢
      by_cases ha : a = []
      · simp only [ha, if_true]
        exact ⟨rfl, rfl⟩
      · obtain ⟨m'', hrun, rest, hheld'', hfst⟩ := runLine_spec env s hheld'
        obtain ⟨hline, hrest⟩ := h ha
        simp only [hrun] at hrest
        simp only [ha, hrun, if_false]
        split_ifs with hrunning
        · obtain ⟨c, rfl⟩ : ∃ c, rest = [c] := List.length_eq_one_iff.1 (by simpa using congrArg List.length hfst)
          obtain ⟨q, v⟩ := c
          obtain rfl : q = _ := by simpa using hfst
          exact (line_traceless hline).trans (ih hheld'' (hrest hrunning))
        · exact line_traceless hline

/-- **One line.** -/
theorem traceless (hl : nul ∉ l) (h : Keeps env l s) (ht : mainLine env l s = some t) : Traceless s t := by
  rw [mainLine_spec env s hl] at ht
  unfold mainEffect at ht
  unfold Keeps at h
  cases hw : words l with
  | nil =>
    simp only [hw] at ht
    cases ht
    exact ⟨rfl, rfl⟩
  | cons w ws =>
    simp only [hw] at ht h
    split_ifs at ht h
    · cases ht
      exact ⟨rfl, rfl⟩
    · cases ht
      rw [runBatch_eq]
      cases hc : ws.head?.bind (env.contents s.cwd) with
      | none => exact ⟨rfl, rfl⟩
      | some c =>
        dsimp only
        split_ifs
        · exact lines_traceless bufferSize (batchBuffer_held env c) (h c hc)
        · exact ⟨rfl, rfl⟩
    · cases ht
      exact line_traceless h

/-! ## Runs -/

/-- a line that is typed, and what the system answers while it is processed -/
structure Round (Dir : Type) where
  env : Env Dir
  line : List Char
  clean : nul ∉ line

def shellStep (s : Process Dir) (o : Round Dir) : Option (Process Dir) :=
  if s.running then mainLine o.env o.line s else none

/-- the shell without children -/
def newShell (cwd : Dir) (fds : Finset ℕ) : Process Dir := ⟨cwd, true, fds, 0⟩

/-- **No trace.** In every run of lines that give back their pipes, the descriptors are those of the start and every
child has been waited for. -/
theorem no_trace {cwd : Dir} (h : ReachIf shellStep (fun s o => Keeps o.env o.line s) (newShell cwd fds) s) :
    s.fds = fds ∧ s.children = 0 := by
  refine h.invariant (I := fun s => s.fds = fds ∧ s.children = 0) ⟨rfl, rfl⟩ ?_
  intro s o t _ hs hok hst
  unfold shellStep at hst
  split_ifs at hst
  have hline := traceless o.clean hok hst
  exact ⟨hline.fds.trans hs.1, hline.children.trans hs.2⟩

/-- the usual limit, and a single directory without files -/
def plainEnv : Env Unit := ⟨fun _ _ => none, fun _ _ => none, 1024, (0, 0), []⟩

/-- `ls | wc` -/
def countRound : Round Unit := ⟨plainEnv, "ls | wc".toList, by decide⟩

/-- `ls > f | wc` -/
def leakRound : Round Unit := ⟨plainEnv, "ls > f | wc".toList, by decide⟩

theorem shellStep_eq (cwd : Dir) (fds : Finset ℕ) (o : Round Dir) :
    shellStep (newShell cwd fds) o = mainEffect o.env o.line (newShell cwd fds) :=
  mainLine_spec o.env _ o.clean

/-- with the three standard descriptors -/
theorem no_trace_example : ∃ t, shellStep (newShell () {0, 1, 2}) countRound = some t ∧ t.fds = {0, 1, 2} ∧
    t.children = 0 := by
  have hst : shellStep (newShell () {0, 1, 2}) countRound = some (lineEffect plainEnv countRound.line _) :=
    shellStep_eq () {0, 1, 2} countRound
  refine ⟨_, hst, no_trace (.step .init ?_ hst)⟩
  intro c hc a b hab _ _ _
  have hfree : TwoFree plainEnv {0, 1, 2} := twoFree_of_card (by decide)
  obtain rfl : countRound.line = c := Option.some.inj hc
  cases hab
  exact (if_pos hfree).mpr (by decide)

theorem read_end_leaks : ∃ t, shellStep (newShell () {0, 1, 2}) leakRound = some t ∧ t.fds ≠ {0, 1, 2} := by
  have hst : shellStep (newShell () {0, 1, 2}) leakRound = some (commandEffect plainEnv leakRound.line _) :=
    shellStep_eq () {0, 1, 2} leakRound
  refine ⟨_, hst, fun h => ?_⟩
  have hfree : TwoFree plainEnv {0, 1, 2} := twoFree_of_card (by decide)
  have hkeeps := (command_keeps_iff plainEnv _ _).2.1 h
  have hgives := hkeeps "ls > f ".toList " wc".toList (by decide) ⟨by decide, by decide⟩
    ⟨by decide, by decide⟩ (by decide)
  exact absurd ((if_pos hfree).mp hgives) (by decide)

end DecsLabs.Shell
