/-
What `executeCommand` does for a line when the removal of quotes goes on behind a lone quote. Lone quotes change texts of
tokens behind them, in the same line and further on, but not which stages are started: the first token of the first stage
is opened before any scan leaves its string, and so is the second one behind a built-in command.

- `executeCommandWith_frame`: a line is no stage, one stage or at least two, with any block.
- `StartsOne`, `executeOneOn_event`: one stage.
- `StartsTwo`, `executeTwoOn_events`: two stages.
-/
import DecsLabs.Shell.Spills
import DecsLabs.Shell.Survival

namespace DecsLabs.Shell

open DecsLabs.CString

variable {m : Mem} {p p1 p2 : ℕ} {s s1 s2 : List Char} {l : List Cell}

/-- the other strings of the buffer are still there, some of them cut -/
def Rests (b : List Char) (l : List Cell) : Prop := ∃ l', Held b l' ∧ l'.map Prod.fst = l.map Prod.fst

theorem Rests.of_held {b : List Char} (h : Held b l) : Rests b l := ⟨l, h, rfl⟩

/-! ## Lines -/

/-- `executeCommand` on a line in a buffer with the other strings `r` -/
theorem executeCommandWith_frame (block : Mem → ℕ → Except Fault (ℕ × Mem)) {r : List Cell} (h : Held m.buf ((p, s) :: r)) :
    (placed '|' p s = [] ∧ executeCommandWith block m p = .error .unwrittenSlot) ∨
    (∃ a q m', placed '|' p s = [(q, a)] ∧ executeCommandWith block m p = executeOneWith block m' (some q) ∧
      Held m'.buf ((q, a) :: r)) ∨
    ∃ a b r' q1 q2 m', placed '|' p s = (q1, a) :: (q2, b) :: r' ∧
      executeCommandWith block m p = executeTwoWith block m' q1 q2 ∧ Piped m' q1 q2 a b r := by
  obtain ⟨x, y, m', m'', h1, h2, hx, hy, hheld, -⟩ := strtok_two h '|'
  cases hp : placed '|' p s with
  | nil =>
    obtain rfl : x = none := by simpa [hp] using hx
    refine .inl ⟨rfl, ?_⟩
    simp [executeCommandWith, h1, executeOneWith, checkIOParser, Slots.read, Slots.empty, bind, Except.bind]
  | cons c1 r' =>
    obtain rfl : x = some c1 := by simpa [hp] using hx
    cases r' with
    | nil =>
      obtain rfl : y = none := by simpa [hp] using hy
      refine .inr (.inl ⟨c1.2, c1.1, m'', rfl, ?_, by simpa using hheld⟩)
      simp only [Option.map_some, Option.map_none] at h1 h2
      simp [executeCommandWith, h1, h2]
    | cons c2 r' =>
      obtain rfl : y = some c2 := by simpa [hp] using hy
      refine .inr (.inr ⟨c1.2, c2.2, r', c1.1, c2.1, m'', rfl, ?_, by simpa using hheld⟩)
      simp only [Option.map_some] at h1 h2
      simp [executeCommandWith, h1, h2]

/-- the first stage ends before the second one begins -/
theorem placed_two {d : Char} {a b : List Char} {q1 q2 : ℕ} {r : List Cell} (h : placed d p s = (q1, a) :: (q2, b) :: r) :
    q1 + a.length < q2 := by
  have hsorted := placed_sorted (d := d) (p := p) (s := s)
  rw [h] at hsorted
  exact (List.pairwise_cons.1 hsorted).1 _ List.mem_cons_self

/-! ## The first token -/

/-- the name that `checkCustomCommands` gives to a command -/
def renamed (w : List Char) : List Char :=
  if w = "checkresidentmemory".toList then "ps".toList
  else if w = "listFiles".toList then "ls".toList
  else if w = "sortFile".toList then "sort".toList
  else w

/-- the program that a word stands for -/
def programName (w : List Char) : List Char := renamed (opened w)

theorem opened_builtin_iff {w : List Char} : opened w ∈ builtinCommands ↔ unquote w ∈ builtinCommands := by
  unfold opened
  split_ifs with h
  · subst h
    decide
  · exact Iff.rfl

theorem renamed_builtin {w : List Char} (h : w ∈ builtinCommands) : renamed w = w := by
  simp only [builtinCommands, List.mem_cons, List.not_mem_nil, or_false] at h
  rcases h with rfl | rfl <;> decide

/-- the program that a child executes -/
theorem checkCustomCommands_program {b : List Char} {t : Slots ℕ} {t' : Slots Arg} {x : Cell} {toks : List Cell}
    (h : Shows t (x :: toks)) (hrun : checkCustomCommands b t = .ok t') (file : Files ℕ) (flag : ℕ) :
    (child b t' file flag).argv.head? = some (renamed (str b x.1)) := by
  have hzero : ∃ a, t' 0 = some (some a) ∧ a.text b = renamed (str b x.1) := by
    have h0 : (lifted t).read 0 = .ok (some (.ptr x.1)) := lifted_read h.read_zero
    have h1 := lifted_read h.read_one
    have h1' : ((lifted t).write 0 (some (.lit "ps".toList))).read 1 = (lifted t).read 1 := by
      simp [Slots.read, Slots.write]
    simp only [checkCustomCommands, h0, strcmp, Arg.text, bind, Except.bind, pure, Except.pure, h1', h1] at hrun
    split_ifs at hrun with hps hls hsort
    · cases hrun
      exact ⟨_, rfl, by rw [renamed, if_pos (of_decide_eq_true hps)]; rfl⟩
    · cases hrun
      refine ⟨_, rfl, ?_⟩
      rw [renamed, if_neg (mt decide_eq_true hps), if_pos (of_decide_eq_true hls)]
      rfl
    · cases hrun
      refine ⟨_, rfl, ?_⟩
      rw [renamed, if_neg (mt decide_eq_true hps), if_neg (mt decide_eq_true hls), if_pos (of_decide_eq_true hsort)]
      rfl
    · cases hrun
      refine ⟨.ptr x.1, ?_, ?_⟩
      · simp only [lifted, h.ptr 0 x rfl, Option.map_some]
      · rw [renamed, if_neg (mt decide_eq_true hps), if_neg (mt decide_eq_true hls), if_neg (mt decide_eq_true hsort)]
        rfl
  obtain ⟨a, ha, htext⟩ := hzero
  change (argv b t' (199 + 1) 0).head? = _
  rw [argv, ha]
  exact congrArg some htext

/-- the texts of the first two tokens; behind a lone quote the second one is not known -/
structure Leads (s : List Char) (ws : List (List Char)) : Prop where
  first : ws.head? = (commandWords s).head?.map opened
  second : (commandWords s).head? ≠ some ['"'] → ws[1]? = ((commandWords s).map opened)[1]?

theorem leads_of_removed {x x' : Cells} (hr : Reads (cut s) x) (h : Removed x x') : Leads s (x'.toks.map Prod.snd) := by
  have hwords : commandWords s = x.toks.map Prod.snd := hr.toks.symm
  have hopens := h.opens
  have hall := h.toks
  generalize x.toks = toks at hwords hopens hall
  generalize x'.toks = toks' at hopens hall
  cases hall with
  | nil => exact ⟨by rw [hwords]; rfl, fun _ => by rw [hwords]; rfl⟩
  | @cons c c' toks toks' hc hrest =>
    refine ⟨by rw [hwords, List.map_cons, List.map_cons, List.head?_cons, hopens.1]; rfl, fun hne => ?_⟩
    rw [hwords, List.map_cons, List.head?_cons] at hne
    have hnext := hopens.2 fun hlone => hne (congrArg some hlone)
    rw [hwords]
    cases hrest with
    | nil => rfl
    | cons hd _ => simp [hnext.1]

/-- a stage that leads with a built-in command leads with no lone quote -/
theorem Builtin.leads {ws : List (List Char)} (hb : Builtin s) (h : Leads s ws) (stage : ℕ) :
    builtinEvent stage ws = builtinEvent stage ((commandWords s).map opened) := by
  obtain ⟨w, hw, hhead⟩ := hb
  have hne : (commandWords s).head? ≠ some ['"'] := by
    intro hlone
    rw [hlone, Option.map_some, Option.some.injEq] at hhead
    rw [← hhead] at hw
    exact absurd hw (by decide)
  rw [builtinEvent, builtinEvent, h.first, h.second hne, List.head?_map]

/-! ## One stage -/

/-- a stage that is parsed: the event of a built-in command, or a fork -/
inductive StartsOne (p : ℕ) (s : List Char) : Event → Prop
  | builtin (hb : Builtin s) : StartsOne p s (builtinEvent p ((commandWords s).map opened))
  | program (hb : ¬ Builtin s) (c : Child) (hc : c.argv.head? = (commandWords s).head?.map programName) :
      StartsOne p s (.fork p c)

theorem executeOneWith_blank (block : Mem → ℕ → Except Fault (ℕ × Mem)) (h : Held m.buf ((p, s) :: l)) (hb : Blank s) :
    executeOneWith block m (some p) = .error .nullArgument := by
  simp [executeOneWith, checkIOParser_blank h hb, bind, Except.bind]

theorem executeOneWith_report (block : Mem → ℕ → Except Fault (ℕ × Mem)) (h : Held m.buf ((p, s) :: l)) (hb : ¬ Blank s)
    (hw : commandWords s = []) : ∃ m', executeOneWith block m (some p) = .ok ([.report], m') ∧ Rests m'.buf l := by
  obtain ⟨t, file, m', x, hparse, hp, hr, hheld⟩ := checkIOParser_spec h (not_blank hb)
  have hread := hp.toks.read_zero
  rw [toks_eq_nil hr hw] at hread
  refine ⟨m', ?_, .of_held (hheld.sublist (List.sublist_append_right _ _))⟩
  simp [executeOneWith, hparse, hread, bind, Except.bind, pure, Except.pure]

/-- the first token of a stage that was parsed, with its text -/
theorem first_token {t : Slots ℕ} {file : Files ℕ} {b : List Char} {x x' : Cells} (hr : Reads (cut s) x)
    (h : Removed x x') (hp : Points t file x') (hheld : Held b (x'.all ++ l)) (hw : commandWords s ≠ []) :
    ∃ c toks, Shows t (c :: toks) ∧ (c :: toks).map (fun c => str b c.1) = x'.toks.map Prod.snd ∧
      (commandWords s).head?.map opened = some (str b c.1) := by
  have htext : x'.toks.map (fun c => str b c.1) = x'.toks.map Prod.snd := by
    refine List.map_congr_left fun c hc => ?_
    exact (hheld.holds c (by simp [Cells.all, hc])).str_eq
  have hfirst := (leads_of_removed hr h).first
  have hshow := hp.toks
  obtain ⟨w, ws, hwords⟩ := List.exists_cons_of_ne_nil hw
  cases htoks : x'.toks with
  | nil =>
    rw [htoks, hwords] at hfirst
    cases hfirst
  | cons c toks =>
    rw [htoks] at hshow htext hfirst
    refine ⟨c, toks, hshow, htext, ?_⟩
    rw [← hfirst, ← htext]
    rfl

theorem builtin_iff_opened {v : List Char} (h : (commandWords s).head?.map opened = some v) :
    Builtin s ↔ v ∈ builtinCommands := by
  obtain ⟨w, hw, rfl⟩ := Option.map_eq_some_iff.1 h
  rw [opened_builtin_iff]
  exact builtin_iff (by rw [hw]; rfl)

/-- **One stage.** -/
theorem executeOneOn_event (h : Held m.buf ((p, s) :: l)) (hb : ¬ Blank s) (hw : commandWords s ≠ []) :
    ∃ e m', executeOneWith removeQuotesOn m (some p) = .ok ([e], m') ∧ StartsOne p s e ∧ Rests m'.buf l := by
  obtain ⟨t, file, m1, x, hparse, hp, hr, hlies, hheld⟩ := checkIOParser_places h (not_blank hb)
  obtain ⟨c, toks, hx⟩ := commandWords_ne_nil hr hw
  have hread := hp.toks.read_zero
  rw [hx] at hread
  obtain ⟨t', file', m2, x', l', hquotes, hp', hremoved, hheld', hothers⟩ := stageQuotes_spec hr.length_le hheld hp
    hlies.sorted hlies.files
  have hrest : Rests m2.buf l := ⟨l', hheld'.sublist (List.sublist_append_right _ _), spilt_fst hothers⟩
  obtain ⟨c', toks', hshow, htexts, hfirst⟩ := first_token hr hremoved hp' hheld' hw
  have hb' := builtin_iff_opened hfirst
  obtain ⟨t'', hcustom, hlift⟩ := checkCustomCommands_spec (b := m2.buf) hshow
  by_cases hbuiltin : str m2.buf c'.1 ∈ builtinCommands
  · have hrun := runBuiltin_spec hshow hbuiltin p
    rw [htexts, (hb'.2 hbuiltin).leads (leads_of_removed hr hremoved)] at hrun
    refine ⟨_, m2, ?_, .builtin (hb'.2 hbuiltin), hrest⟩
    rw [hlift hbuiltin] at hcustom
    simp [executeOneWith, hparse, hread, hquotes, hshow.read_zero, commandsChecker_spec, Arg.text, flagOf_eq_one_iff,
      hbuiltin, hcustom, hrun, bind, Except.bind, pure, Except.pure]
  · have hprogram := checkCustomCommands_program hshow hcustom file' (flagOf (str m2.buf c'.1))
    have hname : some (renamed (str m2.buf c'.1)) = (commandWords s).head?.map programName := by
      obtain ⟨w, hw', hopen⟩ := Option.map_eq_some_iff.1 hfirst
      rw [hw', Option.map_some, programName, hopen]
    refine ⟨.fork p (child m2.buf t'' file' (flagOf (str m2.buf c'.1))), m2, ?_,
      .program (mt hb'.1 hbuiltin) _ (hprogram.trans hname), hrest⟩
    simp [executeOneWith, hparse, hread, hquotes, hshow.read_zero, commandsChecker_spec, Arg.text, flagOf_eq_one_iff,
      hbuiltin, hcustom, bind, Except.bind, pure, Except.pure]

/-! ## Two stages -/

/-- both stages are parsed before anything else happens -/
theorem parseTwo_places (h : Piped m p1 p2 s1 s2 l) (hb1 : ¬ Blank s1) (hb2 : ¬ Blank s2) :
    ∃ t1 file1 m1 x1 t2 file2 m2 x2,
      checkIOParser m (some p1) ⟨none, none⟩ .empty = .ok (t1, file1, m1) ∧
      checkIOParser m1 (some p2) ⟨none, none⟩ .empty = .ok (t2, file2, m2) ∧ Points t1 file1 x1 ∧ Points t2 file2 x2 ∧
      Reads (cut s1) x1 ∧ Reads (cut s2) x2 ∧ Lies p1 s1 x1 ∧ Lies p2 s2 x2 ∧ Held m2.buf (x1.all ++ (x2.all ++ l)) := by
  obtain ⟨t1, file1, m1, x1, hparse1, hp1, hr1, hlies1, h1⟩ := checkIOParser_places h (not_blank hb1)
  have h1' : Held m1.buf ((p2, s2) :: (x1.all ++ l)) := h1.perm List.perm_middle
  obtain ⟨t2, file2, m2, x2, hparse2, hp2, hr2, hlies2, h2⟩ := checkIOParser_places h1' (not_blank hb2)
  exact ⟨t1, file1, m1, x1, t2, file2, m2, x2, hparse1, hparse2, hp1, hp2, hr1, hr2, hlies1, hlies2, h2.exchange⟩

theorem executeTwoWith_blank (block : Mem → ℕ → Except Fault (ℕ × Mem)) (h : Piped m p1 p2 s1 s2 l)
    (hb : Blank s1 ∨ Blank s2) : executeTwoWith block m p1 p2 = .error .nullArgument := by
  by_cases hb1 : Blank s1
  · simp [executeTwoWith, checkIOParser_blank h hb1, bind, Except.bind]
  · obtain ⟨t1, file1, m1, x1, hparse1, -, -, h1⟩ := checkIOParser_spec h (not_blank hb1)
    have h1' : Held m1.buf ((p2, s2) :: (x1.all ++ l)) := h1.perm List.perm_middle
    simp [executeTwoWith, hparse1, checkIOParser_blank h1' (hb.resolve_left hb1), bind, Except.bind]

theorem executeTwoWith_report (block : Mem → ℕ → Except Fault (ℕ × Mem)) (h : Piped m p1 p2 s1 s2 l) (hb1 : ¬ Blank s1)
    (hb2 : ¬ Blank s2) (hw : commandWords s1 = [] ∨ commandWords s2 = []) :
    ∃ m', executeTwoWith block m p1 p2 = .ok ([.report], m') ∧ Rests m'.buf l := by
  obtain ⟨t1, file1, m1, x1, t2, file2, m2, x2, hparse1, hparse2, hp1, hp2, hr1, hr2, hheld⟩ := parseTwo h hb1 hb2
  have hread1 := hp1.toks.read_zero
  have hread2 := hp2.toks.read_zero
  refine ⟨m2, ?_, .of_held (hheld.sublist ((List.sublist_append_right _ _).trans (List.sublist_append_right _ _)))⟩
  by_cases hw1 : commandWords s1 = []
  · rw [toks_eq_nil hr1 hw1] at hread1
    simp [executeTwoWith, hparse1, hparse2, hread1, bind, Except.bind, pure, Except.pure]
  · obtain ⟨c1, toks1, hx1⟩ := commandWords_ne_nil hr1 hw1
    rw [hx1] at hread1
    rw [toks_eq_nil hr2 (hw.resolve_left hw1)] at hread2
    simp [executeTwoWith, hparse1, hparse2, hread1, hread2, bind, Except.bind, pure, Except.pure]

/-- what is left of the strings `x` of a stage -/
structure CellsLeft (x x' : Cells) : Prop where
  toks : List.Forall₂ Unquoted x.toks x'.toks
  input : List.Forall₂ Unquoted x.input.toList x'.input.toList
  output : List.Forall₂ Unquoted x.output.toList x'.output.toList

theorem Removed.cellsLeft {x x' : Cells} (h : Removed x x') : CellsLeft x x' := ⟨h.toks, h.input, h.output⟩

theorem left_of_spilt {xs l1 l2 l3 : List Cell} (h : List.Forall₂ (Spilt xs) l1 l2) (h' : List.Forall₂ Unquoted l2 l3) :
    List.Forall₂ Unquoted l1 l3 :=
  forall₂_trans h h' fun _ _ _ hc hd => hd.of_spilt hc

/-- the strings of the second stage, after the removal in the first one: the places are the same -/
theorem spilt_cells {xs : List Cell} {x : Cells} {l' : List Cell} (h : List.Forall₂ (Spilt xs) x.all l') :
    ∃ x' : Cells, l' = x'.all ∧ List.Forall₂ (Spilt xs) x.toks x'.toks ∧
      x'.input.map Prod.fst = x.input.map Prod.fst ∧ x'.output.map Prod.fst = x.output.map Prod.fst ∧
      ∀ x'' : Cells, CellsLeft x' x'' → CellsLeft x x'' := by
  obtain ⟨toks, files, rfl, htoks, hfiles⟩ := forall₂_append_left h
  obtain ⟨i', o', rfl, hi, ho⟩ := forall₂_append_left hfiles
  obtain ⟨i, rfl, hifst⟩ := spilt_toList hi
  obtain ⟨o, rfl, hofst⟩ := spilt_toList ho
  refine ⟨⟨toks, i, o⟩, rfl, htoks, hifst, hofst, fun x'' hkept => ?_⟩
  exact ⟨left_of_spilt htoks hkept.toks, left_of_spilt hi hkept.input, left_of_spilt ho hkept.output⟩

/-- **Both removals.** The tokens of the first stage are left alone by the removal in the second one. -/
theorem stagesQuotes_spec {t1 t2 : Slots ℕ} {file1 file2 : Files ℕ} {x1 x2 : Cells} (hr1 : Reads (cut s1) x1)
    (hr2 : Reads (cut s2) x2) (hp1 : Points t1 file1 x1) (hp2 : Points t2 file2 x2) (hlies1 : Lies p1 s1 x1)
    (hlies2 : Lies p2 s2 x2) (hlt : p1 + s1.length < p2) (h : Held m.buf (x1.all ++ (x2.all ++ l))) :
    ∃ t1' file1' m1 t2' file2' m2 x1' x2' l',
      stageQuotes removeQuotesOn m t1 file1 = .ok (t1', file1', m1) ∧
      stageQuotes removeQuotesOn m1 t2 file2 = .ok (t2', file2', m2) ∧ Points t1' file1' x1' ∧ Points t2' file2' x2' ∧
      Removed x1 x1' ∧ CellsLeft x2 x2' ∧ Held m2.buf (x1'.all ++ (x2'.all ++ l')) ∧
      l'.map Prod.fst = l.map Prod.fst := by
  obtain ⟨t1', file1', m1, x1', others, hq1, hp1', hremoved1, h1, hothers⟩ := stageQuotes_spec hr1.length_le h hp1
    hlies1.sorted hlies1.files
  obtain ⟨x2c', l1, rfl, hx2c, hl1⟩ := forall₂_append_left hothers
  obtain ⟨x2c, rfl, htoks, hi, ho, hback⟩ := spilt_cells hx2c
  have hplaces := spilt_places hx2c
  have hsort : x2c.toks.Pairwise fun a b => a.1 < b.1 := by
    have hsorted := hlies2.sorted
    rw [← List.pairwise_map (f := Prod.fst) (R := (· < ·))] at hsorted ⊢
    rwa [spilt_fst htoks]
  have hfiles : ∀ c ∈ x2c.toks, ∀ o ∈ x2c.input.toList ++ x2c.output.toList, c.1 < o.1 := by
    intro c hc o hmem
    obtain ⟨c0, hc0, hc0fst⟩ := spilt_places htoks c hc
    have hfst : (x2c.input.toList ++ x2c.output.toList).map Prod.fst = (x2.input.toList ++ x2.output.toList).map Prod.fst := by
      simp only [List.map_append, ← Option.toList_map, hi, ho]
    have hmem' : o.1 ∈ (x2c.input.toList ++ x2c.output.toList).map Prod.fst := List.mem_map_of_mem hmem
    rw [hfst, List.mem_map] at hmem'
    obtain ⟨o0, ho0, ho0fst⟩ := hmem'
    rw [← hc0fst, ← ho0fst]
    exact hlies2.files c0 hc0 o0 ho0
  have hlen : x2c.toks.length ≤ 200 := by
    have := hr2.length_le
    rwa [← htoks.length_eq]
  have hpoints : Points t2 file2 x2c := ⟨hp2.toks.same (spilt_fst htoks), hp2.input.trans hi.symm, hp2.output.trans ho.symm⟩
  obtain ⟨t2', file2', m2, x2', others2, hq2, hp2', hremoved2, h2, hothers2⟩ := stageQuotes_spec hlen h1.exchange hpoints
    hsort hfiles
  obtain ⟨x1c, l2, rfl, hx1c, hl2⟩ := forall₂_append_left hothers2
  have hsame : x1c = x1'.all := spilt_eq hx1c fun y hy _ c hc => by
    obtain ⟨y0, hy0, hyfst⟩ := hplaces y hy
    obtain ⟨c0, hc0, hle⟩ := hremoved1.near c hc
    have hin1 := hlies1.inside c0 hc0
    have hin2 := (hlies2.inside y0 hy0).1
    unfold Inside at hin1
    dsimp only at hin1 hin2
    omega
  subst hsame
  refine ⟨t1', file1', m1, t2', file2', m2, x1', x2', l2, hq1, hq2, hp1', hp2', hremoved1, hback _ hremoved2.cellsLeft, h2.exchange,
    (spilt_fst hl2).trans (spilt_fst hl1)⟩

/-- the second stage is forked unless the first one is a built-in command or has an output file -/
inductive StartsTwo (p1 p2 : ℕ) (s1 : List Char) : List Event → Prop
  | builtin (hb : Builtin s1) : StartsTwo p1 p2 s1 [builtinEvent p1 ((commandWords s1).map opened)]
  | output (hb : ¬ Builtin s1) (ho : (cut s1).output ≠ none) (c : Child) : StartsTwo p1 p2 s1 [.fork p1 c]
  | both (hb : ¬ Builtin s1) (ho : (cut s1).output = none) (c1 c2 : Child) : StartsTwo p1 p2 s1 [.fork p1 c1, .fork p2 c2]

theorem output_removed_iff {x x' : Cells} (hr : Reads (cut s) x) (hb : ¬ Blank s) (h : Removed x x') :
    x'.output = none ↔ (cut s).output = none := by
  have hsame : x'.output = none ↔ x.output = none := by
    have hlen := h.output.length_eq
    cases hx : x.output <;> cases hx' : x'.output <;> simp [hx, hx'] at hlen ⊢
  let y : Cells := ⟨x.toks, x.input, x.output.map fun c => (c.1, unquote c.2)⟩
  have hfile : x.output = none ↔ y.output = none := by simp [y]
  have hy : y.output.map Prod.snd = (x.output.map Prod.snd).map unquote := by
    simp only [y]
    cases x.output <;> rfl
  rw [hsame, hfile]
  exact output_eq_none_iff hr hb hy

/-- **Two stages.** -/
theorem executeTwoOn_events (h : Piped m p1 p2 s1 s2 l) (hlt : p1 + s1.length < p2) (hb1 : ¬ Blank s1) (hb2 : ¬ Blank s2)
    (hw1 : commandWords s1 ≠ []) (hw2 : commandWords s2 ≠ []) :
    ∃ es m', executeTwoWith removeQuotesOn m p1 p2 = .ok (es, m') ∧ StartsTwo p1 p2 s1 es ∧ Rests m'.buf l := by
  obtain ⟨t1, file1, m1, x1, t2, file2, m2, x2, hparse1, hparse2, hp1, hp2, hr1, hr2, hlies1, hlies2, hheld⟩ :=
    parseTwo_places h hb1 hb2
  obtain ⟨c1, toks1, hx1⟩ := commandWords_ne_nil hr1 hw1
  obtain ⟨c2, toks2, hx2⟩ := commandWords_ne_nil hr2 hw2
  have hread1 := hp1.toks.read_zero
  have hread2 := hp2.toks.read_zero
  rw [hx1] at hread1
  rw [hx2] at hread2
  obtain ⟨t1', file1', m3, t2', file2', m4, x1', x2', l', hq1, hq2, hp1', hp2', hremoved, hkept, hheld', hfst⟩ :=
    stagesQuotes_spec hr1 hr2 hp1 hp2 hlies1 hlies2 hlt hheld
  have hrest : Rests m4.buf l :=
    ⟨l', hheld'.sublist ((List.sublist_append_right _ _).trans (List.sublist_append_right _ _)), hfst⟩
  obtain ⟨c1', toks1', hshow1, htexts, hfirst⟩ := first_token hr1 hremoved hp1' hheld' hw1
  obtain ⟨c2', toks2', hx2'⟩ : ∃ c toks, x2'.toks = c :: toks := by
    refine List.exists_cons_of_ne_nil fun hnil => ?_
    have htoks := hkept.toks
    rw [hnil, hx2] at htoks
    cases htoks
  have hshow2 := hp2'.toks
  rw [hx2'] at hshow2
  obtain ⟨u1, hcustom1, hlift1⟩ := checkCustomCommands_spec (b := m4.buf) hshow1
  obtain ⟨u2, hcustom2, -⟩ := checkCustomCommands_spec (b := m4.buf) hshow2
  have hout : file1'.output = none ↔ (cut s1).output = none := by
    rw [hp1'.output, Option.map_eq_none_iff]
    exact output_removed_iff hr1 hb1 hremoved
  have hb := builtin_iff_opened hfirst
  by_cases hbuiltin : str m4.buf c1'.1 ∈ builtinCommands
  · have hrun := runBuiltin_spec hshow1 hbuiltin p1
    rw [htexts, (hb.2 hbuiltin).leads (leads_of_removed hr1 hremoved)] at hrun
    refine ⟨_, m4, ?_, .builtin (hb.2 hbuiltin), hrest⟩
    rw [hlift1 hbuiltin] at hcustom1
    simp [executeTwoWith, hparse1, hparse2, hread1, hread2, hq1, hq2, hshow1.read_zero, hshow2.read_zero,
      commandsChecker_spec, Arg.text, flagOf_eq_one_iff, hbuiltin, hcustom1, hcustom2, hrun, bind, Except.bind, pure,
      Except.pure]
  · by_cases hnone : (cut s1).output = none
    · refine ⟨[.fork p1 (child m4.buf u1 file1' (flagOf (str m4.buf c1'.1))),
        .fork p2 (child m4.buf u2 file2' (flagOf (str m4.buf c2'.1)))], m4, ?_, .both (mt hb.1 hbuiltin) hnone _ _, hrest⟩
      simp [executeTwoWith, hparse1, hparse2, hread1, hread2, hq1, hq2, hshow1.read_zero, hshow2.read_zero,
        commandsChecker_spec, Arg.text, flagOf_eq_one_iff, hbuiltin, hcustom1, hcustom2, hout.2 hnone, bind, Except.bind,
        pure, Except.pure]
    · have hsome : file1'.output ≠ none := fun hn => hnone (hout.1 hn)
      refine ⟨[.fork p1 (child m4.buf u1 file1' (flagOf (str m4.buf c1'.1)))], m4, ?_,
        .output (mt hb.1 hbuiltin) hnone _, hrest⟩
      simp [executeTwoWith, hparse1, hparse2, hread1, hread2, hq1, hq2, hshow1.read_zero, hshow2.read_zero,
        commandsChecker_spec, Arg.text, flagOf_eq_one_iff, hbuiltin, hcustom1, hcustom2, hsome, bind, Except.bind,
        pure, Except.pure]

end DecsLabs.Shell
