/-
What `executeCommand` does for one stage and for two, in terms of the texts of the stages.

- `Blank`, `Lone`: the stages that the parser does not survive.
- `executeOne_starts`, `executeTwo_starts`: which stages are started otherwise.
-/
import DecsLabs.Shell.Parsing

namespace DecsLabs.Shell

open DecsLabs.CString

variable {m : Mem} {p p1 p2 : ℕ} {s s1 s2 : List Char} {l : List Cell}

/-! ## Stages -/

/-- a file name of the stage consists of blanks -/
def Blank (s : List Char) : Prop := ∃ o ∈ (cut s).operands, words o = []

instance (s : List Char) : Decidable (Blank s) := inferInstanceAs (Decidable (∃ o ∈ _, _))

/-- the words of the command, as far as they fit the slots -/
def commandWords (s : List Char) : List (List Char) := (words (cut s).command).take 200

/-- a word or a file name of the stage is a double quote -/
def Lone (s : List Char) : Prop :=
  ['"'] ∈ commandWords s ++ ((fileName (cut s).input).toList ++ (fileName (cut s).output).toList)

instance (s : List Char) : Decidable (Lone s) := inferInstanceAs (Decidable (_ ∈ _))

theorem Reads.lone_iff {x : Cells} (h : Reads (cut s) x) : Lone s ↔ ∃ c ∈ x.all, c.2 = ['"'] := by
  rw [Lone, commandWords, ← h.toks, ← h.input, ← h.output]
  simp only [Cells.all, List.mem_append, Option.mem_toList, Option.map_eq_some_iff, List.mem_map]
  constructor
  · rintro (⟨c, hc, hq⟩ | ⟨c, hc, hq⟩ | ⟨c, hc, hq⟩)
    · exact ⟨c, .inl hc, hq⟩
    · exact ⟨c, .inr (.inl hc), hq⟩
    · exact ⟨c, .inr (.inr hc), hq⟩
  · rintro ⟨c, hc | hc | hc, hq⟩
    · exact .inl ⟨c, hc, hq⟩
    · exact .inr (.inl ⟨c, hc, hq⟩)
    · exact .inr (.inr ⟨c, hc, hq⟩)

theorem commandWords_subset {w : List Char} (h : w ∈ commandWords s) : w ⊆ s :=
  List.Subset.trans (piece_spec (List.mem_of_mem_take h)).2.2 (cut_subset s).1

theorem fileName_subset {o : Option (List Char)} {w : List Char} (ho : ∀ t ∈ o, t ⊆ s) (h : w ∈ fileName o) :
    w ⊆ s := by
  obtain ⟨t, ht, hw⟩ := Option.bind_eq_some_iff.1 h
  apply List.Subset.trans (piece_spec (List.mem_of_mem_head? hw)).2.2
  exact ho t ht

theorem not_lone_of_notMem (h : '"' ∉ s) : ¬ Lone s := by
  have hoperand := (cut_subset s).2
  intro hlone
  apply h
  have hword : ['"'] ⊆ s := by
    rcases List.mem_append.1 hlone with hmem | hmem
    · exact commandWords_subset hmem
    · rcases List.mem_append.1 hmem with hmem | hmem
      · apply fileName_subset _ (Option.mem_toList.1 hmem)
        intro t ht
        exact hoperand t (List.mem_append_left _ (Option.mem_toList.2 ht))
      · apply fileName_subset _ (Option.mem_toList.1 hmem)
        intro t ht
        exact hoperand t (List.mem_append_right _ (Option.mem_toList.2 ht))
  exact hword (List.mem_singleton_self _)

theorem Reads.length_le {x : Cells} (h : Reads (cut s) x) : x.toks.length ≤ 200 := by
  have := congrArg List.length h.toks
  simp only [List.length_map, List.length_take] at this
  omega

/-! ## The first token -/

theorem matchesOne_spec (b : List Char) (a : Arg) (names : List (List Char)) :
    matchesOne b (some a) names = .ok (decide (a.text b ∈ names)) := by
  induction names with
  | nil => rfl
  | cons name names ih =>
    by_cases h : a.text b = name
    · simp [matchesOne, strcmp, h, bind, Except.bind, pure, Except.pure]
    · simp [matchesOne, strcmp, h, ih, bind, Except.bind]

/-- the result of `CommandsChecker` on the name `w` -/
def flagOf (w : List Char) : ℕ := if w ∈ builtinCommands then 1 else if w ∈ customCommands then 2 else 0

theorem flagOf_eq_one_iff {w : List Char} : flagOf w = 1 ↔ w ∈ builtinCommands := by
  unfold flagOf
  split_ifs <;> simp [*]

theorem commandsChecker_spec (b : List Char) (a : Arg) : commandsChecker b (some a) = .ok (flagOf (a.text b)) := by
  simp only [commandsChecker, flagOf, reduceCtorEq, if_false, matchesOne_spec, bind, Except.bind, pure, Except.pure,
    decide_eq_true_eq]
  split_ifs <;> rfl

theorem lifted_read {t : Slots ℕ} {i : ℕ} {a : Option ℕ} (h : t.read i = .ok a) :
    (lifted t).read i = .ok (a.map .ptr) := by
  simp only [Slots.read, lifted] at h ⊢
  cases hi : t i with
  | none => simp [hi] at h
  | some c =>
    rw [hi] at h
    cases h
    rfl

/-- the rewriting of custom commands reads only slots that were written, and leaves built-in commands alone -/
theorem checkCustomCommands_spec {b : List Char} {t : Slots ℕ} {x : Cell} {toks : List Cell} (h : Shows t (x :: toks)) :
    ∃ t', checkCustomCommands b t = .ok t' ∧ (str b x.1 ∈ builtinCommands → t' = lifted t) := by
  have h0 : (lifted t).read 0 = .ok (some (.ptr x.1)) := lifted_read h.read_zero
  have h1 := lifted_read h.read_one
  have h1' : ((lifted t).write 0 (some (.lit "ps".toList))).read 1 = (lifted t).read 1 := by
    simp [Slots.read, Slots.write]
  have hnot : ∀ {w : List Char}, decide (str b x.1 = w) = true → w ∉ builtinCommands → str b x.1 ∉ builtinCommands :=
    fun hw hn => of_decide_eq_true hw ▸ hn
  simp only [checkCustomCommands, h0, strcmp, Arg.text, bind, Except.bind, pure, Except.pure, h1', h1]
  split_ifs with hc1 hc2 hc3
  · exact ⟨_, rfl, fun hb => absurd hb (hnot hc1 (by decide))⟩
  · exact ⟨_, rfl, fun hb => absurd hb (hnot hc2 (by decide))⟩
  · exact ⟨_, rfl, fun hb => absurd hb (hnot hc3 (by decide))⟩
  · exact ⟨_, rfl, fun _ => rfl⟩

/-- the stage that an event starts -/
def Event.starts : Event → Option ℕ
  | .report => none
  | .chdir stage _ | .exit stage | .fork stage _ => some stage

/-- what a built-in command does, by its words -/
def builtinEvent (stage : ℕ) (ws : List (List Char)) : Event :=
  if ws.head? = some "cd".toList then .chdir stage ws[1]? else .exit stage

theorem builtinEvent_starts (stage : ℕ) (ws : List (List Char)) : (builtinEvent stage ws).starts = some stage := by
  unfold builtinEvent
  split_ifs <;> rfl

theorem runBuiltin_spec {b : List Char} {t : Slots ℕ} {x : Cell} {toks : List Cell} (h : Shows t (x :: toks))
    (hb : str b x.1 ∈ builtinCommands) (stage : ℕ) :
    runBuiltin b stage (lifted t) = .ok (builtinEvent stage ((x :: toks).map fun c => str b c.1)) := by
  have h0 : (lifted t).read 0 = .ok (some (.ptr x.1)) := lifted_read h.read_zero
  have h1 := lifted_read h.read_one
  simp only [runBuiltin, builtinEvent, h0, h1, strcmp, Arg.text, bind, Except.bind, pure, Except.pure, List.map_cons,
    List.head?_cons, Option.some.injEq]
  simp only [builtinCommands, List.mem_cons, List.not_mem_nil, or_false] at hb
  rcases hb with hb | hb
  · cases toks with
    | nil => simp [hb]
    | cons y toks => simp [hb]
  · have hne : ¬ "exit".toList = "cd".toList := by decide
    simp [hb]

/-! ## One stage -/

theorem commandWords_ne_nil {x : Cells} (h : Reads (cut s) x) (hw : commandWords s ≠ []) :
    ∃ c toks, x.toks = c :: toks := by
  refine List.exists_cons_of_ne_nil fun hx => hw ?_
  rw [commandWords, ← h.toks, hx, List.map_nil]

theorem toks_eq_nil {x : Cells} (h : Reads (cut s) x) (hw : commandWords s = []) : x.toks = [] := by
  have := h.toks
  rw [← commandWords, hw] at this
  exact List.map_eq_nil_iff.1 this

theorem not_blank (hb : ¬ Blank s) : ∀ o ∈ (cut s).operands, words o ≠ [] := fun o ho hw => hb ⟨o, ho, hw⟩

theorem executeOne_blank (h : Held m.buf ((p, s) :: l)) (hb : Blank s) :
    executeOne m (some p) = .error .nullArgument := by
  simp [executeOne, checkIOParser_blank h hb, bind, Except.bind]

theorem executeOne_report (h : Held m.buf ((p, s) :: l)) (hb : ¬ Blank s) (hw : commandWords s = []) :
    ∃ m', executeOne m (some p) = .ok ([.report], m') ∧ Held m'.buf l := by
  obtain ⟨t, file, m', x, hparse, hp, hr, hheld⟩ := checkIOParser_spec h (not_blank hb)
  have hread := hp.toks.read_zero
  rw [toks_eq_nil hr hw] at hread
  refine ⟨m', ?_, hheld.sublist (List.sublist_append_right _ _)⟩
  simp [executeOne, hparse, hread, bind, Except.bind, pure, Except.pure]

theorem executeOne_lone (h : Held m.buf ((p, s) :: l)) (hb : ¬ Blank s) (hw : commandWords s ≠ []) (hl : Lone s) :
    executeOne m (some p) = .error .beyondTerminator := by
  obtain ⟨t, file, m', x, hparse, hp, hr, hheld⟩ := checkIOParser_spec h (not_blank hb)
  obtain ⟨c, toks, hx⟩ := commandWords_ne_nil hr hw
  have hread := hp.toks.read_zero
  rw [hx] at hread
  rcases quotes_lone hr.length_le hheld hp (hr.lone_iff.1 hl) with hq | ⟨t', m1, hq1, hq2⟩
  · simp [executeOne, hparse, hread, hq, bind, Except.bind]
  · simp [executeOne, hparse, hread, hq1, hq2, bind, Except.bind]

/-- the tokens of a stage after the removal of quotes -/
theorem unquoted_words {b : List Char} {x x' : Cells} (hr : Reads (cut s) x) (hw : commandWords s ≠ [])
    (htoks : x'.toks.map Prod.snd = (x.toks.map Prod.snd).map unquote) (hh : Held b (x'.all ++ l)) :
    ∃ c toks, x'.toks = c :: toks ∧ (c :: toks).map (fun c => str b c.1) = (commandWords s).map unquote := by
  have htext : x'.toks.map (fun c => str b c.1) = (commandWords s).map unquote := by
    rw [commandWords, ← hr.toks, ← htoks]
    refine List.map_congr_left fun c hc => ?_
    exact (hh.holds c (by simp [Cells.all, hc])).str_eq
  obtain ⟨c, toks, hx⟩ : ∃ c toks, x'.toks = c :: toks := by
    refine List.exists_cons_of_ne_nil fun hnil => hw ?_
    rw [hnil] at htext
    exact List.map_eq_nil_iff.1 htext.symm
  exact ⟨c, toks, hx, by rw [← hx, htext]⟩

/-- the program of a stage is a built-in command -/
def Builtin (s : List Char) : Prop := ∃ w ∈ builtinCommands, (commandWords s).head?.map unquote = some w

instance (s : List Char) : Decidable (Builtin s) := inferInstanceAs (Decidable (∃ w ∈ _, _))

theorem builtin_iff {v : List Char} (h : (commandWords s).head?.map unquote = some v) :
    Builtin s ↔ v ∈ builtinCommands := by
  simp [Builtin, h]

theorem head_of_words {b : List Char} {c : Cell} {toks : List Cell}
    (h : (c :: toks).map (fun c => str b c.1) = (commandWords s).map unquote) :
    (commandWords s).head?.map unquote = some (str b c.1) := by
  rw [← List.head?_map, ← h, List.map_cons, List.head?_cons]

/-- a stage that is parsed: the event of a built-in command, or a fork -/
inductive StartedOne (p : ℕ) (s : List Char) : Event → Prop
  | builtin (hb : Builtin s) : StartedOne p s (builtinEvent p ((commandWords s).map unquote))
  | program (hb : ¬ Builtin s) (c : Child) : StartedOne p s (.fork p c)

/-- **One stage.** -/
theorem executeOne_event (h : Held m.buf ((p, s) :: l)) (hb : ¬ Blank s) (hw : commandWords s ≠ []) (hl : ¬ Lone s) :
    ∃ e m', executeOne m (some p) = .ok ([e], m') ∧ StartedOne p s e ∧ Held m'.buf l := by
  obtain ⟨t, file, m', x, hparse, hp, hr, hheld⟩ := checkIOParser_spec h (not_blank hb)
  obtain ⟨c, toks, hx⟩ := commandWords_ne_nil hr hw
  have hread := hp.toks.read_zero
  rw [hx] at hread
  obtain ⟨t', file', m1, m2, x', hq1, hq2, hp', htoks, -, -, hheld'⟩ := quotes_spec hr.length_le hheld hp
    fun c hc hcq => hl (hr.lone_iff.2 ⟨c, hc, hcq⟩)
  have hrest : Held m2.buf l := hheld'.sublist (List.sublist_append_right _ _)
  obtain ⟨c', toks', hx', hwords⟩ := unquoted_words hr hw htoks hheld'
  have hb' : Builtin s ↔ str m2.buf c'.1 ∈ builtinCommands := builtin_iff (head_of_words hwords)
  have hshow := hp'.toks
  rw [hx'] at hshow
  obtain ⟨t'', hcustom, hlift⟩ := checkCustomCommands_spec (b := m2.buf) hshow
  by_cases hbuiltin : str m2.buf c'.1 ∈ builtinCommands
  · have hrun := runBuiltin_spec hshow hbuiltin p
    rw [hwords] at hrun
    refine ⟨_, m2, ?_, .builtin (hb'.2 hbuiltin), hrest⟩
    rw [hlift hbuiltin] at hcustom
    simp [executeOne, hparse, hread, hq1, hq2, hshow.read_zero, commandsChecker_spec, Arg.text, flagOf_eq_one_iff,
      hbuiltin, hcustom, hrun, bind, Except.bind, pure, Except.pure]
  · refine ⟨.fork p (child m2.buf t'' file' (flagOf (str m2.buf c'.1))), m2, ?_, .program (mt hb'.1 hbuiltin) _, hrest⟩
    simp [executeOne, hparse, hread, hq1, hq2, hshow.read_zero, commandsChecker_spec, Arg.text, flagOf_eq_one_iff,
      hbuiltin, hcustom, bind, Except.bind, pure, Except.pure]

theorem executeOne_starts (h : Held m.buf ((p, s) :: l)) (hb : ¬ Blank s) (hw : commandWords s ≠ []) (hl : ¬ Lone s) :
    ∃ e m', executeOne m (some p) = .ok ([e], m') ∧ e.starts = some p := by
  obtain ⟨e, m', hrun, he, -⟩ := executeOne_event h hb hw hl
  refine ⟨e, m', hrun, ?_⟩
  cases he with
  | builtin => exact builtinEvent_starts _ _
  | program => rfl

/-! ## Two stages -/

/-- the two stages of a pipe are strings of their own -/
abbrev Piped (m : Mem) (p1 p2 : ℕ) (s1 s2 : List Char) (l : List Cell) : Prop := Held m.buf ((p1, s1) :: (p2, s2) :: l)

/-- both stages are parsed before anything else happens -/
theorem parseTwo (h : Piped m p1 p2 s1 s2 l) (hb1 : ¬ Blank s1) (hb2 : ¬ Blank s2) :
    ∃ t1 file1 m1 x1 t2 file2 m2 x2,
      checkIOParser m (some p1) ⟨none, none⟩ .empty = .ok (t1, file1, m1) ∧
      checkIOParser m1 (some p2) ⟨none, none⟩ .empty = .ok (t2, file2, m2) ∧ Points t1 file1 x1 ∧ Points t2 file2 x2 ∧
      Reads (cut s1) x1 ∧ Reads (cut s2) x2 ∧ Held m2.buf (x1.all ++ (x2.all ++ l)) := by
  obtain ⟨t1, file1, m1, x1, hparse1, hp1, hr1, h1⟩ := checkIOParser_spec h (not_blank hb1)
  have h1' : Held m1.buf ((p2, s2) :: (x1.all ++ l)) := h1.perm List.perm_middle
  obtain ⟨t2, file2, m2, x2, hparse2, hp2, hr2, h2⟩ := checkIOParser_spec h1' (not_blank hb2)
  refine ⟨t1, file1, m1, x1, t2, file2, m2, x2, hparse1, hparse2, hp1, hp2, hr1, hr2, h2.exchange⟩

theorem executeTwo_blank (h : Piped m p1 p2 s1 s2 l) (hb : Blank s1 ∨ Blank s2) :
    executeTwo m p1 p2 = .error .nullArgument := by
  by_cases hb1 : Blank s1
  · simp [executeTwo, checkIOParser_blank h hb1, bind, Except.bind]
  · obtain ⟨t1, file1, m1, x1, hparse1, -, -, h1⟩ := checkIOParser_spec h (not_blank hb1)
    have h1' : Held m1.buf ((p2, s2) :: (x1.all ++ l)) := h1.perm List.perm_middle
    simp [executeTwo, hparse1, checkIOParser_blank h1' (hb.resolve_left hb1), bind, Except.bind]

theorem executeTwo_report (h : Piped m p1 p2 s1 s2 l) (hb1 : ¬ Blank s1) (hb2 : ¬ Blank s2)
    (hw : commandWords s1 = [] ∨ commandWords s2 = []) :
    ∃ m', executeTwo m p1 p2 = .ok ([.report], m') ∧ Held m'.buf l := by
  obtain ⟨t1, file1, m1, x1, t2, file2, m2, x2, hparse1, hparse2, hp1, hp2, hr1, hr2, hheld⟩ := parseTwo h hb1 hb2
  have hread1 := hp1.toks.read_zero
  have hread2 := hp2.toks.read_zero
  refine ⟨m2, ?_, hheld.sublist ((List.sublist_append_right _ _).trans (List.sublist_append_right _ _))⟩
  by_cases hw1 : commandWords s1 = []
  · rw [toks_eq_nil hr1 hw1] at hread1
    simp [executeTwo, hparse1, hparse2, hread1, bind, Except.bind, pure, Except.pure]
  · obtain ⟨c1, toks1, hx1⟩ := commandWords_ne_nil hr1 hw1
    rw [hx1] at hread1
    rw [toks_eq_nil hr2 (hw.resolve_left hw1)] at hread2
    simp [executeTwo, hparse1, hparse2, hread1, hread2, bind, Except.bind, pure, Except.pure]

theorem executeTwo_lone (h : Piped m p1 p2 s1 s2 l) (hb1 : ¬ Blank s1) (hb2 : ¬ Blank s2)
    (hw1 : commandWords s1 ≠ []) (hw2 : commandWords s2 ≠ []) (hl : Lone s1 ∨ Lone s2) :
    executeTwo m p1 p2 = .error .beyondTerminator := by
  obtain ⟨t1, file1, m1, x1, t2, file2, m2, x2, hparse1, hparse2, hp1, hp2, hr1, hr2, hheld⟩ := parseTwo h hb1 hb2
  obtain ⟨c1, toks1, hx1⟩ := commandWords_ne_nil hr1 hw1
  obtain ⟨c2, toks2, hx2⟩ := commandWords_ne_nil hr2 hw2
  have hread1 := hp1.toks.read_zero
  have hread2 := hp2.toks.read_zero
  rw [hx1] at hread1
  rw [hx2] at hread2
  by_cases hl1 : Lone s1
  · rcases quotes_lone hr1.length_le hheld hp1 (hr1.lone_iff.1 hl1) with hq | ⟨t', m', hq1, hq2⟩
    · simp [executeTwo, hparse1, hparse2, hread1, hread2, hq, bind, Except.bind]
    · simp [executeTwo, hparse1, hparse2, hread1, hread2, hq1, hq2, bind, Except.bind]
  · obtain ⟨t', file', m3, m4, x', hq1, hq2, -, -, -, -, hheld'⟩ := quotes_spec hr1.length_le hheld hp1
      fun c hc hcq => hl1 (hr1.lone_iff.2 ⟨c, hc, hcq⟩)
    have hlone := hr2.lone_iff.1 (hl.resolve_left hl1)
    rcases quotes_lone hr2.length_le hheld'.exchange hp2 hlone with hq | ⟨t2', m5, hq3, hq4⟩
    · simp [executeTwo, hparse1, hparse2, hread1, hread2, hq1, hq2, hq, bind, Except.bind]
    · simp [executeTwo, hparse1, hparse2, hread1, hread2, hq1, hq2, hq3, hq4, bind, Except.bind]

theorem output_eq_none_iff {x x' : Cells} (hr : Reads (cut s) x) (hb : ¬ Blank s)
    (hout : x'.output.map Prod.snd = (x.output.map Prod.snd).map unquote) :
    x'.output = none ↔ (cut s).output = none := by
  rw [hr.output] at hout
  cases ho : (cut s).output with
  | none =>
    rw [ho] at hout
    simpa [fileName] using hout
  | some o =>
    have hne : words o ≠ [] := not_blank hb o (by simp [Cut.operands, ho])
    obtain ⟨w, ws, hw⟩ := List.exists_cons_of_ne_nil hne
    rw [ho, fileName, Option.bind_some, hw] at hout
    refine iff_of_false (fun hn => ?_) (by simp)
    rw [hn] at hout
    cases hout

/-- two stages that are parsed: the second one is forked unless the first is a built-in command or has an output file -/
inductive StartedTwo (p1 p2 : ℕ) (s1 : List Char) : List Event → Prop
  | builtin (hb : Builtin s1) : StartedTwo p1 p2 s1 [builtinEvent p1 ((commandWords s1).map unquote)]
  | output (hb : ¬ Builtin s1) (ho : (cut s1).output ≠ none) (c : Child) : StartedTwo p1 p2 s1 [.fork p1 c]
  | both (hb : ¬ Builtin s1) (ho : (cut s1).output = none) (c1 c2 : Child) :
      StartedTwo p1 p2 s1 [.fork p1 c1, .fork p2 c2]

/-- **Two stages.** -/
theorem executeTwo_events (h : Piped m p1 p2 s1 s2 l) (hb1 : ¬ Blank s1) (hb2 : ¬ Blank s2)
    (hw1 : commandWords s1 ≠ []) (hw2 : commandWords s2 ≠ []) (hl1 : ¬ Lone s1) (hl2 : ¬ Lone s2) :
    ∃ es m', executeTwo m p1 p2 = .ok (es, m') ∧ StartedTwo p1 p2 s1 es ∧ Held m'.buf l := by
  obtain ⟨t1, file1, m1, x1, t2, file2, m2, x2, hparse1, hparse2, hp1, hp2, hr1, hr2, hheld⟩ := parseTwo h hb1 hb2
  obtain ⟨c1, toks1, hx1⟩ := commandWords_ne_nil hr1 hw1
  obtain ⟨c2, toks2, hx2⟩ := commandWords_ne_nil hr2 hw2
  have hread1 := hp1.toks.read_zero
  have hread2 := hp2.toks.read_zero
  rw [hx1] at hread1
  rw [hx2] at hread2
  obtain ⟨t1', file1', m3, m4, x1', hq1, hq2, hp1', htoks1, -, hout1, hheld1⟩ := quotes_spec hr1.length_le hheld hp1
    fun c hc hcq => hl1 (hr1.lone_iff.2 ⟨c, hc, hcq⟩)
  obtain ⟨t2', file2', m5, m6, x2', hq3, hq4, hp2', htoks2, -, -, hheld2⟩ := quotes_spec hr2.length_le
    hheld1.exchange hp2 fun c hc hcq => hl2 (hr2.lone_iff.2 ⟨c, hc, hcq⟩)
  have hrest : Held m6.buf l :=
    hheld2.sublist ((List.sublist_append_right _ _).trans (List.sublist_append_right _ _))
  obtain ⟨c1', toks1', hx1', hwords1⟩ := unquoted_words hr1 hw1 htoks1 hheld2.exchange
  obtain ⟨c2', toks2', hx2', -⟩ := unquoted_words hr2 hw2 htoks2 hheld2
  have hshow1 := hp1'.toks
  have hshow2 := hp2'.toks
  rw [hx1'] at hshow1
  rw [hx2'] at hshow2
  obtain ⟨u1, hcustom1, hlift1⟩ := checkCustomCommands_spec (b := m6.buf) hshow1
  obtain ⟨u2, hcustom2, -⟩ := checkCustomCommands_spec (b := m6.buf) hshow2
  have hout : file1'.output = none ↔ (cut s1).output = none := by
    rw [hp1'.output, Option.map_eq_none_iff]
    exact output_eq_none_iff hr1 hb1 hout1
  have hb : Builtin s1 ↔ str m6.buf c1'.1 ∈ builtinCommands := builtin_iff (head_of_words hwords1)
  by_cases hbuiltin : str m6.buf c1'.1 ∈ builtinCommands
  · have hrun := runBuiltin_spec hshow1 hbuiltin p1
    rw [hwords1] at hrun
    refine ⟨_, m6, ?_, .builtin (hb.2 hbuiltin), hrest⟩
    rw [hlift1 hbuiltin] at hcustom1
    simp [executeTwo, hparse1, hparse2, hread1, hread2, hq1, hq2, hq3, hq4, hshow1.read_zero, hshow2.read_zero,
      commandsChecker_spec, Arg.text, flagOf_eq_one_iff, hbuiltin, hcustom1, hcustom2, hrun, bind, Except.bind, pure,
      Except.pure]
  · by_cases hnone : (cut s1).output = none
    · refine ⟨[.fork p1 (child m6.buf u1 file1' (flagOf (str m6.buf c1'.1))),
        .fork p2 (child m6.buf u2 file2' (flagOf (str m6.buf c2'.1)))], m6, ?_, .both (mt hb.1 hbuiltin) hnone _ _, hrest⟩
      simp [executeTwo, hparse1, hparse2, hread1, hread2, hq1, hq2, hq3, hq4, hshow1.read_zero, hshow2.read_zero,
        commandsChecker_spec, Arg.text, flagOf_eq_one_iff, hbuiltin, hcustom1, hcustom2, hout.2 hnone, bind, Except.bind,
        pure, Except.pure]
    · have hsome : file1'.output ≠ none := fun hn => hnone (hout.1 hn)
      refine ⟨[.fork p1 (child m6.buf u1 file1' (flagOf (str m6.buf c1'.1)))], m6, ?_,
        .output (mt hb.1 hbuiltin) hnone _, hrest⟩
      simp [executeTwo, hparse1, hparse2, hread1, hread2, hq1, hq2, hq3, hq4, hshow1.read_zero, hshow2.read_zero,
        commandsChecker_spec, Arg.text, flagOf_eq_one_iff, hbuiltin, hcustom1, hcustom2, hsome, bind, Except.bind,
        pure, Except.pure]

/-- which stages are started -/
theorem executeTwo_starts (h : Piped m p1 p2 s1 s2 l) (hb1 : ¬ Blank s1) (hb2 : ¬ Blank s2)
    (hw1 : commandWords s1 ≠ []) (hw2 : commandWords s2 ≠ []) (hl1 : ¬ Lone s1) (hl2 : ¬ Lone s2) :
    ∃ es m', executeTwo m p1 p2 = .ok (es, m') ∧
      es.map Event.starts = if ¬ Builtin s1 ∧ (cut s1).output = none then [some p1, some p2] else [some p1] := by
  obtain ⟨es, m', hrun, he, -⟩ := executeTwo_events h hb1 hb2 hw1 hw2 hl1 hl2
  refine ⟨es, m', hrun, ?_⟩
  cases he with
  | builtin hb => simp [hb, builtinEvent_starts]
  | output hb ho => simp [ho, Event.starts]
  | both hb ho => simp [hb, ho, Event.starts]

end DecsLabs.Shell
