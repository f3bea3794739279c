/-
Whole lines: parts between semicolons, each made of stages between bars, each a command with its redirections. The shell
cuts with two calls of `strtok` at both levels, so it looks at two parts of a line and at two stages of a part.

- `Stage`, `Part`: what a line is made of, also with empty parts.
- `part_starts`: the stages of a part that are started.
- `accounted_iff`: exactly when every command of the line is started once or reported.
- `commands_lost`: lines that lose a command.
-/
import DecsLabs.Shell.Redirections
import DecsLabs.Shell.Survival

namespace DecsLabs.Shell

open DecsLabs.CString

/-! ## Lines -/

/-- a simple command -/
structure Stage where
  command : CommandText
  gap : ℕ
  redirection : Redirection
  barless : '|' ∉ render command gap redirection

def Stage.text (x : Stage) : List Char := render x.command x.gap x.redirection

structure Part where
  stages : List Stage
  semicolonless : ';' ∉ join '|' Stage.text stages

def Part.text (x : Part) : List Char := join '|' Stage.text x.stages

/-- the first word is not the name of a built-in command -/
def RunsProgram (s : List Char) : Prop := ∀ w ∈ (words s).head?, w ∉ builtinCommands

/-- the stage is forked, and the parser finds no output file -/
def Stage.PipesOn (x : Stage) : Prop :=
  match x.redirection with
  | .none | .input _ => RunsProgram x.command.text
  | .output _ | .inputOutput _ _ => False
  | .outputInput g f =>
    ¬ (Redirection.outputInput g f).Fits ∧ RunsProgram (padded x.command x.gap ++ '>' :: g.text)

instance (s : List Char) : Decidable (RunsProgram s) := inferInstanceAs (Decidable (∀ w ∈ (words s).head?, _))

instance : DecidablePred Stage.PipesOn := fun x => by
  unfold Stage.PipesOn
  split <;> infer_instance

variable {m : Mem} {p q : ℕ} {x : Stage}

theorem Stage.text_ne (x : Stage) : x.text ≠ [] := by
  intro h
  exact padded_ne x.command x.gap (List.append_eq_nil_iff.1 h).1

/-! ## The stages of a part -/

theorem cut_text (x : Stage) : cut x.text = x.redirection.cutOf (padded x.command x.gap) :=
  cut_render x.command x.gap x.redirection

theorem text_not_blank (x : Stage) : ¬ Blank x.text := by
  rintro ⟨o, ho, hw⟩
  rw [cut_text] at ho
  obtain ⟨f, rfl⟩ := cutOf_operands _ _ o ho
  rw [f.words_text] at hw
  cases hw

/-- the parser takes the command, or the command and more, for the command -/
theorem cut_command (x : Stage) : padded x.command x.gap <+: (cut x.text).command := by
  rw [cut_text]
  cases x.redirection with
  | none | input f | output g => exact List.prefix_rfl
  | inputOutput f g =>
    by_cases hfit : (Redirection.inputOutput f g).Fits
    · simp [Redirection.cutOf, hfit]
    · simp [Redirection.cutOf, hfit]
  | outputInput g f =>
    by_cases hfit : (Redirection.outputInput g f).Fits
    · simp [Redirection.cutOf, hfit]
    · simp [Redirection.cutOf, hfit]

theorem text_commandWords (x : Stage) : commandWords x.text ≠ [] := by
  obtain ⟨c, hc, hb⟩ := x.command.word
  intro h
  rw [commandWords, List.take_eq_nil_iff] at h
  have hnil : words (cut x.text).command = [] := h.resolve_left (by decide)
  apply hb
  apply pieces_eq_nil_iff.1 hnil c
  apply (cut_command x).subset
  exact List.mem_append_left _ hc

theorem quote_notMem_text (x : Stage) : '"' ∉ x.text :=
  render_notMem x.command x.gap x.redirection (by decide) (by decide) (by decide) (by decide)

theorem text_not_lone (x : Stage) : ¬ Lone x.text := not_lone_of_notMem (quote_notMem_text x)

theorem not_builtin_iff (x : Stage) : ¬ Builtin x.text ↔ RunsProgram (cut x.text).command := by
  have hhead : (commandWords x.text).head? = (words (cut x.text).command).head? := by
    rw [commandWords, List.head?_take, if_neg (by decide)]
  rw [Builtin, hhead, RunsProgram]
  cases hw : (words (cut x.text).command).head? with
  | none => simp
  | some w =>
    have hpiece : w ⊆ (cut x.text).command := (piece_spec (List.mem_of_mem_head? hw)).2.2
    have hquote : '"' ∉ w := fun hq => quote_notMem_text x ((cut_subset x.text).1 (hpiece hq))
    simp [unquote_of_notMem hquote]

theorem pipesOn_iff (x : Stage) : x.PipesOn ↔ ¬ Builtin x.text ∧ (cut x.text).output = none := by
  have hwords : RunsProgram (padded x.command x.gap) ↔ RunsProgram x.command.text := by
    rw [RunsProgram, words_padded]
    exact Iff.rfl
  rw [not_builtin_iff, cut_text, Stage.PipesOn]
  cases x.redirection with
  | none | input f => simp [Redirection.cutOf, hwords]
  | output g => simp [Redirection.cutOf]
  | inputOutput f g =>
    by_cases hfit : (Redirection.inputOutput f g).Fits <;> simp [Redirection.cutOf, hfit]
  | outputInput g f =>
    by_cases hfit : (Redirection.outputInput g f).Fits <;> simp [Redirection.cutOf, hfit]

/-- the places of the stages that are started -/
def startedOf : List (ℕ × Stage) → List ℕ
  | [] => []
  | [a] => [a.1]
  | a :: b :: _ => if a.2.PipesOn then [a.1, b.1] else [a.1]

theorem placed_stages (xs : List Stage) (p : ℕ) :
    placed '|' p (join '|' Stage.text xs) = (layout Stage.text p xs).map fun x => (x.1, x.2.text) := by
  rw [placed_join fun x _ => x.barless, List.filter_eq_self]
  intro y hy
  obtain ⟨x, -, rfl⟩ := List.mem_map.1 hy
  simpa using x.2.text_ne

/-- **Parts.** What `executeCommand` starts. -/
theorem part_starts {xs : List Stage} (hne : xs ≠ []) (h : Holds m.buf (p, join '|' Stage.text xs)) : ∃ es m',
    executeCommand m p = .ok (es, m') ∧ es.map Event.starts = (startedOf (layout Stage.text p xs)).map some := by
  have hplaced := placed_stages xs p
  cases xs with
  | nil => exact absurd rfl hne
  | cons a xs =>
    rcases executeCommand_cases h with ⟨hp, -⟩ | ⟨s, q, m', hp, hrun, hheld⟩ |
      ⟨s1, s2, r, q1, q2, m', hp, hrun, hheld⟩
    · rw [hp] at hplaced
      simp [layout] at hplaced
    · rw [hp] at hplaced
      cases xs with
      | cons b xs => simp [layout] at hplaced
      | nil =>
        simp only [layout, List.map_cons, List.map_nil, List.cons.injEq, Prod.mk.injEq, and_true] at hplaced
        obtain ⟨rfl, rfl⟩ := hplaced
        obtain ⟨e, m'', hok, he⟩ := executeOne_starts hheld (text_not_blank a) (text_commandWords a) (text_not_lone a)
        exact ⟨[e], m'', hrun.trans hok, by simp [he, startedOf, layout]⟩
    · rw [hp] at hplaced
      cases xs with
      | nil => simp [layout] at hplaced
      | cons b xs =>
        simp only [layout, List.map_cons, List.cons.injEq, Prod.mk.injEq] at hplaced
        obtain ⟨⟨rfl, rfl⟩, ⟨rfl, rfl⟩, -⟩ := hplaced
        obtain ⟨es, m'', hok, he⟩ := executeTwo_starts hheld (text_not_blank a) (text_not_blank b) (text_commandWords a)
          (text_commandWords b) (text_not_lone a) (text_not_lone b)
        refine ⟨es, m'', hrun.trans hok, ?_⟩
        rw [he]
        by_cases hpipe : a.PipesOn
        · simp [startedOf, layout, hpipe, (pipesOn_iff a).1 hpipe]
        · have hcon := fun hc => hpipe ((pipesOn_iff a).2 hc)
          rw [if_neg hcon]
          simp [startedOf, layout, hpipe]

/-! ## What the calls start -/

def Call.started (c : Call) : List ℕ :=
  match c.result with
  | .ok es => es.filterMap Event.starts
  | .error _ => []

/-- the places of the stages that are started for a line -/
def started (calls : List Call) : List ℕ := calls.flatMap Call.started

/-- the call for the part at `q` prints the report -/
def Reported (calls : List Call) (q : ℕ) : Prop :=
  ∃ c ∈ calls, c.part = q ∧ ∃ es, c.result = .ok es ∧ .report ∈ es

/-- every stage of the line at `p` is started once, or its part is reported -/
def Accounted (calls : List Call) (p : ℕ) (line : List Part) : Prop :=
  ∀ x ∈ layout Part.text p line, ∀ y ∈ layout Stage.text x.1 x.2.stages,
    (started calls).count y.1 = 1 ∨ Reported calls x.1

/-- the call starts the first stage of `xs`, and the second one if it is piped on to -/
def Starts (c : Call) (xs : List (ℕ × Stage)) : Prop :=
  ∃ es, c.result = .ok es ∧ es.map Event.starts = (startedOf xs).map some

theorem Starts.started {c : Call} {xs : List (ℕ × Stage)} (h : Starts c xs) : c.started = startedOf xs := by
  obtain ⟨es, hes, hst⟩ := h
  have : es.filterMap Event.starts = ((startedOf xs).map some).filterMap id := by rw [← hst, List.filterMap_map]; rfl
  simpa [Call.started, hes] using this

theorem Starts.not_report {c : Call} {xs : List (ℕ × Stage)} (h : Starts c xs) {es : List Event}
    (hes : c.result = .ok es) : .report ∉ es := by
  obtain ⟨es', hes', hst⟩ := h
  rw [hes] at hes'
  cases hes'
  intro hrep
  have hmem : none ∈ (startedOf xs).map some := hst ▸ List.mem_map_of_mem (f := Event.starts) hrep
  simp at hmem

theorem call_starts {xs : List Stage} (hne : xs ≠ []) (h : Holds m.buf (q, join '|' Stage.text xs)) :
    Starts (call m q) (layout Stage.text q xs) := by
  obtain ⟨es, m', hrun, hst⟩ := part_starts hne h
  exact ⟨es, by simp [call, hrun, Except.map], hst⟩

theorem not_reported {calls : List Call} (h : ∀ c ∈ calls, ∃ xs, Starts c xs) (q : ℕ) : ¬ Reported calls q := by
  rintro ⟨c, hc, -, es, hes, hrep⟩
  obtain ⟨xs, hxs⟩ := h c hc
  exact hxs.not_report hes hrep

theorem startedOf_two {z : ℕ} {a b : ℕ × Stage} {r : List (ℕ × Stage)} (h : z ∈ startedOf (a :: b :: r)) :
    z = a.1 ∨ z = b.1 := by
  rw [startedOf] at h
  split_ifs at h with hpipe
  · simpa using h
  · exact .inl (by simpa using h)

theorem startedOf_subset {z : ℕ} {xs : List (ℕ × Stage)} (h : z ∈ startedOf xs) : ∃ y ∈ xs, y.1 = z := by
  match xs with
  | [] => simp [startedOf] at h
  | [a] => exact ⟨a, by simp, by simpa [startedOf, eq_comm] using h⟩
  | a :: b :: r =>
    rcases startedOf_two h with rfl | rfl
    · exact ⟨a, by simp, rfl⟩
    · exact ⟨b, by simp, rfl⟩

/-- no stage is left out -/
def Runs : List Stage → Prop
  | [] | [_] => True
  | [a, _] => a.PipesOn
  | _ :: _ :: _ :: _ => False

instance : DecidablePred Runs := fun xs => by
  unfold Runs
  split <;> infer_instance

theorem runs_iff (xs : List Stage) (q : ℕ) :
    (∀ y ∈ layout Stage.text q xs, (startedOf (layout Stage.text q xs)).count y.1 = 1) ↔ Runs xs := by
  match xs with
  | [] => simp [layout, Runs]
  | [a] => simp [layout, startedOf, Runs]
  | [a, b] =>
    have hne : q ≠ q + a.text.length + 1 := by omega
    by_cases hpipe : a.PipesOn
    · simp [layout, startedOf, Runs, hpipe, List.count_cons, hne, hne.symm]
    · simp [layout, startedOf, Runs, hpipe, List.count_cons, hne]
  | a :: b :: c :: r =>
    refine iff_of_false (fun h => ?_) id
    -- the third stage
    obtain ⟨z, hz⟩ : ∃ z, z = q + a.text.length + 1 + b.text.length + 1 := ⟨_, rfl⟩
    have hc : (startedOf (layout Stage.text q (a :: b :: c :: r))).count z = 1 :=
      h (z, c) (by simp [layout, hz])
    have hmem : z ∈ startedOf (layout Stage.text q (a :: b :: c :: r)) := by
      rw [← List.count_pos_iff, hc]
      exact one_pos
    rcases startedOf_two hmem with h1 | h1
    · exact absurd (hz.symm.trans h1) (by simp only; omega)
    · exact absurd (hz.symm.trans h1) (by simp only; omega)

/-! ## The parts of a line -/

theorem Part.text_eq_nil_iff (x : Part) : x.text = [] ↔ x.stages = [] := by
  rw [Part.text]
  cases x.stages with
  | nil => simp
  | cons a r =>
    refine iff_of_false (fun h => ?_) (by simp)
    cases r with
    | nil => exact a.text_ne (by simpa using h)
    | cons b r => simp at h

/-- the parts that have a stage -/
def full (line : List Part) : List Part := line.filter fun x => x.stages ≠ []

def fullAt (p : ℕ) (line : List Part) : List (ℕ × Part) :=
  (layout Part.text p line).filter fun x => x.2.stages ≠ []

theorem fullAt_snd (p : ℕ) (line : List Part) : (fullAt p line).map Prod.snd = full line := by
  have := List.filter_map (f := Prod.snd) (p := fun x : Part => decide (x.stages ≠ [])) (l := layout Part.text p line)
  rw [layout_snd] at this
  exact this.symm

theorem placed_parts (line : List Part) (p : ℕ) :
    placed ';' p (join ';' Part.text line) = (fullAt p line).map fun x => (x.1, x.2.text) := by
  rw [placed_join fun x _ => x.semicolonless, List.filter_map, fullAt]
  refine congrArg _ (List.filter_congr fun x _ => ?_)
  simp [x.2.text_eq_nil_iff]

theorem accounted_iff_full {calls : List Call} {line : List Part} :
    Accounted calls p line ↔ ∀ x ∈ fullAt p line, ∀ y ∈ layout Stage.text x.1 x.2.stages,
      (started calls).count y.1 = 1 ∨ Reported calls x.1 := by
  constructor
  · intro h x hx
    exact h x (List.mem_of_mem_filter hx)
  · intro h x hx y hy
    by_cases hnil : x.2.stages = []
    · rw [hnil] at hy
      simp [layout] at hy
    · exact h x (List.mem_filter.2 ⟨hx, by simpa using hnil⟩) y hy

theorem processLine_one {s w : List Char} (h : Holds m.buf (p, s)) (hp : placed ';' p s = [(q, w)]) :
    ∃ u m', (∀ c ∈ u, c = ';') ∧ q = p + u.length ∧ processLine m p = [call m' p] ∧ Holds m'.buf (p, u ++ w) := by
  obtain ⟨u, t, rfl, rfl, hu, ht⟩ := placed_single hp
  have hpiece : w ∈ pieces ';' (u ++ w ++ t) := by
    rw [← placed_snd ';' p, hp]
    simp
  obtain ⟨hw, hd, -⟩ := piece_spec hpiece
  obtain ⟨m', m'', h1, h2, hhold⟩ := strtok_keeps h hu hw hd ht
  exact ⟨u, m'', hu, rfl, by simp [processLine, commaChecker, h1, h2], hhold⟩

theorem processLine_more {s : List Char} {c1 c2 : Cell} {r : List Cell} (h : Holds m.buf (p, s))
    (hp : placed ';' p s = c1 :: c2 :: r) :
    ∃ m', processLine m p = [call m' c1.1, call m' c2.1] ∧ Held m'.buf [c1, c2] := by
  have hone : Held m.buf [(p, s)] := ⟨by simpa using h, by simp⟩
  obtain ⟨x, y, m', m'', h1, h2, hx, hy, hheld, -⟩ := strtok_two hone ';'
  obtain rfl : x = some c1 := by simpa [hp] using hx
  obtain rfl : y = some c2 := by simpa [hp] using hy
  rw [Option.map_some] at h1 h2
  exact ⟨m'', by simp [processLine, commaChecker, h1, h2], by simpa using hheld⟩

theorem started_range {z : ℕ} {x : Part} (h : z ∈ startedOf (layout Stage.text q x.stages)) :
    q ≤ z ∧ z ≤ q + x.text.length := by
  obtain ⟨y, hy, rfl⟩ := startedOf_subset h
  have := layout_end '|' hy
  rw [Part.text]
  exact ⟨layout_start hy, by omega⟩

/-- semicolons before the first part become part of its first word -/
def Stage.behind (u : List Char) (hu : ∀ c ∈ u, c = ';') (x : Stage) : Stage where
  command :=
    { text := u ++ x.command.text
      plain := by
        intro c hc
        rcases List.mem_append.1 hc with hc | hc
        · rw [hu c hc]
          decide
        · exact x.command.plain c hc
      word := by
        obtain ⟨c, hc, hb⟩ := x.command.word
        exact ⟨c, List.mem_append_right u hc, hb⟩ }
  gap := x.gap
  redirection := x.redirection
  barless := by
    have hbar : '|' ∉ u ++ render x.command x.gap x.redirection := by
      rw [List.mem_append, not_or]
      exact ⟨fun hc => absurd (hu _ hc) (by decide), x.barless⟩
    simpa [render, padded] using hbar

theorem Stage.behind_text (u : List Char) (hu : ∀ c ∈ u, c = ';') (x : Stage) : (x.behind u hu).text = u ++ x.text := by
  simp [Stage.text, Stage.behind, render, padded]

theorem join_behind (u : List Char) (hu : ∀ c ∈ u, c = ';') (a : Stage) (r : List Stage) :
    join '|' Stage.text (a.behind u hu :: r) = u ++ join '|' Stage.text (a :: r) := by
  cases r with
  | nil => simp [Stage.behind_text]
  | cons b r => simp [Stage.behind_text]

/-! ## Every command -/

/-- the lines of which nothing is lost -/
structure Kept (line : List Part) : Prop where
  parts : (full line).length ≤ 2
  stages : ∀ x ∈ full line, Runs x.stages
  /-- a part that is alone is taken from the start of the line -/
  first : (full line).length = 1 → ∀ x ∈ line.head?, x.stages ≠ []

/-- the only part with a stage is the first one exactly if it is at the start -/
theorem first_iff {line : List Part} {x : ℕ × Part} (h : fullAt p line = [x]) :
    (∀ y ∈ line.head?, y.stages ≠ []) ↔ x.1 = p := by
  cases line with
  | nil => cases h
  | cons a line =>
    rw [fullAt, layout] at h
    by_cases ha : a.stages = []
    · rw [List.filter_cons_of_neg (by simpa using ha)] at h
      have hx : x ∈ layout Part.text (p + a.text.length + 1) line := by
        refine List.mem_of_mem_filter (p := fun x : ℕ × Part => decide (x.2.stages ≠ [])) ?_
        rw [h]
        simp
      have := layout_start hx
      exact iff_of_false (by simp [ha]) (by omega)
    · rw [List.filter_cons_of_pos (by simpa using ha)] at h
      obtain ⟨rfl, -⟩ := List.cons.inj h
      exact iff_of_true (by simp [ha]) rfl

theorem accounted_one {line : List Part} {x : ℕ × Part} (h : Holds m.buf (p, join ';' Part.text line))
    (hx : fullAt p line = [x]) : Accounted (processLine m p) p line ↔ Runs x.2.stages ∧ x.1 = p := by
  have hplaced : placed ';' p (join ';' Part.text line) = [(x.1, x.2.text)] := by
    rw [placed_parts, hx]
    rfl
  obtain ⟨u, m', hu, hq, hrun, hhold⟩ := processLine_one h hplaced
  have hne : x.2.stages ≠ [] := by
    have hmem : x ∈ fullAt p line := by simp [hx]
    simpa using (List.mem_filter.1 hmem).2
  rw [accounted_iff_full, hx, hrun]
  by_cases hu0 : u = []
  · subst hu0
    simp only [List.length_nil, Nat.add_zero] at hq
    rw [List.nil_append] at hhold
    have hcall : Starts (call m' p) (layout Stage.text p x.2.stages) := call_starts hne hhold
    have hno : ¬ Reported [call m' p] p := not_reported (by simpa using ⟨_, hcall⟩) p
    have hst : started [call m' p] = startedOf (layout Stage.text p x.2.stages) := by
      rw [started, List.flatMap_singleton, hcall.started]
    simp only [List.mem_singleton, forall_eq, hq, hno, or_false, hst, runs_iff, and_true]
  · refine iff_of_false (fun hacc => ?_) (fun hr => hu0 ?_)
    · obtain ⟨a, r, hxs⟩ := List.exists_cons_of_ne_nil hne
      have htext : u ++ x.2.text = join '|' Stage.text (a.behind u hu :: r) := by rw [join_behind, Part.text, hxs]
      rw [htext] at hhold
      have hcall := call_starts (List.cons_ne_nil _ _) hhold
      have hlen : 0 < u.length := List.length_pos_of_ne_nil hu0
      have hno : ¬ Reported [call m' p] x.1 := not_reported (by simpa using ⟨_, hcall⟩) x.1
      -- the first stage of the part is not started at its place
      have hcount := (hacc x (by simp) (x.1, a) (by simp [hxs, layout])).resolve_right hno
      rw [started, List.flatMap_singleton, hcall.started] at hcount
      have hmem : x.1 ∈ startedOf (layout Stage.text p (a.behind u hu :: r)) :=
        List.count_pos_iff.1 (by rw [hcount]; exact one_pos)
      obtain ⟨y, hy, hyx⟩ := startedOf_subset hmem
      rcases List.mem_cons.1 hy with rfl | hy
      · simp only at hyx
        omega
      · have := layout_start hy
        rw [Stage.behind_text, List.length_append] at this
        have := List.length_pos_of_ne_nil a.text_ne
        omega
    · have hlen : u.length = 0 := by omega
      exact List.length_eq_zero_iff.1 hlen

theorem accounted_more {line : List Part} {x y : ℕ × Part} {r : List (ℕ × Part)}
    (h : Holds m.buf (p, join ';' Part.text line)) (hxy : fullAt p line = x :: y :: r) :
    Accounted (processLine m p) p line ↔ Runs x.2.stages ∧ Runs y.2.stages ∧ r = [] := by
  have hplaced : placed ';' p (join ';' Part.text line) =
      (x.1, x.2.text) :: (y.1, y.2.text) :: r.map fun z => (z.1, z.2.text) := by
    rw [placed_parts, hxy]
    rfl
  obtain ⟨m', hrun, hheld⟩ := processLine_more h hplaced
  have hne : ∀ z ∈ x :: y :: r, z.2.stages ≠ [] := by
    intro z hz
    rw [← hxy] at hz
    simpa using (List.mem_filter.1 hz).2
  have hcx : Starts (call m' x.1) (layout Stage.text x.1 x.2.stages) :=
    call_starts (hne x (by simp)) (hheld.holds (x.1, x.2.text) (by simp))
  have hcy : Starts (call m' y.1) (layout Stage.text y.1 y.2.stages) :=
    call_starts (hne y (by simp)) (hheld.holds (y.1, y.2.text) (by simp))
  have hno (z : ℕ) : ¬ Reported [call m' x.1, call m' y.1] z := not_reported (by simpa using ⟨⟨_, hcx⟩, _, hcy⟩) z
  have hst : started [call m' x.1, call m' y.1] =
      startedOf (layout Stage.text x.1 x.2.stages) ++ startedOf (layout Stage.text y.1 y.2.stages) := by
    simp [started, hcx.started, hcy.started]
  -- the parts do not overlap
  have hpair : (x :: y :: r).Pairwise fun a b => a.1 + a.2.text.length < b.1 := by
    rw [← hxy]
    exact (layout_pairwise p line).filter _
  obtain ⟨hx, hpair⟩ := List.pairwise_cons.1 hpair
  obtain ⟨hy, -⟩ := List.pairwise_cons.1 hpair
  have hxy' := hx y (by simp)
  have hzero {z : ℕ} {w : ℕ × Part} (hz : z < w.1 ∨ w.1 + w.2.text.length < z) :
      (startedOf (layout Stage.text w.1 w.2.stages)).count z = 0 := by
    refine List.count_eq_zero.2 fun hmem => ?_
    have := started_range hmem
    omega
  have hrange {w : ℕ × Part} {v : ℕ × Stage} (hv : v ∈ layout Stage.text w.1 w.2.stages) :
      w.1 ≤ v.1 ∧ v.1 ≤ w.1 + w.2.text.length := by
    have := layout_end '|' hv
    rw [Part.text]
    exact ⟨layout_start hv, by omega⟩
  rw [accounted_iff_full, hxy, hrun]
  simp only [hno, or_false, hst, List.count_append]
  constructor
  · intro hacc
    refine ⟨(runs_iff _ x.1).1 fun v hv => ?_, (runs_iff _ y.1).1 fun v hv => ?_, ?_⟩
    · have hv' := hrange hv
      have := hacc x (by simp) v hv
      rwa [hzero (w := y) (by omega), Nat.add_zero] at this
    · have hv' := hrange hv
      have := hacc y (by simp) v hv
      rwa [hzero (w := x) (by omega), Nat.zero_add] at this
    · by_contra hr
      obtain ⟨z, r', rfl⟩ := List.exists_cons_of_ne_nil hr
      obtain ⟨a, s, hzs⟩ := List.exists_cons_of_ne_nil (hne z (by simp))
      have := hacc z (by simp) (z.1, a) (by simp [hzs, layout])
      have hxz := hx z (by simp)
      have hyz := hy z (by simp)
      rw [hzero (w := x) (.inr hxz), hzero (w := y) (.inr hyz)] at this
      omega
  · rintro ⟨hrx, hry, rfl⟩ z hz v hv
    have hv' := hrange hv
    simp only [List.mem_cons, List.not_mem_nil, or_false] at hz
    rcases hz with rfl | rfl
    · rw [(runs_iff _ _).2 hrx v hv, hzero (w := y) (by omega)]
    · rw [(runs_iff _ _).2 hry v hv, hzero (w := x) (by omega)]

/-- **No command is lost.** Exactly for these lines, wherever the line is in the memory. -/
theorem accounted_iff {line : List Part} (h : Holds m.buf (p, join ';' Part.text line)) :
    Accounted (processLine m p) p line ↔ Kept line := by
  have hfull := fullAt_snd p line
  match hf : fullAt p line with
  | [] =>
    rw [hf] at hfull
    refine iff_of_true (accounted_iff_full.2 (by simp [hf])) ⟨?_, ?_, ?_⟩ <;> simp [← hfull]
  | [x] =>
    rw [accounted_one h hf, ← first_iff hf]
    rw [hf] at hfull
    constructor
    · rintro ⟨hruns, hfirst⟩
      exact ⟨by simp [← hfull], by simpa [← hfull] using hruns, fun _ => hfirst⟩
    · intro hk
      exact ⟨hk.stages x.2 (by simp [← hfull]), hk.first (by simp [← hfull])⟩
  | x :: y :: r =>
    rw [accounted_more h hf]
    rw [hf] at hfull
    constructor
    · rintro ⟨hx, hy, rfl⟩
      exact ⟨by simp [← hfull], by simp [← hfull, hx, hy], by simp [← hfull]⟩
    · intro hk
      have hlen := hk.parts
      simp only [← hfull, List.length_map, List.length_cons] at hlen
      exact ⟨hk.stages x.2 (by simp [← hfull]), hk.stages y.2 (by simp [← hfull]),
        List.length_eq_zero_iff.1 (by omega)⟩

def wc : Stage := ⟨⟨"wc".toList, plain_of_all (by decide), 'w', by decide, by decide⟩, 0, .none, by decide⟩

def sorting : Stage := ⟨sortCommand, 1, .input inName, by decide⟩

def listing : Stage :=
  ⟨⟨"ls".toList, plain_of_all (by decide), 'l', by decide, by decide⟩, 1, .output outName, by decide⟩

/-- `sort -r <in | wc;ls > out` -/
def keptLine : List Part := [⟨[sorting, wc], by decide⟩, ⟨[listing], by decide⟩]

theorem accounted_iff_example :
    Accounted (processLine ⟨join ';' Part.text keptLine ++ [nul], 0⟩ 0) 0 keptLine :=
  (accounted_iff (.alone (by decide))).2 ⟨by decide, by decide, by decide⟩

/-- `wc;wc;ls > out` -/
def threeParts : List Part := [⟨[wc], by decide⟩, ⟨[wc], by decide⟩, ⟨[listing], by decide⟩]

/-- `sort -r <in | wc|wc` -/
def threeStages : List Part := [⟨[sorting, wc, wc], by decide⟩]

/-- `ls > out | wc` -/
def outputThenBar : List Part := [⟨[listing, wc], by decide⟩]

/-- a third part, a third stage, and a stage behind an output redirection are lost -/
theorem commands_lost :
    ¬ Accounted (processLine ⟨join ';' Part.text threeParts ++ [nul], 0⟩ 0) 0 threeParts ∧
    ¬ Accounted (processLine ⟨join ';' Part.text threeStages ++ [nul], 0⟩ 0) 0 threeStages ∧
    ¬ Accounted (processLine ⟨join ';' Part.text outputThenBar ++ [nul], 0⟩ 0) 0 outputThenBar := by
  refine ⟨fun h => ?_, fun h => ?_, fun h => ?_⟩
  · have hrest := ((accounted_more (.alone (by decide)) rfl).1 h).2.2
    cases hrest
  · exact ((accounted_one (.alone (by decide)) rfl).1 h).1
  · exact ((accounted_one (.alone (by decide)) rfl).1 h).1

end DecsLabs.Shell
