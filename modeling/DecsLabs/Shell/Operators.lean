/-
What becomes of the redirection operators of a stage. The parser finds the operator to cut at from the last ones in the
stage (`strrchr`), and then cuts at the first ones (`strtok`), with those at the very start left out. So an operator may
stay in the command, and a file name may become the command.

- `cutOperator`: the operator at which a stage is cut first. `command_between` is the command that it leaves.
- `operatorFree_iff`: exactly when no operator is left in a token or a file name.
- `runsCommand_iff`: exactly when the program comes from the text before the operators.
-/
import DecsLabs.Shell.Arrays
import DecsLabs.Shell.Starts

namespace DecsLabs.Shell

open DecsLabs.CString

variable {m m' : Mem} {p : ℕ} {s l : List Char} {t : Slots ℕ} {file : Files ℕ} {d : Char}

/-! ## The command of a stage -/

/-- the operator at which a stage is cut first -/
def cutOperator (s : List Char) : Char := if '<' ∈ s ∧ ¬ ('>' ∈ s ∧ OutputFirst s) then '<' else '>'

def otherOperator (d : Char) : Char := if d = '<' then '>' else '<'

/-- the stage without the operators at its start, if they are the ones to cut at -/
def behindLeading (s : List Char) : List Char := s.dropWhile (· == cutOperator s)

/-- the rest of a text, from its first operator on -/
def fromOperator (s : List Char) : List Char := s.dropWhile fun c => c != '<' && c != '>'

theorem cutOperator_cases (s : List Char) : cutOperator s = '<' ∨ cutOperator s = '>' := by
  unfold cutOperator
  split_ifs
  · exact .inl rfl
  · exact .inr rfl

theorem operator_cases (s : List Char) {c : Char} (hc : c = '<' ∨ c = '>') :
    c = cutOperator s ∨ c = otherOperator (cutOperator s) := by
  rcases cutOperator_cases s with hd | hd
  · rw [hd]
    exact hc
  · rw [hd]
    exact hc.symm

theorem otherOperator_ne (s : List Char) : otherOperator (cutOperator s) ≠ cutOperator s := by
  rcases cutOperator_cases s with hd | hd <;> rw [hd] <;> decide

theorem otherOperator_cases (s : List Char) :
    otherOperator (cutOperator s) = '<' ∨ otherOperator (cutOperator s) = '>' := by
  rcases cutOperator_cases s with hd | hd <;> rw [hd]
  · exact .inr rfl
  · exact .inl rfl

/-- **The command.** It is what stands between the operators at the start and the next one of the same kind. -/
theorem command_between (s : List Char) : (cut s).command = (behindLeading s).takeWhile (· != cutOperator s) := by
  unfold cut behindLeading cutOperator
  by_cases hin : '<' ∈ s
  · by_cases hout : '>' ∈ s
    · by_cases hf : OutputFirst s <;> simp [hin, hout, hf, cutTwice, pieces_zero]
    · simp [hin, hout, pieces_zero]
  · by_cases hout : '>' ∈ s
    · simp [hin, hout, pieces_zero]
    · have hwhole : (pieces '>' s)[0]?.getD [] = s := by
        by_cases hs : s = []
        · rw [hs]
          rfl
        · rw [pieces_whole hs hout]
          rfl
      simp only [hin, hout, if_false, false_and]
      rw [← pieces_zero, hwhole]

theorem beforeOperator_append (s : List Char) : beforeOperator s ++ fromOperator s = s :=
  List.takeWhile_append_dropWhile

theorem notMem_beforeOperator (s : List Char) {c : Char} (hc : c = '<' ∨ c = '>') : c ∉ beforeOperator s := by
  intro h
  have := List.mem_takeWhile_imp h
  rcases hc with rfl | rfl <;> simp at this

theorem fromOperator_head {o : Char} {r : List Char} (h : fromOperator s = o :: r) : o = '<' ∨ o = '>' := by
  have hhead := List.head?_dropWhile_not (fun c => c != '<' && c != '>') s
  unfold fromOperator at h
  rw [h] at hhead
  by_contra hcon
  rw [not_or] at hcon
  simp [hcon] at hhead

/-- the command, by the first operator behind those at the start -/
theorem command_cases (s : List Char) :
    ((fromOperator (behindLeading s)).head? ≠ some (otherOperator (cutOperator s)) ∧
      (cut s).command = beforeOperator (behindLeading s)) ∨
    ∃ r, fromOperator (behindLeading s) = otherOperator (cutOperator s) :: r ∧
      (cut s).command = beforeOperator (behindLeading s) ++
        otherOperator (cutOperator s) :: r.takeWhile (· != cutOperator s) := by
  have hd := notMem_beforeOperator (behindLeading s) (cutOperator_cases s)
  have hsplit := beforeOperator_append (behindLeading s)
  rw [command_between]
  cases hr : fromOperator (behindLeading s) with
  | nil =>
    refine .inl ⟨by simp, ?_⟩
    rw [hr, List.append_nil] at hsplit
    rw [hsplit] at hd ⊢
    exact takeWhile_whole hd
  | cons o r =>
    rw [hr] at hsplit
    rcases operator_cases s (fromOperator_head hr) with rfl | rfl
    · refine .inl ⟨by simpa using (otherOperator_ne s).symm, ?_⟩
      conv_lhs => rw [← hsplit]
      exact takeWhile_cut hd
    · refine .inr ⟨r, rfl, ?_⟩
      conv_lhs => rw [← hsplit]
      rw [List.takeWhile_append_of_pos (ne_of_notMem hd), List.takeWhile_cons_of_pos]
      simpa using otherOperator_ne s

/-! ## Operators that stay -/

def Unmarked (w : List Char) : Prop := '<' ∉ w ∧ '>' ∉ w

instance (w : List Char) : Decidable (Unmarked w) := inferInstanceAs (Decidable (_ ∧ _))

/-- no token and no file name has an operator -/
structure OperatorFree (m : Mem) (t : Slots ℕ) (file : Files ℕ) : Prop where
  tokens : ∀ k q, t k = some (some q) → Unmarked (str m.buf q)
  input : ∀ q ∈ file.input, Unmarked (str m.buf q)
  output : ∀ q ∈ file.output, Unmarked (str m.buf q)

/-- behind the operators at its start, the next operator of the stage is the other one, and the word that it stands in is
one of the first 200 -/
def Leaks (s : List Char) : Prop :=
  (fromOperator (behindLeading s)).head? = some (otherOperator (cutOperator s)) ∧
    (words (beforeOperator (behindLeading s) ++ [otherOperator (cutOperator s)])).length ≤ 200

instance (s : List Char) : Decidable (Leaks s) := inferInstanceAs (Decidable (_ ∧ _))

theorem unmarked_iff {w : List Char} (s : List Char) :
    Unmarked w ↔ cutOperator s ∉ w ∧ otherOperator (cutOperator s) ∉ w := by
  rcases cutOperator_cases s with hd | hd <;> rw [hd]
  · exact Iff.rfl
  · exact and_comm

theorem Unmarked.subset {w v : List Char} (h : Unmarked v) (hw : w ⊆ v) : Unmarked w :=
  ⟨fun hc => h.1 (hw hc), fun hc => h.2 (hw hc)⟩

theorem pieces_operand {e : Char} (hde : (d = '<' ∨ d = '>') ∧ (e = '<' ∨ e = '>') ∧ d ≠ e) {i : ℕ} :
    ∀ o ∈ (pieces e ((pieces d s)[1]?.getD []))[i]?, Unmarked o := by
  intro o ho
  have hsub : o ⊆ (pieces d s)[1]?.getD [] := piece_subset ho
  have he : e ∉ o := (piece_spec (List.mem_of_getElem? ho)).2.1
  have hd : d ∉ o := by
    intro hmem
    have hmem' := hsub hmem
    cases hp : (pieces d s)[1]? with
    | none =>
      rw [hp] at hmem'
      cases hmem'
    | some w =>
      rw [hp] at hmem'
      exact (piece_spec (List.mem_of_getElem? hp)).2.1 hmem'
  obtain ⟨rfl | rfl, rfl | rfl, hne⟩ := hde
  · exact absurd rfl hne
  · exact ⟨hd, he⟩
  · exact ⟨he, hd⟩
  · exact absurd rfl hne

/-- the operands are cut at both operators -/
theorem operands_unmarked (s : List Char) : ∀ o ∈ (cut s).operands, Unmarked o := by
  have hsingle {d e : Char} (hd : e ∉ s) : ∀ o ∈ (pieces d s)[1]?, d ∉ o ∧ e ∉ o := by
    intro o ho
    exact ⟨(piece_spec (List.mem_of_getElem? ho)).2.1, fun he => hd (piece_subset ho he)⟩
  simp only [Cut.operands, List.mem_append, Option.mem_toList, or_imp, forall_and]
  unfold cut
  split_ifs with hin hout hf hout
  · exact ⟨pieces_operand (by decide), pieces_operand (by decide)⟩
  · exact ⟨pieces_operand (by decide), pieces_operand (by decide)⟩
  · exact ⟨hsingle hout, by simp⟩
  · exact ⟨by simp, fun o ho => (hsingle hin o ho).symm⟩
  · exact ⟨by simp, by simp⟩

/-- an operator that stays is in the command -/
theorem leaks_iff (s : List Char) : Leaks s ↔ ∃ w ∈ commandWords s, otherOperator (cutOperator s) ∈ w := by
  have hother := notMem_beforeOperator (behindLeading s) (otherOperator_cases s)
  rw [Leaks, commandWords]
  rcases command_cases s with ⟨hne, hcommand⟩ | ⟨r, hr, hcommand⟩
  · rw [hcommand]
    refine iff_of_false (fun h => hne h.1) ?_
    rintro ⟨w, hw, he⟩
    exact hother ((piece_spec (List.mem_of_mem_take hw)).2.2 _ he)
  · have hblank : otherOperator (cutOperator s) ≠ ' ' := by
      rcases otherOperator_cases s with h | h <;> rw [h] <;> decide
    rw [hcommand, exists_mem_take_iff hblank hother, hr]
    simp

theorem commandWords_unmarked_iff (s : List Char) : (∀ w ∈ commandWords s, Unmarked w) ↔ ¬ Leaks s := by
  have hcut (w : List Char) (hw : w ∈ commandWords s) : cutOperator s ∉ w := by
    intro hmem
    have hcommand : cutOperator s ∈ (cut s).command := (piece_spec (List.mem_of_mem_take hw)).2.2 _ hmem
    rw [command_between] at hcommand
    simpa using List.mem_takeWhile_imp hcommand
  rw [leaks_iff, not_exists]
  constructor
  · rintro h w ⟨hw, he⟩
    exact ((unmarked_iff s).1 (h w hw)).2 he
  · intro h w hw
    exact (unmarked_iff s).2 ⟨hcut w hw, fun he => h w ⟨hw, he⟩⟩

theorem fileName_unmarked {o : Option (List Char)} (ho : ∀ w ∈ o, Unmarked w) : ∀ w ∈ fileName o, Unmarked w := by
  intro w hw
  obtain ⟨v, hv, hhead⟩ := Option.bind_eq_some_iff.1 hw
  apply (ho v hv).subset
  exact (piece_spec (List.mem_of_mem_head? hhead)).2.2

/-- **Operators.** Whenever `checkIOParser` returns. -/
theorem operatorFree_iff (h : Holds m.buf (p, s))
    (hrun : checkIOParser m (some p) ⟨none, none⟩ .empty = .ok (t, file, m')) : OperatorFree m' t file ↔ ¬ Leaks s := by
  have hone : Held m.buf [(p, s)] := ⟨by simpa using h, by simp⟩
  have hblank : ¬ Blank s := by
    intro hb
    rw [checkIOParser_blank hone hb] at hrun
    cases hrun
  obtain ⟨t1, file1, m1, x, hparse, hp, hr, hheld⟩ := checkIOParser_spec hone (not_blank hblank)
  obtain ⟨rfl, rfl, rfl⟩ : t1 = t ∧ file1 = file ∧ m1 = m' := by
    rw [hparse] at hrun
    cases hrun
    exact ⟨rfl, rfl, rfl⟩
  have hexact := checkIOParser_exact hparse hp.toks hr.length_le
  have hunmarked := operands_unmarked s
  simp only [Cut.operands, List.mem_append, Option.mem_toList, or_imp, forall_and] at hunmarked
  have hfile {y : Option Cell} {o : Option (List Char)} (hy : ∀ c, y = some c → c ∈ x.all)
      (hname : y.map Prod.snd = fileName o) (ho : ∀ w ∈ o, Unmarked w) :
      ∀ q ∈ y.map Prod.fst, Unmarked (str m1.buf q) := by
    intro q hq
    obtain ⟨c, hc, rfl⟩ := Option.map_eq_some_iff.1 hq
    rw [(hheld.holds c (List.mem_append_left _ (hy c hc))).str_eq]
    apply fileName_unmarked ho
    rw [← hname, hc]
    rfl
  have hin := hfile (fun c hc => by simp [Cells.all, hc]) hr.input hunmarked.1
  have hout := hfile (fun c hc => by simp [Cells.all, hc]) hr.output hunmarked.2
  rw [← hp.input] at hin
  rw [← hp.output] at hout
  have htext (c : Cell) (hc : c ∈ x.toks) : str m1.buf c.1 = c.2 := (hheld.holds c (by simp [Cells.all, hc])).str_eq
  rw [← commandWords_unmarked_iff, commandWords, ← hr.toks]
  constructor
  · intro hfree w hw
    obtain ⟨c, hc, rfl⟩ := List.mem_map.1 hw
    obtain ⟨k, hk⟩ := List.mem_iff_getElem?.1 hc
    rw [← htext c hc]
    exact hfree.tokens k c.1 (hp.toks.ptr k c hk)
  · intro hwords
    refine ⟨fun k q hk => ?_, hin, hout⟩
    rw [hexact, slotsOf] at hk
    split_ifs at hk
    obtain ⟨c, hc, rfl⟩ := Option.map_eq_some_iff.1 ((List.getElem?_map ..).symm.trans (Option.some.inj hk))
    have hmem : c ∈ x.toks := List.mem_of_getElem? hc
    rw [htext c hmem]
    exact hwords c.2 (List.mem_map_of_mem hmem)

theorem operatorFree_iff_example : ∃ t file m',
    checkIOParser ⟨"sort < in > out".toList ++ [nul], 0⟩ (some 0) ⟨none, none⟩ .empty = .ok (t, file, m') ∧
      OperatorFree m' t file := by
  have h : Holds (⟨"sort < in > out".toList ++ [nul], 0⟩ : Mem).buf (0, "sort < in > out".toList) := .alone (by decide)
  have hblank : ¬ Blank "sort < in > out".toList := by decide
  have hone : Held (⟨"sort < in > out".toList ++ [nul], 0⟩ : Mem).buf [(0, "sort < in > out".toList)] :=
    ⟨by simpa only [List.mem_singleton, forall_eq] using h, by simp⟩
  obtain ⟨t, file, m', x, hrun, -⟩ := checkIOParser_spec hone (not_blank hblank)
  exact ⟨t, file, m', hrun, (operatorFree_iff h hrun).2 (by decide)⟩

/-- the last `>` is before the last `<`, so the stage is cut at `>`, and the first `<` and its file are left in the command -/
theorem repeated_operator : ∃ t file m',
    checkIOParser ⟨"a < b > c < d".toList ++ [nul], 0⟩ (some 0) ⟨none, none⟩ .empty = .ok (t, file, m') ∧
      ¬ OperatorFree m' t file := by
  refine ⟨_, _, _, rfl, fun h => ?_⟩
  exact absurd (h.tokens 1 2 rfl) (by decide)

/-! ## The program of a stage -/

/-- `str1Tokens[0]` when the event happens -/
def Event.program : Event → Option (List Char)
  | .report => none
  | .chdir _ _ => some "cd".toList
  | .exit _ => some "exit".toList
  | .fork _ c => c.argv.head?

/-- **The program.** It is named by the first word of the command. -/
theorem StartsOne.program_eq {e : Event} (he : StartsOne p s e) (hw : commandWords s ≠ []) :
    e.program = (commandWords s).head?.map programName := by
  cases he with
  | builtin hb =>
    obtain ⟨w, ws, hw⟩ := List.exists_cons_of_ne_nil hw
    have hhead : (commandWords s).head?.map opened = some (opened w) := by rw [hw]; rfl
    have hmem := (builtin_iff_opened hhead).1 hb
    have hname := renamed_builtin hmem
    rw [builtinEvent, hw]
    simp only [builtinCommands, List.mem_cons, List.not_mem_nil, or_false] at hmem
    simp only [List.map_cons, List.head?_cons, Option.some.injEq, Option.map_some, programName, hname]
    rcases hmem with hcd | hexit
    · rw [if_pos hcd, hcd]
      rfl
    · have hne : opened w ≠ "cd".toList := by
        rw [hexit]
        decide
      rw [if_neg hne, hexit]
      rfl
  | program hb c hc => exact hc

/-! ## A program from the text before the operators -/

/-- a quote at the start that is closed again, as the removal of quotes sees it -/
def Closed (w : List Char) : Prop := w.head? = some '"' ∧ '"' ∈ w.drop 2

instance (w : List Char) : Decidable (Closed w) := inferInstanceAs (Decidable (_ ∧ _))

theorem unquote_subset (w : List Char) : unquote w ⊆ w := by
  unfold unquote
  split
  · intro c hc
    rcases List.mem_cons.1 hc with rfl | hc
    · simp
    · exact List.mem_cons_of_mem _ (List.mem_cons_of_mem _ ((List.takeWhile_prefix _).subset hc))
  · exact List.Subset.refl _

theorem unquote_closed {w : List Char} (h : Closed w) (v : List Char) : unquote (w ++ v) = unquote w := by
  obtain ⟨hhead, hmem⟩ := h
  match w with
  | [] => cases hhead
  | [c] => cases hmem
  | x :: c :: t =>
    obtain rfl : x = '"' := Option.some.inj hhead
    obtain ⟨a, b, rfl, ha⟩ := List.eq_append_cons_of_mem (hmem : '"' ∈ t)
    rw [List.cons_append, List.cons_append, unquote, unquote, List.append_assoc, List.cons_append, takeWhile_cut ha,
      takeWhile_cut ha]

theorem unquote_of_head_ne {x : Char} (hx : x ≠ '"') (v : List Char) : unquote (x :: v) = x :: v := by
  unfold unquote
  split
  · rename_i heq
    exact absurd (List.cons.inj heq).1 hx
  · rfl

theorem mem_unquote {w v : List Char} {c : Char} (hw : w ≠ []) (h : ¬ Closed w) (hc : c ≠ '"') :
    c ∈ unquote (w ++ c :: v) := by
  obtain ⟨x, u, rfl⟩ := List.exists_cons_of_ne_nil hw
  by_cases hx : x = '"'
  · subst hx
    cases u with
    | nil => exact List.mem_cons_self
    | cons y u =>
      have hu : '"' ∉ u := fun hmem => h ⟨rfl, hmem⟩
      rw [List.cons_append, List.cons_append, unquote, List.takeWhile_append_of_pos (ne_of_notMem hu),
        List.takeWhile_cons_of_pos (by simpa using hc)]
      simp
  · rw [List.cons_append, unquote_of_head_ne hx]
    simp

theorem opened_subset (w : List Char) : opened w ⊆ w := by
  unfold opened
  split_ifs
  · exact List.nil_subset _
  · exact unquote_subset w

theorem opened_closed {w : List Char} (h : Closed w) (v : List Char) : opened (w ++ v) = opened w := by
  have hlong : 2 < w.length := by
    have hpos := List.length_pos_of_mem h.2
    rw [List.length_drop] at hpos
    omega
  have hne (v : List Char) : w ++ v ≠ ['"'] := by
    intro he
    have hlen := congrArg List.length he
    simp only [List.length_append, List.length_singleton] at hlen
    omega
  rw [opened_of_ne (hne v), unquote_closed h, ← List.append_nil w, opened_of_ne (hne []), List.append_nil]

theorem mem_opened {w v : List Char} {c : Char} (hw : w ≠ []) (h : ¬ Closed w) (hc : c ≠ '"') :
    c ∈ opened (w ++ c :: v) := by
  rw [opened_of_ne]
  · exact mem_unquote hw h hc
  · intro he
    have hlen := congrArg List.length he
    have hpos := List.length_pos_of_ne_nil hw
    simp only [List.length_append, List.length_cons, List.length_nil] at hlen
    omega

theorem renamed_cases (w : List Char) : renamed w = w ∨ Unmarked w ∧ Unmarked (renamed w) := by
  unfold renamed
  split_ifs with h1 h2 h3
  · exact .inr (by rw [h1]; decide)
  · exact .inr (by rw [h2]; decide)
  · exact .inr (by rw [h3]; decide)
  · exact .inl rfl

theorem programName_unmarked {w : List Char} (h : Unmarked w) : Unmarked (programName w) := by
  have hw : Unmarked (opened w) := h.subset (opened_subset w)
  unfold programName
  rcases renamed_cases (opened w) with heq | ⟨-, hr⟩
  · rwa [heq]
  · exact hr

/-- the other operator is glued to the first word of the stage, outside of quotes -/
def Glued (s : List Char) : Prop :=
  (fromOperator s).head? = some (otherOperator (cutOperator s)) ∧ ' ' ∉ (beforeOperator s).dropWhile (· == ' ') ∧
    ¬ Closed ((beforeOperator s).dropWhile (· == ' '))

instance (s : List Char) : Decidable (Glued s) := inferInstanceAs (Decidable (_ ∧ _))

theorem words_head {u : List Char} (h : words u ≠ []) :
    (words u).head? = some ((u.dropWhile (· == ' ')).takeWhile (· != ' ')) := by
  obtain ⟨w, ws, hw⟩ := List.exists_cons_of_ne_nil h
  have hzero := pieces_zero ' ' u
  rw [show pieces ' ' u = words u from rfl, hw] at hzero
  rw [hw, ← hzero]
  rfl

theorem dropWhile_blank_ne {u : List Char} (h : words u ≠ []) : u.dropWhile (· == ' ') ≠ [] := by
  intro hnil
  apply h
  rw [pieces_eq_nil_iff]
  intro c hc
  simpa using List.dropWhile_eq_nil_iff.1 hnil c hc

theorem commandWords_head (s : List Char) : (commandWords s).head? = (words (cut s).command).head? := by
  rw [commandWords]
  cases words (cut s).command with
  | nil => rfl
  | cons w ws => rfl

/-- a stage that starts with a word has no operators to leave out -/
theorem behindLeading_of_word (h : words (beforeOperator s) ≠ []) : behindLeading s = s := by
  cases s with
  | nil => rfl
  | cons c s =>
    have hc : c ≠ '<' ∧ c ≠ '>' := by
      by_contra hop
      apply h
      have hnil : beforeOperator (c :: s) = [] := by
        rw [beforeOperator, List.takeWhile_cons_of_neg]
        simpa only [Bool.and_eq_true, bne_iff_ne] using hop
      rw [hnil]
      rfl
    rw [behindLeading, List.dropWhile_cons_of_neg]
    rcases cutOperator_cases (c :: s) with hd | hd <;> rw [hd]
    · simpa using hc.1
    · simpa using hc.2

/-- the first word of the command, when no operator is glued to the first word of the stage -/
theorem commandWords_head_of_free (h : words (beforeOperator s) ≠ [])
    (hfree : (fromOperator s).head? = some (otherOperator (cutOperator s)) →
      ' ' ∈ (beforeOperator s).dropWhile (· == ' ')) : (commandWords s).head? = (words (beforeOperator s)).head? := by
  rw [commandWords_head]
  rcases command_cases s with ⟨-, hcommand⟩ | ⟨r, hr, hcommand⟩
  · rw [hcommand, behindLeading_of_word h]
  · rw [behindLeading_of_word h] at hr hcommand
    have hblank := hfree (by rw [hr]; rfl)
    have hne := dropWhile_blank_ne h
    obtain ⟨a, b, hu, ha⟩ := List.eq_append_cons_of_mem hblank
    have hcommandWords : words (cut s).command ≠ [] := by
      intro hnil
      have hle := length_pieces_le (d := ' ') (beforeOperator s)
        (otherOperator (cutOperator s) :: r.takeWhile (· != cutOperator s))
      rw [← hcommand, show pieces ' ' (cut s).command = [] from hnil] at hle
      exact h (List.eq_nil_of_length_eq_zero (Nat.le_zero.1 hle))
    rw [words_head hcommandWords, words_head h, hcommand, List.dropWhile_append, if_neg (by simpa using hne), hu,
      List.append_assoc, List.cons_append, takeWhile_cut ha, takeWhile_cut ha]

/-- the first word of the command, when the other operator is glued to the first word of the stage -/
theorem commandWords_head_of_glued (h : words (beforeOperator s) ≠ [])
    (hhead : (fromOperator s).head? = some (otherOperator (cutOperator s)))
    (hblank : ' ' ∉ (beforeOperator s).dropWhile (· == ' ')) : ∃ v, (commandWords s).head? =
      some ((beforeOperator s).dropWhile (· == ' ') ++ otherOperator (cutOperator s) :: v) := by
  rw [commandWords_head]
  rcases command_cases s with ⟨hne, -⟩ | ⟨r, -, hcommand⟩
  · rw [behindLeading_of_word h] at hne
    exact absurd hhead hne
  · rw [behindLeading_of_word h] at hcommand
    have hne := dropWhile_blank_ne h
    have hother : otherOperator (cutOperator s) ≠ ' ' := by
      rcases otherOperator_cases s with h | h <;> rw [h] <;> decide
    have hcommandWords : words (cut s).command ≠ [] := by
      rw [ne_eq, pieces_eq_nil_iff, hcommand]
      intro hall
      exact hother (hall _ (by simp))
    refine ⟨(r.takeWhile (· != cutOperator s)).takeWhile (· != ' '), ?_⟩
    rw [words_head hcommandWords, hcommand, List.dropWhile_append, if_neg (by simpa using hne),
      List.takeWhile_append_of_pos (ne_of_notMem hblank), List.takeWhile_cons_of_pos (by simpa using hother)]

/-- **The program of a stage that starts with a word.** -/
theorem programName_iff (h : words (beforeOperator s) ≠ []) :
    (∀ w ∈ (commandWords s).head?.map programName, ∃ v ∈ words (beforeOperator s), w = programName v) ↔ ¬ Glued s := by
  have hfirst := words_head h
  by_cases hglued : (fromOperator s).head? = some (otherOperator (cutOperator s)) ∧
      ' ' ∉ (beforeOperator s).dropWhile (· == ' ')
  · obtain ⟨v, hv⟩ := commandWords_head_of_glued h hglued.1 hglued.2
    rw [takeWhile_whole hglued.2] at hfirst
    rw [hv]
    simp only [Option.map_some, Option.mem_def, Option.some.injEq, forall_eq']
    by_cases hclosed : Closed ((beforeOperator s).dropWhile (· == ' '))
    · refine iff_of_true ⟨_, List.mem_of_mem_head? hfirst, ?_⟩ fun hg => hg.2.2 hclosed
      rw [programName, programName, opened_closed hclosed]
    · refine iff_of_false ?_ fun hg => hg ⟨hglued.1, hglued.2, hclosed⟩
      rintro ⟨w, hw, heq⟩
      -- the operator is in the one name, and in none of the others
      have hother : otherOperator (cutOperator s) ≠ '"' := by
        rcases otherOperator_cases s with h | h <;> rw [h] <;> decide
      have hmem := mem_opened (v := v) (dropWhile_blank_ne h) hclosed hother
      have hunmarked (x : List Char) (hx : Unmarked x) : otherOperator (cutOperator s) ∉ x :=
        ((unmarked_iff s).1 hx).2
      have hword : Unmarked w := by
        have hsub : w ⊆ beforeOperator s := (piece_spec hw).2.2
        exact ⟨fun hc => notMem_beforeOperator s (.inl rfl) (hsub hc), fun hc => notMem_beforeOperator s (.inr rfl) (hsub hc)⟩
      apply hunmarked _ (programName_unmarked hword)
      rw [← heq, programName]
      rcases renamed_cases (opened ((beforeOperator s).dropWhile (· == ' ') ++ otherOperator (cutOperator s) :: v)) with
        hsame | ⟨hun, -⟩
      · rwa [hsame]
      · exact absurd hmem (hunmarked _ hun)
  · have hfree := commandWords_head_of_free h fun hhead => by
      by_contra hblank
      exact hglued ⟨hhead, hblank⟩
    refine iff_of_true ?_ fun hg => hglued ⟨hg.1, hg.2.1⟩
    rw [hfree, hfirst]
    simp only [Option.map_some, Option.mem_def, Option.some.injEq, forall_eq']
    exact ⟨_, List.mem_of_mem_head? hfirst, rfl⟩

theorem commandWords_eq_nil_iff (s : List Char) :
    commandWords s = [] ↔ ∀ c ∈ (behindLeading s).takeWhile (· != cutOperator s), c = ' ' := by
  rw [← command_between, ← pieces_eq_nil_iff, commandWords, List.take_eq_nil_iff]
  simp

/-- the program is named by a word of the text before the first operator; without such a word there is only a report -/
def RunsCommandWord (r : Except Fault (List Event × Mem)) (l : List Char) : Prop :=
  if words (beforeOperator l) = [] then ∃ m', r = .ok ([.report], m')
  else ∀ es m', r = .ok (es, m') → ∀ e ∈ es, ∀ w ∈ e.program, ∃ v ∈ words (beforeOperator l), w = programName v

/-- the text that is taken for the command is blank if no word stands before the operators; if one does, no operator is
glued to it; and there are no blank operands, on which the parser stops -/
def Guarded (l : List Char) : Prop :=
  if words (beforeOperator l) = [] then
    ¬ Blank l ∧ ∀ c ∈ (behindLeading l).takeWhile (· != cutOperator l), c = ' '
  else Blank l ∨ ¬ Glued l

instance (l : List Char) : Decidable (Guarded l) := by
  have (u : List Char) : Decidable (∀ c ∈ u, c = ' ') := List.decidableBAll (· = ' ') u
  unfold Guarded
  infer_instance

/-- **The command word.** For every string with an operator and without a bar, whatever stands behind it in memory. -/
theorem runsCommandWord_iff (h : Holds m.buf (p, l)) (hbar : '|' ∉ l) (hop : '<' ∈ l ∨ '>' ∈ l) :
    RunsCommandWord (executeCommandWith removeQuotesOn m p) l ↔ Guarded l := by
  have hne : l ≠ [] := by
    rintro rfl
    simp at hop
  have hone : Held m.buf [(p, l)] := ⟨by simpa using h, by simp⟩
  obtain ⟨m1, hrun, hheld⟩ : ∃ m1, executeCommandWith removeQuotesOn m p = executeOneWith removeQuotesOn m1 (some p) ∧
      Held m1.buf [(p, l)] := by
    have hplaced : placed '|' p l = [(p, l)] := placed_whole hne hbar
    rcases executeCommandWith_frame removeQuotesOn hone with
      ⟨hp, -⟩ | ⟨s, q, m1, hp, hrun, hheld⟩ | ⟨s1, s2, r, q1, q2, m1, hp, -⟩
    · rw [hplaced] at hp
      cases hp
    · rw [hplaced] at hp
      cases hp
      exact ⟨m1, hrun, hheld⟩
    · rw [hplaced] at hp
      cases hp
  rw [hrun, RunsCommandWord, Guarded]
  by_cases hw : words (beforeOperator l) = []
  · rw [if_pos hw, if_pos hw, ← commandWords_eq_nil_iff]
    by_cases hb : Blank l
    · rw [executeOneWith_blank _ hheld hb]
      simp [hb]
    by_cases hcw : commandWords l = []
    · obtain ⟨m2, hrep, -⟩ := executeOneWith_report removeQuotesOn hheld hb hcw
      exact iff_of_true ⟨m2, hrep⟩ ⟨hb, hcw⟩
    refine iff_of_false ?_ fun hg => hcw hg.2
    rintro ⟨m2, hrep⟩
    obtain ⟨e, m3, hok, he, -⟩ := executeOneOn_event hheld hb hcw
    rw [hok] at hrep
    cases hrep
    -- a report is no start
    have hprogram := he.program_eq hcw
    obtain ⟨w, ws, hwords⟩ := List.exists_cons_of_ne_nil hcw
    rw [hwords] at hprogram
    cases hprogram
  · rw [if_neg hw, if_neg hw]
    by_cases hb : Blank l
    · rw [executeOneWith_blank _ hheld hb]
      simp [hb]
    have hcw : commandWords l ≠ [] := by
      intro hnil
      by_cases hglued : (fromOperator l).head? = some (otherOperator (cutOperator l)) ∧
          ' ' ∉ (beforeOperator l).dropWhile (· == ' ')
      · obtain ⟨v, hv⟩ := commandWords_head_of_glued hw hglued.1 hglued.2
        rw [hnil] at hv
        cases hv
      · have hfree := commandWords_head_of_free hw fun hhead => by
          by_contra hblank
          exact hglued ⟨hhead, hblank⟩
        rw [hnil, words_head hw] at hfree
        cases hfree
    obtain ⟨e, m2, hok, he, -⟩ := executeOneOn_event hheld hb hcw
    have hprogram := he.program_eq hcw
    rw [or_iff_right hb, ← programName_iff hw, ← hprogram, hok]
    constructor
    · intro hruns
      exact hruns [e] m2 rfl e (List.mem_singleton_self e)
    · rintro hword es m' heq e' he'
      cases heq
      obtain rfl := List.mem_singleton.1 he'
      exact hword

theorem runsCommandWord_iff_example :
    RunsCommandWord (executeCommandWith removeQuotesOn ⟨"sort -r< in > out".toList ++ [nul], 0⟩ 0)
      "sort -r< in > out".toList :=
  (runsCommandWord_iff (.alone (by decide)) (by decide) (by decide)).2 (by decide)

/-- a file name that is run: `strtok` leaves out the `>` that the stage starts with -/
theorem file_name_run :
    ¬ RunsCommandWord (executeCommandWith removeQuotesOn ⟨"> ls".toList ++ [nul], 0⟩ 0) "> ls".toList := by
  have hrun : ∃ m', executeCommandWith removeQuotesOn ⟨"> ls".toList ++ [nul], 0⟩ 0 =
      .ok ([.fork 0 ⟨["ls".toList], ⟨none, none⟩, 0⟩], m') := ⟨_, rfl⟩
  obtain ⟨m', hrun⟩ := hrun
  have hword : words (beforeOperator "> ls".toList) = [] := by decide
  rw [hrun, RunsCommandWord, if_pos hword]
  rintro ⟨m'', h⟩
  cases h

end DecsLabs.Shell
