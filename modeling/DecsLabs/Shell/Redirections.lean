/-
Redirections: rendering a command with its redirections, and parsing it back. The parser finds out which redirection was
written first from the distance between the two operators, which it narrows to an `int`.

- `CommandText`, `FileName`, `Redirection`: what is rendered, in five shapes and with blanks anywhere.
- `cut_render`: how the rendered text is cut, also when the narrowed distance has the wrong sign.
- `parses_iff`: exactly when parsing gives back what was rendered.
-/
import DecsLabs.Shell.Parsing

namespace DecsLabs.Shell

open DecsLabs.CString

/-! ## Rendering -/

/-- the characters of commands and file names -/
def Plain (c : Char) : Prop := c ≠ '<' ∧ c ≠ '>' ∧ c ≠ '"' ∧ c ≠ nul

instance (c : Char) : Decidable (Plain c) := inferInstanceAs (Decidable (_ ∧ _))

theorem plain_of_all {s : List Char} (h : s.all fun c => decide (Plain c)) : ∀ c ∈ s, Plain c :=
  fun c hc => of_decide_eq_true (List.all_eq_true.1 h c hc)

structure CommandText where
  text : List Char
  plain : ∀ c ∈ text, Plain c
  word : ∃ c ∈ text, c ≠ ' '

/-- a file name with blanks around it -/
structure FileName where
  before : ℕ
  name : List Char
  after : ℕ
  name_ne : name ≠ []
  plain : ∀ c ∈ name, Plain c
  blankless : ' ' ∉ name

def FileName.text (f : FileName) : List Char :=
  List.replicate f.before ' ' ++ f.name ++ List.replicate f.after ' '

inductive Redirection where
  | none
  | input (f : FileName)
  | output (g : FileName)
  | inputOutput (f g : FileName)
  | outputInput (g f : FileName)

def Redirection.text : Redirection → List Char
  | none => []
  | input f => '<' :: f.text
  | output g => '>' :: g.text
  | inputOutput f g => '<' :: f.text ++ '>' :: g.text
  | outputInput g f => '>' :: g.text ++ '<' :: f.text

/-- the input file that was written; the order does not matter -/
def Redirection.inputFile : Redirection → Option FileName
  | none | output _ => .none
  | input f | inputOutput f _ | outputInput _ f => some f

def Redirection.outputFile : Redirection → Option FileName
  | none | input _ => .none
  | output g | inputOutput _ g | outputInput g _ => some g

/-- the command with the blanks behind it -/
def padded (c : CommandText) (gap : ℕ) : List Char := c.text ++ List.replicate gap ' '

def render (c : CommandText) (gap : ℕ) (r : Redirection) : List Char := padded c gap ++ r.text

/-- the distance between two operators, modulo 2 ^ 32, has the sign that the parser needs -/
def Redirection.Fits : Redirection → Prop
  | none | input _ | output _ => True
  | inputOutput f _ => (f.text.length + 1) % 2 ^ 32 ≤ 2 ^ 31
  | outputInput g _ => 0 < (g.text.length + 1) % 2 ^ 32 ∧ (g.text.length + 1) % 2 ^ 32 < 2 ^ 31

instance : DecidablePred Redirection.Fits := fun r => by
  cases r <;> unfold Redirection.Fits <;> infer_instance

variable {m : Mem} {p : ℕ} {c : CommandText} {gap : ℕ} {r : Redirection} {f g : FileName} {s t u v : List Char}

theorem FileName.words_text (f : FileName) : words f.text = [f.name] :=
  pieces_padded f.name_ne f.blankless f.before f.after

theorem FileName.notMem_text (f : FileName) {d : Char} (hd : ¬ Plain d) (hb : d ≠ ' ') : d ∉ f.text := by
  intro h
  simp only [FileName.text, List.mem_append, List.mem_replicate] at h
  rcases h with (⟨-, h⟩ | h) | ⟨-, h⟩
  · exact hb h
  · exact hd (f.plain d h)
  · exact hb h

theorem FileName.text_ne (f : FileName) : f.text ≠ [] := by
  intro h
  have := f.words_text
  rw [h] at this
  cases this

theorem words_padded (c : CommandText) (gap : ℕ) : words (padded c gap) = words c.text := pieces_append_replicate gap

theorem padded_notMem (c : CommandText) (gap : ℕ) {d : Char} (hd : ¬ Plain d) (hb : d ≠ ' ') : d ∉ padded c gap := by
  intro h
  simp only [padded, List.mem_append, List.mem_replicate] at h
  rcases h with h | ⟨-, h⟩
  · exact hd (c.plain d h)
  · exact hb h

theorem CommandText.words_ne (c : CommandText) : words c.text ≠ [] := by
  intro h
  obtain ⟨d, hd, hb⟩ := c.word
  exact hb (pieces_eq_nil_iff.1 h d hd)

theorem padded_ne (c : CommandText) (gap : ℕ) : padded c gap ≠ [] := by
  intro h
  have := words_padded c gap
  rw [h] at this
  exact c.words_ne this.symm

/-- blanks and operators are the only characters of a stage that are not plain -/
theorem render_notMem (c : CommandText) (gap : ℕ) (r : Redirection) {d : Char} (hd : ¬ Plain d) (hb : d ≠ ' ')
    (hin : d ≠ '<') (hout : d ≠ '>') : d ∉ render c gap r := by
  have hfile (f : FileName) : d ∉ f.text := f.notMem_text hd hb
  rw [render, List.mem_append, not_or]
  refine ⟨padded_notMem c gap hd hb, ?_⟩
  cases r <;> simp [Redirection.text, hfile, hin, hout]

theorem nul_notMem_render (c : CommandText) (gap : ℕ) (r : Redirection) : nul ∉ render c gap r :=
  render_notMem c gap r (by decide) (by decide) (by decide) (by decide)

/-! ## Cutting the rendered text -/

theorem outputFirst_iff (n : ℤ) : 0 < Int32.ofInt n ↔ 0 < n.bmod (2 ^ 32) := by
  rw [Int32.lt_iff_toInt_lt, Int32.toInt_ofInt, Int32.toInt_zero]
  rfl

theorem outputFirst_outputInput (hg : '>' ∉ v) (hf : '<' ∉ t) (hf' : '>' ∉ t) :
    OutputFirst (u ++ '>' :: v ++ '<' :: t) ↔ 0 < (v.length + 1) % 2 ^ 32 ∧ (v.length + 1) % 2 ^ 32 < 2 ^ 31 := by
  have hrest : '>' ∉ v ++ '<' :: t := by simp [hg, hf']
  have hout : suffixLength '>' (u ++ '>' :: v ++ '<' :: t) = (v ++ '<' :: t).length + 1 := by
    rw [List.append_assoc]
    exact suffixLength_append hrest
  rw [OutputFirst, hout, suffixLength_append hf, outputFirst_iff, Int.bmod_def]
  simp only [List.length_append, List.length_cons]
  push_cast
  split_ifs <;> omega

theorem outputFirst_inputOutput (hf : '<' ∉ v) (hg : '<' ∉ t) (hg' : '>' ∉ t) :
    OutputFirst (u ++ '<' :: v ++ '>' :: t) ↔ ¬ (v.length + 1) % 2 ^ 32 ≤ 2 ^ 31 := by
  have hrest : '<' ∉ v ++ '>' :: t := by simp [hf, hg]
  have hin : suffixLength '<' (u ++ '<' :: v ++ '>' :: t) = (v ++ '>' :: t).length + 1 := by
    rw [List.append_assoc]
    exact suffixLength_append hrest
  rw [OutputFirst, hin, suffixLength_append hg', outputFirst_iff, Int.bmod_def]
  simp only [List.length_append, List.length_cons]
  push_cast
  split_ifs <;> omega

/-- cut at the operators in the order in which they stand -/
theorem cutTwice_in_order {d e : Char} (hu : u ≠ []) (hv : v ≠ []) (ht : t ≠ []) (hdu : d ∉ u) (hdv : d ∉ v)
    (hdt : d ∉ t) (hev : e ∉ v) (het : e ∉ t) (hde : d ≠ e) :
    cutTwice d e (u ++ d :: v ++ e :: t) = (u, some v, some t) := by
  have hrest : d ∉ v ++ e :: t := by simp [hdv, hdt, hde]
  have hne : v ++ e :: t ≠ [] := by simp
  have hd : pieces d (u ++ d :: v ++ e :: t) = [u, v ++ e :: t] := by
    rw [List.append_assoc]
    exact (pieces_cut hu hdu).trans (congrArg _ (pieces_whole hne hrest))
  have he : pieces e (v ++ e :: t) = [v, t] := (pieces_cut hv hev).trans (congrArg _ (pieces_whole ht het))
  unfold cutTwice
  rw [hd]
  simp [he]

/-- cut at the second operator first: the first operator and its file become part of the command -/
theorem cutTwice_out_of_order {d e : Char} (ht : t ≠ []) (hu : d ∉ u) (hv : d ∉ v) (hdt : d ∉ t) (het : e ∉ t)
    (hde : d ≠ e) : cutTwice d e (u ++ e :: v ++ d :: t) = (u ++ e :: v, some t, none) := by
  have hfirst : d ∉ u ++ e :: v := by simp [hu, hv, hde]
  have hne : u ++ e :: v ≠ [] := by simp
  have hd : pieces d (u ++ e :: v ++ d :: t) = [u ++ e :: v, t] :=
    (pieces_cut hne hfirst).trans (congrArg _ (pieces_whole ht hdt))
  have he : pieces e t = [t] := pieces_whole ht het
  unfold cutTwice
  rw [hd]
  simp [he]

/-- the cut that the parser makes -/
def Redirection.cutOf (r : Redirection) (u : List Char) : Cut :=
  match r with
  | none => ⟨u, .none, .none⟩
  | input f => ⟨u, some f.text, .none⟩
  | output g => ⟨u, .none, some g.text⟩
  | inputOutput f g => if r.Fits then ⟨u, some f.text, some g.text⟩ else ⟨u ++ '<' :: f.text, .none, some g.text⟩
  | outputInput g f => if r.Fits then ⟨u, some f.text, some g.text⟩ else ⟨u ++ '>' :: g.text, some f.text, .none⟩

theorem not_plain_in : ¬ Plain '<' := by decide

theorem not_plain_out : ¬ Plain '>' := by decide

/-- **Cutting.** -/
theorem cut_render (c : CommandText) (gap : ℕ) (r : Redirection) : cut (render c gap r) = r.cutOf (padded c gap) := by
  rw [render]
  have hne := padded_ne c gap
  have hin : '<' ∉ padded c gap := padded_notMem c gap not_plain_in (by decide)
  have hout : '>' ∉ padded c gap := padded_notMem c gap not_plain_out (by decide)
  have hfin (f : FileName) : '<' ∉ f.text := f.notMem_text not_plain_in (by decide)
  have hfout (f : FileName) : '>' ∉ f.text := f.notMem_text not_plain_out (by decide)
  generalize padded c gap = u at *
  cases r with
  | none => simp [cut, Redirection.text, Redirection.cutOf, hin, hout]
  | input f =>
    have hp : pieces '<' (u ++ '<' :: f.text) = [u, f.text] := by
      rw [pieces_cut hne hin, pieces_whole f.text_ne (hfin f)]
    simp [cut, Redirection.text, Redirection.cutOf, hout, hfout, hp]
  | output g =>
    have hp : pieces '>' (u ++ '>' :: g.text) = [u, g.text] := by
      rw [pieces_cut hne hout, pieces_whole g.text_ne (hfout g)]
    simp [cut, Redirection.text, Redirection.cutOf, hin, hfin, hp]
  | inputOutput f g =>
    have hfirst := outputFirst_inputOutput (u := u) (hfin f) (hfin g) (hfout g)
    have htext : u ++ (Redirection.inputOutput f g).text = u ++ '<' :: f.text ++ '>' :: g.text := by
      simp [Redirection.text]
    have hboth : '<' ∈ u ++ '<' :: f.text ++ '>' :: g.text ∧ '>' ∈ u ++ '<' :: f.text ++ '>' :: g.text := by simp
    rw [htext, cut, if_pos hboth.1, if_pos hboth.2, Redirection.cutOf]
    by_cases hfit : (Redirection.inputOutput f g).Fits
    · rw [if_neg fun ho => hfirst.1 ho hfit, if_pos hfit,
        cutTwice_in_order hne f.text_ne g.text_ne hin (hfin f) (hfin g) (hfout f) (hfout g) (by decide)]
    · rw [if_pos (hfirst.2 hfit), if_neg hfit,
        cutTwice_out_of_order g.text_ne hout (hfout f) (hfout g) (hfin g) (by decide)]
  | outputInput g f =>
    have hfirst := outputFirst_outputInput (u := u) (hfout g) (hfin f) (hfout f)
    have htext : u ++ (Redirection.outputInput g f).text = u ++ '>' :: g.text ++ '<' :: f.text := by
      simp [Redirection.text]
    have hboth : '<' ∈ u ++ '>' :: g.text ++ '<' :: f.text ∧ '>' ∈ u ++ '>' :: g.text ++ '<' :: f.text := by simp
    rw [htext, cut, if_pos hboth.1, if_pos hboth.2, Redirection.cutOf]
    by_cases hfit : (Redirection.outputInput g f).Fits
    · rw [if_pos (hfirst.2 hfit), if_pos hfit,
        cutTwice_in_order hne g.text_ne f.text_ne hout (hfout g) (hfout f) (hfin g) (hfin f) (by decide)]
    · rw [if_neg fun ho => hfit (hfirst.1 ho), if_neg hfit,
        cutTwice_out_of_order f.text_ne hin (hfin g) (hfin f) (hfout f) (by decide)]

/-! ## Parsing it back -/

/-- every operand that the cut finds is a rendered file name -/
theorem cutOf_operands (r : Redirection) (u : List Char) : ∀ o ∈ (r.cutOf u).operands, ∃ f : FileName, o = f.text := by
  intro o ho
  cases r with
  | none => simp [Redirection.cutOf, Cut.operands] at ho
  | input f | output f => exact ⟨f, by simpa [Redirection.cutOf, Cut.operands] using ho⟩
  | inputOutput f g | outputInput g f =>
    unfold Redirection.cutOf at ho
    split_ifs at ho
    · simp only [Cut.operands, Option.toList_some, List.cons_append, List.nil_append, List.mem_cons, List.not_mem_nil,
        or_false] at ho
      rcases ho with rfl | rfl
      · exact ⟨f, rfl⟩
      · exact ⟨g, rfl⟩
    · simp [Cut.operands] at ho
      exact ⟨_, ho⟩

theorem cutOf_fits (h : r.Fits) (u : List Char) :
    r.cutOf u = ⟨u, r.inputFile.map FileName.text, r.outputFile.map FileName.text⟩ := by
  cases r <;> simp [Redirection.cutOf, Redirection.inputFile, Redirection.outputFile, h]

/-- a distance of the wrong sign loses a file -/
theorem cutOf_not_fits (h : ¬ r.Fits) (u : List Char) :
    (r.cutOf u).input = none ∧ r.inputFile ≠ none ∨ (r.cutOf u).output = none ∧ r.outputFile ≠ none := by
  cases r with
  | none | input f | output g => exact absurd trivial h
  | inputOutput f g => exact .inl (by simp [Redirection.cutOf, Redirection.inputFile, h])
  | outputInput g f => exact .inr (by simp [Redirection.cutOf, Redirection.outputFile, h])

theorem fileName_text (x : Option FileName) : fileName (x.map FileName.text) = x.map FileName.name := by
  cases x with
  | none => rfl
  | some f => simp [fileName, f.words_text]

/-- the tokens are the words `ws` and then NULL, and the files are `inp` and `out` -/
structure Delivers (m : Mem) (t : Slots ℕ) (file : Files ℕ) (ws : List (List Char)) (inp out : Option (List Char)) :
    Prop where
  tokens : ∀ k w, ws[k]? = some w → ∃ q, t k = some (some q) ∧ str m.buf q = w
  null : t ws.length = some none
  input : file.input.map (str m.buf) = inp
  output : file.output.map (str m.buf) = out

/-- `checkIOParser` returns, and delivers what was rendered -/
def Inverts (result : Except Fault (Slots ℕ × Files ℕ × Mem)) (c : CommandText) (r : Redirection) : Prop :=
  ∃ t file m', result = .ok (t, file, m') ∧
    Delivers m' t file (words c.text) (r.inputFile.map FileName.name) (r.outputFile.map FileName.name)

theorem map_str {x : Option Cell} {b : List Char} (h : ∀ y, x = some y → Holds b y) :
    (x.map Prod.fst).map (str b) = x.map Prod.snd := by
  cases x with
  | none => rfl
  | some y => exact congrArg some (h y rfl).str_eq

/-- **Delivery.** What the parser returns, in terms of the cut. -/
theorem checkIOParser_render (h : Holds m.buf (p, render c gap r)) :
    ∃ t file m' x, checkIOParser m (some p) ⟨none, none⟩ .empty = .ok (t, file, m') ∧ Points t file x ∧
      Reads (r.cutOf (padded c gap)) x ∧ Held m'.buf x.all := by
  have hone : Held m.buf [(p, render c gap r)] := ⟨by simpa using h, by simp⟩
  have hwords : ∀ o ∈ (cut (render c gap r)).operands, words o ≠ [] := by
    intro o ho
    rw [cut_render] at ho
    obtain ⟨f, rfl⟩ := cutOf_operands r _ o ho
    rw [f.words_text]
    exact List.cons_ne_nil _ _
  obtain ⟨t, file, m', x, hrun, hp, hr, hheld⟩ := checkIOParser_spec hone hwords
  rw [cut_render] at hr
  exact ⟨t, file, m', x, hrun, hp, hr, by simpa using hheld⟩

theorem inverts_of_fits (h : Holds m.buf (p, render c gap r)) (hw : (words c.text).length < 200) (hr : r.Fits) :
    Inverts (checkIOParser m (some p) ⟨none, none⟩ .empty) c r := by
  obtain ⟨t, file, m', x, hrun, hp, hreads, hheld⟩ := checkIOParser_render h
  rw [cutOf_fits hr] at hreads
  have htoks : x.toks.map Prod.snd = words c.text := by
    rw [hreads.toks, words_padded, List.take_of_length_le hw.le]
  have hlen : x.toks.length = (words c.text).length := by rw [← htoks, List.length_map]
  refine ⟨t, file, m', hrun, fun k w hk => ?_, ?_, ?_, ?_⟩
  · rw [← htoks, List.getElem?_map, Option.map_eq_some_iff] at hk
    obtain ⟨y, hy, rfl⟩ := hk
    have hmem : y ∈ x.all := List.mem_append_left _ (List.mem_of_getElem? hy)
    exact ⟨y.1, hp.toks.ptr k y hy, (hheld.holds y hmem).str_eq⟩
  · rw [← hlen]
    exact hp.toks.null (by omega)
  · rw [hp.input, map_str fun y hy => hheld.holds y (by simp [Cells.all, hy]), hreads.input, fileName_text]
  · rw [hp.output, map_str fun y hy => hheld.holds y (by simp [Cells.all, hy]), hreads.output, fileName_text]

theorem not_inverts_of_not_fits (h : Holds m.buf (p, render c gap r)) (hr : ¬ r.Fits) :
    ¬ Inverts (checkIOParser m (some p) ⟨none, none⟩ .empty) c r := by
  rintro ⟨t', file', m'', hrun', hdel⟩
  obtain ⟨t, file, m', x, hrun, hp, hreads, -⟩ := checkIOParser_render h
  rw [hrun] at hrun'
  cases hrun'
  rcases cutOf_not_fits hr (padded c gap) with ⟨hcut, hfile⟩ | ⟨hcut, hfile⟩
  · have hnone : x.input = none := by simpa [hcut, fileName] using hreads.input
    have hinput := hdel.input
    rw [hp.input, hnone] at hinput
    exact hfile (Option.map_eq_none_iff.1 hinput.symm)
  · have hnone : x.output = none := by simpa [hcut, fileName] using hreads.output
    have houtput := hdel.output
    rw [hp.output, hnone] at houtput
    exact hfile (Option.map_eq_none_iff.1 houtput.symm)

/-- **Parsing inverts rendering.** In all five shapes, exactly when the narrowed distance has the right sign. -/
theorem inverts_iff (h : Holds m.buf (p, render c gap r)) (hw : (words c.text).length < 200) :
    Inverts (checkIOParser m (some p) ⟨none, none⟩ .empty) c r ↔ r.Fits :=
  ⟨fun hi => by_contra fun hr => not_inverts_of_not_fits h hr hi, inverts_of_fits h hw⟩

def sortCommand : CommandText := ⟨"sort -r".toList, plain_of_all (by decide), 's', by decide, by decide⟩

def outName : FileName := ⟨2, "out".toList, 1, by decide, plain_of_all (by decide), by decide⟩

def inName : FileName := ⟨0, "in".toList, 3, by decide, plain_of_all (by decide), by decide⟩

theorem inverts_iff_example :
    Inverts (checkIOParser ⟨render sortCommand 1 (.outputInput outName inName) ++ [nul], 0⟩ (some 0) ⟨none, none⟩ .empty)
      sortCommand (.outputInput outName inName) :=
  (inverts_iff (.alone (by decide)) (by decide)).2 (by decide)

/-- a file name of 2 ^ 31 - 1 letters -/
def wideName : FileName where
  before := 0
  name := List.replicate (2 ^ 31 - 1) 'g'
  after := 0
  name_ne := by
    rw [ne_eq, List.replicate_eq_nil_iff]
    norm_num
  plain := by
    intro d hd
    rw [List.eq_of_mem_replicate hd]
    decide
  blankless := by
    intro h
    exact absurd (List.eq_of_mem_replicate h) (by decide)

theorem wideName_length : wideName.text.length = 2 ^ 31 - 1 := by
  simp only [FileName.text, wideName, List.replicate_zero, List.nil_append, List.append_nil, List.length_replicate]

theorem wide_not_fits (f : FileName) : ¬ (Redirection.outputInput wideName f).Fits := by
  intro h
  have hlt := h.2
  rw [wideName_length] at hlt
  norm_num at hlt

/-- with the operators 2 ^ 31 apart, `> wideName < in` is cut at `<` first, and its output file is lost -/
theorem wide_file_name :
    ¬ Inverts (checkIOParser ⟨render sortCommand 1 (.outputInput wideName inName) ++ [nul], 0⟩ (some 0) ⟨none, none⟩ .empty)
      sortCommand (.outputInput wideName inName) :=
  not_inverts_of_not_fits (.alone (nul_notMem_render _ _ _)) (wide_not_fits inName)

end DecsLabs.Shell
