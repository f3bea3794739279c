/-
Cutting a text at a delimiter. `pieces d s` are the maximal parts of `s` without `d`, the empty ones left out; the words
of a text are its pieces at the blank. Nothing here is about a particular program.

- `piecesInduction`: a text is empty, begins with the delimiter, is one piece, or is a piece, a delimiter and a text.
- `placed_cons_self`, `placed_whole`, `placed_cut`: the pieces and their places in each of these cases.
- `piece_spec`: what a piece is.
- `pieces_padded`: delimiters at the ends do not matter.
- `pieces_append_cons`: the first piece of a longer text; `pieces_zero`: the first piece, by its characters.
- `pieces_eq_filter`: the pieces among all texts between two delimiters.
- `placed_join`: the pieces of joined texts are the texts.
-/
import Mathlib.Tactic
import Mathlib.Data.List.TakeWhile

namespace DecsLabs.CString

variable {d : Char} {p : ℕ} {s t w r : List Char}

/-! ## Texts with a delimiter -/

/-- **Induction over the pieces.** -/
@[elab_as_elim]
theorem piecesInduction {motive : List Char → Prop} (d : Char) (nil : motive [])
    (skip : ∀ s, motive s → motive (d :: s)) (whole : ∀ w, w ≠ [] → d ∉ w → motive w)
    (cut : ∀ w r, w ≠ [] → d ∉ w → motive r → motive (w ++ d :: r)) (s : List Char) : motive s := by
  induction hn : s.length using Nat.strong_induction_on generalizing s with
  | _ n ih =>
    by_cases hs : s = []
    · rw [hs]
      exact nil
    by_cases hd : d ∈ s
    · obtain ⟨w, r, rfl, hw⟩ := List.eq_append_cons_of_mem hd
      have hlen : r.length < n := by
        rw [← hn]
        simp only [List.length_append, List.length_cons]
        omega
      have hr : motive r := ih r.length hlen r rfl
      by_cases hwn : w = []
      · rw [hwn]
        exact skip r hr
      · exact cut w r hwn hw hr
    · exact whole s hs hd

theorem ne_of_notMem (h : d ∉ w) : ∀ c ∈ w, (c != d) = true := by
  intro c hc
  rw [bne_iff_ne]
  rintro rfl
  exact h hc

theorem takeWhile_whole (h : d ∉ w) : w.takeWhile (· != d) = w :=
  List.takeWhile_eq_self_iff.2 (ne_of_notMem h)

theorem takeWhile_cut (h : d ∉ w) : (w ++ d :: r).takeWhile (· != d) = w := by
  rw [List.takeWhile_append_of_pos (ne_of_notMem h)]
  simp

/-! ## Pieces -/

/-- the piece `w` at `p`, unless it is empty -/
def flush (p : ℕ) (w : List Char) : List (ℕ × List Char) := if w = [] then [] else [(p, w)]

/-- the pieces of `w ++ s`, where `w` is the part of the piece at `p` that has been read -/
def placedFrom (d : Char) : ℕ → List Char → List Char → List (ℕ × List Char)
  | p, w, [] => flush p w
  | p, w, c :: s => if c = d then flush p w ++ placedFrom d (p + w.length + 1) [] s else placedFrom d p (w ++ [c]) s

/-- the pieces of the text that stands at `p`, with their places -/
def placed (d : Char) (p : ℕ) (s : List Char) : List (ℕ × List Char) := placedFrom d p [] s

def pieces (d : Char) (s : List Char) : List (List Char) := (placed d 0 s).map Prod.snd

abbrev words (s : List Char) : List (List Char) := pieces ' ' s

@[simp] theorem placed_nil : placed d p [] = [] := rfl

@[simp] theorem placed_cons_self : placed d p (d :: s) = placed d (p + 1) s := by
  simp [placed, placedFrom, flush]

theorem placedFrom_append (h : d ∉ t) : placedFrom d p w (t ++ s) = placedFrom d p (w ++ t) s := by
  induction t generalizing w with
  | nil => simp
  | cons c t ih =>
    have hc : c ≠ d := by
      intro hcd
      exact h (by simp [hcd])
    have ht : d ∉ t := fun hd => h (List.mem_cons_of_mem _ hd)
    simp only [List.cons_append, placedFrom, if_neg hc, ih ht, List.append_assoc, List.nil_append]

theorem placed_whole (hw : w ≠ []) (hd : d ∉ w) : placed d p w = [(p, w)] := by
  have := placedFrom_append (p := p) (s := []) (w := []) hd
  simpa [placed, placedFrom, flush, hw] using this

theorem placed_cut (hw : w ≠ []) (hd : d ∉ w) :
    placed d p (w ++ d :: r) = (p, w) :: placed d (p + w.length + 1) r := by
  rw [placed, placedFrom_append hd]
  simp [placedFrom, placed, flush, hw]

/-- the texts of the pieces do not depend on the place -/
theorem placed_snd (d : Char) (p : ℕ) (s : List Char) : (placed d p s).map Prod.snd = pieces d s := by
  rw [pieces]
  generalize 0 = q
  induction s using piecesInduction d generalizing p q with
  | nil => rfl
  | skip s ih => rw [placed_cons_self, placed_cons_self, ih (p + 1) (q + 1)]
  | whole w hw hd => rw [placed_whole hw hd, placed_whole hw hd, List.map_singleton, List.map_singleton]
  | cut w r hw hd ih =>
    rw [placed_cut hw hd, placed_cut hw hd, List.map_cons, List.map_cons, ih _ (q + w.length + 1)]

@[simp] theorem pieces_nil : pieces d [] = [] := rfl

@[simp] theorem pieces_cons_self : pieces d (d :: s) = pieces d s := by
  rw [pieces, placed_cons_self, placed_snd]

theorem pieces_whole (hw : w ≠ []) (hd : d ∉ w) : pieces d w = [w] := by
  rw [pieces, placed_whole hw hd, List.map_singleton]

theorem pieces_cut (hw : w ≠ []) (hd : d ∉ w) : pieces d (w ++ d :: r) = w :: pieces d r := by
  rw [pieces, placed_cut hw hd, List.map_cons, placed_snd]

theorem placed_eq_nil_iff : placed d p s = [] ↔ pieces d s = [] := by
  rw [← placed_snd d p s, List.map_eq_nil_iff]

/-- **Pieces.** A piece is not empty, has no delimiter, and consists of characters of the text. -/
theorem piece_spec (h : w ∈ pieces d s) : w ≠ [] ∧ d ∉ w ∧ ∀ c ∈ w, c ∈ s := by
  induction s using piecesInduction d with
  | nil => simp at h
  | skip s ih =>
    obtain ⟨h1, h2, h3⟩ := ih (by rwa [pieces_cons_self] at h)
    exact ⟨h1, h2, fun c hc => List.mem_cons_of_mem _ (h3 c hc)⟩
  | whole v hv hd =>
    rw [pieces_whole hv hd, List.mem_singleton] at h
    subst h
    exact ⟨hv, hd, fun c hc => hc⟩
  | cut v r hv hd ih =>
    rw [pieces_cut hv hd] at h
    rcases List.mem_cons.1 h with rfl | h
    · exact ⟨hv, hd, fun c hc => by simp [hc]⟩
    · obtain ⟨h1, h2, h3⟩ := ih h
      exact ⟨h1, h2, fun c hc => by simp [h3 c hc]⟩

theorem piece_subset {i : ℕ} (h : (pieces d s)[i]? = some w) : w ⊆ s := (piece_spec (List.mem_of_getElem? h)).2.2

/-- there are no pieces only if every character is the delimiter -/
theorem pieces_eq_nil_iff : pieces d s = [] ↔ ∀ c ∈ s, c = d := by
  induction s using piecesInduction d with
  | nil => simp
  | skip s ih => simp [ih]
  | whole w hw hd =>
    rw [pieces_whole hw hd]
    refine iff_of_false (by simp) fun h => ?_
    obtain ⟨c, hc⟩ := List.exists_mem_of_ne_nil w hw
    exact hd (h c hc ▸ hc)
  | cut w r hw hd _ =>
    rw [pieces_cut hw hd]
    refine iff_of_false (by simp) fun h => ?_
    obtain ⟨c, hc⟩ := List.exists_mem_of_ne_nil w hw
    exact hd (h c (by simp [hc]) ▸ hc)

/-! ## Padding -/

theorem pieces_replicate_append (n : ℕ) : pieces d (List.replicate n d ++ s) = pieces d s := by
  induction n with
  | zero => rfl
  | succ n ih => rw [List.replicate_succ, List.cons_append, pieces_cons_self, ih]

theorem pieces_replicate (n : ℕ) : pieces d (List.replicate n d) = [] :=
  pieces_eq_nil_iff.2 fun _ hc => List.eq_of_mem_replicate hc

theorem pieces_append_replicate (n : ℕ) : pieces d (s ++ List.replicate n d) = pieces d s := by
  induction s using piecesInduction d with
  | nil => exact pieces_replicate n
  | skip s ih => rw [List.cons_append, pieces_cons_self, pieces_cons_self, ih]
  | whole w hw hd =>
    cases n with
    | zero => rw [List.replicate_zero, List.append_nil]
    | succ n => rw [List.replicate_succ, pieces_cut hw hd, pieces_replicate, pieces_whole hw hd]
  | cut w r hw hd ih => rw [List.append_assoc, List.cons_append, pieces_cut hw hd, pieces_cut hw hd, ih]

/-- delimiters around one piece -/
theorem pieces_padded (hw : w ≠ []) (hd : d ∉ w) (i j : ℕ) :
    pieces d (List.replicate i d ++ w ++ List.replicate j d) = [w] := by
  rw [pieces_append_replicate, pieces_replicate_append, pieces_whole hw hd]

/-- what is around a single piece -/
theorem placed_single {q : ℕ} (h : placed d p s = [(q, w)]) :
    ∃ u t, s = u ++ w ++ t ∧ q = p + u.length ∧ (∀ c ∈ u, c = d) ∧ ∀ c ∈ t, c = d := by
  induction s using piecesInduction d generalizing p with
  | nil => cases h
  | skip s ih =>
    rw [placed_cons_self] at h
    obtain ⟨u, t, rfl, rfl, hu, ht⟩ := ih h
    refine ⟨d :: u, t, by simp, by simp only [List.length_cons]; omega, ?_, ht⟩
    intro c hc
    rcases List.mem_cons.1 hc with rfl | hc
    · rfl
    · exact hu c hc
  | whole v hv hd =>
    rw [placed_whole hv hd] at h
    cases h
    exact ⟨[], [], by simp, by simp, by simp, by simp⟩
  | cut v r hv hd _ =>
    rw [placed_cut hv hd] at h
    obtain ⟨hhead, hrest⟩ := List.cons.inj h
    cases hhead
    refine ⟨[], d :: r, by simp, by simp, by simp, ?_⟩
    intro c hc
    rcases List.mem_cons.1 hc with rfl | hc
    · rfl
    · exact pieces_eq_nil_iff.1 (placed_eq_nil_iff.1 hrest) c hc

/-! ## Longer texts -/

theorem length_pieces_le (s t : List Char) : (pieces d s).length ≤ (pieces d (s ++ t)).length := by
  induction s using piecesInduction d with
  | nil => exact Nat.zero_le _
  | skip s ih => rwa [List.cons_append, pieces_cons_self, pieces_cons_self]
  | whole w hw hd =>
    rw [pieces_whole hw hd]
    apply List.length_pos_of_ne_nil
    intro hnil
    obtain ⟨c, hc⟩ := List.exists_mem_of_ne_nil w hw
    exact hd (pieces_eq_nil_iff.1 hnil c (by simp [hc]) ▸ hc)
  | cut w r hw hd ih =>
    rw [List.append_assoc, List.cons_append, pieces_cut hw hd, pieces_cut hw hd]
    exact Nat.succ_le_succ ih

/-- a text that goes on behind a piece makes it longer -/
theorem pieces_glued (hw : w ≠ []) (hd : d ∉ w) (s : List Char) : ∃ v r, pieces d (w ++ s) = (w ++ v) :: r := by
  by_cases hs : d ∈ s
  · obtain ⟨v, r, rfl, hv⟩ := List.eq_append_cons_of_mem hs
    refine ⟨v, pieces d r, ?_⟩
    rw [← List.append_assoc, pieces_cut (by simp [hw]) (by simp [hd, hv])]
  · exact ⟨s, [], pieces_whole (by simp [hw]) (by simp [hd, hs])⟩

/-- **The first piece of a longer text.** It is that of the text, or it goes on. -/
theorem pieces_append_cons {c : Char} {ws : List (List Char)} (hc : c ≠ d) (h : pieces d s = w :: ws)
    (t : List Char) : (∃ vs, pieces d (s ++ c :: t) = w :: vs ∧ vs ≠ [] ∧ ws.length ≤ vs.length) ∨
    ∃ v vs, pieces d (s ++ c :: t) = (w ++ c :: v) :: vs := by
  induction s using piecesInduction d with
  | nil => cases h
  | skip s ih =>
    rw [pieces_cons_self] at h
    rw [List.cons_append, pieces_cons_self]
    exact ih h
  | whole v hv hd =>
    rw [pieces_whole hv hd] at h
    cases h
    obtain ⟨v, vs, hglued⟩ := (pieces_glued (by simp) (by simp [hd, hc.symm]) t :
      ∃ x xs, pieces d (w ++ [c] ++ t) = (w ++ [c] ++ x) :: xs)
    exact .inr ⟨v, vs, by simpa using hglued⟩
  | cut v r hv hd _ =>
    rw [pieces_cut hv hd] at h
    cases h
    refine .inl ⟨pieces d (r ++ c :: t), ?_, ?_, length_pieces_le r _⟩
    · rw [List.append_assoc, List.cons_append, pieces_cut hv hd]
    · intro hnil
      exact hc (pieces_eq_nil_iff.1 hnil c (by simp))

/-! ## The first pieces -/

/-- the first piece: what stands between the delimiters at the start and the next one -/
theorem pieces_zero (d : Char) (s : List Char) :
    (pieces d s)[0]?.getD [] = (s.dropWhile (· == d)).takeWhile (· != d) := by
  have hstart (w t : List Char) (hw : w ≠ []) (hd : d ∉ w) : (w ++ t).dropWhile (· == d) = w ++ t := by
    obtain ⟨c, w, rfl⟩ := List.exists_cons_of_ne_nil hw
    have hc : c ≠ d := by
      rintro rfl
      exact hd List.mem_cons_self
    rw [List.cons_append, List.dropWhile_cons_of_neg (by simpa using hc)]
  induction s using piecesInduction d with
  | nil => rfl
  | skip s ih => rw [pieces_cons_self, ih, List.dropWhile_cons_of_pos (by simp)]
  | whole w hw hd =>
    have hdrop := hstart w [] hw hd
    rw [List.append_nil] at hdrop
    rw [pieces_whole hw hd, hdrop, takeWhile_whole hd]
    rfl
  | cut w r hw hd _ =>
    rw [pieces_cut hw hd, hstart w _ hw hd, takeWhile_cut hd]
    rfl

theorem exists_mem_take_glued {e : Char} (hde : e ≠ d) (hd : d ∉ w) (t : List Char) (n : ℕ) :
    (∃ v ∈ (pieces d (w ++ e :: t)).take n, e ∈ v) ↔ (pieces d (w ++ [e])).length ≤ n := by
  have hpiece : d ∉ w ++ [e] := by simp [hd, hde.symm]
  have hne : w ++ [e] ≠ [] := by simp
  obtain ⟨v, r, hv⟩ := pieces_glued hne hpiece t
  rw [List.append_assoc, List.singleton_append] at hv
  rw [hv, pieces_whole hne hpiece, List.length_singleton]
  cases n with
  | zero => simp
  | succ n =>
    refine iff_of_true ⟨w ++ [e] ++ v, ?_, by simp⟩ (Nat.le_add_left 1 n)
    rw [List.take_succ_cons]
    exact List.mem_cons_self

/-- which piece the first `e` of a text belongs to, by the number of pieces up to it -/
theorem exists_mem_take_iff {e : Char} {u : List Char} (hde : e ≠ d) (hu : e ∉ u) (t : List Char) (n : ℕ) :
    (∃ w ∈ (pieces d (u ++ e :: t)).take n, e ∈ w) ↔ (pieces d (u ++ [e])).length ≤ n := by
  induction u using piecesInduction d generalizing n with
  | nil => exact exists_mem_take_glued hde List.not_mem_nil t n
  | skip u ih =>
    rw [List.cons_append, List.cons_append, pieces_cons_self, pieces_cons_self]
    exact ih (fun h => hu (List.mem_cons_of_mem _ h)) n
  | whole w hw hd => exact exists_mem_take_glued hde hd t n
  | cut w r hw hd ih =>
    have hew : e ∉ w := fun h => hu (by simp [h])
    have her : e ∉ r := fun h => hu (by simp [h])
    rw [List.append_assoc, List.append_assoc, List.cons_append, List.cons_append, pieces_cut hw hd, pieces_cut hw hd]
    cases n with
    | zero => simp
    | succ n =>
      rw [List.take_succ_cons, List.exists_mem_cons_iff, or_iff_right hew, List.length_cons, Nat.succ_le_succ_iff]
      exact ih her n

/-! ## Pieces that may be empty -/

/-- the pieces are the texts between two delimiters, the empty ones left out -/
theorem pieces_eq_filter (d : Char) (s : List Char) : pieces d s = (s.splitOn d).filter (· ≠ []) := by
  induction s using piecesInduction d with
  | nil => rfl
  | skip s ih =>
    have hsplit : (d :: s).splitOn d = [] :: s.splitOn d := List.splitOn_append_cons_self_of_not_mem List.not_mem_nil s
    rw [pieces_cons_self, hsplit]
    simpa using ih
  | whole w hw hd => simp [pieces_whole hw hd, List.splitOn_eq_singleton hd, hw]
  | cut w r hw hd ih =>
    rw [pieces_cut hw hd, List.splitOn_append_cons_self_of_not_mem hd]
    simpa [hw] using ih

theorem splitOn_spec (d : Char) (s : List Char) :
    (∀ w ∈ s.splitOn d, d ∉ w ∧ w ⊆ s) ∧ (s.splitOn d).length ≤ s.length + 1 := by
  induction s using piecesInduction d with
  | nil => simp
  | skip s ih =>
    have hsplit : (d :: s).splitOn d = [] :: s.splitOn d := List.splitOn_append_cons_self_of_not_mem List.not_mem_nil s
    rw [hsplit]
    refine ⟨List.forall_mem_cons.2 ⟨⟨List.not_mem_nil, List.nil_subset _⟩, fun w hw => ?_⟩, Nat.succ_le_succ ih.2⟩
    exact ⟨(ih.1 w hw).1, List.subset_cons_of_subset d (ih.1 w hw).2⟩
  | whole w hw hd =>
    rw [List.splitOn_eq_singleton hd]
    exact ⟨by simpa using hd, by simp⟩
  | cut w r hw hd ih =>
    rw [List.splitOn_append_cons_self_of_not_mem hd]
    refine ⟨List.forall_mem_cons.2 ⟨⟨hd, List.subset_append_left w _⟩, fun x hx => ?_⟩, ?_⟩
    · exact ⟨(ih.1 x hx).1, List.subset_append_of_subset_right w (List.subset_cons_of_subset d (ih.1 x hx).2)⟩
    · simp only [List.length_cons, List.length_append]
      omega

/-! ## Joining texts -/

section Join

variable {α : Type*} {text : α → List Char} {x : ℕ × α} {xs : List α}

/-- the texts, with a delimiter between two of them -/
def join (d : Char) (text : α → List Char) (xs : List α) : List Char := [d].intercalate (xs.map text)

/-- where each text stands when the joined texts stand at `p` -/
def layout (text : α → List Char) : ℕ → List α → List (ℕ × α)
  | _, [] => []
  | p, a :: xs => (p, a) :: layout text (p + (text a).length + 1) xs

@[simp] theorem join_nil : join d text [] = [] := rfl

@[simp] theorem join_singleton (a : α) : join d text [a] = text a := by
  simp [join, List.intercalate]

@[simp] theorem join_cons_cons (a b : α) : join d text (a :: b :: xs) = text a ++ d :: join d text (b :: xs) := by
  simp [join, List.intercalate]

theorem layout_snd (p : ℕ) (xs : List α) : (layout text p xs).map Prod.snd = xs := by
  induction xs generalizing p with
  | nil => rfl
  | cons a xs ih => rw [layout, List.map_cons, ih]

theorem layout_start (h : x ∈ layout text p xs) : p ≤ x.1 := by
  induction xs generalizing p with
  | nil => simp [layout] at h
  | cons a xs ih =>
    rcases List.mem_cons.1 h with rfl | h
    · exact le_rfl
    · have := ih h
      omega

theorem layout_end (d : Char) (h : x ∈ layout text p xs) :
    x.1 + (text x.2).length ≤ p + (join d text xs).length := by
  induction xs generalizing p with
  | nil => simp [layout] at h
  | cons a xs ih =>
    cases xs with
    | nil =>
      obtain rfl : x = (p, a) := by simpa [layout] using h
      rw [join_singleton]
    | cons b xs =>
      rw [join_cons_cons, List.length_append, List.length_cons]
      rcases List.mem_cons.1 h with rfl | h
      · exact Nat.add_le_add_left (Nat.le_add_right _ _) p
      · have := ih h
        omega

theorem layout_pairwise (p : ℕ) (xs : List α) :
    (layout text p xs).Pairwise fun a b => a.1 + (text a.2).length < b.1 := by
  induction xs generalizing p with
  | nil => exact .nil
  | cons a xs ih => exact List.pairwise_cons.2 ⟨fun b hb => layout_start hb, ih _⟩

/-- **Places.** The pieces of joined texts are the texts, the empty ones left out. -/
theorem placed_join (hd : ∀ a ∈ xs, d ∉ text a) :
    placed d p (join d text xs) = ((layout text p xs).map fun x => (x.1, text x.2)).filter fun x => x.2 ≠ [] := by
  induction xs generalizing p with
  | nil => rfl
  | cons a xs ih =>
    have ha : d ∉ text a := hd a (by simp)
    have hrest : ∀ b ∈ xs, d ∉ text b := fun b hb => hd b (by simp [hb])
    cases xs with
    | nil =>
      by_cases hne : text a = []
      · simp [layout, hne]
      · simp [layout, hne, placed_whole hne ha]
    | cons b xs =>
      rw [join_cons_cons, layout, List.map_cons]
      by_cases hne : text a = []
      · rw [hne, List.nil_append, placed_cons_self, ih hrest]
        simp
      · rw [placed_cut hne ha, ih hrest]
        simp [hne]

end Join

end DecsLabs.CString
