/-
What a line leaves of the memory behind it. The line is parsed in its own part of the memory, and so is almost all of the
removal of quotes: only a lone quote that is the last character of the line makes it go on behind the terminator. Whether
it does is a matter of the line alone, and then what stands there is cut at its first quote.

- `cropTail`: a text that is cut at its first quote.
- `Carried`: a result that is the same in another place, but for what stands behind.
- `lineMem`: the memory after a line; `lineMem_carried`: it depends on the line alone.
- `Spills`: the removal of quotes goes on behind the line, which ends with a quote then (`Spills.last`).
- `runLine_behind`: what is left behind the line.
-/
import DecsLabs.Core.Window
import DecsLabs.Shell.Arrays
import DecsLabs.Shell.Prompt

namespace DecsLabs.Shell

open DecsLabs.CString

variable {u v b : List Char} {m m' : Mem} {c : Char} {n k i r : ℕ} {p : Option ℕ} {t : Slots ℕ}

/-! ## Behind the line -/

/-- the first string of `v`, cut at its first quote -/
def cropTail (v : List Char) : List Char := if v.getD (stopFrom v 0) nul = '"' then v.set (stopFrom v 0) nul else v

/-- what a line leaves of `v` behind it -/
def tailOf (hit : Bool) (v : List Char) : List Char := if hit then cropTail v else v

theorem stopFrom_zero (v : List Char) : stopFrom v 0 = ((str v 0).takeWhile (· != '"')).length := Nat.zero_add _

theorem cropTail_cut {y z : List Char} (hn : nul ∉ y) (hq : '"' ∉ y) : cropTail (y ++ '"' :: z) = y ++ nul :: z := by
  have hstr : (str (y ++ '"' :: z) 0).takeWhile (· != '"') = y := by
    rw [str, List.drop_zero, List.takeWhile_append_of_pos (ne_of_notMem hn), List.takeWhile_cons_of_pos (by decide),
      takeWhile_cut hq]
  rw [cropTail, stopFrom_zero, hstr]
  simp

/-- nothing is cut in a string without quotes -/
theorem cropTail_whole (hq : '"' ∉ str v 0) : cropTail v = v := by
  have hlen : stopFrom v 0 = (str v 0).length := by rw [stopFrom_zero, takeWhile_whole hq]
  refine if_neg ?_
  rw [hlen, List.getD_eq_getElem?_getD]
  by_cases hn : nul ∈ v
  · obtain ⟨y, z, rfl, hy⟩ := List.eq_append_cons_of_mem hn
    have hstr : str (y ++ nul :: z) 0 = y := takeWhile_cut hy
    rw [hstr, List.getElem?_append_right le_rfl, Nat.sub_self, List.getElem?_cons_zero]
    decide
  · have hstr : str v 0 = v := takeWhile_whole hn
    rw [hstr, List.getElem?_eq_none le_rfl]
    decide

theorem cropTail_str {t z : List Char} (hn : nul ∉ t) :
    ∃ z', cropTail (t ++ nul :: z) = t.takeWhile (· != '"') ++ nul :: z' := by
  by_cases hq : '"' ∈ t
  · obtain ⟨y, x, rfl, hy⟩ := List.eq_append_cons_of_mem hq
    have hny : nul ∉ y := fun h => hn (by simp [h])
    refine ⟨x ++ nul :: z, ?_⟩
    rw [List.append_assoc, List.cons_append, cropTail_cut hny hy, takeWhile_cut hy]
  · have hstr : str (t ++ nul :: z) 0 = t := takeWhile_cut hn
    exact ⟨z, by rw [cropTail_whole (by rwa [hstr]), takeWhile_whole hq]⟩

theorem tailOf_tailOf (hit1 hit2 : Bool) (v : List Char) : tailOf hit2 (tailOf hit1 v) = tailOf (hit1 || hit2) v := by
  cases hit1 <;> cases hit2 <;> try rfl
  -- behind the first quote there is none that is found
  change cropTail (cropTail v) = cropTail v
  by_cases hq : '"' ∈ str v 0
  · obtain ⟨y, z, hyz, hy⟩ := List.eq_append_cons_of_mem hq
    obtain ⟨x, hx⟩ : str v 0 <+: v := List.takeWhile_prefix _
    have hny : nul ∉ y := by
      intro hmem
      have hin : nul ∈ str v 0 := by simp [hyz, hmem]
      exact absurd (List.mem_takeWhile_imp hin) (by simp)
    rw [hyz, List.append_assoc, List.cons_append] at hx
    rw [← hx, cropTail_cut hny hy]
    have hstr : str (y ++ nul :: (z ++ x)) 0 = y := takeWhile_cut hny
    exact cropTail_whole (by rwa [hstr])
  · rw [cropTail_whole hq, cropTail_whole hq]

/-! ## Results in another place -/

section Carried

variable {ρ σ : Type}

/-- `x' u v` is the result `x` between `u` and `v`, where `v` may have been cut behind a quote as last character -/
def Carried (c : Char) (L : List Char → List Char → ρ → ρ) (inv : ρ → Prop) (x' : List Char → List Char → Except Fault ρ)
    (x : Except Fault ρ) : Prop :=
  ∃ hit, (∀ u v, x' u v = x.map (L u (tailOf hit v))) ∧ (∀ a, x = .ok a → inv a) ∧ (hit = true → c = '"')

variable {L : List Char → List Char → ρ → ρ} {inv : ρ → Prop} {L' : List Char → List Char → σ → σ} {inv' : σ → Prop}

theorem Carried.ok {a' : List Char → List Char → ρ} {a : ρ} (h : ∀ u v, a' u v = L u v a) (ha : inv a) :
    Carried c L inv (fun u v => .ok (a' u v)) (.ok a) :=
  ⟨false, fun u v => congrArg Except.ok (h u v), fun _ he => Except.ok.inj he ▸ ha, nofun⟩

theorem Carried.error (f : Fault) : Carried c L inv (fun _ _ => .error f) (.error f) :=
  ⟨false, fun _ _ => rfl, nofun, nofun⟩

theorem Carried.bind {x' : List Char → List Char → Except Fault ρ} {x : Except Fault ρ} {g' : List Char → ρ → Except Fault σ}
    {g : ρ → Except Fault σ} (hx : Carried c L inv x' x)
    (hg : ∀ a, inv a → Carried c L' inv' (fun u v => g' u (L u v a)) (g a)) :
    Carried c L' inv' (fun u v => x' u v >>= g' u) (x >>= g) := by
  obtain ⟨hit, heq, hinv, hquote⟩ := hx
  cases x with
  | error f =>
    refine ⟨hit, fun u v => ?_, nofun, hquote⟩
    simp only [heq]
    rfl
  | ok a =>
    obtain ⟨hit', heq', hinv', hquote'⟩ := hg a (hinv a rfl)
    refine ⟨hit || hit', fun u v => ?_, hinv', fun h => (Bool.or_eq_true_iff.1 h).elim hquote hquote'⟩
    simp only [heq, ← tailOf_tailOf]
    exact heq' u (tailOf hit v)

/-- a result that is not cut -/
theorem Carried.of_eq {x' : List Char → List Char → Except Fault ρ} {x : Except Fault ρ} (h : ∀ u v, x' u v = x.map (L u v))
    (hinv : ∀ a, x = .ok a → inv a) : Carried c L inv x' x :=
  ⟨false, h, hinv, nofun⟩

end Carried

/-! ## The parser -/

/-- the pointers of an array are in the line -/
def SlotsTo (n : ℕ) (t : Slots ℕ) : Prop := ∀ i q, t i = some (some q) → q ≤ n

def FilesTo (n : ℕ) (f : Files ℕ) : Prop := (∀ q ∈ f.input, q ≤ n) ∧ ∀ q ∈ f.output, q ≤ n

def Files.shift (k : ℕ) (f : Files ℕ) : Files ℕ := ⟨f.input.map (k + ·), f.output.map (k + ·)⟩

def slotsIn (u v : List Char) (x : Slots ℕ × Mem) : Slots ℕ × Mem := (x.1.map (u.length + ·), x.2.within u v)

def fileIn (u v : List Char) (x : Option ℕ × Mem) : Option ℕ × Mem := (x.1.map (u.length + ·), x.2.within u v)

def filesIn (u v : List Char) (x : Files ℕ × Mem) : Files ℕ × Mem := (x.1.shift u.length, x.2.within u v)

def stageIn (u v : List Char) (x : Slots ℕ × Files ℕ × Mem) : Slots ℕ × Files ℕ × Mem :=
  (x.1.map (u.length + ·), x.2.1.shift u.length, x.2.2.within u v)

theorem SlotsTo.write (h : SlotsTo n t) (hp : ∀ q ∈ p, q ≤ n) : SlotsTo n (t.write i p) := by
  intro j q hj
  by_cases hij : j = i
  · subst hij
    rw [Slots.write, Function.update_self] at hj
    exact hp q (Option.some.inj hj)
  · rw [Slots.write_ne hij] at hj
    exact h j q hj

theorem slotsTo_empty (n : ℕ) : SlotsTo n .empty := by
  intro i q h
  cases h

theorem read_map (f : ℕ → ℕ) (t : Slots ℕ) (i : ℕ) : (t.map f).read i = (t.read i).map (Option.map f) := by
  unfold Slots.read Slots.map
  cases t i <;> rfl

theorem removeSpacesLoop_carried (h : Inner n c m) (hp : ∀ q ∈ p, q ≤ n) (ht : SlotsTo n t) :
    Carried c slotsIn (fun x => SlotsTo n x.1 ∧ Inner n c x.2)
      (fun u v => removeSpacesLoop r i (p.map (u.length + ·)) (t.map (u.length + ·)) (m.within u v))
      (removeSpacesLoop r i p t m) := by
  induction r generalizing i p t m with
  | zero => exact .error _
  | succ r ih =>
    by_cases hi : i < 200
    · obtain ⟨hsep, hinner, htok, hrest⟩ := strsep_within (d := ' ') h hp
      generalize hres : strsep m p ' ' = res at hsep hinner htok hrest
      obtain ⟨tok, p', m1⟩ := res
      simp only [removeSpacesLoop, hi, if_true, hsep, hres]
      cases tok with
      | none => exact .ok (fun u v => by simp [slotsIn, map_write]) ⟨ht.write (by simp), hinner⟩
      | some q =>
        have hstr (u v : List Char) : strlen (m1.within u v).buf (u.length + q) = strlen m1.buf q :=
          strlen_within hinner.ends (htok q rfl)
        have hwrite (u : List Char) : (t.map (u.length + ·)).write i (some (u.length + q)) =
            (t.write i (some q)).map (u.length + ·) := (map_write _ t i (some q)).symm
        simp only [Option.map_some, hstr, hwrite]
        exact ih hinner hrest (ht.write htok)
    · simp only [removeSpacesLoop, hi, if_false]
      exact .ok (fun _ _ => rfl) ⟨ht, h⟩

theorem removeSpacesAndCreateTokens_carried (h : Inner n c m) (hp : ∀ q ∈ p, q ≤ n) :
    Carried c slotsIn (fun x => SlotsTo n x.1 ∧ Inner n c x.2)
      (fun u v => removeSpacesAndCreateTokens (m.within u v) (p.map (u.length + ·)) .empty)
      (removeSpacesAndCreateTokens m p .empty) := by
  cases p with
  | none => exact removeSpacesLoop_carried h hp (slotsTo_empty n)
  | some q =>
    have hstr (u v : List Char) : strlen (m.within u v).buf (u.length + q) = strlen m.buf q :=
      strlen_within h.ends (hp q rfl)
    simp only [removeSpacesAndCreateTokens, Option.map_some, hstr]
    exact removeSpacesLoop_carried (p := some q) h hp (slotsTo_empty n)

theorem strcmp_within (h : Inner n c m) (hp : ∀ q ∈ p, q ≤ n) (u v lit : List Char) :
    strcmp (m.within u v).buf ((p.map (u.length + ·)).map .ptr) lit = strcmp m.buf (p.map .ptr) lit := by
  cases p with
  | none => rfl
  | some q =>
    have hstr : str (m.within u v).buf (u.length + q) = str m.buf q := str_within h.ends (hp q rfl)
    refine congrArg Except.ok (decide_eq_decide.2 ?_)
    exact iff_of_eq (congrArg (· = lit) hstr)

theorem skipBlankTokens_carried (h : Inner n c m) (hp : ∀ q ∈ p, q ≤ n) :
    Carried c fileIn (fun x => (∀ q ∈ x.1, q ≤ n) ∧ Inner n c x.2)
      (fun u v => skipBlankTokens r (p.map (u.length + ·)) (m.within u v)) (skipBlankTokens r p m) := by
  induction r generalizing p m with
  | zero => exact .error _
  | succ r ih =>
    simp only [skipBlankTokens, strcmp_within h hp]
    cases strcmp m.buf (p.map .ptr) [' '] with
    | error f => exact .error _
    | ok c =>
      cases c with
      | false => exact .ok (fun _ _ => rfl) ⟨hp, h⟩
      | true =>
        obtain ⟨htok, hinner, hq⟩ := strtok_within (d := ' ') (p := none) h h.saved
        have htok' (u v : List Char) := htok u v
        simp only [Option.map_none] at htok'
        simp only [htok', bind, Except.bind, if_true]
        exact ih hinner hq

theorem trimFile_carried (h : Inner n c m) (hp : ∀ q ∈ p, q ≤ n) :
    Carried c fileIn (fun x => (∀ q ∈ x.1, q ≤ n) ∧ Inner n c x.2)
      (fun u v => trimFile (m.within u v) (p.map (u.length + ·)) none) (trimFile m p none) := by
  cases p with
  | none => exact .ok (fun _ _ => rfl) ⟨by simp, h⟩
  | some q =>
    obtain ⟨htok, hinner, hq⟩ := strtok_within (d := ' ') (p := some q) h (hp q rfl)
    have hstr (u v : List Char) : strlen (m.within u v).buf (u.length + q) = strlen m.buf q :=
      strlen_within h.ends (hp q rfl)
    have htok' (u v : List Char) := htok u v
    simp only [Option.map_some] at htok'
    simp only [trimFile, Option.map_some, htok', hstr]
    exact skipBlankTokens_carried hinner hq

theorem fileRemoveSpaces_carried (h : Inner n c m) {f : Files ℕ} (hf : FilesTo n f) :
    Carried c filesIn (fun x => FilesTo n x.1 ∧ Inner n c x.2)
      (fun u v => fileRemoveSpacesAndCreateTokens (m.within u v) (some (f.shift u.length)) ⟨none, none⟩)
      (fileRemoveSpacesAndCreateTokens m (some f) ⟨none, none⟩) := by
  refine Carried.bind (trimFile_carried h hf.1) fun x hx => ?_
  refine Carried.bind (trimFile_carried hx.2 hf.2) fun y hy => ?_
  exact .ok (fun _ _ => rfl) ⟨⟨hx.1, hy.1⟩, hy.2⟩

theorem tokenize_carried (h : Inner n c m) (hp : ∀ q ∈ p, q ≤ n) {f : Files ℕ} (hf : FilesTo n f) :
    Carried c stageIn (fun x => SlotsTo n x.1 ∧ FilesTo n x.2.1 ∧ Inner n c x.2.2)
      (fun u v => tokenizeCommandsAndArguments (m.within u v) (p.map (u.length + ·)) .empty (some (f.shift u.length))
        ⟨none, none⟩)
      (tokenizeCommandsAndArguments m p .empty (some f) ⟨none, none⟩) := by
  refine Carried.bind (removeSpacesAndCreateTokens_carried h hp) fun x hx => ?_
  refine Carried.bind (fileRemoveSpaces_carried hx.2 hf) fun y hy => ?_
  exact .ok (fun _ _ => rfl) ⟨hx.1, hy.1, hy.2⟩

theorem strtok_inner {d : Char} (h : Inner n c m) (hp : ∀ q ∈ p, q ≤ n) :
    ∃ x m', strtok m p d = (x, m') ∧ (∀ u v, strtok (m.within u v) (p.map (u.length + ·)) d =
      (x.map (u.length + ·), m'.within u v)) ∧ Inner n c m' ∧ ∀ q ∈ x, q ≤ n := by
  have hle : p.getD m.saved ≤ n := by
    cases p with
    | none => exact h.saved
    | some q => exact hp q rfl
  obtain ⟨heq, hinner, hq⟩ := strtok_within (d := d) h hle
  exact ⟨_, _, rfl, heq, hinner, hq⟩

/-- a stage that is cut at two operators -/
theorem strtok_four {q : ℕ} (h : Inner n c m) (hq : q ≤ n) (d d' : Char) :
    ∃ x m1 y m2 z m3 w m4, (strtok m (some q) d = (x, m1) ∧ strtok m1 none d = (y, m2) ∧ strtok m2 y d' = (z, m3) ∧
        strtok m3 none d' = (w, m4)) ∧
      (∀ u v, strtok (m.within u v) (some (u.length + q)) d = (x.map (u.length + ·), m1.within u v) ∧
        strtok (m1.within u v) none d = (y.map (u.length + ·), m2.within u v) ∧
        strtok (m2.within u v) (y.map (u.length + ·)) d' = (z.map (u.length + ·), m3.within u v) ∧
        strtok (m3.within u v) none d' = (w.map (u.length + ·), m4.within u v)) ∧
      (Inner n c m2 ∧ Inner n c m4) ∧ (∀ q ∈ x, q ≤ n) ∧ (∀ q ∈ y, q ≤ n) ∧ (∀ q ∈ z, q ≤ n) ∧ ∀ q ∈ w, q ≤ n := by
  obtain ⟨x, m1, h1, e1, i1, b1⟩ := strtok_inner (p := some q) (d := d) h (by simpa using hq)
  obtain ⟨y, m2, h2, e2, i2, b2⟩ := strtok_inner (p := none) (d := d) i1 (by simp)
  obtain ⟨z, m3, h3, e3, i3, b3⟩ := strtok_inner (d := d') i2 b2
  obtain ⟨w, m4, h4, e4, i4, b4⟩ := strtok_inner (p := none) (d := d') i3 (by simp)
  exact ⟨x, m1, y, m2, z, m3, w, m4, ⟨h1, h2, h3, h4⟩, fun u v => ⟨e1 u v, e2 u v, e3 u v, e4 u v⟩, ⟨i2, i4⟩, b1, b2, b3, b4⟩

def splitIn (u v : List Char) (x : Option ℕ × Files ℕ × Mem) : Option ℕ × Files ℕ × Mem :=
  (x.1.map (u.length + ·), x.2.1.shift u.length, x.2.2.within u v)

theorem splitStage_within {q : ℕ} (h : Inner n c m) (hq : q ≤ n) :
    (∀ u v, splitStage (m.within u v) (u.length + q) = splitIn u v (splitStage m q)) ∧
    (∀ q' ∈ (splitStage m q).1, q' ≤ n) ∧ FilesTo n (splitStage m q).2.1 ∧ Inner n c (splitStage m q).2.2 := by
  have hrchr (u v : List Char) (c : Char) :
      strrchr (m.within u v).buf (u.length + q) c = (strrchr m.buf q c).map (u.length + ·) :=
    (strrchr_within h.ends hq c).1
  have hbound (c : Char) : ∀ a ∈ strrchr m.buf q c, a ≤ n := (strrchr_within (u := []) (v := []) h.ends hq c).2
  cases hin : strrchr m.buf q '<' with
  | none =>
    cases hout : strrchr m.buf q '>' with
    | none =>
      have hown : splitStage m q = (some q, ⟨none, none⟩, m) := by simp only [splitStage, hin, hout]
      rw [hown]
      refine ⟨fun u v => ?_, by simpa using hq, ⟨by simp, by simp⟩, h⟩
      simp only [splitStage, hrchr, hin, hout, Option.map_none]
      rfl
    | some b =>
      obtain ⟨x, m1, y, m2, z, m3, w, m4, ⟨h1, h2, -⟩, hthere, ⟨i2, -⟩, b1, b2, -⟩ := strtok_four h hq '>' '<'
      have hown : splitStage m q = (x, ⟨none, y⟩, m2) := by simp only [splitStage, hin, hout, h1, h2]
      rw [hown]
      refine ⟨fun u v => ?_, b1, ⟨by simp, b2⟩, i2⟩
      obtain ⟨e1, e2, -⟩ := hthere u v
      simp only [splitStage, hrchr, hin, hout, Option.map_none, Option.map_some, e1, e2]
      rfl
  | some a =>
    cases hout : strrchr m.buf q '>' with
    | none =>
      obtain ⟨x, m1, y, m2, z, m3, w, m4, ⟨h1, h2, -⟩, hthere, ⟨i2, -⟩, b1, b2, -⟩ := strtok_four h hq '<' '>'
      have hown : splitStage m q = (x, ⟨y, none⟩, m2) := by simp only [splitStage, hin, hout, h1, h2]
      rw [hown]
      refine ⟨fun u v => ?_, b1, ⟨b2, by simp⟩, i2⟩
      obtain ⟨e1, e2, -⟩ := hthere u v
      simp only [splitStage, hrchr, hin, hout, Option.map_none, Option.map_some, e1, e2]
      rfl
    | some b =>
      have hdiff (u v : List Char) : suffixDifference (m.within u v).buf (u.length + b) (u.length + a) =
          suffixDifference m.buf b a := by
        have ha : strlen (m.within u v).buf (u.length + a) = strlen m.buf a := strlen_within h.ends (hbound '<' a hin)
        have hb : strlen (m.within u v).buf (u.length + b) = strlen m.buf b := strlen_within h.ends (hbound '>' b hout)
        rw [suffixDifference, ha, hb, suffixDifference]
      by_cases hpos : 0 < suffixDifference m.buf b a
      · obtain ⟨x, m1, y, m2, z, m3, w, m4, ⟨h1, h2, h3, h4⟩, hthere, ⟨-, i4⟩, b1, -, b3, b4⟩ := strtok_four h hq '>' '<'
        have hown : splitStage m q = (x, ⟨w, z⟩, m4) := by simp only [splitStage, hin, hout, hpos, if_true, h1, h2, h3, h4]
        rw [hown]
        refine ⟨fun u v => ?_, b1, ⟨b4, b3⟩, i4⟩
        obtain ⟨e1, e2, e3, e4⟩ := hthere u v
        simp only [splitStage, hrchr, hin, hout, Option.map_some, hdiff, hpos, if_true, e1, e2, e3, e4]
        rfl
      · obtain ⟨x, m1, y, m2, z, m3, w, m4, ⟨h1, h2, h3, h4⟩, hthere, ⟨-, i4⟩, b1, -, b3, b4⟩ := strtok_four h hq '<' '>'
        have hown : splitStage m q = (x, ⟨z, w⟩, m4) := by simp only [splitStage, hin, hout, hpos, if_false, h1, h2, h3, h4]
        rw [hown]
        refine ⟨fun u v => ?_, b1, ⟨b3, b4⟩, i4⟩
        obtain ⟨e1, e2, e3, e4⟩ := hthere u v
        simp only [splitStage, hrchr, hin, hout, Option.map_some, hdiff, hpos, if_false, e1, e2, e3, e4]
        rfl

theorem checkIOParser_carried (h : Inner n c m) (hp : ∀ q ∈ p, q ≤ n) :
    Carried c stageIn (fun x => SlotsTo n x.1 ∧ FilesTo n x.2.1 ∧ Inner n c x.2.2)
      (fun u v => checkIOParser (m.within u v) (p.map (u.length + ·)) ⟨none, none⟩ .empty)
      (checkIOParser m p ⟨none, none⟩ .empty) := by
  cases p with
  | none => exact .ok (fun _ _ => rfl) ⟨slotsTo_empty n, ⟨by simp, by simp⟩, h⟩
  | some q =>
    obtain ⟨hsplit, hic, hfiles, hinner⟩ := splitStage_within h (hp q rfl)
    simp only [checkIOParser, Option.map_some, hsplit, splitIn]
    exact tokenize_carried hinner hic hfiles

/-! ## The removal of quotes -/

/-- one string: only a lone quote in front of the last terminator reaches what stands behind -/
theorem removeQuotesOn_carried {q : ℕ} (h : Inner n c m) (hq : q ≤ n) :
    Carried c (fun u v x => (u.length + x.1, x.2.within u v)) (fun x => x.1 ≤ n ∧ Inner n c x.2)
      (fun u v => removeQuotesOn (m.within u v) (u.length + q)) (removeQuotesOn m q) := by
  have hlen := h.ends.length
  have hget (u v : List Char) {j : ℕ} (hj : j ≤ n) : (m.within u v).buf.getD (u.length + j) nul = m.buf.getD j nul :=
    getD_within (by omega)
  by_cases hquote : m.buf.getD q nul = '"'
  · have hqn : q < n := by
      rcases hq.lt_or_eq with hlt | rfl
      · exact hlt
      · obtain ⟨s, hs, hsl⟩ := h.ends
        rw [hs, List.getD_eq_getElem?_getD, List.getElem?_append_right (by omega), ← hsl, Nat.sub_self] at hquote
        exact absurd hquote (by decide)
    by_cases hin : q + 2 ≤ n
    · have hstop (u v : List Char) : stopFrom (m.within u v).buf (u.length + q + 2) = u.length + stopFrom m.buf (q + 2) := by
        have hstr : str (m.within u v).buf (u.length + (q + 2)) = str m.buf (q + 2) := str_within h.ends hin
        rw [stopFrom, stopFrom, Nat.add_assoc u.length, hstr, Nat.add_assoc]
      have hle : stopFrom m.buf (q + 2) ≤ n := by
        have hpre : ((str m.buf (q + 2)).takeWhile (· != '"')).length ≤ strlen m.buf (q + 2) :=
          (List.takeWhile_prefix _).length_le
        have hend := h.ends.str_le hin
        rw [stopFrom]
        omega
      refine .of_eq (fun u v => ?_) fun a ha => ?_
      · simp only [removeQuotesOn, hget u v hq, hquote, if_true, hstop, hget u v hle]
        split_ifs
        · have hset : (m.within u v).buf.set (u.length + stopFrom m.buf (q + 2)) nul =
              u ++ (m.buf.set (stopFrom m.buf (q + 2)) nul ++ v) := set_within (by omega) nul
          simp only [hset]
          rfl
        · rfl
      · simp only [removeQuotesOn, hquote, if_true] at ha
        cases ha
        refine ⟨by simp only; omega, ?_⟩
        split_ifs
        · exact h.set _ h.saved
        · exact h
    · -- the scan starts behind the terminator
      have hend : q + 2 = m.buf.length := by omega
      have hown : removeQuotesOn m q = .ok (q + 1, m) := by
        have hstop : m.buf.getD (stopFrom m.buf (q + 2)) nul ≠ '"' := by
          have hle : m.buf.length ≤ stopFrom m.buf (q + 2) := hend ▸ Nat.le_add_right _ _
          rw [List.getD_eq_getElem?_getD, List.getElem?_eq_none hle]
          decide
        simp only [removeQuotesOn, hquote, if_true, if_neg hstop]
      refine ⟨true, fun u v => ?_, fun a ha => ?_, fun _ => ?_⟩
      · have hstop : stopFrom (m.within u v).buf (u.length + q + 2) = u.length + (m.buf.length + stopFrom v 0) := by
          have hstr : str (m.within u v).buf (u.length + m.buf.length) = str v 0 := by
            rw [str, str, Mem.within, List.drop_length_add_append, List.drop_left]
            rfl
          rw [Nat.add_assoc, hend, stopFrom, hstr, stopFrom_zero, Nat.add_assoc]
        have hgetv : (m.within u v).buf.getD (u.length + (m.buf.length + stopFrom v 0)) nul = v.getD (stopFrom v 0) nul := by
          simp only [Mem.within, List.getD_eq_getElem?_getD, List.getElem?_append_right (Nat.le_add_right _ _),
            Nat.add_sub_cancel_left]
        rw [hown]
        simp only [removeQuotesOn, hget u v hq, hquote, if_true, hstop, hgetv, Except.map, tailOf, cropTail]
        split_ifs
        · have hset : (m.within u v).buf.set (u.length + (m.buf.length + stopFrom v 0)) nul =
              u ++ (m.buf ++ v.set (stopFrom v 0) nul) := by
            rw [Mem.within, List.set_append_right _ _ (Nat.le_add_right _ _), Nat.add_sub_cancel_left,
              List.set_append_right _ _ (Nat.le_add_right _ _), Nat.add_sub_cancel_left]
          simp only [hset]
          rfl
        · rfl
      · rw [hown] at ha
        cases ha
        exact ⟨by simp only; omega, h⟩
      · obtain rfl : q = n - 1 := by omega
        rcases h.last with hc | hc
        · rw [← hc, hquote]
        · rw [hc] at hquote
          exact absurd hquote (by decide)
  · refine .of_eq (fun u v => ?_) fun a ha => ?_
    · simp only [removeQuotesOn, hget u v hq, hquote, if_false]
      rfl
    · simp only [removeQuotesOn, hquote, if_false] at ha
      cases ha
      exact ⟨hq, h⟩

theorem tokenLoop_carried (h : Inner n c m) (ht : SlotsTo n t) :
    Carried c slotsIn (fun x => SlotsTo n x.1 ∧ Inner n c x.2)
      (fun u v => tokenLoop removeQuotesOn r i (t.map (u.length + ·)) (m.within u v))
      (tokenLoop removeQuotesOn r i t m) := by
  induction r generalizing i t m with
  | zero => exact .ok (fun _ _ => rfl) ⟨ht, h⟩
  | succ r ih =>
    simp only [tokenLoop, read_map]
    cases hi : t.read i with
    | error f => exact .error _
    | ok a =>
      cases a with
      | none => exact .ok (fun _ _ => rfl) ⟨ht, h⟩
      | some q =>
        have hslot : t i = some (some q) := by
          unfold Slots.read at hi
          cases hti : t i with
          | none => simp [hti] at hi
          | some a => simpa [hti] using hi
        refine Carried.bind (removeQuotesOn_carried h (ht i q hslot)) fun x hx => ?_
        have hwrite (u : List Char) : (t.map (u.length + ·)).write i (some (u.length + x.1)) =
            (t.write i (some x.1)).map (u.length + ·) := (map_write _ t i (some x.1)).symm
        simp only [hwrite]
        exact ih hx.2 (ht.write (by simpa using hx.1))

theorem fileBlock_carried (h : Inner n c m) (hp : ∀ q ∈ p, q ≤ n) :
    Carried c fileIn (fun x => (∀ q ∈ x.1, q ≤ n) ∧ Inner n c x.2)
      (fun u v => fileBlock removeQuotesOn (m.within u v) (p.map (u.length + ·))) (fileBlock removeQuotesOn m p) := by
  cases p with
  | none => exact .ok (fun _ _ => rfl) ⟨by simp, h⟩
  | some q =>
    refine Carried.bind (removeQuotesOn_carried h (hp q rfl)) fun x hx => ?_
    exact .ok (fun _ _ => rfl) ⟨by simpa using hx.1, hx.2⟩

theorem stageQuotes_carried (h : Inner n c m) (ht : SlotsTo n t) {f : Files ℕ} (hf : FilesTo n f) :
    Carried c stageIn (fun x => SlotsTo n x.1 ∧ FilesTo n x.2.1 ∧ Inner n c x.2.2)
      (fun u v => stageQuotes removeQuotesOn (m.within u v) (t.map (u.length + ·)) (f.shift u.length))
      (stageQuotes removeQuotesOn m t f) := by
  refine Carried.bind (tokenLoop_carried h ht) fun x hx => ?_
  refine Carried.bind (fileBlock_carried hx.2 hf.1) fun y hy => ?_
  refine Carried.bind (fileBlock_carried hy.2 hf.2) fun z hz => ?_
  exact .ok (fun _ _ => rfl) ⟨hx.1, ⟨hy.1, hz.1⟩, hz.2⟩

/-! ## The memory after a line -/

/-- the memory that `executeOneWith` leaves -/
def oneMem (m : Mem) (str1 : Option ℕ) : Except Fault Mem := do
  let (tokens, file, m) ← checkIOParser m str1 ⟨none, none⟩ .empty
  match ← tokens.read 0 with
  | none => return m
  | some _ =>
    let (_, _, m) ← stageQuotes removeQuotesOn m tokens file
    return m

/-- the memory that `executeTwoWith` leaves -/
def twoMem (m : Mem) (str1 str2 : ℕ) : Except Fault Mem := do
  let (tokens1, file1, m) ← checkIOParser m (some str1) ⟨none, none⟩ .empty
  let (tokens2, file2, m) ← checkIOParser m (some str2) ⟨none, none⟩ .empty
  match ← tokens1.read 0 with
  | none => return m
  | some _ =>
    match ← tokens2.read 0 with
    | none => return m
    | some _ =>
      let (_, _, m) ← stageQuotes removeQuotesOn m tokens1 file1
      let (_, _, m) ← stageQuotes removeQuotesOn m tokens2 file2
      return m

def commandMem (m : Mem) (s : ℕ) : Except Fault Mem :=
  match strtok m (some s) '|' with
  | (none, m) => oneMem m none
  | (some str1, m) =>
    match strtok m none '|' with
    | (none, m) => oneMem m (some str1)
    | (some str2, m) => twoMem m str1 str2

/-- the memory of the shell process after a line -/
def lineMem (m : Mem) (s : ℕ) : Except Fault Mem :=
  match strtok m (some s) ';' with
  | (none, m) => commandMem m s
  | (some _, m) =>
    match strtok m none ';' with
    | (none, m) => commandMem m s
    | (some _, m) => .ok m

theorem bind_ok {ρ σ : Type} {x : Except Fault ρ} {f : ρ → Except Fault σ} {b : σ} (h : x >>= f = .ok b) :
    ∃ a, x = .ok a ∧ f a = .ok b := by
  cases x with
  | error e => cases h
  | ok a => exact ⟨a, rfl, h⟩

theorem oneMem_of_ok {es : List Event} (h : executeOneWith removeQuotesOn m p = .ok (es, m')) : oneMem m p = .ok m' := by
  obtain ⟨⟨t, file, m1⟩, hparse, h⟩ := bind_ok h
  obtain ⟨a, hread, h⟩ := bind_ok h
  unfold oneMem
  rw [hparse]
  change (t.read 0 >>= _) = _
  rw [hread]
  cases a with
  | none =>
    cases h
    rfl
  | some q =>
    simp only [reduceCtorEq, if_false] at h
    obtain ⟨⟨t', file', m2⟩, hquotes, h⟩ := bind_ok h
    change (stageQuotes removeQuotesOn m1 t file >>= _) = _
    rw [hquotes]
    obtain ⟨w, -, h⟩ := bind_ok h
    obtain ⟨flag, -, h⟩ := bind_ok h
    obtain ⟨s, -, h⟩ := bind_ok h
    split_ifs at h
    · obtain ⟨_, -, h⟩ := bind_ok h
      cases h
      rfl
    · cases h
      rfl

theorem twoMem_of_ok {q1 q2 : ℕ} {es : List Event} (h : executeTwoWith removeQuotesOn m q1 q2 = .ok (es, m')) :
    twoMem m q1 q2 = .ok m' := by
  obtain ⟨⟨t1, file1, m1⟩, hparse1, h⟩ := bind_ok h
  obtain ⟨⟨t2, file2, m2⟩, hparse2, h⟩ := bind_ok h
  obtain ⟨a1, hread1, h⟩ := bind_ok h
  unfold twoMem
  rw [hparse1]
  change (checkIOParser m1 (some q2) ⟨none, none⟩ .empty >>= _) = _
  rw [hparse2]
  change (t1.read 0 >>= _) = _
  rw [hread1]
  cases a1 with
  | none =>
    cases h
    rfl
  | some a1 =>
    simp only [reduceCtorEq, if_false] at h
    obtain ⟨a2, hread2, h⟩ := bind_ok h
    change (t2.read 0 >>= _) = _
    rw [hread2]
    cases a2 with
    | none =>
      cases h
      rfl
    | some a2 =>
      simp only [reduceCtorEq, if_false] at h
      obtain ⟨⟨t1', file1', m3⟩, hquotes1, h⟩ := bind_ok h
      obtain ⟨⟨t2', file2', m4⟩, hquotes2, h⟩ := bind_ok h
      change (stageQuotes removeQuotesOn m2 t1 file1 >>= _) = _
      rw [hquotes1]
      change (stageQuotes removeQuotesOn m3 t2 file2 >>= _) = _
      rw [hquotes2]
      obtain ⟨w1, -, h⟩ := bind_ok h
      obtain ⟨flag1, -, h⟩ := bind_ok h
      obtain ⟨w2, -, h⟩ := bind_ok h
      obtain ⟨flag2, -, h⟩ := bind_ok h
      obtain ⟨s1, -, h⟩ := bind_ok h
      obtain ⟨s2, -, h⟩ := bind_ok h
      split_ifs at h
      · obtain ⟨_, -, h⟩ := bind_ok h
        cases h
        rfl
      · cases h
        rfl
      · cases h
        rfl

theorem commandMem_of_ok {s : ℕ} {es : List Event} (h : executeCommandWith removeQuotesOn m s = .ok (es, m')) :
    commandMem m s = .ok m' := by
  unfold executeCommandWith at h
  unfold commandMem
  generalize strtok m (some s) '|' = x at h
  obtain ⟨_ | q1, m1⟩ := x
  · exact oneMem_of_ok h
  · simp only at h ⊢
    generalize strtok m1 none '|' = y at h
    obtain ⟨_ | q2, m2⟩ := y
    · exact oneMem_of_ok h
    · exact twoMem_of_ok h

theorem oneMem_carried (h : Inner n c m) (hp : ∀ q ∈ p, q ≤ n) :
    Carried c Mem.within (Inner n c) (fun u v => oneMem (m.within u v) (p.map (u.length + ·))) (oneMem m p) := by
  refine Carried.bind (checkIOParser_carried h hp) ?_
  rintro ⟨t, file, m1⟩ hx
  simp only [stageIn, read_map]
  cases t.read 0 with
  | error f => exact .error _
  | ok a =>
    cases a with
    | none => exact .ok (fun _ _ => rfl) hx.2.2
    | some q =>
      refine Carried.bind (stageQuotes_carried hx.2.2 hx.1 hx.2.1) ?_
      rintro ⟨t', file', m2⟩ hy
      exact .ok (fun _ _ => rfl) hy.2.2

theorem twoMem_carried {q1 q2 : ℕ} (h : Inner n c m) (h1 : q1 ≤ n) (h2 : q2 ≤ n) :
    Carried c Mem.within (Inner n c) (fun u v => twoMem (m.within u v) (u.length + q1) (u.length + q2)) (twoMem m q1 q2) := by
  refine Carried.bind (checkIOParser_carried (p := some q1) h (by simpa using h1)) ?_
  rintro ⟨t1, file1, m1⟩ hx
  refine Carried.bind (checkIOParser_carried (p := some q2) hx.2.2 (by simpa using h2)) ?_
  rintro ⟨t2, file2, m2⟩ hy
  simp only [stageIn, read_map]
  cases t1.read 0 with
  | error f => exact .error _
  | ok a =>
    cases a with
    | none => exact .ok (fun _ _ => rfl) hy.2.2
    | some a =>
      cases t2.read 0 with
      | error f => exact .error _
      | ok b =>
        cases b with
        | none => exact .ok (fun _ _ => rfl) hy.2.2
        | some b =>
          refine Carried.bind (stageQuotes_carried hy.2.2 hx.1 hx.2.1) ?_
          rintro ⟨t1', file1', m3⟩ hz
          refine Carried.bind (stageQuotes_carried hz.2.2 hy.1 hy.2.1) ?_
          rintro ⟨t2', file2', m4⟩ hw
          exact .ok (fun _ _ => rfl) hw.2.2

theorem commandMem_carried {s : ℕ} (h : Inner n c m) (hs : s ≤ n) :
    Carried c Mem.within (Inner n c) (fun u v => commandMem (m.within u v) (u.length + s)) (commandMem m s) := by
  obtain ⟨h1, i1, b1⟩ := strtok_within (d := '|') (p := some s) h hs
  simp only [Option.map_some] at h1
  simp only [commandMem, h1]
  generalize strtok m (some s) '|' = x at i1 b1
  obtain ⟨_ | q1, m1⟩ := x
  · exact oneMem_carried (p := none) i1 (by simp)
  · obtain ⟨h2, i2, b2⟩ := strtok_within (d := '|') (p := none) i1 i1.saved
    simp only [Option.map_none] at h2
    simp only [Option.map_some, h2]
    generalize strtok m1 none '|' = y at i2 b2
    obtain ⟨_ | q2, m2⟩ := y
    · exact oneMem_carried (p := some q1) i2 b1
    · exact twoMem_carried i2 (b1 q1 rfl) (b2 q2 rfl)

/-- **The memory of a line.** The line alone decides whether the text behind it is cut. -/
theorem lineMem_carried {s : ℕ} (h : Inner n c m) (hs : s ≤ n) :
    Carried c Mem.within (Inner n c) (fun u v => lineMem (m.within u v) (u.length + s)) (lineMem m s) := by
  obtain ⟨h1, i1, b1⟩ := strtok_within (d := ';') (p := some s) h hs
  simp only [Option.map_some] at h1
  simp only [lineMem, h1]
  generalize strtok m (some s) ';' = x at i1 b1
  obtain ⟨_ | q1, m1⟩ := x
  · exact commandMem_carried i1 hs
  · obtain ⟨h2, i2, b2⟩ := strtok_within (d := ';') (p := none) i1 i1.saved
    simp only [Option.map_none] at h2
    simp only [Option.map_some, h2]
    generalize strtok m1 none ';' = y at i2 b2
    obtain ⟨_ | q2, m2⟩ := y
    · exact commandMem_carried i2 hs
    · exact .ok (fun _ _ => rfl) i2

/-! ## The shell after a line -/

/-- the removal of quotes goes on behind the line `w`: it cuts a quote that stands there -/
def Spills (w : List Char) : Prop := ∃ m', lineMem ⟨w ++ nul :: ['"'], 0⟩ 0 = .ok m' ∧ '"' ∉ m'.buf.getLast?

instance (w : List Char) : Decidable (Spills w) :=
  match h : lineMem ⟨w ++ nul :: ['"'], 0⟩ 0 with
  | .error _ => .isFalse fun hs => by
    obtain ⟨_, hm, -⟩ := hs
    rw [h] at hm
    cases hm
  | .ok m' => decidable_of_iff ('"' ∉ m'.buf.getLast?) (by simp [Spills, h])

theorem strtok_saved (b : List Char) (x y q : ℕ) (d : Char) : strtok ⟨b, x⟩ (some q) d = strtok ⟨b, y⟩ (some q) d := by
  unfold strtok
  rfl

theorem runLine_lineMem {Dir : Type} {env : Env Dir} {s : Process Dir} {q : ℕ} (hrun : (runLine env m q s).1.running = true) :
    lineMem m q = .ok (runLine env m q s).2 := by
  have hcommand {m : Mem} (hrun : (runCommand env m q s).1.running = true) : commandMem m q = .ok (runCommand env m q s).2 := by
    unfold runCommand at hrun ⊢
    cases hok : executeCommandWith removeQuotesOn m q with
    | error f =>
      rw [hok] at hrun
      cases hrun
    | ok x => exact commandMem_of_ok hok
  unfold runLine commaChecker at hrun ⊢
  unfold lineMem
  generalize strtok m (some q) ';' = x at hrun ⊢
  obtain ⟨_ | q1, m1⟩ := x
  · exact hcommand hrun
  · simp only at hrun ⊢
    generalize strtok m1 none ';' = y at hrun ⊢
    obtain ⟨_ | q2, m2⟩ := y
    · exact hcommand hrun
    · rfl

theorem inner_line (w : List Char) : Inner w.length (w.getD (w.length - 1) nul) ⟨w ++ [nul], 0⟩ := by
  refine ⟨⟨w, rfl, rfl⟩, Nat.zero_le _, ?_⟩
  rcases Nat.eq_zero_or_pos w.length with h0 | h0
  · rw [List.length_eq_zero_iff.1 h0]
    exact .inr rfl
  · left
    have hlt : w.length - 1 < w.length := by omega
    simp only [List.getD_eq_getElem?_getD, List.getElem?_append_left hlt]

/-- what the line `w` does to the memory, wherever it stands -/
theorem lineMem_line (w : List Char) : ∃ hit,
    (∀ u v x, lineMem ⟨u ++ (w ++ nul :: v), x⟩ u.length = (lineMem ⟨w ++ [nul], 0⟩ 0).map (Mem.within u (tailOf hit v))) ∧
    (∀ m', lineMem ⟨w ++ [nul], 0⟩ 0 = .ok m' → m'.buf.length = w.length + 1 ∧ (Spills w ↔ hit = true)) ∧
    (hit = true → w.getD (w.length - 1) nul = '"') := by
  obtain ⟨hit, heq, hinner, hquote⟩ := lineMem_carried (inner_line w) (Nat.zero_le _)
  have hthere (u v : List Char) (x : ℕ) : lineMem ⟨u ++ (w ++ nul :: v), x⟩ u.length =
      (lineMem ⟨w ++ [nul], 0⟩ 0).map (Mem.within u (tailOf hit v)) := by
    simp only [← heq u v, Mem.within]
    rw [List.append_assoc, Nat.add_zero, lineMem, lineMem, strtok_saved _ x (u.length + 0)]
    rfl
  refine ⟨hit, hthere, fun m' hown => ⟨(hinner m' hown).ends.length, ?_⟩, hquote⟩
  have hafter := hthere [] ['"'] 0
  rw [hown] at hafter
  unfold Spills
  rw [show lineMem ⟨w ++ nul :: ['"'], 0⟩ 0 = .ok (Mem.within [] (tailOf hit ['"']) m') from hafter]
  cases hit <;> simp [tailOf, Mem.within, cropTail, stopFrom, str, nul]

/-- the quote is the last character of the line -/
theorem Spills.last {w : List Char} (h : Spills w) : w.getLast? = some '"' := by
  obtain ⟨hit, hthere, hown, hquote⟩ := lineMem_line w
  obtain ⟨m', hm, -⟩ := id h
  have hafter := hthere [] ['"'] 0
  change lineMem ⟨w ++ nul :: ['"'], 0⟩ 0 = _ at hafter
  rw [hm] at hafter
  cases hok : lineMem ⟨w ++ [nul], 0⟩ 0 with
  | error f =>
    rw [hok] at hafter
    cases hafter
  | ok m'' =>
    have hc := hquote ((hown m'' hok).2.1 h)
    rw [List.getLast?_eq_getElem?]
    rw [List.getD_eq_getElem?_getD] at hc
    cases hw : w[w.length - 1]? with
    | none =>
      rw [hw] at hc
      exact absurd hc (by decide)
    | some x =>
      rw [hw] at hc
      exact congrArg some hc

/-- **What is behind a line.** -/
theorem runLine_behind {Dir : Type} {env : Env Dir} {s : Process Dir} {w : List Char} {x : ℕ}
    (hrun : (runLine env ⟨u ++ (w ++ nul :: v), x⟩ u.length s).1.running = true) :
    ∃ b, b.length = w.length + 1 ∧
      (runLine env ⟨u ++ (w ++ nul :: v), x⟩ u.length s).2.buf = u ++ (b ++ if Spills w then cropTail v else v) := by
  obtain ⟨hit, hthere, hown, -⟩ := lineMem_line w
  have hline := runLine_lineMem hrun
  rw [hthere] at hline
  cases hok : lineMem ⟨w ++ [nul], 0⟩ 0 with
  | error f =>
    rw [hok] at hline
    cases hline
  | ok m' =>
    rw [hok] at hline
    obtain ⟨hlen, hspills⟩ := hown m' hok
    refine ⟨m'.buf, hlen, ?_⟩
    rw [congrArg Mem.buf (Except.ok.inj hline).symm]
    change u ++ (m'.buf ++ tailOf hit v) = _
    simp only [tailOf, hspills]

example : Spills "echo \"".toList ∧ ¬ Spills "echo \" a".toList := by decide

end DecsLabs.Shell
