/-
Which command lines the parser of the shell survives. The parse phase runs in the shell's own process, so a fault there
ends the shell.

- `executeCommand_cases`: a line is no stage, one stage or at least two.
- `survives_iff`: exactly which lines are parsed without a fault, and reported if a stage has no command word.
- `blank_file_name`: a line that is not survived.
-/
import DecsLabs.Shell.Stages

namespace DecsLabs.Shell

open DecsLabs.CString

variable {m : Mem} {p : ℕ} {l : List Char}

/-! ## Lines -/

/-- the stages that `executeCommand` looks at -/
def stages (l : List Char) : List (List Char) := (pieces '|' l).take 2

/-- the text of a stage before its first redirection operator -/
def beforeOperator (s : List Char) : List Char := s.takeWhile fun c => c != '<' && c != '>'

/-- there is no stage, or one of the stages has no word before its first operator -/
def LacksCommandWord (l : List Char) : Prop := stages l = [] ∨ ∃ s ∈ stages l, words (beforeOperator s) = []

instance (l : List Char) : Decidable (LacksCommandWord l) := inferInstanceAs (Decidable (_ ∨ _))

/-- `executeCommand` on a line in a buffer with the other strings `r` -/
theorem executeCommand_frame {r : List Cell} (h : Held m.buf ((p, l) :: r)) :
    (placed '|' p l = [] ∧ executeCommand m p = .error .unwrittenSlot) ∨
    (∃ s q m', placed '|' p l = [(q, s)] ∧ executeCommand m p = executeOne m' (some q) ∧ Held m'.buf ((q, s) :: r)) ∨
    ∃ s1 s2 r' q1 q2 m', placed '|' p l = (q1, s1) :: (q2, s2) :: r' ∧ executeCommand m p = executeTwo m' q1 q2 ∧
      Piped m' q1 q2 s1 s2 r := by
  obtain ⟨x, y, m', m'', h1, h2, hx, hy, hheld, -⟩ := strtok_two h '|'
  cases hp : placed '|' p l with
  | nil =>
    obtain rfl : x = none := by simpa [hp] using hx
    refine .inl ⟨rfl, ?_⟩
    simp [executeCommand, h1, executeOne, checkIOParser, Slots.read, Slots.empty, bind, Except.bind]
  | cons c1 r' =>
    obtain rfl : x = some c1 := by simpa [hp] using hx
    cases r' with
    | nil =>
      obtain rfl : y = none := by simpa [hp] using hy
      refine .inr (.inl ⟨c1.2, c1.1, m'', rfl, ?_, by simpa using hheld⟩)
      simp only [Option.map_some, Option.map_none] at h1 h2
      simp [executeCommand, h1, h2]
    | cons c2 r' =>
      obtain rfl : y = some c2 := by simpa [hp] using hy
      refine .inr (.inr ⟨c1.2, c2.2, r', c1.1, c2.1, m'', rfl, ?_, by simpa using hheld⟩)
      simp only [Option.map_some] at h1 h2
      simp [executeCommand, h1, h2]

/-- `executeCommand` on a line that is one string -/
theorem executeCommand_cases (h : Holds m.buf (p, l)) :
    (placed '|' p l = [] ∧ executeCommand m p = .error .unwrittenSlot) ∨
    (∃ s q m', placed '|' p l = [(q, s)] ∧ executeCommand m p = executeOne m' (some q) ∧ Held m'.buf [(q, s)]) ∨
    ∃ s1 s2 r q1 q2 m', placed '|' p l = (q1, s1) :: (q2, s2) :: r ∧ executeCommand m p = executeTwo m' q1 q2 ∧
      Piped m' q1 q2 s1 s2 [] :=
  executeCommand_frame ⟨by simpa using h, by simp⟩

/-- how `executeCommand` ends, by the stages of the line -/
inductive Outcome (sts : List (List Char)) (r : Except Fault (List Event × Mem)) : Prop
  | noStage (h : sts = []) (hr : r = .error .unwrittenSlot)
  | blank (h : ∃ s ∈ sts, Blank s) (hr : r = .error .nullArgument)
  | report (hb : ∀ s ∈ sts, ¬ Blank s) (h : ∃ s ∈ sts, commandWords s = []) {m' : Mem} (hr : r = .ok ([.report], m'))
  | lone (hw : ∀ s ∈ sts, commandWords s ≠ []) (h : ∃ s ∈ sts, Lone s) (hr : r = .error .beyondTerminator)
  | starts (hne : sts ≠ []) (hb : ∀ s ∈ sts, ¬ Blank s) (hw : ∀ s ∈ sts, commandWords s ≠ []) (hl : ∀ s ∈ sts, ¬ Lone s)
    {es : List Event} {m' : Mem} (hr : r = .ok (es, m')) (he : es ≠ [.report])

theorem outcome (h : Holds m.buf (p, l)) : Outcome (stages l) (executeCommand m p) := by
  rcases executeCommand_cases h with ⟨hp, hrun⟩ | ⟨s, q, m', hp, hrun, hheld⟩ | ⟨s1, s2, r, q1, q2, m', hp, hrun, hheld⟩
  · exact .noStage (by rw [stages, ← placed_snd _ p, hp]; rfl) hrun
  · have hst : stages l = [s] := by rw [stages, ← placed_snd _ p, hp]; rfl
    rw [hrun, hst]
    by_cases hb : Blank s
    · exact .blank ⟨s, by simp, hb⟩ (executeOne_blank hheld hb)
    by_cases hw : commandWords s = []
    · obtain ⟨m'', hrep, -⟩ := executeOne_report hheld hb hw
      exact .report (by simpa) ⟨s, by simp, hw⟩ hrep
    by_cases hl : Lone s
    · exact .lone (by simpa) ⟨s, by simp, hl⟩ (executeOne_lone hheld hb hw hl)
    obtain ⟨e, m'', hok, he⟩ := executeOne_starts hheld hb hw hl
    refine .starts (by simp) (by simpa) (by simpa) (by simpa) hok ?_
    intro hcon
    cases hcon
    cases he
  · have hst : stages l = [s1, s2] := by rw [stages, ← placed_snd _ p, hp]; rfl
    rw [hrun, hst]
    by_cases hb : Blank s1 ∨ Blank s2
    · exact .blank (by simpa) (executeTwo_blank hheld hb)
    obtain ⟨hb1, hb2⟩ := not_or.1 hb
    by_cases hw : commandWords s1 = [] ∨ commandWords s2 = []
    · obtain ⟨m'', hrep, -⟩ := executeTwo_report hheld hb1 hb2 hw
      exact .report (by simp [hb1, hb2]) (by simpa) hrep
    obtain ⟨hw1, hw2⟩ := not_or.1 hw
    by_cases hl : Lone s1 ∨ Lone s2
    · exact .lone (by simp [hw1, hw2]) (by simpa) (executeTwo_lone hheld hb1 hb2 hw1 hw2 hl)
    obtain ⟨hl1, hl2⟩ := not_or.1 hl
    obtain ⟨es, m'', hok, he⟩ := executeTwo_starts hheld hb1 hb2 hw1 hw2 hl1 hl2
    refine .starts (by simp) (by simp [hb1, hb2]) (by simp [hw1, hw2]) (by simp [hl1, hl2]) hok ?_
    rintro rfl
    split_ifs at he <;> simp [Event.starts] at he

/-! ## Survival -/

/-- no fault, and a line with a stage that has no command word ends in the report -/
def Survives (r : Except Fault (List Event × Mem)) (l : List Char) : Prop :=
  ∃ es m', r = .ok (es, m') ∧ (LacksCommandWord l → es = [.report])

structure Parsable (l : List Char) : Prop where
  stage : stages l ≠ []
  files : ∀ s ∈ stages l, ¬ Blank s
  /-- quotes are only removed when every stage has a command -/
  quotes : (∀ s ∈ stages l, commandWords s ≠ []) → ∀ s ∈ stages l, ¬ Lone s
  /-- a stage without a command word is only noticed when the piece that is taken for its command has no word either -/
  command : LacksCommandWord l → ∃ s ∈ stages l, commandWords s = []

theorem not_survives_of_error {f : Fault} {r : Except Fault (List Event × Mem)} (h : r = .error f) :
    ¬ Survives r l := by
  rintro ⟨es, m', hr, -⟩
  rw [h] at hr
  cases hr

/-- **Survival.** For every string, wherever it is in the memory. -/
theorem survives_iff (h : Holds m.buf (p, l)) : Survives (executeCommand m p) l ↔ Parsable l := by
  cases outcome h with
  | noStage hst hr => exact iff_of_false (not_survives_of_error hr) fun hpar => hpar.stage hst
  | blank hb hr =>
    obtain ⟨s, hs, hb⟩ := hb
    exact iff_of_false (not_survives_of_error hr) fun hpar => hpar.files s hs hb
  | lone hw hl hr =>
    obtain ⟨s, hs, hl⟩ := hl
    exact iff_of_false (not_survives_of_error hr) fun hpar => hpar.quotes hw s hs hl
  | report hb hw hr =>
    obtain ⟨s, hs, hw⟩ := hw
    refine iff_of_true ⟨_, _, hr, fun _ => rfl⟩ ⟨List.ne_nil_of_mem hs, hb, fun hall => ?_, fun _ => ⟨s, hs, hw⟩⟩
    exact absurd hw (hall s hs)
  | starts hne hb hw hl hr he =>
    -- nothing is reported, so every stage must have its command word
    constructor
    · rintro ⟨es', m'', hr', hlack⟩
      rw [hr] at hr'
      cases hr'
      exact ⟨hne, hb, fun _ => hl, fun hl' => absurd (hlack hl') he⟩
    · intro hpar
      refine ⟨_, _, hr, fun hlack => ?_⟩
      obtain ⟨s, hs, hw'⟩ := hpar.command hlack
      exact absurd hw' (hw s hs)

theorem survives_iff_example : Survives (executeCommand ⟨"grep -c \"a\" < in | sort > out".toList ++ [nul], 0⟩ 0)
    "grep -c \"a\" < in | sort > out".toList := by
  refine (survives_iff ⟨by decide, by decide⟩).2 ⟨by decide, by decide, by decide, by decide⟩

/-- the blank after `>` is an output file name, of which `strtok` leaves NULL -/
theorem blank_file_name : executeCommand ⟨"ls > ".toList ++ [nul], 0⟩ 0 = .error .nullArgument ∧
    ¬ Survives (executeCommand ⟨"ls > ".toList ++ [nul], 0⟩ 0) "ls > ".toList := by
  have h : executeCommand ⟨"ls > ".toList ++ [nul], 0⟩ 0 = .error .nullArgument := rfl
  exact ⟨h, not_survives_of_error h⟩

end DecsLabs.Shell
