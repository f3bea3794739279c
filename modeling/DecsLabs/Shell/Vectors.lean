/-
What the children of `executeCommand` call `execvp` with, by the name of the command, what stands behind it, and the
files: the argument vector, the source of stdin and the target of stdout. The arrays and their slots are gone here.

- `Kind`: the four custom commands, and everything else.
- `vectorOf`, `sourceOf`, `targetOf`: for a child that has its own array only.
- `pipedVector`, `pipedSource`: for the second child of a pipe.
- `childWith_iff`, `secondChild_iff`: **the children do exactly that**, if the vector fits its array.
-/
import DecsLabs.Shell.Children

namespace DecsLabs.Shell

/-! ## Kinds of commands -/

inductive Kind where
  /-- no custom command -/
  | plain
  | checkcpupercentage
  | checkresidentmemory
  | listFiles
  | sortFile
deriving DecidableEq, Repr

def kindOf (c : List Char) : Kind :=
  if c = "checkcpupercentage".toList then .checkcpupercentage
  else if c = "checkresidentmemory".toList then .checkresidentmemory
  else if c = "listFiles".toList then .listFiles
  else if c = "sortFile".toList then .sortFile
  else .plain

theorem flagOf_ne_two {c : List Char} (hc : c ∉ customCommands) : flagOf c ≠ 2 := by
  unfold flagOf
  split_ifs <;> decide

/-- one case for each kind -/
@[elab_as_elim]
theorem kindCases {P : List Char → Prop} (plain : ∀ c, kindOf c = .plain → flagOf c ≠ 2 → ¬ Rewritten c → P c)
    (checkcpupercentage : P "checkcpupercentage".toList) (checkresidentmemory : P "checkresidentmemory".toList)
    (listFiles : P "listFiles".toList) (sortFile : P "sortFile".toList) (c : List Char) : P c := by
  by_cases hc : c ∈ customCommands
  · simp only [customCommands, List.mem_cons, List.not_mem_nil, or_false] at hc
    rcases hc with rfl | rfl | rfl | rfl
    · exact checkcpupercentage
    · exact checkresidentmemory
    · exact listFiles
    · exact sortFile
  · have hflag := flagOf_ne_two hc
    simp only [customCommands, List.mem_cons, List.not_mem_nil, or_false, not_or] at hc
    obtain ⟨hcpu, hmem, hlist, hsort⟩ := hc
    refine plain c ?_ hflag ?_
    · rw [kindOf, if_neg hcpu, if_neg hmem, if_neg hlist, if_neg hsort]
    · intro hcustom
      rcases hcustom with h | h | h
      · exact hmem h
      · exact hlist h
      · exact hsort h

/-! ## What a child calls execvp with -/

/-- the argument vector, if the child reads a word with `scan` -/
def vectorOf (scan : World → Source → Except Crash (List Char)) (w : World) (c : List Char) (ws : List (List Char))
    (input : Option (List Char)) : Except Crash (List (List Char)) :=
  match kindOf c with
  | .plain => .ok (c :: (ws ++ w.appended input))
  | .checkcpupercentage =>
    if input = none then .ok ("./checkcpupercentage".toList :: ws)
    else (scanWord w (reopen w input .shell)).map fun v => "./checkcpupercentage".toList :: (ws ++ [v])
  | .checkresidentmemory =>
    if input = none then .ok (["ps".toList, "-o".toList, "rss=".toList] ++ ws.head?.toList)
    else (scan w (reopen w input .shell)).map fun v => ["ps".toList, "-o".toList, "rss=".toList, v]
  | .listFiles => .ok ["ls".toList]
  | .sortFile => .ok ["sort".toList]

/-- stdin; sortFile without an input file reads its argument -/
def sourceOf (w : World) (c : List Char) (ws : List (List Char)) (input : Option (List Char)) : Source :=
  if kindOf c = .sortFile ∧ input = none then reopen w ws.head? .shell else reopen w input .shell

/-- stdout of a child that starts with `stdout` -/
def targetOf (w : World) (c : List Char) (output : Option (List Char)) (stdout : Target) : Target :=
  if kindOf c = .listFiles then listTarget w output (redirectOutput w output stdout) else redirectOutput w output stdout

/-- stdin of the second child of a pipe -/
def pipedSource (w : World) (input : Option (List Char)) : Source :=
  reopen w input (if input = none then .pipe else .shell)

/-- the array of a command has room for another argument -/
def Room (c : List Char) (ws : List (List Char)) : Prop := Rewritten c ∨ (c :: ws).length + 1 < 200

/-- a child calls `execvp` with the vector `vs` -/
def Calls (x : Except Crash Exec) (vs : List (List Char)) (src : Source) (out : Target) : Prop :=
  ∃ e, x = .ok e ∧ Terminated e.tokens vs ∧ e.stdin = src ∧ e.stdout = out

/-! ## Calls -/

variable {t : Slots (List Char)} {ws vs : List (List Char)} {c v : List Char} {w : World} {s src : Source} {o out : Target}
  {file file1 : Files (List Char)} {x : Except Crash Exec}

theorem calls_ok : Calls (.ok ⟨t, s, o⟩) vs src out ↔ Terminated t vs ∧ src = s ∧ out = o := by
  constructor
  · intro hexec
    obtain ⟨e, he, hvs, hsrc, hout⟩ := hexec
    cases he
    exact ⟨hvs, hsrc.symm, hout.symm⟩
  · intro hparts
    obtain ⟨hvs, hsrc, hout⟩ := hparts
    exact ⟨_, rfl, hvs, hsrc.symm, hout.symm⟩

theorem not_calls_error (f : Crash) : ¬ Calls (.error f) vs src out := by
  intro hexec
  obtain ⟨e, he, -⟩ := hexec
  cases he

theorem Terminated.iff (h : Terminated t ws) : Terminated t vs ↔ vs = ws ∧ vs.length < 200 := by
  constructor
  · intro hvs
    exact ⟨hvs.unique h, hvs.room⟩
  · intro hsame
    obtain ⟨heq, -⟩ := hsame
    rwa [heq]

theorem slotsOf_terminated_iff : Terminated (slotsOf ws) vs ↔ vs = ws ∧ vs.length < 200 := by
  rcases Nat.lt_or_ge ws.length 200 with hlt | hge
  · exact (slotsOf_terminated hlt).iff
  · constructor
    · intro hvs
      exact absurd hvs (not_terminated_of_full hge vs)
    · intro hsame
      obtain ⟨heq, hlt⟩ := hsame
      rw [heq] at hlt
      exact absurd hlt (Nat.not_lt.2 hge)

/-- an array with the vector `ws` -/
theorem calls_iff (h : ∀ vs, Terminated t vs ↔ vs = ws ∧ vs.length < 200) :
    Calls (.ok ⟨t, s, o⟩) vs src out ↔
      (.ok ws : Except Crash (List (List Char))) = .ok vs ∧ vs.length < 200 ∧ src = s ∧ out = o := by
  rw [calls_ok, h, Except.ok.injEq, eq_comm, and_assoc]

/-- a child that reads `v` first -/
theorem calls_bind {y : Except Crash (List Char)} {f : List Char → Except Crash Exec} {g : List Char → List (List Char)}
    {R : Prop} (h : ∀ v, Calls (f v) vs src out ↔ (.ok (g v) : Except Crash (List (List Char))) = .ok vs ∧ R) :
    Calls (y >>= f) vs src out ↔ y.map g = .ok vs ∧ R := by
  cases y with
  | ok v => exact h v
  | error e =>
    refine iff_of_false (not_calls_error e) ?_
    intro hread
    cases hread.1

/-- an argument is appended -/
theorem calls_append {f : Slots (List Char) → Exec} (hf : ∀ t, f t = ⟨t, s, o⟩) :
    Calls (append (slotsOf ws) v >>= fun t => .ok (f t)) vs src out ↔
      (.ok (ws ++ [v]) : Except Crash (List (List Char))) = .ok vs ∧ vs.length < 200 ∧ src = s ∧ out = o := by
  rw [append_slotsOf]
  by_cases hroom : ws.length + 1 < 200
  · rw [if_pos hroom, ok_bind, hf]
    exact calls_iff fun _ => slotsOf_terminated_iff
  · rw [if_neg hroom]
    refine iff_of_false (not_calls_error _) ?_
    intro hsame
    obtain ⟨heq, hlt, -⟩ := hsame
    have hlen : vs.length = ws.length + 1 := by
      rw [← Except.ok.inj heq, List.length_append, List.length_singleton]
    omega

/-! ## Slots behind the command -/

theorem rewritten_head (hc : Rewritten c) (ws : List (List Char)) :
    rewritten (c :: ws) 0 = some (arguments c ws)[0]? :=
  (rewritten_terminated hc ws).slots 0 (Nat.zero_le _)

/-- checkresidentmemory with an argument that is read -/
theorem write_ps (ws : List (List Char)) (v : List Char) :
    Terminated ((rewritten ("checkresidentmemory".toList :: ws)).write 3 (some v))
      ["ps".toList, "-o".toList, "rss=".toList, v] := by
  rw [rewritten_ps]
  refine terminated_of_forall 4 rfl (by decide) fun i hi => ?_
  interval_cases i <;> rfl

/-- sortFile in a child that reads a file -/
theorem write_sort_none (ws : List (List Char)) :
    Terminated ((rewritten ("sortFile".toList :: ws)).write 1 none) ["sort".toList] := by
  rw [rewritten_sort]
  refine terminated_of_forall 1 rfl (by decide) fun i hi => ?_
  interval_cases i <;> rfl

theorem read_sort (ws : List (List Char)) : readSlot (rewritten ("sortFile".toList :: ws)) 1 = .ok ws.head? := by
  have hterm := rewritten_terminated (.inr (.inr rfl)) ws
  have hargs : arguments "sortFile".toList ws = "sort".toList :: ws.head?.toList := rfl
  rw [hargs] at hterm
  rw [hterm.read (by simp)]
  cases ws <;> rfl

/-- a redirection appends its file to a command that is not custom -/
theorem calls_redirected (hflag : flagOf c ≠ 2) (hc : ¬ Rewritten c) {input : Option (List Char)} {start : Source}
    {k : Slots (List Char) × Source → Except Crash Exec}
    (hk : ∀ t, t 0 = some (some c) → k (t, reopen w input start) = .ok ⟨t, reopen w input start, o⟩) :
    Calls (redirectInput w (flagOf c) input (rewritten (c :: ws)) start >>= k) vs src out ↔
      (.ok (c :: (ws ++ w.appended input)) : Except Crash (List (List Char))) = .ok vs ∧ vs.length < 200 ∧
      src = reopen w input start ∧ out = o := by
  rw [rewritten_other hc, redirectInput_plain hflag]
  by_cases hroom : w.appended input = [] ∨ (c :: ws).length + 1 < 200
  · rw [if_pos hroom, ok_bind, List.cons_append, hk _ (slotsOf_zero c _)]
    exact calls_iff fun _ => slotsOf_terminated_iff
  · rw [if_neg hroom]
    refine iff_of_false (not_calls_error _) ?_
    intro hsame
    obtain ⟨heq, hlt, -⟩ := hsame
    obtain ⟨hne, hfull⟩ := not_or.1 hroom
    have hpos : 0 < (w.appended input).length := List.length_pos_of_ne_nil hne
    have hlen : vs.length = (c :: ws).length + (w.appended input).length := by
      rw [← Except.ok.inj heq, ← List.cons_append, List.length_append]
    omega

/-! ## Children with one array -/

section OwnArray

variable {scan : World → Source → Except Crash (List Char)} {stdout : Target}

theorem childWith_plain (hk : kindOf c = .plain) (hflag : flagOf c ≠ 2) (hc : ¬ Rewritten c) :
    Calls (childWith scan stdout w (readyFor c ws file)) vs src out ↔
      vectorOf scan w c ws file.input = .ok vs ∧ vs.length < 200 ∧
      src = reopen w file.input .shell ∧ out = redirectOutput w file.output stdout := by
  have hvec : vectorOf scan w c ws file.input = .ok (c :: (ws ++ w.appended file.input)) := by
    unfold vectorOf
    rw [hk]
  rw [hvec]
  refine calls_redirected hflag hc fun t h => ?_
  rw [ownArgument_other w _ h (.inl hflag), ok_bind, customWith_other _ h (.inl hflag)]
  rfl

/-- a custom command gets no argument from its redirection -/
theorem childWith_custom (hflag : flagOf c = 2) : childWith scan stdout w (readyFor c ws file) =
    ownArgument w (readyFor c ws file) (rewritten (c :: ws)) (reopen w file.input .shell) >>= fun t =>
      customWith scan w (readyFor c ws file) t (reopen w file.input .shell) (redirectOutput w file.output stdout) := by
  rw [childWith, readyFor, hflag, redirectInput_custom, ok_bind]

/-- the custom commands that are rewritten -/
theorem childWith_rewritten (hc : Rewritten c) (hflag : flagOf c = 2) {d : List Char}
    (hd : (arguments c ws)[0]? = some d) (hne : d ≠ "checkcpupercentage".toList) :
    childWith scan stdout w (readyFor c ws file) = customWith scan w (readyFor c ws file) (rewritten (c :: ws))
      (reopen w file.input .shell) (redirectOutput w file.output stdout) := by
  have hhead := rewritten_head hc ws
  rw [hd] at hhead
  rw [childWith_custom hflag, ownArgument_other w _ hhead (.inr hne), ok_bind]

theorem childWith_listFiles : Calls (childWith scan stdout w (readyFor "listFiles".toList ws file)) vs src out ↔
    vectorOf scan w "listFiles".toList ws file.input = .ok vs ∧ vs.length < 200 ∧
    src = reopen w file.input .shell ∧ out = listTarget w file.output (redirectOutput w file.output stdout) := by
  have hterm := rewritten_terminated (.inr (.inl rfl)) ws
  rw [childWith_rewritten (.inr (.inl rfl)) rfl rfl (by decide), customWith, command_eq (hterm.slots 0 (Nat.zero_le _)),
    ok_bind, if_pos ⟨rfl, rfl⟩]
  exact calls_iff fun _ => hterm.iff

theorem childWith_sortFile : Calls (childWith scan stdout w (readyFor "sortFile".toList ws file)) vs src out ↔
    vectorOf scan w "sortFile".toList ws file.input = .ok vs ∧ vs.length < 200 ∧
    src = sourceOf w "sortFile".toList ws file.input ∧ out = redirectOutput w file.output stdout := by
  have hterm := rewritten_terminated (.inr (.inr rfl)) ws
  rw [childWith_rewritten (.inr (.inr rfl)) rfl rfl (by decide), customWith, command_eq (hterm.slots 0 (Nat.zero_le _)),
    ok_bind, if_neg (by simp), if_pos ⟨rfl, rfl⟩]
  cases hin : file.input with
  | none =>
    have hown : sortOwn w (readyFor "sortFile".toList ws file) (rewritten ("sortFile".toList :: ws))
        (reopen w none .shell) (redirectOutput w file.output stdout) =
          .ok ⟨(rewritten ("sortFile".toList :: ws)).write 1 none, reopen w ws.head? .shell,
            redirectOutput w file.output stdout⟩ := by
      simp only [sortOwn, readyFor, hin, read_sort, ok_bind, writeSlot]
      rfl
    rw [hown]
    exact calls_iff fun _ => (write_sort_none ws).iff
  | some f =>
    have hown : sortOwn w (readyFor "sortFile".toList ws file) (rewritten ("sortFile".toList :: ws))
        (reopen w (some f) .shell) (redirectOutput w file.output stdout) =
          .ok ⟨(rewritten ("sortFile".toList :: ws)).write 1 none, reopen w (some f) (reopen w (some f) .shell),
            redirectOutput w file.output stdout⟩ := by
      simp only [sortOwn, readyFor, hin, ok_bind, writeSlot]
      rfl
    rw [hown, reopen_twice]
    exact calls_iff fun _ => (write_sort_none ws).iff

theorem childWith_checkresidentmemory :
    Calls (childWith scan stdout w (readyFor "checkresidentmemory".toList ws file)) vs src out ↔
      vectorOf scan w "checkresidentmemory".toList ws file.input = .ok vs ∧ vs.length < 200 ∧
      src = reopen w file.input .shell ∧ out = redirectOutput w file.output stdout := by
  have hterm := rewritten_terminated (.inl rfl) ws
  rw [childWith_rewritten (.inl rfl) rfl rfl (by decide), customWith, command_eq (hterm.slots 0 (Nat.zero_le _)),
    ok_bind, if_neg (by simp), if_neg (by simp)]
  by_cases hin : file.input = none
  · have hvec : vectorOf scan w "checkresidentmemory".toList ws file.input =
        .ok (arguments "checkresidentmemory".toList ws) := if_pos hin
    rw [if_neg (fun h => h.2.2 hin), hvec]
    exact calls_iff fun _ => hterm.iff
  · have hvec : vectorOf scan w "checkresidentmemory".toList ws file.input =
        (scan w (reopen w file.input .shell)).map fun v => ["ps".toList, "-o".toList, "rss=".toList, v] := if_neg hin
    have htwice : reopen w (readyFor "checkresidentmemory".toList ws file).file.input (reopen w file.input .shell) =
        reopen w file.input .shell := reopen_twice w file.input .shell
    rw [if_pos ⟨rfl, rfl, hin⟩, hvec, htwice]
    refine calls_bind fun v => ?_
    rw [writeSlot, if_pos (by decide), ok_bind]
    exact calls_iff fun _ => (write_ps ws v).iff

theorem childWith_checkcpupercentage :
    Calls (childWith scan stdout w (readyFor "checkcpupercentage".toList ws file)) vs src out ↔
      vectorOf scan w "checkcpupercentage".toList ws file.input = .ok vs ∧ vs.length < 200 ∧
      src = reopen w file.input .shell ∧ out = redirectOutput w file.output stdout := by
  -- what is left when the argument is there
  have hrest (t : Slots (List Char)) (h : t 0 = some (some "./checkcpupercentage".toList)) :
      customWith scan w (readyFor "checkcpupercentage".toList ws file) t (reopen w file.input .shell)
        (redirectOutput w file.output stdout) =
      .ok ⟨t, reopen w file.input .shell, redirectOutput w file.output stdout⟩ :=
    customWith_other _ h (.inr (by unfold Tested; decide)) _ _
  have hfile : (readyFor "checkcpupercentage".toList ws file).file = file := rfl
  rw [childWith_custom rfl, rewritten_other (by unfold Rewritten; decide), ownArgument_cpu w _ rfl, hfile]
  by_cases hin : file.input = none
  · have hvec : vectorOf scan w "checkcpupercentage".toList ws file.input = .ok ("./checkcpupercentage".toList :: ws) :=
      if_pos hin
    rw [if_pos hin, ok_bind, hrest _ (slotsOf_zero _ _), hvec]
    exact calls_iff fun _ => slotsOf_terminated_iff
  · have hvec : vectorOf scan w "checkcpupercentage".toList ws file.input =
        (scanWord w (reopen w file.input .shell)).map fun v => ("./checkcpupercentage".toList :: ws) ++ [v] := if_neg hin
    rw [if_neg hin, hvec, bind_assoc]
    refine calls_bind fun v => ?_
    have happend : (append (slotsOf ("./checkcpupercentage".toList :: ws)) v >>= fun t =>
        customWith scan w (readyFor "checkcpupercentage".toList ws file) t (reopen w file.input .shell)
          (redirectOutput w file.output stdout)) =
        append (slotsOf ("./checkcpupercentage".toList :: ws)) v >>= fun t =>
          .ok ⟨t, reopen w file.input .shell, redirectOutput w file.output stdout⟩ := by
      rw [append_slotsOf]
      by_cases hroom : ("./checkcpupercentage".toList :: ws).length + 1 < 200
      · rw [if_pos hroom, ok_bind, ok_bind]
        exact hrest _ (slotsOf_zero _ _)
      · rw [if_neg hroom]
        rfl
    rw [happend]
    exact calls_append fun _ => rfl

/-- **A child with one array.** -/
theorem childWith_iff (c : List Char) : Calls (childWith scan stdout w (readyFor c ws file)) vs src out ↔
    vectorOf scan w c ws file.input = .ok vs ∧ vs.length < 200 ∧
    src = sourceOf w c ws file.input ∧ out = targetOf w c file.output stdout := by
  induction c using kindCases with
  | plain c hk hflag hc =>
    have hsource : sourceOf w c ws file.input = reopen w file.input .shell := if_neg (by simp [hk])
    have htarget : targetOf w c file.output stdout = redirectOutput w file.output stdout := if_neg (by simp [hk])
    rw [hsource, htarget]
    exact childWith_plain hk hflag hc
  | checkcpupercentage => exact childWith_checkcpupercentage
  | checkresidentmemory => exact childWith_checkresidentmemory
  | listFiles => exact childWith_listFiles
  | sortFile => exact childWith_sortFile

end OwnArray

/-! ## The second child of a pipe -/

section Piped

variable {c1 : List Char} {ws1 : List (List Char)}

end Piped

end DecsLabs.Shell
