/-
The data of barrier clients. An entry of the log is one statement of a thread that accesses at most one shared cell;
what the cells, the local variables and the outputs are is a function of the log.

- `Act`: the statements of the test routines (barrier-testcase1.c to barrier-testcase4.c). `temp` is the register in which
  a value stays between two accesses, `sum` the local variable of that name.
- `exec_comm`: entries of two threads commute unless one writes a cell that the other accesses.
- `RaceFree`: such entries are ordered by a barrier. `whole_runs_agree`: then all whole runs come to the same data.
- `race_free`: regular teams without races never get stuck, and whatever the interleaving the outcome is the same.
-/
import DecsLabs.Barrier.Teams

namespace DecsLabs.Barrier

open DecsLabs.Transition DecsLabs.Pthread DecsLabs.Commute

variable {T B X O : Type}

/-! ## Statements -/

inductive Act (X O : Type) where
  /-- `temp = x` -/
  | load (x : X)
  /-- `temp += x` -/
  | plus (x : X)
  /-- `temp = c` -/
  | const (c : ℤ)
  /-- `temp += c` -/
  | add (c : ℤ)
  /-- `x = temp` -/
  | store (x : X)
  /-- `sum = 0` -/
  | clear
  /-- `sum += x` -/
  | gather (x : X)
  /-- `printf(o)`, with the value of `sum`, with that of `temp`, or with none -/
  | printSum (o : O)
  | printTemp (o : O)
  | text (o : O)
  /-- `if(temp) printf(o)` -/
  | check (o : O)
deriving DecidableEq, Repr

/-- the local variables of a thread and what it has printed -/
@[ext]
structure Local (O : Type) where
  temp : ℤ
  sum : ℤ
  out : List (O × Option ℤ)
deriving DecidableEq, Repr

@[ext]
structure Data (T X O : Type) where
  cell : X → ℤ
  loc : T → Local O

/-- the cell that a statement reads -/
def Act.reads : Act X O → Option X
  | .load x | .plus x | .gather x => some x
  | _ => none

/-- the cell that a statement writes -/
def Act.target : Act X O → Option X
  | .store x => some x
  | _ => none

/-- what a statement does to the local variables -/
def Act.next (cell : X → ℤ) (l : Local O) : Act X O → Local O
  | .load x => { l with temp := cell x }
  | .plus x => { l with temp := l.temp + cell x }
  | .const c => { l with temp := c }
  | .add c => { l with temp := l.temp + c }
  | .store _ => l
  | .clear => { l with sum := 0 }
  | .gather x => { l with sum := l.sum + cell x }
  | .printSum o => { l with out := l.out ++ [(o, some l.sum)] }
  | .printTemp o => { l with out := l.out ++ [(o, some l.temp)] }
  | .text o => { l with out := l.out ++ [(o, none)] }
  | .check o => if l.temp ≠ 0 then { l with out := l.out ++ [(o, none)] } else l

/-- an entry: the thread, the number of the statement in its routine, and the statement -/
abbrev Entry (T X O : Type) : Type := T × ℕ × Act X O

variable [DecidableEq T] [DecidableEq X]

def exec (d : Data T X O) (e : Entry T X O) : Data T X O where
  cell := match e.2.2.target with
    | some x => Function.update d.cell x (d.loc e.1).temp
    | none => d.cell
  loc := Function.update d.loc e.1 (e.2.2.next d.cell (d.loc e.1))

/-- the data behind a log that begins with the data `d` -/
def replay (d : Data T X O) (l : List (Entry T X O)) : Data T X O := l.foldl exec d

/-! ## Statements that commute -/

/-- one of the statements writes a cell that the other accesses -/
def Conflict (a b : Act X O) : Prop :=
  ∃ x, a.target = some x ∧ (b.reads = some x ∨ b.target = some x) ∨ b.target = some x ∧ a.reads = some x

omit [DecidableEq X] in
theorem next_congr {cell cell' : X → ℤ} {a : Act X O} (l : Local O) (h : ∀ x, a.reads = some x → cell x = cell' x) :
    a.next cell l = a.next cell' l := by
  cases a with
  | load x | plus x | gather x => simp [Act.next, h x rfl]
  | _ => rfl

theorem exec_loc_of_ne (d : Data T X O) {e : Entry T X O} {t : T} (h : t ≠ e.1) : (exec d e).loc t = d.loc t :=
  Function.update_of_ne h ..

theorem exec_cell (d : Data T X O) {e : Entry T X O} {x : X} (h : e.2.2.target ≠ some x) :
    (exec d e).cell x = d.cell x := by
  simp only [exec]
  cases ht : e.2.2.target with
  | none => rfl
  | some y =>
    have hxy : x ≠ y := by
      rintro rfl
      exact h ht
    exact Function.update_of_ne hxy ..

/-- the local variables of a thread do not see a statement of another that it does not conflict with -/
theorem exec_loc_comm (d : Data T X O) {e f : Entry T X O} (hef : e.1 ≠ f.1) (hno : ¬ Conflict e.2.2 f.2.2) :
    (exec (exec d e) f).loc f.1 = (exec d f).loc f.1 := by
  simp only [exec, Function.update_self]
  rw [Function.update_of_ne hef.symm]
  apply next_congr
  intro x hx
  apply exec_cell
  intro ht
  exact hno ⟨x, .inl ⟨ht, .inl hx⟩⟩

omit [DecidableEq X] in
theorem Conflict.symm {a b : Act X O} (h : Conflict a b) : Conflict b a := by
  obtain ⟨x, ⟨ha, hb | hb⟩ | ⟨hb, ha⟩⟩ := h
  · exact ⟨x, .inr ⟨ha, hb⟩⟩
  · exact ⟨x, .inl ⟨hb, .inr ha⟩⟩
  · exact ⟨x, .inl ⟨hb, .inl ha⟩⟩

theorem exec_comm (d : Data T X O) {e f : Entry T X O} (hef : e.1 ≠ f.1) (hno : ¬ Conflict e.2.2 f.2.2) :
    exec (exec d e) f = exec (exec d f) e := by
  have hno' : ¬ Conflict f.2.2 e.2.2 := fun h => hno h.symm
  refine Data.ext (funext fun x => ?_) (funext fun t => ?_)
  · -- at most one of the two writes the cell, and it writes a value that it has from before
    have hself : ∀ (d : Data T X O) (g : Entry T X O), g.2.2.target = some x → (exec d g).cell x = (d.loc g.1).temp := by
      intro d g hg
      simp [exec, hg]
    by_cases he : e.2.2.target = some x
    · have hf : f.2.2.target ≠ some x := fun hf => hno ⟨x, .inl ⟨he, .inr hf⟩⟩
      rw [exec_cell _ hf, hself _ _ he, hself _ _ he, exec_loc_of_ne _ hef]
    · by_cases hf : f.2.2.target = some x
      · rw [hself _ _ hf, exec_cell _ he, hself _ _ hf, exec_loc_of_ne _ hef.symm]
      · rw [exec_cell _ hf, exec_cell _ he, exec_cell _ he, exec_cell _ hf]
  · by_cases ht : t = e.1
    · subst ht
      rw [exec_loc_of_ne _ hef, exec_loc_comm d hef.symm hno']
    · by_cases ht' : t = f.1
      · subst ht'
        rw [exec_loc_comm d hef hno, exec_loc_of_ne _ ht]
      · rw [exec_loc_of_ne _ ht', exec_loc_of_ne _ ht, exec_loc_of_ne _ ht, exec_loc_of_ne _ ht']

/-- what a thread has printed stays printed -/
theorem replay_out (d : Data T X O) (l : List (Entry T X O)) (t : T) : (d.loc t).out <+: ((replay d l).loc t).out := by
  induction l generalizing d with
  | nil => exact List.prefix_rfl
  | cons e l ih =>
    refine List.IsPrefix.trans ?_ (ih (exec d e))
    by_cases ht : t = e.1
    · subst ht
      simp only [exec, Function.update_self]
      cases e.2.2 with
      | printSum o | printTemp o | text o => exact List.prefix_append ..
      | check o =>
        simp only [Act.next]
        split_ifs
        · exact List.prefix_append ..
        · exact List.prefix_rfl
      | _ => exact List.prefix_rfl
    · rw [exec_loc_of_ne d ht]

/-! ## Programs without races -/

variable [DecidableEq B] [Fintype T]

/-- statements of different threads that conflict are ordered by a barrier -/
def Team.RaceFree (p : Team T B (Entry T X O)) : Prop :=
  ∀ e f, .print e ∈ p.script e.1 → .print f ∈ p.script f.1 → e.1 ≠ f.1 → Conflict e.2.2 f.2.2 →
    p.Before e f ∨ p.Before f e

/-- the data of a state, if it is `d` at the start -/
def dataOf (d : Data T X O) (v : Meeting T B (Entry T X O)) : Data T X O := replay d v.printed

variable {p : Team T B (Entry T X O)} {rank : B → ℕ → ℤ} {v v' : Meeting T B (Entry T X O)}

omit [DecidableEq T] [DecidableEq X] in
/-- two entries of one thread are in the order of its script -/
theorem before_of_same {e f : Entry T X O} (he : .print e ∈ p.script e.1) (hf : .print f ∈ p.script e.1) (hne : e ≠ f) :
    p.Before e f ∨ p.Before f e := by
  obtain ⟨pre, ke, hsplit⟩ := List.append_of_mem he
  have hs : .print e :: ke <:+ p.script e.1 := ⟨pre, hsplit.symm⟩
  rw [hsplit] at hf
  rcases List.mem_append.1 hf with hbefore | hafter
  · obtain ⟨pre', kf, hsplit'⟩ := List.append_of_mem hbefore
    have hf' : .print f :: (kf ++ .print e :: ke) <:+ p.script e.1 := ⟨pre', by rw [hsplit, hsplit']; simp⟩
    exact .inr ⟨e.1, e.1, _, _, hf', hs, .inl ⟨rfl, by simp⟩⟩
  · have hmem : .print f ∈ ke := (List.mem_cons.1 hafter).resolve_left (by simpa using Ne.symm hne)
    obtain ⟨pre', kf, hsplit'⟩ := List.append_of_mem hmem
    have hf' : .print f :: kf <:+ p.script e.1 := ⟨pre ++ .print e :: pre', by rw [hsplit, hsplit']; simp⟩
    exact .inl ⟨e.1, e.1, _, _, hs, hf', .inl ⟨rfl, hmem⟩⟩

/-- **One outcome.** -/
theorem whole_runs_agree (hp : p.Regular Prod.fst rank) (hr : p.RaceFree) (h : Meets p.size p.gathered v)
    (h' : Meets p.size p.gathered v') (hend : ∀ t, v.rest t = []) (hend' : ∀ t, v'.rest t = []) (d : Data T X O) :
    dataOf d v = dataOf d v' := by
  have hmem : ∀ e ∈ v.printed, .print e ∈ p.script e.1 := by
    intro e he
    have hin : e ∈ v.printed.filter (fun o => o.1 = e.1) ++ entries (v.rest e.1) :=
      List.mem_append_left _ (List.mem_filter.2 ⟨he, by simp⟩)
    rw [log_split hp h e.1] at hin
    exact mem_entries.1 hin
  apply foldl_eq_of_respects (R := p.Before) (log_perm hp h h' hend hend') (log_nodup hp h)
  · intro e he f hf hne hef hfe s
    by_cases hsame : e.1 = f.1
    · rcases before_of_same (hmem e he) (hsame ▸ hmem f hf) hne with hb | hb
      · exact absurd hb hef
      · exact absurd hb hfe
    · apply exec_comm s hsame
      intro hc
      rcases hr e f (hmem e he) (hmem f hf) hsame hc with hb | hb
      · exact hef hb
      · exact hfe hb
  · intro e _ f hf hb
    exact respects_before hp h hb hf
  · intro e _ f hf hb
    exact respects_before hp h' hb hf

omit [DecidableEq B] [Fintype T] in
/-- an abstract run only adds to the log -/
theorem Meets.log {n : B → ℕ} {v w : Meeting T B O} (h : Meets n v w) : v.printed <+: w.printed := by
  induction h with
  | refl => exact List.prefix_rfl
  | tail _ hs ih =>
    cases hs with
    | meet | create | join => exact ih
    | print _ => exact ih.trans (List.prefix_append ..)

/-- the steps from a reachable state on are an abstract run -/
theorem meets_from {sign : O → T} {p : Team T B O} (hp : p.Regular sign rank) {s s' : ClientSt T B O}
    (hs : ReachIf (step (code T B O)) NoSpurious p.start s) (h : ReachIf (step (code T B O)) NoSpurious s s') :
    Meets p.size (view s) (view s') := by
  induction h with
  | init => exact .refl
  | step hr hns hst ih =>
    rcases meet_step (known_start hp (hs.trans hr)).1 (client_step hns hst) with hv | hv
    · rw [hv]
      exact ih
    · exact ih.tail hv

omit [DecidableEq T] in
theorem exited_rest {n : B → ℕ} {s : ClientSt T B O} (hk : Known n s) (hend : ∀ t, s.mode t = .exited) (t : T) :
    (view s).rest t = [] := by simp [view, hk.exited t (hend t), Point.rest]

/-- **Regular teams without races.** Let `w` be a whole run of the abstract machine, of whatever order. In every run
without spurious wake-ups: a state in which a thread has not exited has a step; the runs from it are bounded; what a
thread has printed is a beginning of what it prints in `w`; and when all threads have exited, all data are as in `w`. -/
theorem race_free (hp : p.Regular Prod.fst rank) (hr : p.RaceFree) {w : Meeting T B (Entry T X O)}
    (hw : Meets p.size p.gathered w) (hwend : ∀ t, w.rest t = []) (d : Data T X O)
    {s : ClientSt T B (Entry T X O)} (hs : ReachIf (step (code T B (Entry T X O))) NoSpurious p.start s) :
    ((∃ t, s.mode t ≠ .exited) → ∃ t, Enabled (code T B (Entry T X O)) s t) ∧
    (∃ N, ∀ os s', run (step (code T B (Entry T X O))) s os = some s' → os.length ≤ N) ∧
    (∀ t, ((dataOf d (view s)).loc t).out <+: ((dataOf d w).loc t).out) ∧
    ((∀ t, s.mode t = .exited) → dataOf d (view s) = dataOf d w) := by
  obtain ⟨hk, hm⟩ := known_start hp hs
  refine ⟨fun ht => ?_, ⟨work s, fun os s' h => run_bounded h⟩, fun t => ?_, fun hend => ?_⟩
  · by_contra hno
    obtain ⟨t, ht⟩ := ht
    exact ht (stuck_all_exited hp hk hm (not_exists.1 hno) t)
  · -- the run can be carried on to its end, and there the outcome is that of `w`
    obtain ⟨s', hs', hend⟩ := regular_ends hp hs
    obtain ⟨hk', hm'⟩ := known_start hp (hs.trans hs')
    obtain ⟨l, hl⟩ := (meets_from hp hs hs').log
    rw [← whole_runs_agree hp hr hm' hw (exited_rest hk' hend) hwend d, dataOf, dataOf, ← hl, replay, replay,
      List.foldl_append]
    exact replay_out _ l t
  · exact whole_runs_agree hp hr hm hw (exited_rest hk hend) hwend d

end DecsLabs.Barrier
