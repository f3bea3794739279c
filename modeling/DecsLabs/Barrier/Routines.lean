/-
Test programs: `main` creates `n` threads and joins them, and each thread runs a routine of statements and waits. The
conditions of `Team.Regular` and `Team.RaceFree` for them, in terms of the routines.

- `number`: the script of a routine, its statements signed and numbered.
- `testTeam`, `regular_of`, `raceFree_of`: the program, and what has to be checked of its routines.
- `meets_acts`, `meets_all`: how the abstract machine runs a piece of one routine, and one piece of every routine.
-/
import DecsLabs.Barrier.Memory

namespace DecsLabs.Barrier

open DecsLabs.Transition DecsLabs.Pthread DecsLabs.Commute

variable {B X O : Type}

/-! ## Model -/

inductive Stmt (B X O : Type) where
  | act (a : Act X O)
  | wait (b : B)
deriving DecidableEq, Repr

/-- the script of a routine; `i` statements come before it -/
def number {T : Type} (t : T) : ℕ → List (Stmt B X O) → List (Cmd T B (Entry T X O))
  | _, [] => []
  | i, .act a :: k => .print (t, i, a) :: number t (i + 1) k
  | i, .wait b :: k => .wait b :: number t (i + 1) k

/-- `main`: `pthread_create` for each thread, then `pthread_join` for each -/
def createAndJoin (n : ℕ) : List (Cmd (Option (Fin n)) B O) :=
  (List.finRange n).map (fun i => .create (some i)) ++ (List.finRange n).map fun i => .join (some i)

/-- the program; `main` is `none` -/
def testTeam {n : ℕ} (size : B → ℕ) (routine : Fin n → List (Stmt B X O)) :
    Team (Option (Fin n)) B (Entry (Option (Fin n)) X O) where
  root := none
  script t := t.elim (createAndJoin n) fun i => number (some i) 0 (routine i)
  size := size

abbrev TestSt (n : ℕ) (B X O : Type) : Type := ClientSt (Option (Fin n)) B (Entry (Option (Fin n)) X O)

/-- the steps of a test program -/
abbrev testStep (n : ℕ) (B X O : Type) [DecidableEq B] :
    TestSt n B X O → Op (Option (Fin n)) → Option (TestSt n B X O) :=
  step (code (Option (Fin n)) B (Entry (Option (Fin n)) X O))

/-- a thread can take a step, or all have exited -/
def Live [DecidableEq B] {n : ℕ} (s : TestSt n B X O) : Prop :=
  (∃ t, s.mode t ≠ .exited) → ∃ t, Enabled (code (Option (Fin n)) B (Entry (Option (Fin n)) X O)) s t

/-- the runs from a state are bounded -/
def Bounded [DecidableEq B] {n : ℕ} (s : TestSt n B X O) : Prop :=
  ∃ N, ∀ os s', run (testStep n B X O) s os = some s' → os.length ≤ N

/-- global variables are zero at the start -/
def zeroed (T X O : Type) : Data T X O := ⟨fun _ => 0, fun _ => ⟨0, 0, []⟩⟩

/-- the waits at `b` in a routine -/
def calls [DecidableEq B] (b : B) : List (Stmt B X O) → ℕ
  | [] => 0
  | .wait c :: k => calls b k + if c = b then 1 else 0
  | .act _ :: k => calls b k

/-! ## Scripts of routines -/

section
variable {T : Type}

/-- an entry of a script stands for a statement of the routine -/
theorem number_print {t : T} {i : ℕ} {k : List (Stmt B X O)} {e : Entry T X O} {ke : List (Cmd T B (Entry T X O))}
    (h : .print e :: ke <:+ number t i k) :
    e.1 = t ∧ i ≤ e.2.1 ∧ ∃ k', .act e.2.2 :: k' <:+ k ∧ ke = number t (e.2.1 + 1) k' := by
  induction k generalizing i with
  | nil => simp [number] at h
  | cons c k ih =>
    cases c with
    | act a =>
      rcases List.suffix_cons_iff.1 h with heq | hs
      · obtain ⟨he, rfl⟩ := List.cons.inj heq
        cases he
        exact ⟨rfl, le_rfl, k, List.suffix_rfl, rfl⟩
      · obtain ⟨h1, h2, k', h3, h4⟩ := ih hs
        exact ⟨h1, by omega, k', h3.trans (List.suffix_cons ..), h4⟩
    | wait b =>
      rcases List.suffix_cons_iff.1 h with heq | hs
      · cases (List.cons.inj heq).1
      · obtain ⟨h1, h2, k', h3, h4⟩ := ih hs
        exact ⟨h1, by omega, k', h3.trans (List.suffix_cons ..), h4⟩

theorem number_mem {t : T} {i : ℕ} {k : List (Stmt B X O)} {c : Cmd T B (Entry T X O)} (h : c ∈ number t i k) :
    (∃ b, c = .wait b) ∨ ∃ e : Entry T X O, c = .print e ∧ e.1 = t ∧ i ≤ e.2.1 := by
  induction k generalizing i with
  | nil => simp [number] at h
  | cons d k ih =>
    cases d with
    | act a =>
      rcases List.mem_cons.1 h with rfl | h
      · exact .inr ⟨_, rfl, rfl, le_rfl⟩
      · rcases ih h with hb | ⟨e, h1, h2, h3⟩
        · exact .inl hb
        · exact .inr ⟨e, h1, h2, by omega⟩
    | wait b =>
      rcases List.mem_cons.1 h with rfl | h
      · exact .inl ⟨b, rfl⟩
      · rcases ih h with hb | ⟨e, h1, h2, h3⟩
        · exact .inl hb
        · exact .inr ⟨e, h1, h2, by omega⟩

theorem number_nodup (t : T) (i : ℕ) (k : List (Stmt B X O)) : (entries (number t i k)).Nodup := by
  induction k generalizing i with
  | nil => exact List.nodup_nil
  | cons c k ih =>
    cases c with
    | wait b => exact ih (i + 1)
    | act a =>
      refine List.nodup_cons.2 ⟨fun hmem => ?_, ih (i + 1)⟩
      rcases number_mem (mem_entries.1 hmem) with ⟨b, hb⟩ | ⟨e, he, -, hle⟩
      · cases hb
      · cases he
        simp at hle

@[simp] theorem waits_number [DecidableEq B] (b : B) (t : T) (i : ℕ) (k : List (Stmt B X O)) :
    waits b (number t i k) = calls b k := by
  induction k generalizing i with
  | nil => rfl
  | cons c k ih =>
    cases c with
    | act a => rw [number, waits_cons (by simp), ih, calls]
    | wait c => rw [number, waits_wait, ih, calls]

end

section
variable [DecidableEq B] {n : ℕ} {size : B → ℕ} {routine : Fin n → List (Stmt B X O)}

theorem waits_main (b : B) : waits b (createAndJoin n : List (Cmd (Option (Fin n)) B O)) = 0 := by
  rw [← Nat.le_zero, ← not_lt, waits_pos]
  simp [createAndJoin]

theorem users_test (b : B) :
    (testTeam size routine).users b = (Finset.univ.filter fun i => 0 < calls b (routine i)).map .some := by
  ext t
  rw [Team.users, Finset.mem_filter]
  cases t with
  | none => simp [testTeam, waits_main]
  | some i => simp [testTeam]

theorem keys_main (rank : B → ℕ → ℤ) : keys rank (createAndJoin n : List (Cmd (Option (Fin n)) B O)) = [] := by
  have hnil : ∀ k : List (Cmd (Option (Fin n)) B O), (∀ b, .wait b ∉ k) → keys rank k = [] := by
    intro k hk
    induction k with
    | nil => rfl
    | cons c k ih =>
      have htail : ∀ b, .wait b ∉ k := fun b hb => hk b (List.mem_cons_of_mem _ hb)
      cases c with
      | wait b => exact absurd (List.mem_cons_self ..) (hk b)
      | print o | create t | join t => exact ih htail
  exact hnil _ (by simp [createAndJoin])

/-- the waits of a routine, as `rank` numbers them -/
def callKeys (rank : B → ℕ → ℤ) : List (Stmt B X O) → List ℤ
  | [] => []
  | .wait b :: k => rank b (calls b k) :: callKeys rank k
  | .act _ :: k => callKeys rank k

theorem keys_number {T : Type} (rank : B → ℕ → ℤ) (t : T) (i : ℕ) (k : List (Stmt B X O)) :
    keys rank (number t i k) = callKeys rank k := by
  induction k generalizing i with
  | nil => rfl
  | cons c k ih =>
    cases c with
    | act a => exact ih (i + 1)
    | wait b => rw [number, keys, ih, waits_number, callKeys]

@[simp] theorem callKeys_acts (rank : B → ℕ → ℤ) (l : List (Act X O)) (k : List (Stmt B X O)) :
    callKeys rank (l.map .act ++ k) = callKeys rank k := by
  induction l with
  | nil => rfl
  | cons a l ih => exact ih

/-- what makes a test program regular -/
theorem regular_of {rank : B → ℕ → ℤ} (hpos : ∀ b, 1 ≤ size b)
    (hsize : ∀ b i, 0 < calls b (routine i) → (Finset.univ.filter fun i => 0 < calls b (routine i)).card = size b)
    (hrounds : ∀ b i j, 0 < calls b (routine i) → 0 < calls b (routine j) → calls b (routine i) = calls b (routine j))
    (hsorted : ∀ i, (callKeys rank (routine i)).Pairwise (· < ·)) :
    (testTeam size routine).Regular Prod.fst rank where
  size_pos := hpos
  size_eq := by
    intro b hne
    rw [users_test] at hne ⊢
    obtain ⟨i, hi⟩ := Finset.map_nonempty.1 hne
    rw [Finset.card_map]
    exact hsize b i (by simpa using hi)
  rounds := by
    intro b t ht u hu
    rw [users_test] at ht hu
    simp only [Finset.mem_map, Finset.mem_filter, Finset.mem_univ, true_and] at ht hu
    obtain ⟨i, hi, rfl⟩ := ht
    obtain ⟨j, hj, rfl⟩ := hu
    simpa [testTeam] using hrounds b i j hi hj
  sorted := by
    intro t
    cases t with
    | some i =>
      show (keys rank (number (some i) 0 (routine i))).Pairwise (· < ·)
      rw [keys_number]
      exact hsorted i
    | none =>
      simp only [testTeam, Option.elim, keys_main]
      exact List.Pairwise.nil
  signed := by
    intro t e he
    cases t with
    | none => simp [testTeam, createAndJoin] at he
    | some i =>
      rcases number_mem he with ⟨b, hb⟩ | ⟨f, hf, h1, -⟩
      · cases hb
      · cases hf
        exact h1
  distinct := by
    intro t
    cases t with
    | none =>
      have hnil : entries ((testTeam size routine).script none) = [] := by
        rw [List.eq_nil_iff_forall_not_mem]
        intro e he
        have := mem_entries.1 he
        simp [testTeam, createAndJoin] at this
      rw [hnil]
      exact List.nodup_nil
    | some i => exact number_nodup (some i) 0 (routine i)
  others := by
    intro t ht u
    cases t with
    | none => exact absurd rfl ht
    | some i =>
      refine ⟨fun h => ?_, fun h => ?_⟩
      all_goals
        rcases number_mem h with ⟨b, hb⟩ | ⟨e, he, -⟩
        · cases hb
        · cases he
  creates := by
    have hcreates : creates ((testTeam size routine).script none) = (List.finRange n).map some := by
      simp [testTeam, createAndJoin, creates, List.filterMap_append, List.filterMap_map]
    refine ⟨?_, fun t => ?_⟩
    · show (creates ((testTeam size routine).script none)).Nodup
      rw [hcreates]
      exact (List.nodup_finRange n).map (Option.some_injective _)
    · rw [← mem_creates]
      show t ∈ creates ((testTeam size routine).script none) ↔ t ≠ none
      rw [hcreates]
      cases t <;> simp
  join := by simp [testTeam, createAndJoin]
  inOrder := by
    show (createAndJoin n).Pairwise Cmd.inOrder
    simp only [createAndJoin, List.pairwise_append, List.pairwise_map, List.mem_map]
    refine ⟨List.pairwise_of_forall fun _ _ => trivial, List.pairwise_of_forall fun _ _ => trivial, ?_⟩
    rintro c ⟨i, -, rfl⟩ d ⟨j, -, rfl⟩
    trivial

/-- what makes it free of races -/
theorem raceFree_of [DecidableEq X] (h : ∀ i j, i ≠ j → ∀ a k b k', .act a :: k <:+ routine i → .act b :: k' <:+ routine j →
    Conflict a b → ∃ c, 0 < calls c (routine i) ∧ 0 < calls c (routine j) ∧ calls c k ≠ calls c k') :
    (testTeam size routine).RaceFree := by
  intro e f he hf hne hc
  obtain ⟨pre, ke, hke⟩ := List.append_of_mem he
  obtain ⟨pre', kf, hkf⟩ := List.append_of_mem hf
  have hse : .print e :: ke <:+ (testTeam size routine).script e.1 := ⟨pre, hke.symm⟩
  have hsf : .print f :: kf <:+ (testTeam size routine).script f.1 := ⟨pre', hkf.symm⟩
  obtain ⟨t, i', a⟩ := e
  obtain ⟨u, j', b⟩ := f
  cases t with
  | none => simp [testTeam, createAndJoin] at he
  | some i =>
    cases u with
    | none => simp [testTeam, createAndJoin] at hf
    | some j =>
      obtain ⟨-, -, k, hk, rfl⟩ := number_print hse
      obtain ⟨-, -, k', hk', rfl⟩ := number_print hsf
      obtain ⟨c, hi, hj, hlt⟩ := h i j (by simpa using hne) a k b k' hk hk' hc
      have hui : some i ∈ (testTeam size routine).users c := by simp [users_test, hi]
      have huj : some j ∈ (testTeam size routine).users c := by simp [users_test, hj]
      rcases Nat.lt_or_gt_of_ne hlt with hlt | hlt
      · refine .inr ⟨some j, some i, _, _, hsf, hse, .inr ⟨c, huj, hui, ?_⟩⟩
        simpa using hlt
      · refine .inl ⟨some i, some j, _, _, hse, hsf, .inr ⟨c, hui, huj, ?_⟩⟩
        simpa using hlt

end

/-! ## Abstract runs of routines -/

section
variable [DecidableEq B] [DecidableEq X] {n : ℕ} {size : B → ℕ} {routine : Fin n → List (Stmt B X O)}

/-- `main` has created its threads, and the thread `i` has `K i` still to do -/
def Ahead (v : Meeting (Option (Fin n)) B (Entry (Option (Fin n)) X O)) (K : Fin n → List (Stmt B X O)) : Prop :=
  v.rest none = [] ∧ ∀ i, ∃ j, v.rest (some i) = number (some i) j (K i)

/-- the thread `t` executes the statements `l` -/
def runActs {T : Type} [DecidableEq T] (t : T) (d : Data T X O) (l : List (Act X O)) : Data T X O :=
  l.foldl (fun d a => exec d (t, 0, a)) d

variable {v : Meeting (Option (Fin n)) B (Entry (Option (Fin n)) X O)}

omit [DecidableEq B] [DecidableEq X] in
theorem Ahead.nil (h : Ahead v fun _ => []) (t : Option (Fin n)) : v.rest t = [] := by
  cases t with
  | none => exact h.1
  | some i =>
    obtain ⟨j, hj⟩ := h.2 i
    exact hj

omit [DecidableEq X] in
/-- `main` creates and joins its threads -/
theorem meets_main {rank : B → ℕ → ℤ} (hp : (testTeam size routine).Regular Prod.fst rank) :
    ∃ v, Meets size (testTeam size routine).gathered v ∧ Ahead v routine ∧ v.printed = [] := by
  -- by induction on what `main` has still to do
  have hrun : ∀ (k : List (Cmd (Option (Fin n)) B (Entry (Option (Fin n)) X O)))
      (v : Meeting (Option (Fin n)) B (Entry (Option (Fin n)) X O)), Meets size (testTeam size routine).gathered v →
      v.rest none = k → k <:+ createAndJoin n → (∀ i, ∃ j, v.rest (some i) = number (some i) j (routine i)) →
      v.printed = [] → ∃ v', Meets size (testTeam size routine).gathered v' ∧ Ahead v' routine ∧ v'.printed = [] := by
    intro k
    induction k with
    | nil => exact fun v hv hk _ hat hlog => ⟨v, hv, ⟨hk, hat⟩, hlog⟩
    | cons c k ih =>
      intro v hv hk hsuf hat hlog
      have hsuf' := (List.suffix_cons c k).trans hsuf
      have hc : c ∈ (createAndJoin n : List (Cmd (Option (Fin n)) B (Entry (Option (Fin n)) X O))) :=
        hsuf.subset (List.mem_cons_self ..)
      have hat' : ∀ i, ∃ j, Function.update v.rest none k (some i) = number (some i) j (routine i) := by
        intro i
        rw [Function.update_of_ne (by simp)]
        exact hat i
      simp only [createAndJoin, List.mem_append, List.mem_map] at hc
      rcases hc with ⟨i, -, rfl⟩ | ⟨i, -, rfl⟩
      · have hborn : ¬ v.born (some i) := by
          rw [born_iff hp hv, not_not]
          show .create (some i) ∈ v.rest none
          rw [hk]
          exact List.mem_cons_self ..
        exact ih _ (hv.tail (.create hk hborn)) (by simp) hsuf' hat' hlog
      · exact ih _ (hv.tail (.join hk)) (by simp) hsuf' hat' hlog
  exact hrun _ _ .refl rfl List.suffix_rfl (fun i => ⟨0, rfl⟩) rfl

omit [DecidableEq B] [DecidableEq X] in
theorem Meets.trans {T : Type} [DecidableEq T] {n : B → ℕ} {u v w : Meeting T B O} (h : Meets n u v) (h' : Meets n v w) :
    Meets n u w := by
  induction h' with
  | refl => exact h
  | tail _ hs ih => exact ih.tail hs

variable {K : Fin n → List (Stmt B X O)}

variable (size) in
omit [DecidableEq B] in
/-- a thread executes statements -/
theorem meets_acts (h : Ahead v K) {i : Fin n} {l : List (Act X O)} {k : List (Stmt B X O)}
    (hi : K i = l.map .act ++ k) :
    ∃ v', Meets size v v' ∧ Ahead v' (Function.update K i k) ∧ ∀ d, dataOf d v' = runActs (some i) (dataOf d v) l := by
  induction l generalizing v K with
  | nil =>
    have hk : Function.update K i k = K := by
      rw [Function.update_eq_self_iff, hi]
      rfl
    exact ⟨v, .refl, by rw [hk]; exact h, fun _ => rfl⟩
  | cons a l ih =>
    obtain ⟨hnone, hrest⟩ := h
    obtain ⟨j, hj⟩ := hrest i
    rw [hi] at hj
    obtain ⟨v1, hstep, hrest1, hlog⟩ : ∃ v1, MeetStep size v v1 ∧
        v1.rest = Function.update v.rest (some i) (number (some i) (j + 1) (l.map .act ++ k)) ∧
        v1.printed = v.printed ++ [(some i, j, a)] := ⟨_, .print hj, rfl, rfl⟩
    have hahead : Ahead v1 (Function.update K i (l.map .act ++ k)) := by
      refine ⟨by rw [hrest1, Function.update_of_ne (by simp), hnone], fun u => ?_⟩
      by_cases hu : u = i
      · subst hu
        exact ⟨j + 1, by rw [hrest1, Function.update_self, Function.update_self]⟩
      · rw [hrest1, Function.update_of_ne (by simpa using hu), Function.update_of_ne hu]
        exact hrest u
    obtain ⟨v', hv', hahead', hdata⟩ := ih hahead (Function.update_self ..)
    rw [Function.update_idem] at hahead'
    refine ⟨v', (Meets.tail .refl hstep).trans hv', hahead', fun d => ?_⟩
    rw [hdata d, dataOf, dataOf, hlog, replay, List.foldl_append]
    rfl

variable (size) in
omit [DecidableEq B] in
/-- all threads execute statements, one after the other -/
theorem meets_each (h : Ahead v K) {l : Fin n → List (Act X O)} {k : Fin n → List (Stmt B X O)}
    (hK : ∀ i, K i = (l i).map .act ++ k i) :
    ∃ v', Meets size v v' ∧ Ahead v' k ∧
      ∀ d, dataOf d v' = (List.finRange n).foldl (fun d i => runActs (some i) d (l i)) (dataOf d v) := by
  have hrun : ∀ (ts : List (Fin n)) (v : Meeting (Option (Fin n)) B (Entry (Option (Fin n)) X O)), ts.Nodup →
      Ahead v (fun i => if i ∈ ts then K i else k i) → ∃ v', Meets size v v' ∧ Ahead v' k ∧
        ∀ d, dataOf d v' = ts.foldl (fun d i => runActs (some i) d (l i)) (dataOf d v) := by
    intro ts
    induction ts with
    | nil => exact fun v _ h => ⟨v, .refl, by simpa using h, fun _ => rfl⟩
    | cons i ts ih =>
      intro v hn h
      obtain ⟨hi, hts⟩ := List.nodup_cons.1 hn
      obtain ⟨v1, hv1, hahead, hdata1⟩ := meets_acts size h (i := i) (by simpa using hK i)
      have hnext : Function.update (fun j => if j ∈ i :: ts then K j else k j) i (k i) =
          fun j => if j ∈ ts then K j else k j := by
        funext j
        by_cases hj : j = i
        · subst hj
          simp [hi]
        · simp [hj]
      obtain ⟨v2, hv2, hahead2, hdata2⟩ := ih v1 hts (hnext ▸ hahead)
      exact ⟨v2, hv1.trans hv2, hahead2, fun d => by rw [hdata2, hdata1, List.foldl_cons]⟩
  exact hrun _ v (List.nodup_finRange n) (by simpa using h)

variable (size) in
omit [DecidableEq B] in
/-- threads meet at a barrier -/
theorem meets_wait (h : Ahead v K) {b : B} {S : Finset (Fin n)} (hS : S.card = size b) {k : Fin n → List (Stmt B X O)}
    (hK : ∀ i ∈ S, K i = .wait b :: k i) :
    ∃ v', Meets size v v' ∧ Ahead v' (fun i => if i ∈ S then k i else K i) ∧ ∀ d, dataOf d v' = dataOf d v := by
  obtain ⟨hnone, hrest⟩ := h
  have hheads : ∀ i ∈ S, ∃ j, v.rest (some i) = .wait b :: number (some i) j (k i) := by
    intro i hi
    obtain ⟨j, hj⟩ := hrest i
    rw [hK i hi] at hj
    exact ⟨j + 1, hj⟩
  refine ⟨_, .tail .refl (.meet b (S.map .some) ((Finset.card_map _).trans hS) fun t ht => ?_), ⟨?_, fun i => ?_⟩,
    fun d => rfl⟩
  · obtain ⟨i, hi, rfl⟩ := Finset.mem_map.1 ht
    obtain ⟨j, hj⟩ := hheads i hi
    exact ⟨_, hj⟩
  · simpa using hnone
  · by_cases hi : i ∈ S
    · obtain ⟨j, hj⟩ := hheads i hi
      exact ⟨j, by simp [hi, hj]⟩
    · simpa [hi] using hrest i

end

end DecsLabs.Barrier
