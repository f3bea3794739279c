/-
Clients of barriers whose users are always the same threads: each barrier is initialised for as many threads as use it,
and all of them pass it equally often. What they do beside the barriers is a log; an entry of it is one access of shared
data, signed by the thread that makes it.

- `Team.Regular`: when scripts are of this kind. One thread creates the others first and joins them last, and there is
  an order of the meetings that every script follows.
- `alike`: the users of a barrier have always passed equally many waits at it.
- `Before`: an entry comes before a wait that another thread passes before the other entry, or both are of one thread.
  `respects_before`: in every run the log has them in this order.
- `stuck_all_exited`, `regular_ends`: a regular team never gets stuck, and comes to its end from every state.
- `log_perm`: the entries of a whole run are those of the scripts.
-/
import DecsLabs.Barrier.Progress
import DecsLabs.Core.Commute

namespace DecsLabs.Barrier

open DecsLabs.Transition DecsLabs.Pthread DecsLabs.Commute

variable {T B O : Type}

/-! ## Scripts -/

/-- the entries that a script makes -/
def entries (k : List (Cmd T B O)) : List O :=
  k.filterMap fun c =>
    match c with
    | .print o => some o
    | _ => none

/-- the threads that a script creates -/
def creates (k : List (Cmd T B O)) : List T :=
  k.filterMap fun c =>
    match c with
    | .create t => some t
    | _ => none

@[simp] theorem mem_entries {k : List (Cmd T B O)} {o : O} : o ∈ entries k ↔ .print o ∈ k := by
  simp only [entries, List.mem_filterMap]
  constructor
  · rintro ⟨c, hc, h⟩
    cases c <;> simp at h
    subst h
    exact hc
  · intro h
    exact ⟨_, h, rfl⟩

@[simp] theorem mem_creates {k : List (Cmd T B O)} {t : T} : t ∈ creates k ↔ .create t ∈ k := by
  simp only [creates, List.mem_filterMap]
  constructor
  · rintro ⟨c, hc, h⟩
    cases c <;> simp at h
    subst h
    exact hc
  · intro h
    exact ⟨_, h, rfl⟩

theorem entries_append (k k' : List (Cmd T B O)) : entries (k ++ k') = entries k ++ entries k' := List.filterMap_append

/-- the number of waits at `b` in a script -/
def waits [DecidableEq B] (b : B) (k : List (Cmd T B O)) : ℕ := k.countP fun c => c.isWait b

/-- the waits of a script, as `rank` numbers them: a wait is known by its barrier and by how many are left behind it -/
def keys [DecidableEq B] (rank : B → ℕ → ℤ) : List (Cmd T B O) → List ℤ
  | [] => []
  | .wait b :: k => rank b (waits b k) :: keys rank k
  | _ :: k => keys rank k

section
variable [DecidableEq B]

@[simp] theorem waits_wait (b c : B) (k : List (Cmd T B O)) :
    waits b (.wait c :: k) = waits b k + if c = b then 1 else 0 := by simp [waits, List.countP_cons, Cmd.isWait]

theorem waits_cons {b : B} {c : Cmd T B O} (hc : ∀ b, c ≠ .wait b) (k : List (Cmd T B O)) :
    waits b (c :: k) = waits b k := by
  cases c with
  | wait b => exact absurd rfl (hc b)
  | print o | create t | join t => simp [waits, Cmd.isWait]

theorem waits_pos {b : B} {k : List (Cmd T B O)} : 0 < waits b k ↔ .wait b ∈ k := by
  rw [waits, List.countP_pos_iff]
  constructor
  · rintro ⟨c, hc, h⟩
    cases c <;> simp [Cmd.isWait] at h
    subst h
    exact hc
  · intro h
    exact ⟨_, h, by simp [Cmd.isWait]⟩

theorem waits_le {b : B} {k k' : List (Cmd T B O)} (h : k <:+ k') : waits b k ≤ waits b k' := h.sublist.countP_le

theorem keys_suffix (rank : B → ℕ → ℤ) {k k' : List (Cmd T B O)} (h : k <:+ k') : keys rank k <:+ keys rank k' := by
  induction k' with
  | nil => rw [List.suffix_nil.1 h]
  | cons c k' ih =>
    rcases List.suffix_cons_iff.1 h with rfl | htail
    · exact List.suffix_rfl
    · cases c with
      | wait b => exact (ih htail).trans (List.suffix_cons ..)
      | print o | create t | join t => exact ih htail

/-- the next wait at `b` of a script is among its keys -/
theorem next_key (rank : B → ℕ → ℤ) {b : B} {k : List (Cmd T B O)} (h : 0 < waits b k) :
    rank b (waits b k - 1) ∈ keys rank k := by
  induction k with
  | nil => simp [waits] at h
  | cons c k ih =>
    cases c with
    | wait c =>
      by_cases hc : c = b
      · subst hc
        simp [keys]
      · rw [waits_wait, if_neg hc, add_zero] at h ⊢
        exact List.mem_cons_of_mem _ (ih h)
    | print o | create t | join t =>
      rw [waits_cons (by simp)] at h ⊢
      exact ih h

end

/-! ## Regular teams -/

/-- the commands that come in order: threads are created before any wait, and joined behind the last one -/
def Cmd.inOrder : Cmd T B O → Cmd T B O → Prop
  | .wait _, .create _ | .join _, .create _ | .join _, .wait _ => False
  | _, _ => True

/-- `root` is the thread that runs from the start -/
structure Team (T B O : Type) where
  root : T
  script : T → List (Cmd T B O)
  size : B → ℕ

/-- the threads that use the barrier `b` -/
def Team.users [Fintype T] [DecidableEq B] (p : Team T B O) (b : B) : Finset T :=
  Finset.univ.filter fun t => 0 < waits b (p.script t)

variable [DecidableEq T] [DecidableEq B] [Fintype T]

structure Team.Regular (p : Team T B O) (sign : O → T) (rank : B → ℕ → ℤ) : Prop where
  size_pos : ∀ b, 1 ≤ p.size b
  size_eq : ∀ b, (p.users b).Nonempty → (p.users b).card = p.size b
  rounds : ∀ b, ∀ t ∈ p.users b, ∀ u ∈ p.users b, waits b (p.script t) = waits b (p.script u)
  sorted : ∀ t, (keys rank (p.script t)).Pairwise (· < ·)
  signed : ∀ t o, .print o ∈ p.script t → sign o = t
  distinct : ∀ t, (entries (p.script t)).Nodup
  others : ∀ t, t ≠ p.root → ∀ u, .create u ∉ p.script t ∧ .join u ∉ p.script t
  creates : (creates (p.script p.root)).Nodup ∧ ∀ t, .create t ∈ p.script p.root ↔ t ≠ p.root
  join : .join p.root ∉ p.script p.root
  inOrder : (p.script p.root).Pairwise Cmd.inOrder

/-- all barriers are initialised, and only `root` runs -/
def Team.start (p : Team T B O) : ClientSt T B O :=
  initial p.size p.script fun t => if t = p.root then .run else .unborn

/-- the abstract machine at the start -/
def Team.gathered (p : Team T B O) : Meeting T B O := ⟨p.script, fun t => t = p.root, []⟩

variable {p : Team T B O} {sign : O → T} {rank : B → ℕ → ℤ} {v : Meeting T B O}

omit [Fintype T] in
theorem view_start (p : Team T B O) : view p.start = p.gathered := by
  refine Meeting.ext rfl (funext fun t => ?_) rfl
  simp only [view, Team.start, initial, Team.gathered]
  by_cases ht : t = p.root <;> simp [ht]

omit [DecidableEq B] [Fintype T] in
theorem rest_suffix (h : Meets p.size p.gathered v) (t : T) : v.rest t <:+ p.script t := by
  induction h with
  | refl => exact List.suffix_rfl
  | tail _ hs ih =>
    rcases hs.rest t with h | h
    · rw [h]
      exact ih
    · rw [h]
      exact (List.tail_suffix _).trans ih

/-! ## The users of a barrier stay in step -/

/-- the threads that meet at a barrier are its users -/
theorem meet_users (hp : p.Regular sign rank) (h : Meets p.size p.gathered v) {b : B} {S : Finset T}
    (hS : S.card = p.size b) (hh : ∀ t ∈ S, ∃ k, v.rest t = .wait b :: k) : S = p.users b := by
  have hsub : S ⊆ p.users b := by
    intro t ht
    obtain ⟨k, hk⟩ := hh t ht
    have hmem : .wait b ∈ p.script t := (rest_suffix h t).subset (by rw [hk]; exact List.mem_cons_self ..)
    simpa [Team.users] using waits_pos.2 hmem
  have hne : S.Nonempty := Finset.card_pos.1 (by rw [hS]; exact hp.size_pos b)
  exact Finset.eq_of_subset_of_card_le hsub (by rw [hS, hp.size_eq b (hne.mono hsub)])

theorem alike (hp : p.Regular sign rank) (h : Meets p.size p.gathered v) (b : B) {t u : T} (ht : t ∈ p.users b)
    (hu : u ∈ p.users b) : waits b (v.rest t) = waits b (v.rest u) := by
  induction h with
  | refl => exact hp.rounds b t ht u hu
  | @tail v v' hv hs ih =>
    have hsame : ∀ {c : Cmd T B O} {k x}, v.rest x = c :: k → (∀ b, c ≠ .wait b) →
        ∀ y, waits b (Function.update v.rest x k y) = waits b (v.rest y) := by
      intro c k x hx hc y
      by_cases hxy : y = x
      · subst hxy
        rw [Function.update_self, hx, waits_cons hc]
      · rw [Function.update_of_ne hxy]
    cases hs with
    | print h | create h _ | join h => simp only [hsame h (by simp), ih]
    | meet c S hS hh =>
      obtain rfl := meet_users hp hv hS hh
      by_cases hc : c = b
      · subst hc
        obtain ⟨k, hk⟩ := hh t ht
        obtain ⟨k', hk'⟩ := hh u hu
        simp only [hk, hk', waits_wait, if_true] at ih
        simp only [ht, hu, if_true, hk, hk', List.tail_cons]
        omega
      · have htail : ∀ x, waits b (if x ∈ p.users c then (v.rest x).tail else v.rest x) = waits b (v.rest x) := by
          intro x
          by_cases hx : x ∈ p.users c
          · obtain ⟨k, hk⟩ := hh x hx
            simp [hx, hk, hc]
          · rw [if_neg hx]
        simp only [htail, ih]

/-! ## The log -/

/-- what a thread has entered and what it has still to enter -/
theorem log_split (hp : p.Regular sign rank) (h : Meets p.size p.gathered v) (t : T) :
    v.printed.filter (fun o => sign o = t) ++ entries (v.rest t) = entries (p.script t) := by
  induction h with
  | refl => rfl
  | @tail v v' hv hs ih =>
    cases hs with
    | meet c S hS hh =>
      by_cases ht : t ∈ S
      · obtain ⟨k, hk⟩ := hh t ht
        simpa [ht, hk, entries] using ih
      · simpa [ht] using ih
    | @create x y k hx hy =>
      by_cases ht : t = x
      · subst ht
        simpa [hx, entries] using ih
      · simpa [ht] using ih
    | @join x y k hx =>
      by_cases ht : t = x
      · subst ht
        simpa [hx, entries] using ih
      · simpa [ht] using ih
    | @print x o k hx =>
      have hsign : sign o = x := hp.signed x o ((rest_suffix hv x).subset (by rw [hx]; exact List.mem_cons_self ..))
      by_cases ht : t = x
      · subst ht
        rw [← ih, hx, List.filter_append]
        simp [entries, hsign]
      · simpa [ht, List.filter_append, hsign, Ne.symm ht] using ih

theorem mem_log (hp : p.Regular sign rank) (h : Meets p.size p.gathered v) {t : T} {o : O} (ho : .print o ∈ p.script t)
    (hno : .print o ∉ v.rest t) : o ∈ v.printed := by
  have hmem : o ∈ entries (p.script t) := mem_entries.2 ho
  rw [← log_split hp h t, List.mem_append, mem_entries] at hmem
  exact List.mem_of_mem_filter (hmem.resolve_right hno)

/-- an entry that is still to be made has not been made -/
theorem not_mem_log (hp : p.Regular sign rank) (h : Meets p.size p.gathered v) {t : T} {o : O}
    (ho : .print o ∈ v.rest t) : o ∉ v.printed := by
  intro hmem
  have hsign : sign o = t := hp.signed t o ((rest_suffix h t).subset ho)
  have hn := hp.distinct t
  rw [← log_split hp h t, List.nodup_append] at hn
  exact hn.2.2 o (List.mem_filter.2 ⟨hmem, by simp [hsign]⟩) o (mem_entries.2 ho) rfl

/-! ## The order of the log -/

/-- the entry `e` comes before `f` in every run -/
def Team.Before (p : Team T B O) (e f : O) : Prop :=
  ∃ t u ke kf, .print e :: ke <:+ p.script t ∧ .print f :: kf <:+ p.script u ∧
    (t = u ∧ .print f ∈ ke ∨ ∃ b, t ∈ p.users b ∧ u ∈ p.users b ∧ waits b kf < waits b ke)

omit [DecidableEq T] [DecidableEq B] [Fintype T] in
/-- an entry stands at one place of a script -/
theorem entry_unique {l k k' : List (Cmd T B O)} {o : O} (hn : (entries l).Nodup) (h : .print o :: k <:+ l)
    (h' : .print o :: k' <:+ l) : k = k' := by
  have hnodup : ∀ {k : List (Cmd T B O)}, .print o :: k <:+ l → .print o ∉ k := by
    intro k hk hmem
    obtain ⟨pre, rfl⟩ := hk
    rw [entries_append, List.nodup_append] at hn
    have hcons : (o :: entries k).Nodup := hn.2.1
    exact (List.nodup_cons.1 hcons).1 (mem_entries.2 hmem)
  rcases List.suffix_or_suffix_of_suffix h h' with hs | hs
  · rcases List.suffix_cons_iff.1 hs with heq | hs
    · exact (List.cons.inj heq).2
    · exact absurd (hs.subset (List.mem_cons_self ..)) (hnodup h')
  · rcases List.suffix_cons_iff.1 hs with heq | hs
    · exact (List.cons.inj heq).2.symm
    · exact absurd (hs.subset (List.mem_cons_self ..)) (hnodup h)

/-- when an entry is next, those before it have been made -/
theorem logged (hp : p.Regular sign rank) (h : Meets p.size p.gathered v) {e f : O} (hb : p.Before e f) {u : T}
    {k : List (Cmd T B O)} (hu : v.rest u = .print f :: k) : e ∈ v.printed := by
  obtain ⟨t, u', ke, kf, he, hf, hcase⟩ := hb
  have hrest := rest_suffix h u
  rw [hu] at hrest
  obtain rfl : u' = u := by
    rw [← hp.signed u' f (hf.subset (List.mem_cons_self ..)), hp.signed u f (hrest.subset (List.mem_cons_self ..))]
  obtain rfl := entry_unique (hp.distinct u') hf hrest
  apply mem_log hp h (he.subset (List.mem_cons_self ..))
  intro hno
  -- the entry `e` is still to be made, so that the rest of its thread goes back to `e`
  obtain ⟨pre, ke', hsplit⟩ := List.append_of_mem hno
  have he' : .print e :: ke' <:+ v.rest t := ⟨pre, hsplit.symm⟩
  obtain rfl := entry_unique (hp.distinct t) he (he'.trans (rest_suffix h t))
  rcases hcase with ⟨rfl, hmem⟩ | ⟨b, ht, hu', hlt⟩
  · rw [hu] at he'
    have hn := hp.distinct t
    obtain ⟨pre, hpre⟩ := hrest
    rw [← hpre, entries_append, List.nodup_append] at hn
    have hcons : (f :: entries kf).Nodup := hn.2.1
    rcases List.suffix_cons_iff.1 he' with heq | hs
    · have hk := (List.cons.inj heq).2
      rw [hk] at hmem
      exact (List.nodup_cons.1 hcons).1 (mem_entries.2 hmem)
    · exact (List.nodup_cons.1 hcons).1 (mem_entries.2 (hs.subset (List.mem_cons_of_mem _ hmem)))
  · have halike := alike hp h b ht hu'
    have hle := waits_le (b := b) he'
    rw [waits_cons (by simp)] at hle
    rw [hu, waits_cons (by simp)] at halike
    omega

/-- **Order of the log.** An entry that is made comes behind those that are before it. -/
theorem respects_before (hp : p.Regular sign rank) (h : Meets p.size p.gathered v) {e f : O} (hb : p.Before e f)
    (hf : f ∈ v.printed) : Precedes v.printed e f := by
  induction h with
  | refl => cases hf
  | @tail v v' hv hs ih =>
    cases hs with
    | meet | create | join => exact ih hf
    | @print x o k hx =>
      rcases List.mem_append.1 hf with hf | hf
      · exact (ih hf).append _
      · obtain rfl := List.mem_singleton.1 hf
        exact precedes_append (logged hp hv hb hx) f

theorem log_nodup (hp : p.Regular sign rank) (h : Meets p.size p.gathered v) : v.printed.Nodup := by
  induction h with
  | refl => exact List.nodup_nil
  | @tail v v' hv hs ih =>
    cases hs with
    | meet | create | join => exact ih
    | @print x o k hx =>
      have hno := not_mem_log hp hv (t := x) (o := o) (by rw [hx]; exact List.mem_cons_self ..)
      exact List.nodup_append.2 ⟨ih, List.nodup_singleton o, fun a ha b hb e => hno (by
        rw [← List.mem_singleton.1 hb, ← e]
        exact ha)⟩

/-- two whole runs make the same entries -/
theorem log_perm (hp : p.Regular sign rank) {v' : Meeting T B O} (h : Meets p.size p.gathered v)
    (h' : Meets p.size p.gathered v') (hend : ∀ t, v.rest t = []) (hend' : ∀ t, v'.rest t = []) :
    v.printed.Perm v'.printed := by
  rw [List.perm_ext_iff_of_nodup (log_nodup hp h) (log_nodup hp h')]
  have hmem : ∀ {w : Meeting T B O}, Meets p.size p.gathered w → (∀ t, w.rest t = []) → ∀ o,
      o ∈ w.printed ↔ .print o ∈ p.script (sign o) := by
    intro w hw hwend o
    have hsplit := log_split hp hw (sign o)
    rw [hwend] at hsplit
    rw [← mem_entries, ← hsplit]
    simp [entries]
  intro o
  rw [hmem h hend, hmem h' hend']

/-! ## No deadlock -/

/-- the threads that `root` has not created are those of the rest of its script -/
theorem born_iff (hp : p.Regular sign rank) (h : Meets p.size p.gathered v) (t : T) :
    v.born t ↔ .create t ∉ v.rest p.root := by
  induction h with
  | refl =>
    show t = p.root ↔ .create t ∉ p.script p.root
    rw [hp.creates.2 t, not_not]
  | @tail v v' hv hs ih =>
    cases hs with
    | meet c S hS hh =>
      rw [ih]
      by_cases hr : p.root ∈ S
      · obtain ⟨k, hk⟩ := hh _ hr
        simp [hr, hk]
      · simp [hr]
    | @print x o k hx | @join x u k hx =>
      rw [ih]
      by_cases hr : p.root = x
      · subst hr
        simp [hx]
      · simp [Function.update_of_ne hr]
    | @create x u k hx hu =>
      obtain rfl : x = p.root := by
        by_contra hne
        exact (hp.others x hne u).1 ((rest_suffix hv x).subset (by rw [hx]; exact List.mem_cons_self ..))
      have hn : (creates (v.rest p.root)).Nodup := by
        obtain ⟨pre, hpre⟩ := rest_suffix hv p.root
        have hall := hp.creates.1
        rw [← hpre, creates, List.filterMap_append] at hall
        exact (List.nodup_append.1 hall).2.1
      have hnot : .create u ∉ k := by
        rw [hx] at hn
        exact fun hmem => (List.nodup_cons.1 hn).1 (mem_creates.2 hmem)
      simp only [Function.update_self, ih, hx, List.mem_cons, Cmd.create.injEq, not_or]
      by_cases htu : t = u
      · subst htu
        simp [hnot]
      · simp [htu]

theorem known_start (hp : p.Regular sign rank) {s : ClientSt T B O}
    (hs : ReachIf (step (code T B O)) NoSpurious p.start s) : Known p.size s ∧ Meets p.size p.gathered (view s) := by
  have hm : ∀ t, (if t = p.root then Mode.run else .unborn : Mode B) = .run ∨
      (if t = p.root then Mode.run else .unborn : Mode B) = .unborn := by
    intro t
    split_ifs <;> simp
  refine ⟨known hp.size_pos hm hs, ?_⟩
  rw [← view_start]
  exact meets_of_reach hp.size_pos hm hs

/-- in a state without a step every thread has been created -/
theorem stuck_born (hp : p.Regular sign rank) {s : ClientSt T B O} (h : Meets p.size p.gathered (view s))
    (hstuck : ∀ t, Stuck s t) (t : T) : (view s).born t := by
  have hroot : (view s).born p.root := by
    rw [born_iff hp h]
    intro hmem
    exact (hp.creates.2 p.root).1 ((rest_suffix h p.root).subset hmem) rfl
  rw [born_iff hp h]
  intro hmem
  have horder := hp.inOrder.sublist (rest_suffix h p.root).sublist
  -- the first command of the rest of `root` comes before the `create` in its rest
  cases hrest : (view s).rest p.root with
  | nil => simp [hrest] at hmem
  | cons c k =>
    rw [hrest] at hmem horder
    have hlate : c ≠ .create t → Cmd.inOrder c (.create t) := by
      intro hc
      exact (List.pairwise_cons.1 horder).1 _ ((List.mem_cons.1 hmem).resolve_left (Ne.symm hc))
    cases c with
    | wait b => exact hlate (by simp)
    | join u => exact hlate (by simp)
    | print o => exact (hstuck p.root).not_print hroot hrest
    | create u =>
      have hu := (hstuck p.root).of_create hroot hrest
      rw [born_iff hp h, hrest] at hu
      exact hu (List.mem_cons_self ..)

/-- a thread that sleeps misses a user of its barrier, who sleeps in a wait that comes earlier -/
theorem earlier_sleeper (hp : p.Regular sign rank) {s : ClientSt T B O} (hk : Known p.size s)
    (h : Meets p.size p.gathered (view s)) (hno : ∀ t, ¬ Enabled (code T B O) s t) {t : T} {b : B}
    {k : List (Cmd T B O)} (ht : (view s).rest t = .wait b :: k) :
    ∃ u b' k', (view s).rest u = .wait b' :: k' ∧ rank b' (waits b' k') < rank b (waits b k) := by
  have hstuck := fun t => stuck_cases hk hno t
  have hborn := stuck_born hp h hstuck
  have htu : t ∈ p.users b := by
    have hmem : .wait b ∈ p.script t := (rest_suffix h t).subset (by rw [ht]; exact List.mem_cons_self ..)
    simpa [Team.users] using waits_pos.2 hmem
  obtain ⟨u, hu, hawake⟩ : ∃ u ∈ p.users b, s.mode u ≠ .waiting b := by
    by_contra hall
    simp only [not_exists, not_and, not_not] at hall
    have hle : (p.users b).card ≤ waiting s b := Finset.card_le_card fun u hu => by simp [hall u hu]
    have hlt := few_asleep hk hno b
    rw [hp.size_eq b ⟨t, htu⟩] at hle
    omega
  have halike := alike hp h b hu htu
  rw [ht, waits_wait, if_pos rfl] at halike
  have hroot : ∀ {c : Cmd T B O} {v}, c ∈ (view s).rest u → c = .create v ∨ c = .join v → u = p.root := by
    intro c v hc hcv
    by_contra hne
    have hmem := (rest_suffix h u).subset hc
    rcases hcv with rfl | rfl
    · exact (hp.others u hne v).1 hmem
    · exact (hp.others u hne v).2 hmem
  cases hrest : (view s).rest u with
  | nil => simp [hrest, waits] at halike
  | cons c k' =>
    have hc : c ∈ (view s).rest u := by rw [hrest]; exact List.mem_cons_self ..
    cases c with
    | print o => exact absurd hrest ((hstuck u).not_print (hborn u))
    | create v =>
      obtain rfl := hroot hc (.inl rfl)
      exact absurd hc ((born_iff hp h v).1 (hborn v))
    | join v =>
      obtain rfl := hroot hc (.inr rfl)
      have horder := hp.inOrder.sublist (rest_suffix h p.root).sublist
      rw [hrest] at halike horder
      rw [waits_cons (by simp)] at halike
      have hwait : .wait b ∈ k' := waits_pos.1 (by omega)
      exact ((List.pairwise_cons.1 horder).1 _ hwait).elim
    | wait b' =>
      have hne : b' ≠ b := by
        rintro rfl
        exact hawake ((hstuck u).of_wait (hborn u) hrest)
      rw [hrest, waits_wait, if_neg hne] at halike
      have hkey := next_key rank (b := b) (k := k') (by omega)
      have hsorted := (hp.sorted u).sublist (keys_suffix rank (rest_suffix h u)).sublist
      rw [hrest] at hsorted
      have hlt := (List.pairwise_cons.1 hsorted).1 _ hkey
      rw [show waits b k' - 1 = waits b k by omega] at hlt
      exact ⟨u, b', k', hrest, hlt⟩

/-- nobody sleeps in a state without a step -/
theorem stuck_awake (hp : p.Regular sign rank) {s : ClientSt T B O} (hk : Known p.size s)
    (h : Meets p.size p.gathered (view s)) (hno : ∀ t, ¬ Enabled (code T B O) s t) (t : T) (b : B) :
    s.mode t ≠ .waiting b := by
  classical
  intro ht
  let sleepers := Finset.univ.filter fun t => ∃ b k, (view s).rest t = .wait b :: k
  let key := fun t => (keys rank ((view s).rest t)).head?.getD 0
  have hmem : t ∈ sleepers := by
    obtain ⟨k, hpc⟩ := waits_at hk.owned ht
    have hrest : (view s).rest t = .wait b :: k := by simp [view, hpc, ht, Point.rest]
    exact Finset.mem_filter.2 ⟨Finset.mem_univ t, b, k, hrest⟩
  obtain ⟨u, hu, hmin⟩ := sleepers.exists_min_image key ⟨t, hmem⟩
  obtain ⟨-, b', k, hrest⟩ := Finset.mem_filter.1 hu
  obtain ⟨w, c, k', hw, hlt⟩ := earlier_sleeper hp hk h hno hrest
  have hle := hmin w (Finset.mem_filter.2 ⟨Finset.mem_univ w, c, k', hw⟩)
  simp only [key, hrest, hw, keys, List.head?_cons, Option.getD_some] at hle
  exact absurd hlt (not_lt.2 hle)

/-- **No deadlock.** In a state without a step every thread has exited. -/
theorem stuck_all_exited (hp : p.Regular sign rank) {s : ClientSt T B O} (hk : Known p.size s)
    (h : Meets p.size p.gathered (view s)) (hno : ∀ t, ¬ Enabled (code T B O) s t) (t : T) : s.mode t = .exited := by
  have hstuck := fun t => stuck_cases hk hno t
  have hborn := stuck_born hp h hstuck
  have hother : ∀ u, u ≠ p.root → s.mode u = .exited := by
    intro u hu
    cases hstuck u with
    | unborn hm => exact absurd hm (hborn u)
    | exited hm _ => exact hm
    | asleep hm _ => exact absurd hm (stuck_awake hp hk h hno u _)
    | create hr _ => exact absurd ((rest_suffix h u).subset (by rw [hr]; exact List.mem_cons_self ..)) (hp.others u hu _).1
    | join hr _ => exact absurd ((rest_suffix h u).subset (by rw [hr]; exact List.mem_cons_self ..)) (hp.others u hu _).2
  by_cases ht : t = p.root
  · subst ht
    cases hstuck p.root with
    | unborn hm => exact absurd hm (hborn p.root)
    | exited hm _ => exact hm
    | asleep hm _ => exact absurd hm (stuck_awake hp hk h hno p.root _)
    | @create u k hr _ =>
      have hu := hborn u
      rw [born_iff hp h, hr] at hu
      exact absurd (List.mem_cons_self ..) hu
    | @join u k hr hu =>
      have hmem := (rest_suffix h p.root).subset (by rw [hr]; exact List.mem_cons_self ..)
      exact absurd (hother u fun e => hp.join (e ▸ hmem)) hu
  · exact hother t ht

/-- from every state that a regular team reaches without spurious wake-ups it comes to its end -/
theorem regular_ends (hp : p.Regular sign rank) {s : ClientSt T B O}
    (hs : ReachIf (step (code T B O)) NoSpurious p.start s) :
    ∃ s', ReachIf (step (code T B O)) NoSpurious s s' ∧ ∀ t, s'.mode t = .exited := by
  induction hn : work s using Nat.strongRecOn generalizing s with
  | ind n ih =>
    subst hn
    obtain ⟨hk, hm⟩ := known_start hp hs
    by_cases hno : ∀ t, ¬ Enabled (code T B O) s t
    · exact ⟨s, .init, stuck_all_exited hp hk hm hno⟩
    · simp only [not_forall, not_not] at hno
      obtain ⟨t, ht⟩ := hno
      obtain ⟨o, s1, hns, hst⟩ : ∃ o s1, NoSpurious s o ∧ step (code T B O) s o = some s1 := by
        rcases ht with h | ⟨u, h⟩ | h
        all_goals
          obtain ⟨s1, hs1⟩ := Option.isSome_iff_exists.1 h
          exact ⟨_, s1, by simp [NoSpurious], hs1⟩
      obtain ⟨s', hs', hend⟩ := ih (work s1) (work_step hst) (hs.step hns hst) rfl
      exact ⟨s', (ReachIf.step .init hns hst).trans hs', hend⟩

end DecsLabs.Barrier
