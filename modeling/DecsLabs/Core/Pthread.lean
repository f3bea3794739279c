/-
Threads over shared memory with mutexes and condition variables, as POSIX describes them. Nothing here is about a
particular program: a program is a `code` that gives the instruction at every point of every thread.

- One instruction is one atomic step. `act` is one access of the shared memory and decides the next point from what
  it read; the others are calls of the thread library.
- `wait c l` releases the mutex `l` and joins the waiters of `c` in one step. A signal or a broadcast moves waiters
  of `c` to `woken`; a woken thread returns from its wait by re-acquiring `l` (`resume`).
- `signal c l` wakes one waiter of `c` if there is one, any one, and has no effect otherwise. `l` is the mutex that
  the caller names as the guard of `c`; the semantics does not use it.
- `spurious t` is a wake-up that no thread asked for. Assumptions about it are conditions on steps.

`step_move` says once what each step does, `Move.mem`, `Move.pc_self` and `Move.exited` what it may change, and
`Move.signalled` and `lost_signal` what a signal leaves behind; `Enabled` and `blocked_cases` say when a thread can take
no step.
-/
import DecsLabs.Core.Transition

namespace DecsLabs.Pthread

open DecsLabs.Transition

/-! ## Machine -/

inductive Instr (T L C S P : Type) where
  | act (f : S → S × P)
  | lock (l : L) (p : P)
  | unlock (l : L) (p : P)
  | wait (c : C) (l : L) (p : P)
  | signal (c : C) (l : L) (p : P)
  | broadcast (c : C) (p : P)
  | create (t : T) (p : P)
  | join (t : T) (p : P)
  | exit

inductive Mode (C : Type) where
  | unborn
  | run
  | waiting (c : C)
  | woken
  | exited
deriving DecidableEq, Repr

/-- `pc t` is the point of the instruction that `t` executes next; a thread in a wait stays at the wait -/
@[ext]
structure St (T L C S : Type) (P : T → Type) where
  mem : S
  pc : ∀ t, P t
  mode : T → Mode C
  owner : L → Option T

inductive Op (T : Type) where
  /-- `t` executes its instruction; a signal that finds no waiter is one of these -/
  | exec (t : T)
  /-- `t` executes a signal that wakes `u` -/
  | wake (t u : T)
  /-- `t` has been woken and returns from its wait -/
  | resume (t : T)
  | spurious (t : T)
deriving DecidableEq, Repr

def Op.thread {T : Type} : Op T → T
  | .exec t | .wake t _ | .resume t | .spurious t => t

/-- the code of a program: the instruction at each point of each thread -/
abbrev Code (T L C S : Type) (P : T → Type) : Type := ∀ t, P t → Instr T L C S (P t)

variable {T L C S : Type} {P : T → Type} [DecidableEq T]

def St.goto (s : St T L C S P) (t : T) (p : P t) : St T L C S P := { s with pc := Function.update s.pc t p }

@[simp] theorem goto_pc_self (s : St T L C S P) (t : T) (p : P t) : (s.goto t p).pc t = p := Function.update_self ..

theorem goto_pc_of_ne (s : St T L C S P) {t u : T} (p : P t) (h : u ≠ t) : (s.goto t p).pc u = s.pc u :=
  Function.update_of_ne h ..

@[simp] theorem goto_mode (s : St T L C S P) (t : T) (p : P t) : (s.goto t p).mode = s.mode := rfl

@[simp] theorem goto_owner (s : St T L C S P) (t : T) (p : P t) : (s.goto t p).owner = s.owner := rfl

@[simp] theorem goto_mem (s : St T L C S P) (t : T) (p : P t) : (s.goto t p).mem = s.mem := rfl

variable [Fintype T] [DecidableEq L] [DecidableEq C]

/-- `t` executes the instruction `i` -/
def exec (s : St T L C S P) (t : T) : Instr T L C S (P t) → Option (St T L C S P)
  | .act f => some { s.goto t (f s.mem).2 with mem := (f s.mem).1 }
  | .lock l p => if s.owner l = none then some { s.goto t p with owner := Function.update s.owner l (some t) } else none
  | .unlock l p => some { s.goto t p with owner := Function.update s.owner l none }
  | .wait c l _ =>
    some { s with owner := Function.update s.owner l none, mode := Function.update s.mode t (.waiting c) }
  | .signal c _ p => if ∀ u, s.mode u ≠ .waiting c then some (s.goto t p) else none
  | .broadcast c p => some { s.goto t p with mode := fun u => if s.mode u = .waiting c then .woken else s.mode u }
  | .create u p => if s.mode u = .unborn then some { s.goto t p with mode := Function.update s.mode u .run } else none
  | .join u p => if s.mode u = .exited then some (s.goto t p) else none
  | .exit => some { s with mode := Function.update s.mode t .exited }

def step (code : Code T L C S P) (s : St T L C S P) : Op T → Option (St T L C S P)
  | .exec t => if s.mode t = .run then exec s t (code t (s.pc t)) else none
  | .wake t u =>
    match code t (s.pc t) with
    | .signal c _ p =>
      if s.mode t = .run ∧ s.mode u = .waiting c then
        some { s.goto t p with mode := Function.update s.mode u .woken }
      else none
    | _ => none
  | .resume t =>
    match code t (s.pc t) with
    | .wait _ l p =>
      if s.mode t = .woken ∧ s.owner l = none then
        some { s.goto t p with
          owner := Function.update s.owner l (some t), mode := Function.update s.mode t .run }
      else none
    | _ => none
  | .spurious t =>
    match s.mode t with
    | .waiting _ => some { s with mode := Function.update s.mode t .woken }
    | _ => none

/-- the condition that a wait returns only because of a signal or a broadcast -/
def NoSpurious (_ : St T L C S P) (o : Op T) : Prop := ∀ t, o ≠ .spurious t

instance (s : St T L C S P) (o : Op T) : Decidable (NoSpurious s o) :=
  inferInstanceAs (Decidable (∀ t, o ≠ .spurious t))

/-! ## What a step does -/

/-- the steps of the machine, one case for each kind of instruction -/
inductive Move (code : Code T L C S P) (s : St T L C S P) : Op T → St T L C S P → Prop
  | act {t f} (hr : s.mode t = .run) (hc : code t (s.pc t) = .act f) :
    Move code s (.exec t) { s.goto t (f s.mem).2 with mem := (f s.mem).1 }
  | lock {t l p} (hr : s.mode t = .run) (hc : code t (s.pc t) = .lock l p) (ho : s.owner l = none) :
    Move code s (.exec t) { s.goto t p with owner := Function.update s.owner l (some t) }
  | unlock {t l p} (hr : s.mode t = .run) (hc : code t (s.pc t) = .unlock l p) :
    Move code s (.exec t) { s.goto t p with owner := Function.update s.owner l none }
  | wait {t c l p} (hr : s.mode t = .run) (hc : code t (s.pc t) = .wait c l p) :
    Move code s (.exec t)
      { s with owner := Function.update s.owner l none, mode := Function.update s.mode t (.waiting c) }
  | signal {t c l p} (hr : s.mode t = .run) (hc : code t (s.pc t) = .signal c l p)
    (hn : ∀ u, s.mode u ≠ .waiting c) : Move code s (.exec t) (s.goto t p)
  | broadcast {t c p} (hr : s.mode t = .run) (hc : code t (s.pc t) = .broadcast c p) :
    Move code s (.exec t) { s.goto t p with mode := fun u => if s.mode u = .waiting c then .woken else s.mode u }
  | create {t u p} (hr : s.mode t = .run) (hc : code t (s.pc t) = .create u p) (hu : s.mode u = .unborn) :
    Move code s (.exec t) { s.goto t p with mode := Function.update s.mode u .run }
  | join {t u p} (hr : s.mode t = .run) (hc : code t (s.pc t) = .join u p) (hu : s.mode u = .exited) :
    Move code s (.exec t) (s.goto t p)
  | exit {t} (hr : s.mode t = .run) (hc : code t (s.pc t) = .exit) :
    Move code s (.exec t) { s with mode := Function.update s.mode t .exited }
  | wake {t u c l p} (hr : s.mode t = .run) (hc : code t (s.pc t) = .signal c l p) (hu : s.mode u = .waiting c) :
    Move code s (.wake t u) { s.goto t p with mode := Function.update s.mode u .woken }
  | resume {t c l p} (hr : s.mode t = .woken) (hc : code t (s.pc t) = .wait c l p) (ho : s.owner l = none) :
    Move code s (.resume t) { s.goto t p with
      owner := Function.update s.owner l (some t), mode := Function.update s.mode t .run }
  | spurious {t c} (hw : s.mode t = .waiting c) :
    Move code s (.spurious t) { s with mode := Function.update s.mode t .woken }

theorem step_move {code : Code T L C S P} {s s' : St T L C S P} {o : Op T} (h : step code s o = some s') :
    Move code s o s' := by
  cases o with
  | exec t =>
    simp only [step] at h
    split_ifs at h with hr
    generalize hc : code t (s.pc t) = i at h
    cases i with
    | act f => cases h; exact .act hr hc
    | lock l p => simp only [exec] at h; split_ifs at h with ho; cases h; exact .lock hr hc ho
    | unlock l p => cases h; exact .unlock hr hc
    | wait c l p => cases h; exact .wait hr hc
    | signal c l p => simp only [exec] at h; split_ifs at h with hn; cases h; exact .signal hr hc hn
    | broadcast c p => cases h; exact .broadcast hr hc
    | create u p => simp only [exec] at h; split_ifs at h with hu; cases h; exact .create hr hc hu
    | join u p => simp only [exec] at h; split_ifs at h with hu; cases h; exact .join hr hc hu
    | exit => cases h; exact .exit hr hc
  | wake t u =>
    simp only [step] at h
    split at h
    · rename_i c l p hc
      split_ifs at h with hg
      cases h; exact .wake hg.1 hc hg.2
    · cases h
  | resume t =>
    simp only [step] at h
    split at h
    · rename_i c l p hc
      split_ifs at h with hg
      cases h; exact .resume hg.1 hc hg.2
    · cases h
  | spurious t =>
    simp only [step] at h
    split at h
    · rename_i c hw; cases h; exact .spurious hw
    · cases h

omit [Fintype T] in
/-- a step moves only the thread that takes it -/
theorem Move.pc_of_ne {code : Code T L C S P} {s s' : St T L C S P} {o : Op T} (h : Move code s o s') {u : T}
    (hu : u ≠ o.thread) : s'.pc u = s.pc u := by
  cases h with
  | wait | exit | spurious => rfl
  | _ => exact goto_pc_of_ne s _ hu

/-- the point behind an instruction -/
def Instr.next {Q : Type} (m : S) : Instr T L C S Q → Option Q
  | .act f => some (f m).2
  | .lock _ p | .unlock _ p | .wait _ _ p | .signal _ _ p | .broadcast _ p | .create _ p | .join _ p => some p
  | .exit => none

/-- the memory behind an instruction -/
def Instr.effect {Q : Type} (m : S) : Instr T L C S Q → S
  | .act f => (f m).1
  | _ => m

section
variable {code : Code T L C S P} {s s' : St T L C S P} {o : Op T} {t : T}

omit [Fintype T]

/-- a step changes the memory only by the instruction of the thread that takes it -/
theorem Move.mem (h : Move code s o s') (ho : o.thread = t) :
    s'.mem = s.mem ∨ s'.mem = (code t (s.pc t)).effect s.mem := by
  subst ho
  cases h with
  | act hr hc => exact .inr (by rw [Op.thread, hc]; rfl)
  | _ => exact .inl rfl

theorem Move.pc_self (h : Move code s o s') (ho : o.thread = t) :
    s'.pc t = s.pc t ∨ (code t (s.pc t)).next s.mem = some (s'.pc t) := by
  subst ho
  cases h with
  | wait | exit | spurious => exact .inl rfl
  | act hr hc | lock hr hc | unlock hr hc | signal hr hc | broadcast hr hc | create hr hc | join hr hc | wake hr hc
  | resume hr hc =>
    right
    rw [Op.thread, hc]
    exact congrArg some (goto_pc_self ..).symm

/-- only a thread that has been created takes a step -/
theorem Move.born (h : Move code s o s') : s.mode o.thread ≠ .unborn := by
  cases h <;> simp [Op.thread, *]

/-- the step of a running thread that stands at an access of the memory -/
theorem Move.of_act {f : S → S × P t} (h : Move code s o s') (ho : o.thread = t) (hr : s.mode t = .run)
    (hc : code t (s.pc t) = .act f) : s' = { s.goto t (f s.mem).2 with mem := (f s.mem).1 } := by
  subst ho
  cases h with
  | act _ hc' =>
    obtain rfl := Instr.act.inj (hc'.symm.trans hc)
    rfl
  | resume hm => exact absurd (hm.symm.trans hr) (by simp)
  | spurious hm => exact absurd (hm.symm.trans hr) (by simp)
  | lock _ hc' | unlock _ hc' | wait _ hc' | signal _ hc' | broadcast _ hc' | create _ hc' | join _ hc' | exit _ hc'
  | wake _ hc' => exact absurd (hc'.symm.trans hc) (by simp)

/-- A thread that has passed a signal leaves nobody waiting, if at most one thread waited. -/
theorem Move.signalled {c : C} {l : L} {p : P t} (h : Move code s o s') (hc : code t (s.pc t) = .signal c l p)
    (hp : s'.pc t ≠ s.pc t) (hone : ∀ u v, s.mode u = .waiting c → s.mode v = .waiting c → u = v) (u : T) :
    s'.mode u ≠ .waiting c := by
  have ho : t = o.thread := by
    by_contra ht
    exact hp (h.pc_of_ne ht)
  subst ho
  cases h with
  | signal _ hc' hn =>
    obtain ⟨rfl, -, -⟩ := Instr.signal.inj (hc'.symm.trans hc)
    exact hn u
  | @wake _ v _ _ _ _ hc' hv =>
    obtain ⟨rfl, -, -⟩ := Instr.signal.inj (hc'.symm.trans hc)
    intro hu
    by_cases huv : u = v
    · subst huv
      simp at hu
    · exact huv (hone u v (by simpa [huv] using hu) hv)
  | wait | exit | spurious => exact absurd rfl hp
  | act _ hc' | lock _ hc' | unlock _ hc' | broadcast _ hc' | create _ hc' | join _ hc' | resume _ hc' =>
    exact absurd (hc'.symm.trans hc) (by simp)

/-- a thread that has left stays where it is -/
theorem Move.exited (h : Move code s o s') (ht : s'.mode t = .exited) :
    s'.pc t = s.pc t ∧ (s.mode t = .exited ∨ code t (s.pc t) = .exit) := by
  by_cases hot : t = o.thread
  · subst hot
    cases h with
    | exit hr hc => exact ⟨rfl, .inr hc⟩
    | @create t u _ hr hc hu =>
      have hne : t ≠ u := by
        intro he
        rw [he, hu] at hr
        cases hr
      simp [Op.thread, Function.update_of_ne hne, hr] at ht
    | @wake t u _ _ _ hr hc hu =>
      have hne : t ≠ u := by
        intro he
        rw [he, hu] at hr
        cases hr
      simp [Op.thread, Function.update_of_ne hne, hr] at ht
    | act hr hc | lock hr hc | unlock hr hc | signal hr hc | broadcast hr hc | join hr hc =>
      simp [Op.thread, hr] at ht
    | wait hr hc | resume hm hc | spurious hw => simp [Op.thread] at ht
  · refine ⟨h.pc_of_ne hot, .inl ?_⟩
    cases h with
    | act hr hc | lock hr hc | unlock hr hc | signal hr hc | join hr hc => exact ht
    | wait hr hc | exit hr hc | resume hm hc | spurious hw =>
      simp only [Op.thread] at hot
      simpa [hot] using ht
    | @broadcast _ c _ hr hc =>
      by_cases hw : s.mode t = .waiting c
      · simp [hw] at ht
      · simpa [hw] using ht
    | @create _ u _ hr hc hu =>
      by_cases htu : t = u
      · subst htu
        simp at ht
      · simpa [htu] using ht
    | @wake _ u _ _ _ hr hc hu =>
      by_cases htu : t = u
      · subst htu
        simp at ht
      · simpa [htu] using ht

end

/-- a signal that is executed without waking anybody is lost: nobody waits -/
theorem lost_signal {code : Code T L C S P} {s s' : St T L C S P} {t : T} {c : C} {l : L} {p : P t}
    (h : step code s (.exec t) = some s') (hc : code t (s.pc t) = .signal c l p) (u : T) : s.mode u ≠ .waiting c := by
  simp only [step, hc, exec] at h
  split_ifs at h with _ hn
  exact hn u

/-! ## Enabled and blocked threads -/

/-- `t` can take a step of its own (a spurious wake-up is not one) -/
def Enabled (code : Code T L C S P) (s : St T L C S P) (t : T) : Prop :=
  (step code s (.exec t)).isSome ∨ (∃ u, (step code s (.wake t u)).isSome) ∨ (step code s (.resume t)).isSome

instance (code : Code T L C S P) (s : St T L C S P) (t : T) : Decidable (Enabled code s t) :=
  inferInstanceAs (Decidable (_ ∨ _ ∨ _))

/-- the ways in which a thread can take no step -/
inductive Blocked (code : Code T L C S P) (s : St T L C S P) (t : T) : Prop
  | unborn (h : s.mode t = .unborn)
  | exited (h : s.mode t = .exited)
  | waiting {c} (h : s.mode t = .waiting c)
  | lock {l p} (h : s.mode t = .run) (hc : code t (s.pc t) = .lock l p) (ho : s.owner l ≠ none)
  | resume (h : s.mode t = .woken) (hc : ∀ c l p, code t (s.pc t) = .wait c l p → s.owner l ≠ none)
  | create {u p} (h : s.mode t = .run) (hc : code t (s.pc t) = .create u p) (hu : s.mode u ≠ .unborn)
  | join {u p} (h : s.mode t = .run) (hc : code t (s.pc t) = .join u p) (hu : s.mode u ≠ .exited)

theorem blocked_cases {code : Code T L C S P} {s : St T L C S P} {t : T} (h : ¬ Enabled code s t) :
    Blocked code s t := by
  simp only [Enabled, not_or, not_exists] at h
  obtain ⟨h1, h2, h3⟩ := h
  cases hm : s.mode t with
  | unborn => exact .unborn hm
  | exited => exact .exited hm
  | waiting c => exact .waiting hm
  | woken =>
    refine .resume hm fun c l p hc ho => h3 ?_
    simp [step, hc, hm, ho]
  | run =>
    simp only [step, hm, if_true] at h1
    cases hc : code t (s.pc t) with
    | lock l p => exact .lock hm hc fun ho => h1 (by simp [hc, exec, ho])
    | create u p => exact .create hm hc fun hu => h1 (by simp [hc, exec, hu])
    | join u p => exact .join hm hc fun hu => h1 (by simp [hc, exec, hu])
    | signal c l p =>
      -- either nobody waits and the signal is lost, or it wakes one of the waiters
      by_cases hn : ∀ u, s.mode u ≠ .waiting c
      · exact absurd (by simp [hc, exec, hn]) h1
      · simp only [not_forall, not_not] at hn
        obtain ⟨u, hu⟩ := hn
        exact absurd (by simp [step, hc, hm, hu]) (h2 u)
    | _ => exact absurd (by simp [hc, exec]) h1

/-! ## Waits -/

/-- a thread that waits or has been woken stands at a wait, on the condition it waits for -/
structure AtWait (code : Code T L C S P) (s : St T L C S P) : Prop where
  waiting : ∀ t c, s.mode t = .waiting c → ∃ l p, code t (s.pc t) = .wait c l p
  woken : ∀ t, s.mode t = .woken → ∃ c l p, code t (s.pc t) = .wait c l p

end DecsLabs.Pthread
