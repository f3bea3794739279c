/-
Lock discipline of the race, in every interleaving, spurious wake-ups included.

- `Asserts`: the `__assert` checks of cs_thread.h at a call; `Names`: the lock that a call is about.
- `InitProgress`: `init` initialises every lock and every condition variable before it creates the first thread.
- `race_lock_discipline`: no check fires, nobody waits with another lock, and no cycle of threads is blocked.
-/
import DecsLabs.Race.Threads

namespace DecsLabs.HareTortoise

open DecsLabs.Transition DecsLabs.Pthread

/-! ## The checks of cs_thread.h -/

/-- `pthread_mutex_trylock` fails on a mutex that is owned -/
def Asserts {P : Type} (s : RaceSt) : RaceInstr P → Prop
  | .lock l _ => s.mem.lockInit l = true
  | .unlock l _ => s.mem.lockInit l = true ∧ s.owner l ≠ none
  | .wait c l _ | .signal c l _ => s.owner l ≠ none ∧ s.mem.condInit c = true ∧ s.mem.lockInit l = true
  | _ => True

/-- the instruction releases the lock, waits with it or signals under it -/
def Names {P : Type} (l : Lock) : RaceInstr P → Prop
  | .unlock l' _ | .wait _ l' _ | .signal _ l' _ => l' = l
  | _ => False

/-! ## Initialisation -/

theorem mem_initCalls : (∀ l : Lock, .inl l ∈ initCalls) ∧ ∀ c : Cond, .inr c ∈ initCalls := by
  constructor
  · intro l
    cases l with
    | playerReporter x | playerMain x => cases x <;> simp [initCalls]
    | _ => simp [initCalls]
  · intro c
    cases c with
    | playerToReporter x | reporterToPlayer x | playerMain x => cases x <;> simp [initCalls]

/-- `main` has initialised all but `todo` and is alone, or has initialised everything -/
inductive InitProgress (s : RaceSt) : Prop
  | during (todo : List (Lock ⊕ Cond)) (hp : s.pc .main = .init todo) (hr : s.mode .main = .run)
    (hl : ∀ l, .inl l ∉ todo → s.mem.lockInit l = true) (hc : ∀ c, .inr c ∉ todo → s.mem.condInit c = true)
    (hu : ∀ t, t ≠ .main → s.mode t = .unborn)
  | after (hp : ∀ todo, s.pc .main ≠ .init todo) (hl : ∀ l, s.mem.lockInit l = true)
    (hc : ∀ c, s.mem.condInit c = true)

theorem initial_initProgress : InitProgress initial := by
  refine .during initCalls rfl rfl ?_ ?_ ?_
  · intro l hl
    exact absurd (mem_initCalls.1 l) hl
  · intro c hc
    exact absurd (mem_initCalls.2 c) hc
  · intro t ht
    cases t with
    | main => exact absurd rfl ht
    | report | player x => rfl

/-- `main` does not come back to its first lines -/
theorem main_next {m : Mem} {p q : MainPc} (hp : ∀ todo, p ≠ .init todo) (hq : (mainCode p).next m = some q) :
    ∀ todo, q ≠ .init todo := by
  intro todo he
  subst he
  cases p with
  | init todo => exact hp todo rfl
  | testReached x =>
    simp only [mainCode, Instr.next] at hq
    split_ifs at hq <;> cases hq
  | release x | joinPlayer x => cases x <;> cases hq
  | _ => cases hq

theorem main_effect {m : Mem} {p : MainPc} (hp : ∀ todo, p ≠ .init todo) : (mainCode p).effect m = m := by
  cases p with
  | init todo => exact absurd rfl (hp todo)
  | release x | joinPlayer x => cases x <;> rfl
  | _ => rfl

/-- the other threads leave the flags alone -/
theorem player_effect (r : Race) (x : Player) (m : Mem) (p : PlayerPc x) :
    ((playerCode r x p).effect m).lockInit = m.lockInit ∧ ((playerCode r x p).effect m).condInit = m.condInit := by
  cases p with
  | block a b => cases b <;> exact ⟨rfl, rfl⟩
  | _ => exact ⟨rfl, rfl⟩

theorem report_effect (r : Race) (m : Mem) (p : ReportPc) :
    ((reportCode r p).effect m).lockInit = m.lockInit ∧ ((reportCode r p).effect m).condInit = m.condInit := by
  cases p with
  | release x | shutRelease x => cases x <;> exact ⟨rfl, rfl⟩
  | print =>
    simp only [reportCode, Instr.effect]
    split_ifs <;> exact ⟨rfl, rfl⟩
  | _ => exact ⟨rfl, rfl⟩

/-- one call of `lock_init` or `cond_init`, or the end of them -/
theorem InitProgress.init_step {r : Race} {s s' : RaceSt} {o : Op Thread} {todo : List (Lock ⊕ Cond)}
    (hp : s.pc .main = .init todo) (hr : s.mode .main = .run) (hl : ∀ l, .inl l ∉ todo → s.mem.lockInit l = true)
    (hc : ∀ c, .inr c ∉ todo → s.mem.condInit c = true) (hu : ∀ t, t ≠ .main → s.mode t = .unborn)
    (ho : o.thread = .main) (hm : Move (code r) s o s') : InitProgress s' := by
  have hact : ∀ f, mainCode (.init todo) = .act f → s' = { s.goto .main (f s.mem).2 with mem := (f s.mem).1 } := by
    intro f hf
    apply hm.of_act ho hr
    rw [hp]
    exact hf
  cases todo with
  | nil =>
    rw [hact _ rfl]
    refine .after ?_ (fun l => hl l (by simp)) (fun c => hc c (by simp))
    intro todo he
    rw [goto_pc_self] at he
    cases he
  | cons call todo =>
    cases call with
    | inl l =>
      rw [hact _ rfl]
      refine .during todo (by simp) hr ?_ (fun c hn => hc c (by simp [hn])) hu
      intro l' hn
      by_cases hll : l' = l
      · subst hll
        exact Function.update_self ..
      · exact (Function.update_of_ne hll ..).trans (hl l' (by simp [hll, hn]))
    | inr c =>
      rw [hact _ rfl]
      refine .during todo (by simp) hr (fun l hn => hl l (by simp [hn])) ?_ hu
      intro c' hn
      by_cases hcc : c' = c
      · subst hcc
        exact Function.update_self ..
      · exact (Function.update_of_ne hcc ..).trans (hc c' (by simp [hcc, hn]))

theorem InitProgress.step {r : Race} {s s' : RaceSt} {o : Op Thread} (h : InitProgress s) (hm : Move (code r) s o s') :
    InitProgress s' := by
  cases h with
  | during todo hp hr hl hc hu =>
    have ho : o.thread = .main := by
      by_contra ho
      exact hm.born (hu _ ho)
    exact .init_step hp hr hl hc hu ho hm
  | after hp hl hc =>
    have hflags : s'.mem.lockInit = s.mem.lockInit ∧ s'.mem.condInit = s.mem.condInit := by
      rcases hm.mem rfl with he | he
      · rw [he]
        exact ⟨rfl, rfl⟩
      · rw [he]
        match o.thread with
        | .main =>
          rw [show (code r .main (s.pc .main)).effect s.mem = s.mem from main_effect hp]
          exact ⟨rfl, rfl⟩
        | .report => exact report_effect r s.mem (s.pc .report)
        | .player x => exact player_effect r x s.mem (s.pc (.player x))
    refine .after ?_ (fun l => ?_) (fun c => ?_)
    · by_cases ho : o.thread = .main
      · rcases hm.pc_self ho with he | he
        · rw [he]
          exact hp
        · exact main_next hp he
      · rw [hm.pc_of_ne (Ne.symm ho)]
        exact hp
    · rw [hflags.1]
      exact hl l
    · rw [hflags.2]
      exact hc c

theorem initProgress {r : Race} {s : RaceSt} (hs : Reach (step (code r)) initial s) : InitProgress s :=
  hs.invariant initial_initProgress fun _ _ _ _ h _ hst => h.step (step_move hst)

/-! ## Main result -/

/-- a thread that releases, waits or signals owns the lock it names -/
theorem Owned.names {r : Race} {s : RaceSt} (h : Owned (code r) held s) {t : Thread} (hr : s.mode t = .run) {l : Lock}
    (hn : Names l (code r t (s.pc t))) : s.owner l = some t := by
  have hfits := disciplined r t (s.pc t)
  apply (h.owner l t).2
  refine ⟨hr, ?_⟩
  generalize code r t (s.pc t) = i at hn hfits
  cases i with
  | unlock l' q =>
    obtain rfl : l' = l := hn
    exact hfits.1
  | wait c l' q =>
    obtain rfl : l' = l := hn
    exact (hfits.1 l').2 rfl
  | signal c l' q =>
    obtain rfl : l' = l := hn
    exact hfits.1
  | _ => exact absurd hn id

theorem InitProgress.asserts {r : Race} {s : RaceSt} (h : InitProgress s) (ho : Owned (code r) held s) {t : Thread}
    (hr : s.mode t = .run) : Asserts s (code r t (s.pc t)) := by
  cases h with
  | during todo hp _ _ _ hu =>
    have ht : t = .main := by
      by_contra ht
      rw [hu t ht] at hr
      cases hr
    subst ht
    rw [hp]
    rcases todo with _ | ⟨_ | _, _⟩ <;> trivial
  | after hp hl hc =>
    have hnames := fun l => Owned.names ho hr (l := l)
    generalize code r t (s.pc t) = i at hnames
    cases i with
    | lock l q => exact hl l
    | unlock l q => exact ⟨hl l, by rw [hnames l rfl]; simp⟩
    | wait c l q => exact ⟨by rw [hnames l rfl]; simp, hc c, hl l⟩
    | signal c l q => exact ⟨by rw [hnames l rfl]; simp, hc c, hl l⟩
    | _ => trivial

/-- **Lock discipline.** In every reachable state of every race: a thread that is about to call a function of
cs_thread.h passes the checks there, and owns the lock itself that it releases, waits with or signals under; a thread
that goes to wait owns no other lock, and while it waits it owns none; and from a thread that is blocked in
`lock_acquire`, the owner of that lock, the owner of the lock that this one is blocked on, and so on, is in the end a
thread that can take a step: no thread comes back to itself in this way. -/
theorem race_lock_discipline (r : Race) {s : RaceSt} (hs : Reach (step (code r)) initial s) :
    (∀ t, s.mode t = .run → Asserts s (code r t (s.pc t)) ∧ ∀ l, Names l (code r t (s.pc t)) → s.owner l = some t) ∧
    (∀ t c l p, s.mode t = .run → code r t (s.pc t) = .wait c l p → ∀ l', s.owner l' = some t → l' = l) ∧
    (∀ t l, (∃ c, s.mode t = .waiting c) ∨ s.mode t = .woken → s.owner l ≠ some t) ∧
    (∀ t u, BlockedOn (code r) s t u →
      ∃ v, Relation.ReflTransGen (BlockedOn (code r) s) u v ∧ Enabled (code r) s v) ∧
    ∀ t, ¬ Relation.TransGen (BlockedOn (code r) s) t t := by
  have ho : Owned (code r) held s := (disciplined r).owned (initial_owned r) hs
  have hi := initProgress hs
  refine ⟨fun t hr => ⟨hi.asserts ho hr, fun l => Owned.names ho hr⟩, ?_, ?_, ?_, not_blocked_cycle (disciplined r) ho⟩
  · intro t c l p hr hc l' hl'
    have hheld := ((ho.owner l' t).1 hl').2
    exact (((disciplined r).fits hc).1 l').1 hheld
  · intro t l hw hl
    have hr := ((ho.owner l t).1 hl).1
    rcases hw with ⟨c, hw⟩ | hw
    · rw [hr] at hw
      cases hw
    · rw [hr] at hw
      cases hw
  · intro t u hb
    obtain ⟨l, p, -, -, hl⟩ := hb
    obtain ⟨v, l', hchain, -, he⟩ := owner_chain (disciplined r) lockRank_lt ho hl
    exact ⟨v, hchain, he⟩

/-- `main` is blocked on the lock that the Randomizer holds on its way to its first wait -/
theorem race_lock_discipline_example : ∃ s : RaceSt, Reach (step (code ⟨1, 1, 1, 1, 1, 100, []⟩)) initial s ∧
    s.mode .main = .run ∧ s.pc .main = .acquire .randomizer ∧
    ∃ v, Relation.ReflTransGen (BlockedOn (code ⟨1, 1, 1, 1, 1, 100, []⟩) s) (.player .randomizer) v ∧
      Enabled (code ⟨1, 1, 1, 1, 1, 100, []⟩) s v := by
  have hend : (run (step (code ⟨1, 1, 1, 1, 1, 100, []⟩)) initial
      (List.replicate 20 (.exec .main) ++ List.replicate 4 (.exec (.player .randomizer)))).map
      (fun s => (s.mode .main, (s.pc .main : MainPc), s.owner (.playerMain .randomizer))) =
        some (.run, .acquire .randomizer, some (.player .randomizer)) := by decide +kernel
  obtain ⟨s, hrun, he⟩ := Option.map_eq_some_iff.1 hend
  obtain ⟨hm, he⟩ := Prod.mk.inj he
  obtain ⟨hp, ho⟩ := Prod.mk.inj he
  have hs := reach_of_run hrun
  have hb : BlockedOn (code ⟨1, 1, 1, 1, 1, 100, []⟩) s .main (.player .randomizer) :=
    ⟨.playerMain .randomizer, .testReached .randomizer, hm, by rw [hp]; rfl, ho⟩
  exact ⟨s, hs, hm, hp, (race_lock_discipline ⟨1, 1, 1, 1, 1, 100, []⟩ hs).2.2.2.1 .main (.player .randomizer) hb⟩

end DecsLabs.HareTortoise
