/-
The turn-taking protocol of the race, an abstract model of the handshakes between the Reporter and the players. A player
is reduced to its role: it will test `no_winner` before it waits again, it is on its way to its wait, it is asleep, it
has been called, or it is in its turn. The Reporter keeps its program counter; locks and the main thread are gone.
`Refinement` proves that every step of the threads is a step of this protocol or changes nothing that it speaks about.

- `Inv`: only the player at whose handshake the Reporter stands is awake, unless the race is closing; the rest of its
  block leads from the current track to the track after the next turn.
- `Inv.step`: every step keeps `Inv`, those that lose a call included.
- `Paced.step`: in steps that lose no call, the Reporter never stands at the handshake of a player that is not awake,
  and nobody who has been dismissed goes back to sleep.
-/
import DecsLabs.Race.Steps

namespace DecsLabs.HareTortoise

open DecsLabs.Pthread

/-! ## Protocol -/

inductive Role (x : Player) : Type where
  /-- will test `no_winner` before it waits again, or has left -/
  | loose
  /-- has passed the test of `no_winner` and is on its way to its wait -/
  | coming
  | asleep
  /-- woken, and has not read the clock -/
  | called
  /-- has read the clock -/
  | timed
  | turn (acting : Bool) {h : List Lock} (b : PlayerBlock x h)

namespace Role

variable {x : Player}

def Awake : Role x → Prop
  | called | timed | turn _ _ => True
  | _ => False

def Timed : Role x → Prop
  | timed | turn _ _ => True
  | _ => False

def Acting : Role x → Prop
  | turn true _ => True
  | _ => False

end Role

@[ext]
structure View where
  report : ReportPc
  reportMode : Mode Cond
  role : ∀ x, Role x
  track : Track
  clockTick : ℤ
  currTime : Player → Int32

/-- the Reporter stands at the handshake of `x`: it has called `x` and has not been answered -/
def View.Engaged (v : View) (x : Player) : Prop :=
  v.report = .wait x ∧ (v.reportMode = .run ∨ v.reportMode = .waiting (.playerToReporter x))

def View.become (v : View) (x : Player) (ρ : Role x) : View := { v with role := Function.update v.role x ρ }

inductive ViewStep (r : Race) (v : View) : View → Prop
  -- the players
  | commit (x) (hρ : v.role x = .loose) (hw : v.track.noWinner ≠ 0) : ViewStep r v (v.become x .coming)
  | sleep (x) (hρ : v.role x = .coming) : ViewStep r v (v.become x .asleep)
  | clock (x) (hρ : v.role x = .called) :
    ViewStep r v { v.become x .timed with currTime := Function.update v.currTime x (currTimeAt v.clockTick) }
  | test (x) (hρ : v.role x = .timed) :
    ViewStep r v (v.become x
      (if v.track.noWinner ≠ 0 then .turn true (turnBlock r x (v.currTime x) v.track.arrayIndex)
        else .turn false (overBlock x)))
  | access (x) {a : Bool} {h h' : List Lock} {b : PlayerBlock x h} (b' : PlayerBlock x h') (t : Track)
    (hρ : v.role x = .turn a b) (he : b'.eval t = b.eval v.track)
    (hs : b.Silent v.track → b'.Silent t ∧ t = v.track) :
    ViewStep r v { v.become x (.turn a b') with track := t }
  | answer (x) {a : Bool} (hρ : v.role x = .turn a .done) (hp : v.report = .wait x)
    (hm : v.reportMode = .waiting (.playerToReporter x)) :
    ViewStep r v { v.become x .loose with reportMode := .woken }
  | drop (x) {a : Bool} (hρ : v.role x = .turn a .done) (he : ¬ v.Engaged x) : ViewStep r v (v.become x .loose)
  -- the Reporter
  | quiet {q} (hm : v.reportMode = .run) (hq : v.report.next r v.track.noWinner = some q) :
    ViewStep r v { v with report := q }
  | tick (hm : v.reportMode = .run) (hp : v.report = .clockInc) :
    ViewStep r v { v with report := .clockRelease, clockTick := v.clockTick + 1 }
  | call (x) (hm : v.reportMode = .run) (hp : v.report = .signal x) (hρ : v.role x = .asleep) :
    ViewStep r v { v.become x .called with report := .wait x }
  | miss (x) (hm : v.reportMode = .run) (hp : v.report = .signal x) (hρ : v.role x ≠ .asleep) :
    ViewStep r v { v with report := .wait x }
  | await (x) (hm : v.reportMode = .run) (hp : v.report = .wait x) :
    ViewStep r v { v with reportMode := .waiting (.playerToReporter x) }
  | resume (x) (hm : v.reportMode = .woken) (hp : v.report = .wait x) :
    ViewStep r v { v with report := .release x, reportMode := .run }
  | dismiss (x) (hm : v.reportMode = .run) (hp : v.report = .shutSignal x) (hρ : v.role x = .asleep) :
    ViewStep r v { v.become x .called with report := .shutRelease x }
  | dismissMiss (x) (hm : v.reportMode = .run) (hp : v.report = .shutSignal x) (hρ : v.role x ≠ .asleep) :
    ViewStep r v { v with report := .shutRelease x }
  | exit (hm : v.reportMode = .run) (hp : v.report = .exit) : ViewStep r v { v with reportMode := .exited }

/-! ## Turns -/

/-- the Reporter is shutting the players down, or has left -/
def ReportPc.Shut : ReportPc → Prop
  | .shutAcquire _ | .shutSignal _ | .shutRelease _ | .exit => True
  | _ => False

/-- as `Shut`, or at the loop test -/
def ReportPc.Closing (p : ReportPc) : Prop := p = .loopTest ∨ p.Shut

/-- between the increment of the clock and the test of `no_winner` at the end of the tick -/
def ReportPc.InTick : ReportPc → Prop
  | .clockRelease | .acquire _ | .signal _ | .wait _ | .release _ | .print | .crash => True
  | _ => False

/-- the number of turns completed when the Reporter stands at `p` in mode `m` and the clock at `t` -/
def turnsAt (p : ReportPc) (m : Mode Cond) (t : ℤ) : ℤ :=
  match p with
  | .clockRelease => 3 * t
  | .acquire x | .signal x => 3 * t + x.index
  | .wait x => 3 * t + x.index + if m = .woken then 1 else 0
  | .release x => 3 * t + x.index + 1
  | .print | .crash => 3 * t + 1
  | _ => 3 * (t + 1)

def View.turns (v : View) : ℕ := (turnsAt v.report v.reportMode v.clockTick).toNat

theorem ReportPc.next_turns {r : Race} {w : ℤ} {p q : ReportPc} (h : p.next r w = some q) (m : Mode Cond) (t : ℤ) :
    turnsAt q m t = turnsAt p m t := by
  unfold next at h
  split at h <;> simp only [Option.some.injEq, reduceCtorEq] at h <;> subst h
  all_goals try split_ifs
  all_goals simp only [turnsAt, index_randomizer, index_turtle, index_hare]
  all_goals push_cast
  all_goals try ring

/-! ## The invariant -/

/-- what a role of `x` says about the rest of the view -/
structure Seat (r : Race) (v : View) (x : Player) (ρ : Role x) : Prop where
  awake : ρ.Awake → v.Engaged x ∨ v.report.Closing ∧ v.track.noWinner = 0
  acting : ∀ {h : List Lock} {b : PlayerBlock x h}, ρ = .turn true b →
    v.Engaged x ∧ b.eval v.track = afterTurns r (v.turns + 1)
  passing : ∀ {h : List Lock} {b : PlayerBlock x h}, ρ = .turn false b → b.Silent v.track ∧ v.track.noWinner = 0
  timed : v.Engaged x → ρ.Timed → v.currTime x = currTimeAt v.clockTick

structure Inv (r : Race) (v : View) : Prop where
  seat : ∀ x, Seat r v x (v.role x)
  settled : (∀ x, ¬ (v.role x).Acting) → v.track = afterTurns r v.turns
  shut : v.report.Shut → v.track.noWinner = 0
  clock : -1 ≤ v.clockTick
  inTick : v.report.InTick → 0 ≤ v.clockTick

theorem Role.Acting.awake {x : Player} {ρ : Role x} (h : ρ.Acting) : ρ.Awake := by
  cases ρ <;> simp_all [Role.Acting, Role.Awake]

theorem Role.Timed.awake {x : Player} {ρ : Role x} (h : ρ.Timed) : ρ.Awake := by
  cases ρ <;> simp_all [Role.Timed, Role.Awake]

theorem Role.Acting.cases {x : Player} {ρ : Role x} (h : ρ.Acting) :
    ∃ (h : List Lock) (b : PlayerBlock x h), ρ = .turn true b := by
  cases ρ with
  | turn a b =>
    cases a with
    | true => exact ⟨_, b, rfl⟩
    | false => exact absurd h (by simp [Role.Acting])
  | _ => exact absurd h (by simp [Role.Acting])

theorem View.Engaged.unique {v : View} {x y : Player} (hx : v.Engaged x) (hy : v.Engaged y) : x = y := by
  have h := hx.1.symm.trans hy.1
  exact ReportPc.wait.inj h

theorem View.Engaged.not_closing {v : View} {x : Player} (hx : v.Engaged x) : ¬ v.report.Closing := by
  rw [hx.1]
  simp [ReportPc.Closing, ReportPc.Shut]

theorem View.Engaged.not_woken {v : View} {x : Player} (hx : v.Engaged x) : v.reportMode ≠ .woken := by
  rcases hx.2 with e | e <;> simp [e]

theorem View.not_engaged {v : View} (h : ∀ x, v.report ≠ .wait x) (x : Player) : ¬ v.Engaged x := fun he => h x he.1

@[simp] theorem become_role_self (v : View) (x : Player) (ρ : Role x) : (v.become x ρ).role x = ρ :=
  Function.update_self ..

theorem become_forall {v : View} {x : Player} {ρ : Role x} {p : ∀ y, Role y → Prop} :
    (∀ y, p y ((v.become x ρ).role y)) ↔ p x ρ ∧ ∀ y, y ≠ x → p y (v.role y) :=
  Function.forall_update_iff v.role fun y ρ => p y ρ

/-- a player that sleeps or is on its way says nothing -/
theorem Seat.of_not_awake {r : Race} {v : View} {x : Player} {ρ : Role x} (h : ¬ ρ.Awake) : Seat r v x ρ :=
  ⟨fun ha => absurd ha h, fun e => absurd (by rw [e]; trivial) h, fun e => absurd (by rw [e]; trivial) h,
    fun _ ht => absurd ht.awake h⟩

/-- a player outside its turn says where the Reporter stands -/
theorem Seat.of_no_turn {r : Race} {v : View} {x : Player} {ρ : Role x}
    (h : v.Engaged x ∨ v.report.Closing ∧ v.track.noWinner = 0)
    (ht : ∀ {a : Bool} {h : List Lock} {b : PlayerBlock x h}, ρ ≠ .turn a b)
    (hc : v.Engaged x → ρ.Timed → v.currTime x = currTimeAt v.clockTick) : Seat r v x ρ :=
  ⟨fun _ => h, fun e => absurd e ht, fun e => absurd e ht, hc⟩

theorem Seat.become {r : Race} {v : View} {x y : Player} {ρ : Role x} {σ : Role y} (h : Seat r v y σ) :
    Seat r (v.become x ρ) y σ := ⟨h.awake, h.acting, h.passing, h.timed⟩

namespace Inv

variable {r : Race} {v : View}

/-- whoever is awake while the Reporter stands at the handshake of `x` is `x` -/
theorem alone (h : Inv r v) {x y : Player} (hx : v.Engaged x) (hy : (v.role y).Awake) : y = x := by
  rcases (h.seat y).awake hy with he | ⟨hc, -⟩
  · exact he.unique hx
  · exact absurd hc hx.not_closing

theorem acting_engaged (h : Inv r v) {x : Player} (hx : (v.role x).Acting) : v.Engaged x := by
  obtain ⟨_, b, hb⟩ := hx.cases
  exact ((h.seat x).acting hb).1

/-- an awake player that is not acting leaves nobody to act -/
theorem nobody_acts (h : Inv r v) {x : Player} (hx : (v.role x).Awake) (hn : ¬ (v.role x).Acting) :
    ∀ y, ¬ (v.role y).Acting := by
  intro y hy
  have := h.alone (h.acting_engaged hy) hx
  subst this
  exact hn hy

/-- between two handshakes nobody acts, so the track is settled -/
theorem between (h : Inv r v) (hn : ∀ x, ¬ v.Engaged x) : v.track = afterTurns r v.turns :=
  h.settled fun x hx => hn x (h.acting_engaged hx)

/-- between the handshakes of a tick everybody is away -/
theorem away (h : Inv r v) (hn : ∀ x, ¬ v.Engaged x) (hc : ¬ v.report.Closing) (x : Player) : ¬ (v.role x).Awake := by
  intro hx
  rcases (h.seat x).awake hx with he | ⟨hcl, -⟩
  · exact hn x he
  · exact hc hcl

theorem afterTurns_engaged (h : Inv r v) {x : Player} (hx : v.Engaged x) :
    afterTurns r (v.turns + 1) = turn r x (currTimeAt v.clockTick) (afterTurns r v.turns) := by
  have h0 := h.inTick (by rw [hx.1]; trivial)
  obtain ⟨n, hn⟩ := Int.eq_ofNat_of_zero_le h0
  have hw := hx.not_woken
  have ht : v.turns = 3 * n + x.index := by
    simp only [View.turns, hx.1, turnsAt, hn, hw, if_false]
    omega
  rw [ht, afterTurns_index, hn]

/-! ## Every step keeps the invariant -/

/-- a player that is not acting takes a role outside the turn -/
theorem become (h : Inv r v) {x : Player} {ρ : Role x} (hn : ¬ (v.role x).Acting) (hρ : Seat r v x ρ) :
    Inv r (v.become x ρ) := by
  refine ⟨become_forall.2 ⟨hρ.become, fun y _ => (h.seat y).become⟩, fun hs => h.settled fun y hy => ?_, h.shut, h.clock,
    h.inTick⟩
  by_cases hyx : y = x
  · subst hyx; exact hn hy
  · exact (become_forall (p := fun y ρ => ¬ ρ.Acting).1 hs).2 y hyx hy

/-- the Reporter moves from a point outside the handshakes to another -/
theorem report (h : Inv r v) (hn : ∀ x, ¬ v.Engaged x) {p : ReportPc} {m : Mode Cond} {t : ℤ}
    (hc : v.report.Closing → v.track.noWinner = 0 → p.Closing)
    (hs : p.Shut → v.track.noWinner = 0) (hl : -1 ≤ t) (ht : p.InTick → 0 ≤ t)
    (hp : ∀ x, p ≠ .wait x) (hturns : turnsAt p m t = turnsAt v.report v.reportMode v.clockTick) :
    Inv r { v with report := p, reportMode := m, clockTick := t } := by
  refine ⟨fun x => ⟨fun hx => ?_, fun hb => absurd ((h.seat x).acting hb).1 (hn x), (h.seat x).passing,
    fun he => absurd he (View.not_engaged hp x)⟩, fun hset => ?_, hs, hl, ht⟩
  · rcases (h.seat x).awake hx with he | ⟨h1, h2⟩
    · exact absurd he (hn x)
    · exact .inr ⟨hc h1 h2, h2⟩
  · rw [View.turns, hturns]
    exact h.settled hset

/-- the Reporter calls `x`, whether `x` hears it or not -/
theorem engage (h : Inv r v) {x : Player} (hm : v.reportMode = .run) (hp : v.report = .signal x) {ρ : Role x}
    (hρ : ¬ ρ.Timed) : Inv r { v.become x ρ with report := .wait x } := by
  have hn : ∀ y, ¬ v.Engaged y := View.not_engaged (by simp [hp])
  have haway := h.away hn (by simp [hp, ReportPc.Closing, ReportPc.Shut])
  have hto : View.Engaged { v.become x ρ with report := .wait x } x := ⟨rfl, .inl hm⟩
  have hturns : View.turns { v.become x ρ with report := .wait x } = v.turns := by
    simp [View.turns, View.become, hp, turnsAt, hm]
  refine ⟨become_forall.2 ⟨.of_no_turn (.inl hto) ?_ fun _ ht => absurd ht hρ, fun y _ => .of_not_awake (haway y)⟩,
    fun _ => ?_, fun hs => absurd hs (by simp [ReportPc.Shut]), h.clock, fun _ => h.inTick (by rw [hp]; trivial)⟩
  · rintro a h b rfl
    exact hρ trivial
  · rw [hturns]
    exact h.between hn

theorem clocked (h : Inv r v) {x : Player} (hρ : v.role x = .called) :
    Inv r { v.become x .timed with currTime := Function.update v.currTime x (currTimeAt v.clockTick) } := by
  have hx : (v.role x).Awake := by rw [hρ]; trivial
  have hset := h.settled (h.nobody_acts hx (by rw [hρ]; simp [Role.Acting]))
  refine ⟨become_forall.2 ⟨.of_no_turn ((h.seat x).awake hx) (by simp) fun _ _ => by simp [View.become],
    fun y hyx => ?_⟩,
    fun _ => hset, h.shut, h.clock, h.inTick⟩
  refine ⟨(h.seat y).awake, (h.seat y).acting, (h.seat y).passing, fun he ht => ?_⟩
  simp only [Function.update_of_ne hyx]
  exact (h.seat y).timed he ht

/-- the test of `no_winner` after the read of the clock begins a turn: the next one, or one that writes nothing -/
theorem tested (h : Inv r v) (hr : r.Valid) {x : Player} (hρ : v.role x = .timed) :
    Inv r (v.become x (if v.track.noWinner ≠ 0 then .turn true (turnBlock r x (v.currTime x) v.track.arrayIndex)
      else .turn false (overBlock x))) := by
  have hx : (v.role x).Awake := by rw [hρ]; trivial
  have hn : ¬ (v.role x).Acting := by rw [hρ]; simp [Role.Acting]
  have ht : (v.role x).Timed := by rw [hρ]; trivial
  have hset := h.settled (h.nobody_acts hx hn)
  by_cases hw : v.track.noWinner = 0
  · rw [if_neg (by simp [hw])]
    refine h.become hn ⟨fun _ => (h.seat x).awake hx, by simp, ?_, fun he _ => (h.seat x).timed he ht⟩
    rintro h' b ⟨⟩
    refine ⟨overBlock_silent (r := r) ?_ x, hw⟩
    rw [hset]
    exact afterTurns_consistent hr _
  · rw [if_pos hw]
    have he : v.Engaged x := by
      rcases (h.seat x).awake hx with he | ⟨-, hw'⟩
      · exact he
      · exact absurd hw' hw
    refine h.become hn ⟨fun _ => .inl he, ?_, by simp, fun he _ => (h.seat x).timed he ht⟩
    rintro h' b ⟨⟩
    refine ⟨he, ?_⟩
    rw [turnBlock_eval, h.afterTurns_engaged he, ← hset, (h.seat x).timed he ht]
    simp [turn, hw]

/-- one access inside a turn -/
theorem accessed (h : Inv r v) {x : Player} {a : Bool} {h₁ h₂ : List Lock} {b : PlayerBlock x h₁}
    {b' : PlayerBlock x h₂} {t : Track} (hρ : v.role x = .turn a b) (he : b'.eval t = b.eval v.track)
    (hs : b.Silent v.track → b'.Silent t ∧ t = v.track) : Inv r { v.become x (.turn a b') with track := t } := by
  have hx : (v.role x).Awake := by rw [hρ]; trivial
  have ht : (v.role x).Timed := by rw [hρ]; trivial
  cases a with
  | true =>
    obtain ⟨heng, hev⟩ := (h.seat x).acting hρ
    refine ⟨become_forall.2 ⟨⟨fun _ => .inl heng, ?_, by simp, fun _ _ => (h.seat x).timed heng ht⟩,
      fun y hyx => .of_not_awake fun hy => hyx (h.alone heng hy)⟩, fun hset => ?_,
      fun hs => absurd (.inr hs) heng.not_closing, h.clock, h.inTick⟩
    · rintro h' c ⟨⟩
      exact ⟨heng, he.trans hev⟩
    · exact absurd (by simp only [become_role_self]; trivial) (hset x)
  | false =>
    obtain ⟨hb, hw⟩ := (h.seat x).passing hρ
    obtain ⟨hb', rfl⟩ := hs hb
    refine h.become (by rw [hρ]; simp [Role.Acting]) ⟨fun _ => (h.seat x).awake hx, by simp, ?_,
      fun he _ => (h.seat x).timed he ht⟩
    rintro h' c ⟨⟩
    exact ⟨hb', hw⟩

/-- the answer of `x` ends a turn, and the Reporter has been woken -/
theorem answered (h : Inv r v) (hr : r.Valid) {x : Player} {a : Bool} (hρ : v.role x = .turn a .done)
    (hp : v.report = .wait x) (hm : v.reportMode = .waiting (.playerToReporter x)) :
    Inv r { v.become x .loose with reportMode := .woken } := by
  have he : v.Engaged x := ⟨hp, .inr hm⟩
  have hx : (v.role x).Awake := by rw [hρ]; trivial
  have h0 := h.inTick (by rw [hp]; trivial)
  have hturns : View.turns { v.become x .loose with reportMode := .woken } = v.turns + 1 := by
    simp only [View.turns, View.become, hp, turnsAt, hm, reduceCtorEq, if_true, if_false]
    omega
  refine ⟨become_forall.2 ⟨.of_not_awake (by simp [Role.Awake]), fun y hyx =>
    .of_not_awake fun hy => hyx (h.alone he hy)⟩, fun _ => ?_, h.shut, h.clock, h.inTick⟩
  rw [hturns]
  cases a with
  | true => exact ((h.seat x).acting hρ).2
  | false =>
    have hw := ((h.seat x).passing hρ).2
    have hset := h.settled (h.nobody_acts hx (by rw [hρ]; simp [Role.Acting]))
    rw [h.afterTurns_engaged he, ← hset]
    exact (turn_over (hset ▸ afterTurns_consistent hr _) hw _ _).symm

theorem quiet (h : Inv r v) {q : ReportPc} (hq : v.report.next r v.track.noWinner = some q) :
    Inv r { v with report := q } := by
  have hn : ∀ x, ¬ v.Engaged x := View.not_engaged fun x e => by simp [e, ReportPc.next] at hq
  have hs := h.shut
  have ht := h.inTick
  suffices hall : (v.report.Closing → v.track.noWinner = 0 → q.Closing) ∧ (q.Shut → v.track.noWinner = 0) ∧
      (q.InTick → 0 ≤ v.clockTick) ∧ ∀ x, q ≠ .wait x from
    h.report hn hall.1 hall.2.1 h.clock hall.2.2.1 hall.2.2.2 (ReportPc.next_turns hq _ _)
  generalize v.report = p at hq hs ht ⊢
  unfold ReportPc.next at hq
  split at hq <;> simp only [Option.some.injEq, reduceCtorEq] at hq <;> subst hq
  all_goals try split_ifs
  all_goals simp_all [ReportPc.Closing, ReportPc.Shut, ReportPc.InTick]

/-- **Every step keeps the invariant**, the steps that lose a call included. -/
theorem step (h : Inv r v) (hr : r.Valid) {v' : View} (hs : ViewStep r v v') : Inv r v' := by
  cases hs with
  | commit x hρ hw => exact h.become (by rw [hρ]; simp [Role.Acting]) (.of_not_awake (by simp [Role.Awake]))
  | sleep x hρ => exact h.become (by rw [hρ]; simp [Role.Acting]) (.of_not_awake (by simp [Role.Awake]))
  | clock x hρ => exact h.clocked hρ
  | test x hρ => exact h.tested hr hρ
  | access x b' t hρ he hs => exact h.accessed hρ he hs
  | answer x hρ hp hm => exact h.answered hr hρ hp hm
  | drop x hρ he =>
    exact h.become (fun ha => he (h.acting_engaged ha)) (.of_not_awake (by simp [Role.Awake]))
  | quiet hm hq => exact h.quiet hq
  | tick hm hp =>
    have hl := h.clock
    refine h.report (View.not_engaged (by simp [hp])) ?_ ?_ (by omega) (fun _ => by omega) (by simp) ?_
    · simp [hp, ReportPc.Closing, ReportPc.Shut]
    · simp [ReportPc.Shut]
    · simp [hp, turnsAt]
  | call x hm hp hρ => exact h.engage hm hp (by simp [Role.Timed])
  | miss x hm hp hρ =>
    have haway := h.away (View.not_engaged (by simp [hp])) (by simp [hp, ReportPc.Closing, ReportPc.Shut]) x
    have := h.engage hm hp (x := x) (ρ := v.role x) fun ht => haway ht.awake
    simpa only [View.become, Function.update_eq_self] using this
  | await x hm hp =>
    have he : v.Engaged x := ⟨hp, .inl hm⟩
    have heng : ∀ y, View.Engaged { v with reportMode := .waiting (.playerToReporter x) } y ↔ v.Engaged y := by
      intro y
      constructor
      · rintro ⟨h1, -⟩; exact ⟨h1, .inl hm⟩
      · rintro ⟨h1, -⟩
        obtain rfl : x = y := ReportPc.wait.inj (hp.symm.trans h1)
        exact ⟨hp, .inr rfl⟩
    have hturns : View.turns { v with reportMode := .waiting (.playerToReporter x) } = v.turns := by
      simp [View.turns, hp, turnsAt, hm]
    refine ⟨fun y => ⟨?_, fun hb => ?_, (h.seat y).passing, ?_⟩, ?_, h.shut, h.clock, h.inTick⟩
    · simpa only [heng] using (h.seat y).awake
    · simpa only [heng, hturns] using (h.seat y).acting hb
    · simpa only [heng] using (h.seat y).timed
    · simpa only [hturns] using h.settled
  | resume x hm hp =>
    refine h.report (fun y he => he.not_woken hm) ?_ ?_ h.clock ?_ (by simp) ?_
    · simp [hp, ReportPc.Closing, ReportPc.Shut]
    · simp [ReportPc.Shut]
    · exact fun _ => h.inTick (by rw [hp]; trivial)
    · simp [hp, hm, turnsAt]
  | dismiss x hm hp hρ =>
    have hw := h.shut (by rw [hp]; trivial)
    have h1 : Inv r (v.become x .called) := by
      refine h.become (by rw [hρ]; simp [Role.Acting]) (.of_no_turn (.inr ⟨.inr (by rw [hp]; trivial), hw⟩) (by simp) ?_)
      simp [Role.Timed]
    refine h1.report (View.not_engaged (by simp [View.become, hp])) ?_ (fun _ => hw) h.clock ?_ (by simp) ?_
    · exact fun _ _ => .inr trivial
    · simp [ReportPc.InTick]
    · simp [View.become, hp, turnsAt]
  | dismissMiss x hm hp hρ =>
    refine h.report (View.not_engaged (by simp [hp])) ?_ (fun _ => h.shut (by rw [hp]; trivial)) h.clock ?_ (by simp) ?_
    · exact fun _ _ => .inr trivial
    · simp [ReportPc.InTick]
    · simp [hp, turnsAt]
  | exit hm hp =>
    refine h.report (View.not_engaged (by simp [hp])) (fun hc _ => hc) h.shut h.clock h.inTick (by simp [hp]) ?_
    simp [hp, turnsAt]

/-- **Completed turns.** The steps that wake the Reporter complete a turn, and no others do. -/
theorem turns_step (h : Inv r v) {v' : View} (hs : ViewStep r v v') :
    v'.turns = v.turns + if v.reportMode ≠ .woken ∧ v'.reportMode = .woken then 1 else 0 := by
  cases hs with
  | answer x hρ hp hm =>
    have h0 := h.inTick (by rw [hp]; trivial)
    simp only [View.turns, View.become, hp, turnsAt, hm, ne_eq, reduceCtorEq, not_false_eq_true, and_self, if_true,
      if_false]
    omega
  | quiet hm hq => simp [View.turns, ReportPc.next_turns hq, hm]
  | tick hm hp => simp [View.turns, turnsAt, hm, hp]
  | await x hm hp => simp [View.turns, turnsAt, hm, hp]
  | resume x hm hp => simp [View.turns, turnsAt, hm, hp]
  | exit hm hp => simp [View.turns, turnsAt, hm, hp]
  | call x hm hp hρ | miss x hm hp hρ | dismiss x hm hp hρ | dismissMiss x hm hp hρ =>
    simp [View.turns, View.become, turnsAt, hm, hp]
  | _ => simp [View.turns, View.become]

end Inv

/-! ## Steps that lose no call -/

/-- the Reporter has sent the shutdown signal to `x` -/
def View.Dismissed (v : View) (x : Player) : Prop :=
  match v.report with
  | .shutRelease y => x.index ≤ y.index
  | .shutAcquire y | .shutSignal y => x.index < y.index
  | .loopTest => v.track.noWinner = 0
  | .exit => True
  | _ => False

/-- those that are dismissed with `x` were dismissed before it -/
theorem View.Dismissed.before {v v' : View} {x y : Player} (hd : v'.Dismissed y) (hyx : y ≠ x)
    (hp : v.report = .shutSignal x) (hp' : v'.report = .shutRelease x) : v.Dismissed y := by
  simp only [View.Dismissed, hp, hp'] at hd ⊢
  exact lt_of_le_of_ne hd (Player.index_ne hyx).symm

structure Paced (v : View) : Prop where
  engaged : ∀ x, v.Engaged x → (v.role x).Awake
  dismissed : ∀ x, v.Dismissed x → v.role x ≠ .coming ∧ v.role x ≠ .asleep

/-- the step does not call a player that is not asleep, nor dismiss one that is on its way to its wait -/
structure Heard (v v' : View) : Prop where
  call : ∀ x, v.report = .signal x → v'.report = .wait x → v.role x = .asleep
  dismiss : ∀ x, v.report = .shutSignal x → v'.report = .shutRelease x → v.role x ≠ .coming

theorem View.Dismissed.over {r : Race} {v : View} (h : Inv r v) {x : Player} (hd : v.Dismissed x) :
    v.track.noWinner = 0 := by
  have hs := h.shut
  unfold View.Dismissed at hd
  split at hd <;> simp_all [ReportPc.Shut]

namespace Paced

variable {r : Race} {v : View}

/-- a player takes a role in which it is awake, or leaves the handshake -/
theorem become (h : Paced v) {x : Player} {ρ : Role x} (ha : v.Engaged x → ρ.Awake)
    (hd : v.Dismissed x → ρ ≠ .coming ∧ ρ ≠ .asleep) : Paced (v.become x ρ) :=
  ⟨become_forall (p := fun y σ => v.Engaged y → σ.Awake).2 ⟨ha, fun y _ => h.engaged y⟩,
    become_forall (p := fun y σ => v.Dismissed y → σ ≠ .coming ∧ σ ≠ .asleep).2 ⟨hd, fun y _ => h.dismissed y⟩⟩

/-- the Reporter moves, and dismisses nobody by it that may still sleep -/
theorem report (h : Paced v) {p : ReportPc} {m : Mode Cond} {t : ℤ}
    (he : ∀ x, View.Engaged { v with report := p, reportMode := m, clockTick := t } x → (v.role x).Awake)
    (hd : ∀ x, View.Dismissed { v with report := p, reportMode := m, clockTick := t } x → v.Dismissed x) :
    Paced { v with report := p, reportMode := m, clockTick := t } :=
  ⟨he, fun x hx => h.dismissed x (hd x hx)⟩

theorem quiet (h : Paced v) {q : ReportPc} (hq : v.report.next r v.track.noWinner = some q) :
    Paced { v with report := q } := by
  have hn : ∀ x, q ≠ .wait x := by
    intro x e
    unfold ReportPc.next at hq
    split at hq <;> simp [e] at hq <;> split_ifs at hq
  refine h.report (fun x he => absurd he.1 (hn x)) fun x hd => ?_
  have hx := x.index_lt
  simp only [View.Dismissed] at hd ⊢
  generalize v.report = p at hq ⊢
  unfold ReportPc.next at hq
  split at hq <;> simp only [Option.some.injEq, reduceCtorEq] at hq <;> subst hq
  all_goals try split_ifs at hd
  all_goals simp_all [Player.index]
  all_goals try omega

/-- **Steps that lose no call keep the pace.** -/
theorem step (h : Paced v) (hi : Inv r v) {v' : View} (hs : ViewStep r v v') (hok : Heard v v') : Paced v' := by
  cases hs with
  | commit x hρ hw =>
    refine h.become (fun he => absurd (h.engaged x he) (by rw [hρ]; simp [Role.Awake])) fun hd => ?_
    exact absurd (hd.over hi) hw
  | sleep x hρ =>
    refine h.become (fun he => absurd (h.engaged x he) (by rw [hρ]; simp [Role.Awake])) fun hd => ?_
    exact absurd hρ (h.dismissed x hd).1
  | clock x hρ =>
    have := h.become (x := x) (ρ := .timed) (fun _ => trivial) (fun _ => by simp)
    exact ⟨this.engaged, this.dismissed⟩
  | test x hρ =>
    refine h.become (fun _ => ?_) (fun _ => ?_)
    · split_ifs <;> trivial
    · split_ifs <;> simp
  | @access x a h₁ h₂ b b' t hρ he hs =>
    have hp := h.become (x := x) (ρ := .turn a b') (fun _ => trivial) (fun _ => by simp)
    refine ⟨hp.engaged, fun y hd => hp.dismissed y ?_⟩
    -- at the loop test nobody acts, so the access has not written
    simp only [View.Dismissed, View.become] at hd ⊢
    split at hd <;> simp_all
    cases a with
    | true =>
      have := ((hi.seat x).acting hρ).1.1
      simp_all
    | false => exact ((hi.seat x).passing hρ).2
  | answer x hρ hp hm =>
    refine ⟨fun y he => absurd he.2 (by simp), fun y hd => ?_⟩
    simp [View.Dismissed, View.become, hp] at hd
  | drop x hρ he => exact h.become (fun he' => absurd he' he) fun _ => by simp
  | quiet hm hq => exact h.quiet hq
  | tick hm hp => exact h.report (fun x he => absurd he.1 (by simp)) fun x hd => absurd hd (by simp [View.Dismissed])
  | call x hm hp hρ =>
    have hto : ∀ y, View.Engaged { v.become x .called with report := .wait x } y → y = x := fun y he =>
      (ReportPc.wait.inj he.1).symm
    refine ⟨fun y he => ?_, fun y hd => absurd hd (by simp [View.Dismissed])⟩
    rw [hto y he]
    simp only [become_role_self]
    trivial
  | miss x hm hp hρ => exact absurd (hok.call x hp rfl) hρ
  | await x hm hp =>
    refine h.report (fun y he => h.engaged y ?_) fun y hd => hd
    exact ⟨he.1, .inl hm⟩
  | resume x hm hp => exact h.report (fun y he => absurd he.1 (by simp)) fun y hd => absurd hd (by simp [View.Dismissed])
  | dismiss x hm hp hρ =>
    refine ⟨fun y he => absurd he.1 (by simp), fun y hd => ?_⟩
    by_cases hyx : y = x
    · subst hyx; simp
    · simp only [View.become, Function.update_of_ne hyx]
      exact h.dismissed y (hd.before hyx hp rfl)
  | dismissMiss x hm hp hρ =>
    refine ⟨fun y he => absurd he.1 (by simp), fun y hd => ?_⟩
    by_cases hyx : y = x
    · subst hyx; exact ⟨hok.dismiss y hp rfl, hρ⟩
    · exact h.dismissed y (hd.before hyx hp rfl)
  | exit hm hp => exact h.report (fun y he => absurd he.2 (by simp)) fun y _ => by simp [View.Dismissed, hp]

end Paced

end DecsLabs.HareTortoise
