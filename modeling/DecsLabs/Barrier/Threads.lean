/-
The barrier (assignment-2, 2_barrier, barrier.c) and its client threads, as code for the machine of `Core.Pthread`.

A client is a script of calls: `barrier_wait`, a `printf`, `pthread_create` and `pthread_join`. `barrier_wait` is
modelled statement by statement; `count` is only accessed with the mutex of the barrier held, so an update of it is one
step. The mutex of a barrier and its condition variable are named by the barrier.

- `client_step`: what a thread can do in one step.
- `disciplined`: the mutex of a barrier is taken on entry and released on return, and `barrier_wait` takes no other.
-/
import DecsLabs.Core.Discipline

namespace DecsLabs.Barrier

open DecsLabs.Transition DecsLabs.Pthread

variable {T B O : Type}

/-! ## Model -/

/-- `struct barrier_t`, without its mutex and its condition variable -/
structure BarrierT where
  threadCountInitial : ℤ
  count : ℤ
deriving DecidableEq, Repr

def barrierInit (nthreads : ℤ) : BarrierT := ⟨nthreads, nthreads⟩

inductive Cmd (T B O : Type) where
  /-- `barrier_wait(b)` -/
  | wait (b : B)
  | print (o : O)
  | create (t : T)
  | join (t : T)
deriving DecidableEq, Repr

def Cmd.isWait [DecidableEq B] (b : B) : Cmd T B O → Bool
  | .wait c => c = b
  | _ => false

/-- the statements of `barrier_wait` after it has locked the mutex -/
inductive Stage where
  | dec
  | test
  | wait
  | broadcast
  | reset
  | unlock
deriving DecidableEq, Repr

inductive Point (T B O : Type) where
  /-- before the first command of the rest of the script -/
  | ready (k : List (Cmd T B O))
  /-- in `barrier_wait(b)`, at the statement `p`, with `k` to do after the return -/
  | inside (b : B) (p : Stage) (k : List (Cmd T B O))
deriving DecidableEq, Repr

structure Mem (B O : Type) where
  barrier : B → BarrierT
  printed : List O

/-- `barrier_wait` -/
def barrierWait [DecidableEq B] (b : B) (k : List (Cmd T B O)) : Stage → Instr T B B (Mem B O) (Point T B O)
  | .dec => .act fun m =>
    ({ m with barrier := Function.update m.barrier b { m.barrier b with count := (m.barrier b).count - 1 } },
      .inside b .test k)
  | .test => .act fun m => (m, if (m.barrier b).count ≠ 0 then .inside b .wait k else .inside b .broadcast k)
  | .wait => .wait b b (.inside b .unlock k)
  | .broadcast => .broadcast b (.inside b .reset k)
  | .reset => .act fun m =>
    ({ m with barrier := Function.update m.barrier b { m.barrier b with count := (m.barrier b).threadCountInitial } },
      .inside b .unlock k)
  | .unlock => .unlock b (.ready k)

def clientCode [DecidableEq B] : Point T B O → Instr T B B (Mem B O) (Point T B O)
  | .ready [] => .exit
  | .ready (.wait b :: k) => .lock b (.inside b .dec k)
  | .ready (.print o :: k) => .act fun m => ({ m with printed := m.printed ++ [o] }, .ready k)
  | .ready (.create t :: k) => .create t (.ready k)
  | .ready (.join t :: k) => .join t (.ready k)
  | .inside b p k => barrierWait b k p

variable [DecidableEq B]

/-- the program in which every thread is a client -/
def code (T B O : Type) [DecidableEq B] : Code T B B (Mem B O) (fun _ : T => Point T B O) := fun _ => clientCode

abbrev ClientSt (T B O : Type) : Type := St T B B (Mem B O) (fun _ : T => Point T B O)

/-- every barrier `b` is initialised for `n b` threads; `script` says what the threads do, `mode` which of them run -/
def initial (n : B → ℕ) (script : T → List (Cmd T B O)) (mode : T → Mode B) : ClientSt T B O where
  mem := ⟨fun b => barrierInit (n b), []⟩
  pc t := .ready (script t)
  mode := mode
  owner _ := none

/-! ## Lock discipline -/

def held : Point T B O → List B
  | .ready _ => []
  | .inside b _ _ => [b]

theorem disciplined : Disciplined (code T B O) (fun _ => 0) (fun _ => held) := by
  intro t p
  simp only [code]
  cases p with
  | ready k =>
    cases k with
    | nil => simp [clientCode, Fits, held]
    | cons c k => cases c <;> simp [clientCode, Fits, held]
  | inside b p k =>
    cases p with
    | test =>
      simp only [clientCode, barrierWait, Fits]
      intro m l
      split_ifs <;> simp [held]
    | _ => simp [clientCode, barrierWait, Fits, held]

theorem initial_owned (n : B → ℕ) (script : T → List (Cmd T B O)) {mode : T → Mode B}
    (hm : ∀ t, mode t = .run ∨ mode t = .unborn) :
    Owned (code T B O) (fun _ => held) (initial n script mode) where
  owner l t := by simp [initial, held]
  unborn t _ := by simp [initial, held]
  atWait := ⟨fun t c h => by rcases hm t with e | e <;> simp [initial, e] at h,
    fun t h => by rcases hm t with e | e <;> simp [initial, e] at h⟩

/-! ## Steps -/

variable [DecidableEq T]

inductive ClientStep (s : ClientSt T B O) : ClientSt T B O → Prop
  | enter {t b k} (hr : s.mode t = .run) (hp : s.pc t = .ready (.wait b :: k)) (ho : s.owner b = none) :
    ClientStep s { s.goto t (.inside b .dec k) with owner := Function.update s.owner b (some t) }
  | dec {t b k} (hr : s.mode t = .run) (hp : s.pc t = .inside b .dec k) :
    ClientStep s { s.goto t (.inside b .test k) with mem := { s.mem with
      barrier := Function.update s.mem.barrier b
        { s.mem.barrier b with count := (s.mem.barrier b).count - 1 } } }
  | early {t b k} (hr : s.mode t = .run) (hp : s.pc t = .inside b .test k) (hc : (s.mem.barrier b).count ≠ 0) :
    ClientStep s (s.goto t (.inside b .wait k))
  | last {t b k} (hr : s.mode t = .run) (hp : s.pc t = .inside b .test k) (hc : (s.mem.barrier b).count = 0) :
    ClientStep s (s.goto t (.inside b .broadcast k))
  | sleep {t b k} (hr : s.mode t = .run) (hp : s.pc t = .inside b .wait k) :
    ClientStep s { s with
      owner := Function.update s.owner b none, mode := Function.update s.mode t (.waiting b) }
  | resume {t b k} (hm : s.mode t = .woken) (hp : s.pc t = .inside b .wait k) (ho : s.owner b = none) :
    ClientStep s { s.goto t (.inside b .unlock k) with
      owner := Function.update s.owner b (some t), mode := Function.update s.mode t .run }
  | broadcast {t b k} (hr : s.mode t = .run) (hp : s.pc t = .inside b .broadcast k) :
    ClientStep s { s.goto t (.inside b .reset k) with
      mode := fun u => if s.mode u = .waiting b then .woken else s.mode u }
  | reset {t b k} (hr : s.mode t = .run) (hp : s.pc t = .inside b .reset k) :
    ClientStep s { s.goto t (.inside b .unlock k) with mem := { s.mem with
      barrier := Function.update s.mem.barrier b
        { s.mem.barrier b with count := (s.mem.barrier b).threadCountInitial } } }
  | leave {t b k} (hr : s.mode t = .run) (hp : s.pc t = .inside b .unlock k) :
    ClientStep s { s.goto t (.ready k) with owner := Function.update s.owner b none }
  | print {t o k} (hr : s.mode t = .run) (hp : s.pc t = .ready (.print o :: k)) :
    ClientStep s { s.goto t (.ready k) with mem := { s.mem with printed := s.mem.printed ++ [o] } }
  | create {t u k} (hr : s.mode t = .run) (hp : s.pc t = .ready (.create u :: k)) (hu : s.mode u = .unborn) :
    ClientStep s { s.goto t (.ready k) with mode := Function.update s.mode u .run }
  | join {t u k} (hr : s.mode t = .run) (hp : s.pc t = .ready (.join u :: k)) (hu : s.mode u = .exited) :
    ClientStep s (s.goto t (.ready k))
  | exit {t} (hr : s.mode t = .run) (hp : s.pc t = .ready []) :
    ClientStep s { s with mode := Function.update s.mode t .exited }

variable [Fintype T]

/-- **Inversion.** -/
theorem client_step {s s' : ClientSt T B O} {o : Op T} (hns : NoSpurious s o) (h : step (code T B O) s o = some s') :
    ClientStep s s' := by
  cases o with
  | exec t =>
    simp only [step] at h
    split_ifs at h with hr
    cases hp : s.pc t with
    | ready k =>
      rcases k with _ | ⟨c | c | c | c, k⟩ <;> simp only [hp, code, clientCode, exec] at h
      · cases h; exact .exit hr hp
      · split_ifs at h with ho
        cases h; exact .enter hr hp ho
      · cases h; exact .print hr hp
      · split_ifs at h with hu
        cases h; exact .create hr hp hu
      · split_ifs at h with hu
        cases h; exact .join hr hp hu
    | inside b p k =>
      cases p <;> simp only [hp, code, clientCode, barrierWait, exec] at h
      case dec => cases h; exact .dec hr hp
      case test =>
        by_cases hc : (s.mem.barrier b).count = 0
        · simp only [hc, ne_eq, not_true_eq_false, if_false] at h
          cases h; exact .last hr hp hc
        · simp only [ne_eq, hc, not_false_eq_true, if_true] at h
          cases h; exact .early hr hp hc
      case wait => cases h; exact .sleep hr hp
      case broadcast => cases h; exact .broadcast hr hp
      case reset => cases h; exact .reset hr hp
      case unlock => cases h; exact .leave hr hp
  | wake t u =>
    cases hp : s.pc t with
    | ready k => rcases k with _ | ⟨c | c | c | c, k⟩ <;> simp [step, hp, code, clientCode] at h
    | inside b p k => cases p <;> simp [step, hp, code, clientCode, barrierWait] at h
  | resume t =>
    cases hp : s.pc t with
    | ready k => rcases k with _ | ⟨c | c | c | c, k⟩ <;> simp [step, hp, code, clientCode] at h
    | inside b p k =>
      cases p <;> simp [step, hp, code, clientCode, barrierWait] at h
      obtain ⟨⟨hm, ho⟩, rfl⟩ := h
      exact .resume hm hp ho
  | spurious t => exact absurd rfl (hns t)

end DecsLabs.Barrier
