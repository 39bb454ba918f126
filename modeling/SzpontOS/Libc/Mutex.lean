import Mathlib.Logic.Function.Basic
import SzpontOS.Lib.Run

/-!
# Mutexes (`libc/src/pthread/mutex.c`) on futexes (`kernel/src/sched/futex.c`)

A mutex is one word: 0 free, 1 taken, 2 taken with possible sleepers. Every access to it is an atomic step of its own,
and so is each call of the kernel: `FUTEX_WAIT` puts the caller to sleep if the word still has the expected value,
`FUTEX_WAKE` lets the first sleepers go on. A run interleaves the steps of any number of threads (`Step`).

While somebody holds the mutex its word is not 0. No wake-up is lost, because while threads sleep the word is 2, or the
thread that is giving the mutex back has not called `FUTEX_WAKE` yet, or a thread is about to exchange the word for 2
(`Inv.wake`). Each of these leads to the next one.
-/

namespace SzpontOS.Libc

open Lib Relation List

/-! ## The kernel's part -/

/-- `futex_wait` without a timeout: the caller is added at the tail of the sleepers of the word, or gets `EAGAIN`
(`none`) when the word has changed. -/
def futexWait {T : Type*} (word val : Int) (sleepers : List T) (t : T) : Option (List T) :=
  if word ≠ val then none else some (sleepers ++ [t])

/-- `futex_wake`: the threads that are woken, and those that sleep on. -/
def futexWake {T : Type*} (sleepers : List T) (count : Nat) : List T × List T :=
  (sleepers.take count, sleepers.drop count)

/-! ## The library's part -/

inductive MutexType where
  | normal
  | recursive
  | errorCheck
  deriving DecidableEq, Repr

structure Mutex where
  lock : Int
  type : MutexType
  owner : Int
  count : Int
  deriving DecidableEq, Repr

def mutexInit (type : MutexType) : Mutex := ⟨0, type, 0, 0⟩

inductive Pc where
  /-- outside -/
  | idle
  /-- at the start of `pthread_mutex_lock` -/
  | lockEntry
  /-- `c = __sync_val_compare_and_swap(&mutex->lock, 0, 1)` -/
  | lockCas
  /-- `c = __sync_lock_test_and_set(&mutex->lock, 2)` -/
  | exchange
  /-- `futex_wait(&mutex->lock, 2, NULL)` -/
  | wait
  /-- blocked in the kernel -/
  | asleep
  /-- `mutex->owner = (int)me` -/
  | setOwner
  /-- `mutex->count = 1` -/
  | setCount
  /-- at the start of `pthread_mutex_trylock` -/
  | tryEntry
  /-- `__sync_bool_compare_and_swap(&mutex->lock, 0, 1)` -/
  | tryCas
  /-- at the start of `pthread_mutex_unlock` -/
  | unlockEntry
  /-- `mutex->owner = 0` -/
  | clearOwner
  /-- `mutex->count = 0` -/
  | clearCount
  /-- `__sync_fetch_and_sub(&mutex->lock, 1) != 1` -/
  | fetchSub
  /-- `mutex->lock = 0` -/
  | storeZero
  /-- `futex_wake(&mutex->lock, 1)` -/
  | wake
  deriving DecidableEq, Repr

/-- A thread: where it is, and how many of its successful locks it has not undone. -/
structure Thread where
  pc : Pc
  held : Nat
  deriving DecidableEq, Repr

/-- The next step of a thread with identifier `me` in the code of the library. Outside the code and in the kernel a
thread takes no such step. -/
def exec (me : Int) (m : Mutex) (th : Thread) : Mutex × Thread :=
  match th.pc with
  | .lockEntry =>
    if m.type = .recursive ∧ m.owner = me then ({ m with count := m.count + 1 }, ⟨.idle, th.held + 1⟩)
    else (m, { th with pc := .lockCas })
  | .lockCas =>
    -- Fast path: 0 -> 1
    if m.lock = 0 then ({ m with lock := 1 }, ⟨.setOwner, th.held + 1⟩)
    else if m.lock ≠ 2 then (m, { th with pc := .exchange })
    else (m, { th with pc := .wait })
  | .exchange =>
    if m.lock ≠ 0 then ({ m with lock := 2 }, { th with pc := .wait })
    else ({ m with lock := 2 }, ⟨.setOwner, th.held + 1⟩)
  | .setOwner => ({ m with owner := me }, { th with pc := .setCount })
  | .setCount => ({ m with count := 1 }, { th with pc := .idle })
  | .tryEntry =>
    if m.type = .recursive ∧ m.owner = me then ({ m with count := m.count + 1 }, ⟨.idle, th.held + 1⟩)
    else (m, { th with pc := .tryCas })
  | .tryCas =>
    if m.lock = 0 then ({ m with lock := 1 }, ⟨.setOwner, th.held + 1⟩)
    else (m, { th with pc := .idle }) -- EBUSY
  | .unlockEntry =>
    if m.type = .recursive then
      if m.owner ≠ me then (m, { th with pc := .idle }) -- EPERM
      else if m.count - 1 > 0 then ({ m with count := m.count - 1 }, ⟨.idle, th.held - 1⟩)
      else ({ m with count := m.count - 1 }, { th with pc := .clearOwner })
    else (m, { th with pc := .clearOwner })
  | .clearOwner => ({ m with owner := 0 }, { th with pc := .clearCount })
  | .clearCount => ({ m with count := 0 }, { th with pc := .fetchSub })
  | .fetchSub =>
    -- Fast path: 1 -> 0
    if m.lock ≠ 1 then ({ m with lock := m.lock - 1 }, { th with pc := .storeZero })
    else ({ m with lock := m.lock - 1 }, ⟨.idle, th.held - 1⟩)
  | .storeZero => ({ m with lock := 0 }, ⟨.wake, th.held - 1⟩)
  | .idle | .wait | .asleep | .wake => (m, th)

/-! ## Runs -/

structure World (T : Type*) where
  mutex : Mutex
  /-- the threads that sleep on the word, first come first -/
  sleepers : List T
  thread : T → Thread

namespace World

variable {T : Type*} [DecidableEq T]

def after (w : World T) (t : T) (m : Mutex) (th : Thread) : World T :=
  { w with mutex := m, thread := Function.update w.thread t th }

/-- `t` goes on at `pc`. -/
def goto (w : World T) (t : T) (pc : Pc) : World T := w.after t w.mutex { w.thread t with pc := pc }

def start (type : MutexType) : World T := ⟨mutexInit type, [], fun _ => ⟨.idle, 0⟩⟩

/-- The threads `ts` come back from `FUTEX_WAIT`. -/
def release (w : World T) (ts : List T) : World T := ts.foldl (fun w t => w.goto t .exchange) w

end World

open World in
/-- One step of one thread. A thread calls the functions in any order, but unlocks only what it holds; `me` gives each
thread its identifier. -/
inductive Step {T : Type*} [DecidableEq T] (me : T → Int) (w : World T) : World T → Prop where
  | lock (t : T) (hidle : (w.thread t).pc = .idle) : Step me w (w.goto t .lockEntry)
  | trylock (t : T) (hidle : (w.thread t).pc = .idle) : Step me w (w.goto t .tryEntry)
  | unlock (t : T) (hidle : (w.thread t).pc = .idle) (hheld : 0 < (w.thread t).held) : Step me w (w.goto t .unlockEntry)
  | exec (t : T) : Step me w (w.after t (exec (me t) w.mutex (w.thread t)).1 (exec (me t) w.mutex (w.thread t)).2)
  | sleep (t : T) (hwait : (w.thread t).pc = .wait) (ts : List T)
      (hsleep : futexWait w.mutex.lock 2 w.sleepers t = some ts) :
      Step me w { w.goto t .asleep with sleepers := ts }
  | again (t : T) (hwait : (w.thread t).pc = .wait) (hagain : futexWait w.mutex.lock 2 w.sleepers t = none) :
      Step me w (w.goto t .exchange)
  | wake (t : T) (hwake : (w.thread t).pc = .wake) :
      Step me w { (w.goto t .idle).release (futexWake w.sleepers 1).1 with sleepers := (futexWake w.sleepers 1).2 }

/-! ## What a step of the code can do -/

/-- The places at which a thread holds the mutex. -/
def Pc.inside : Pc → Bool
  | .setOwner | .setCount | .unlockEntry | .clearOwner | .clearCount | .fetchSub | .storeZero => true
  | _ => false

/-- A thread that is giving the mutex back and will call `FUTEX_WAKE`. -/
def Pc.waking : Pc → Bool
  | .storeZero | .wake => true
  | _ => false

/-- A thread that will take the mutex or leave the word 2. -/
def Pc.testing : Pc → Bool
  | .exchange => true
  | _ => false

theorem Pc.waking_iff (pc : Pc) : pc.waking = true ↔ pc = .storeZero ∨ pc = .wake := by
  cases pc <;> simp [Pc.waking]

theorem Pc.testing_iff (pc : Pc) : pc.testing = true ↔ pc = .exchange := by
  cases pc <;> simp [Pc.testing]

/-- A step of a thread inside the code of a normal mutex, by its effect on the word and on the thread. -/
inductive Effect (m m' : Mutex) (th th' : Thread) : Prop where
  | quiet (hlock : m'.lock = m.lock) (hheld : th'.held = th.held)
      (hinside : th'.pc.inside = true → th.pc.inside = true) (hwaking : th.pc.waking = true → th'.pc.waking = true)
      (htesting : th.pc.testing = true → th'.pc.testing = true) (hasleep : th.pc = .asleep ↔ th'.pc = .asleep)
  | acquire (hfree : m.lock = 0) (hlock : m'.lock = 2 ∨ m'.lock = 1 ∧ th.pc.testing = false)
      (hheld : th'.held = th.held + 1) (hwaking : th.pc.waking = false) (hawake : th.pc ≠ .asleep)
      (hawake' : th'.pc ≠ .asleep)
  | mark (htaken : m.lock ≠ 0) (hlock : m'.lock = 2) (hheld : th'.held = th.held) (hpc : th.pc = .exchange)
      (hpc' : th'.pc = .wait)
  | giveBack (hone : m.lock = 1) (hlock : m'.lock = 0) (hpc : th.pc = .fetchSub) (hth : th' = ⟨.idle, th.held - 1⟩)
  | contended (hmany : m.lock ≠ 1) (hlock : m'.lock = m.lock - 1) (hpc : th.pc = .fetchSub)
      (hth : th' = { th with pc := .storeZero })
  | clear (hlock : m'.lock = 0) (hpc : th.pc = .storeZero) (hth : th' = ⟨.wake, th.held - 1⟩)

theorem exec_effect (me : Int) (m : Mutex) (th : Thread) (hnormal : m.type = .normal) :
    (exec me m th).1.type = .normal ∧ Effect m (exec me m th).1 th (exec me m th).2 := by
  have hrec : m.type ≠ .recursive := by
    rw [hnormal]
    decide
  obtain ⟨pc, held⟩ := th
  cases pc
  case lockEntry =>
    rw [exec]
    rw [if_neg (fun h => hrec h.1)]
    exact ⟨hnormal, .quiet rfl rfl id id id (by simp)⟩
  case lockCas =>
    rw [exec]
    dsimp only
    by_cases h0 : m.lock = 0
    · rw [if_pos h0]
      exact ⟨hnormal, .acquire h0 (.inr ⟨rfl, rfl⟩) rfl rfl (by simp) (by simp)⟩
    · split_ifs
      · exact ⟨hnormal, .quiet rfl rfl id id (by simp [Pc.testing]) (by simp)⟩
      · exact ⟨hnormal, .quiet rfl rfl id id id (by simp)⟩
  case exchange =>
    rw [exec]
    by_cases h0 : m.lock = 0
    · rw [if_neg (not_not.mpr h0)]
      exact ⟨hnormal, .acquire h0 (.inl rfl) rfl rfl (by simp) (by simp)⟩
    · rw [if_pos h0]
      exact ⟨hnormal, .mark h0 rfl rfl rfl rfl⟩
  case tryEntry =>
    rw [exec]
    dsimp only
    rw [if_neg (fun h => hrec h.1)]
    exact ⟨hnormal, .quiet rfl rfl id id id (by simp)⟩
  case tryCas =>
    rw [exec]
    dsimp only
    by_cases h0 : m.lock = 0
    · rw [if_pos h0]
      exact ⟨hnormal, .acquire h0 (.inr ⟨rfl, rfl⟩) rfl rfl (by simp) (by simp)⟩
    · rw [if_neg h0]
      exact ⟨hnormal, .quiet rfl rfl id id id (by simp)⟩
  case unlockEntry =>
    rw [exec]
    rw [if_neg hrec]
    exact ⟨hnormal, .quiet rfl rfl id id id (by simp)⟩
  case fetchSub =>
    rw [exec]
    by_cases h1 : m.lock = 1
    · rw [if_neg (not_not.mpr h1)]
      refine ⟨hnormal, .giveBack h1 ?_ rfl rfl⟩
      show m.lock - 1 = 0
      omega
    · rw [if_pos h1]
      exact ⟨hnormal, .contended h1 rfl rfl rfl⟩
  case storeZero => exact ⟨hnormal, .clear rfl rfl rfl⟩
  case setCount => exact ⟨hnormal, .quiet rfl rfl (by simp [Pc.inside]) id id (by simp [exec])⟩
  all_goals exact ⟨hnormal, .quiet rfl rfl id id id (by simp [exec])⟩

/-! ## The invariant -/

variable {T : Type*}

structure Inv (w : World T) : Prop where
  normal : w.mutex.type = .normal
  word : w.mutex.lock = 0 ∨ w.mutex.lock = 1 ∨ w.mutex.lock = 2
  unique : ∀ t u, 0 < (w.thread t).held → 0 < (w.thread u).held → t = u
  once : ∀ t, (w.thread t).held ≤ 1
  taken : ∀ t, 0 < (w.thread t).held → w.mutex.lock ≠ 0
  inside : ∀ t, (w.thread t).pc.inside = true → 0 < (w.thread t).held
  asleep : ∀ t, (w.thread t).pc = .asleep ↔ t ∈ w.sleepers
  nodup : w.sleepers.Nodup
  wake : w.sleepers ≠ [] → w.mutex.lock = 2 ∨ ∃ t, (w.thread t).pc.waking = true ∨ (w.thread t).pc.testing = true

namespace Inv

variable {w : World T} {t : T} {m' : Mutex} {th' : Thread}

theorem start : Inv (World.start .normal : World T) := by
  refine ⟨rfl, .inl rfl, ?_, ?_, ?_, ?_, ?_, nodup_nil, fun h => absurd rfl h⟩
  · intro t u ht
    exact absurd ht (Nat.lt_irrefl 0)
  · intro t
    exact Nat.zero_le 1
  · intro t ht
    exact absurd ht (Nat.lt_irrefl 0)
  · intro t ht
    exact absurd ht Bool.false_ne_true
  · simp [World.start]

theorem held_zero (h : Inv w) (hfree : w.mutex.lock = 0) (u : T) : (w.thread u).held = 0 := by
  by_contra hne
  exact h.taken u (Nat.pos_of_ne_zero hne) hfree

variable [DecidableEq T]

theorem thread_after (w : World T) (t u : T) (m' : Mutex) (th' : Thread) :
    (w.after t m' th').thread u = if u = t then th' else w.thread u :=
  Function.update_apply w.thread t th' u

theorem holders_of_acquire (h : Inv w) (m' : Mutex) (hfree : w.mutex.lock = 0) (hheld : th'.held = (w.thread t).held + 1) (u : T) :
    ((w.after t m' th').thread u).held = if u = t then 1 else 0 := by
  rw [thread_after]
  by_cases hut : u = t
  · rw [if_pos hut, if_pos hut, hheld, h.held_zero hfree]
  · rw [if_neg hut, if_neg hut, h.held_zero hfree]

theorem holders_of_release (h : Inv w) (m' : Mutex) (hins : (w.thread t).pc.inside = true)
    (hheld : th'.held = (w.thread t).held - 1) (u : T) : ((w.after t m' th').thread u).held = 0 := by
  have hpos := h.inside t hins
  rw [thread_after]
  by_cases hut : u = t
  · have honce := h.once t
    rw [if_pos hut, hheld]
    omega
  · rw [if_neg hut]
    by_contra hne
    exact hut (h.unique u t (Nat.pos_of_ne_zero hne) hpos)

theorem holders_of_same (m' : Mutex) (hheld : th'.held = (w.thread t).held) (u : T) :
    ((w.after t m' th').thread u).held = (w.thread u).held := by
  rw [thread_after]
  by_cases hut : u = t
  · rw [if_pos hut, hheld, hut]
  · rw [if_neg hut]

theorem inside_after (h : Inv w) (m' : Mutex) (hmine : th'.pc.inside = true → 0 < th'.held) (u : T)
    (hu : ((w.after t m' th').thread u).pc.inside = true) : 0 < ((w.after t m' th').thread u).held := by
  rw [thread_after] at hu ⊢
  by_cases hut : u = t
  · rw [if_pos hut] at hu ⊢
    exact hmine hu
  · rw [if_neg hut] at hu ⊢
    exact h.inside u hu

theorem asleep_after (h : Inv w) (m' : Mutex) (hiff : (w.thread t).pc = .asleep ↔ th'.pc = .asleep) (u : T) :
    ((w.after t m' th').thread u).pc = .asleep ↔ u ∈ w.sleepers := by
  rw [← h.asleep u, thread_after]
  by_cases hut : u = t
  · rw [if_pos hut, hut, hiff]
  · rw [if_neg hut]

def Owes (pc : Pc) : Prop := pc.waking = true ∨ pc.testing = true

theorem owed_after (hex : ∃ u, Owes (w.thread u).pc) (hmine : Owes (w.thread t).pc → Owes th'.pc) :
    ∃ u, Owes ((w.after t m' th').thread u).pc := by
  obtain ⟨u, hu⟩ := hex
  refine ⟨u, ?_⟩
  rw [thread_after]
  by_cases hut : u = t
  · rw [if_pos hut]
    exact hmine (hut ▸ hu)
  · rw [if_neg hut]
    exact hu

omit [DecidableEq T] in
theorem of_frame {w' : World T} (h : Inv w) (hnormal : w'.mutex.type = .normal)
    (hword : w'.mutex.lock = 0 ∨ w'.mutex.lock = 1 ∨ w'.mutex.lock = 2) (htook : w.mutex.lock ≠ 0 → w'.mutex.lock ≠ 0)
    (hheld : ∀ u, (w'.thread u).held = (w.thread u).held)
    (hins : ∀ u, (w'.thread u).pc.inside = true → 0 < (w'.thread u).held)
    (hsleep : ∀ u, (w'.thread u).pc = .asleep ↔ u ∈ w'.sleepers) (hnd : w'.sleepers.Nodup)
    (hwake : w'.sleepers ≠ [] → w'.mutex.lock = 2 ∨ ∃ u, Owes (w'.thread u).pc) : Inv w' where
  normal := hnormal
  word := hword
  unique u v hu hv := h.unique u v (hheld u ▸ hu) (hheld v ▸ hv)
  once u := (hheld u).trans_le (h.once u)
  taken u hu := htook (h.taken u (hheld u ▸ hu))
  inside := hins
  asleep := hsleep
  nodup := hnd
  wake := hwake

section

variable (h : Inv w) (hnormal : m'.type = .normal)

include h hnormal

theorem of_same (hword : m'.lock = 0 ∨ m'.lock = 1 ∨ m'.lock = 2) (hheld : th'.held = (w.thread t).held)
    (htook : w.mutex.lock ≠ 0 → m'.lock ≠ 0) (hins : th'.pc.inside = true → 0 < th'.held)
    (hsleep : (w.thread t).pc = .asleep ↔ th'.pc = .asleep)
    (hwake : w.sleepers ≠ [] → m'.lock = 2 ∨ ∃ u, Owes ((w.after t m' th').thread u).pc) : Inv (w.after t m' th') :=
  h.of_frame hnormal hword htook (holders_of_same m' hheld) (h.inside_after m' hins)
    (h.asleep_after m' hsleep) h.nodup
    hwake

theorem of_release (hlock : m'.lock = 0) (hpc : (w.thread t).pc.inside = true)
    (hheld : th'.held = (w.thread t).held - 1) (hout : th'.pc.inside = false)
    (hsleep : (w.thread t).pc = .asleep ↔ th'.pc = .asleep)
    (hwake : w.sleepers ≠ [] → ∃ u, Owes ((w.after t m' th').thread u).pc) : Inv (w.after t m' th') := by
  have hnone := h.holders_of_release m' hpc hheld
  have hno : ∀ u, ¬ 0 < ((w.after t m' th').thread u).held := fun u => by
    rw [hnone u]
    exact Nat.lt_irrefl 0
  exact
    { normal := hnormal
      word := .inl hlock
      unique := fun u _ hu => absurd hu (hno u)
      once := fun u => (hnone u).trans_le (Nat.zero_le 1)
      taken := fun u hu => absurd hu (hno u)
      inside := h.inside_after m' fun hin => absurd (hin.symm.trans hout) (by decide)
      asleep := h.asleep_after m' hsleep
      nodup := h.nodup
      wake := fun hne => .inr (hwake hne) }

theorem of_acquire (hfree : w.mutex.lock = 0) (hlock : m'.lock = 2 ∨ m'.lock = 1 ∧ ¬ Owes (w.thread t).pc)
    (hheld : th'.held = (w.thread t).held + 1) (hsleep : (w.thread t).pc = .asleep ↔ th'.pc = .asleep) :
    Inv (w.after t m' th') := by
  have hhold := h.holders_of_acquire m' hfree hheld
  have hpos : ∀ u, 0 < ((w.after t m' th').thread u).held → u = t := by
    intro u hu
    by_contra hut
    rw [hhold, if_neg hut] at hu
    exact Nat.lt_irrefl 0 hu
  refine
    { normal := hnormal
      word := ?_
      unique := fun u v hu hv => (hpos u hu).trans (hpos v hv).symm
      once := fun u => ?_
      taken := fun _ _ => ?_
      inside := h.inside_after m' fun _ => hheld ▸ Nat.succ_pos _
      asleep := h.asleep_after m' hsleep
      nodup := h.nodup
      wake := fun hne => ?_ }
  · rcases hlock with htwo | ⟨hone, -⟩
    · exact .inr (.inr htwo)
    · exact .inr (.inl hone)
  · rw [hhold]
    split_ifs <;> omega
  · show m'.lock ≠ 0
    omega
  · rcases hlock with htwo | ⟨-, hnot⟩
    · exact .inl htwo
    · rcases h.wake hne with htwo | howed
      · omega
      · exact .inr (owed_after howed fun hmine => absurd hmine hnot)

theorem effect (heffect : Effect w.mutex m' (w.thread t) th') : Inv (w.after t m' th') := by
  cases heffect with
  | quiet hlock hheld hins hwake htest hsleep =>
    refine h.of_same hnormal (hlock ▸ h.word) hheld (fun hne => hlock ▸ hne) (fun hpc => ?_) hsleep fun hne => ?_
    · rw [hheld]
      exact h.inside t (hins hpc)
    rcases h.wake hne with htwo | howed
    · exact .inl (hlock.trans htwo)
    · exact .inr (owed_after howed (.imp hwake htest))
  | acquire hfree hlock hheld hwake hawake hawake' =>
    apply h.of_acquire hnormal hfree ?_ hheld (iff_of_false hawake hawake')
    apply hlock.imp_right
    intro ⟨hone, htest⟩
    exact ⟨hone, by simp [Owes, hwake, htest]⟩
  | mark htook hlock hheld hpc hpc' =>
    apply h.of_same hnormal (.inr (.inr hlock)) hheld
    · omega
    · simp [hpc', Pc.inside]
    · simp [hpc, hpc']
    · exact fun _ => .inl hlock
  | giveBack hone hlock hpc hth =>
    subst hth
    apply h.of_release hnormal hlock (by simp [hpc, Pc.inside]) rfl rfl (by simp [hpc])
    intro hne
    rcases h.wake hne with htwo | howed
    · omega
    · exact owed_after howed (by simp [hpc, Owes, Pc.waking, Pc.testing])
  | contended hmany hlock hpc hth =>
    subst hth
    have hpos : 0 < (w.thread t).held := h.inside t (by simp [hpc, Pc.inside])
    have htook := h.taken t hpos
    have hword := h.word
    refine h.of_same hnormal (by omega) rfl (fun _ => by omega) (fun _ => hpos) (by simp [hpc]) ?_
    · intro _
      refine .inr ⟨t, ?_⟩
      rw [thread_after, if_pos rfl]
      exact .inl rfl
  | clear hlock hpc hth =>
    subst hth
    apply h.of_release hnormal hlock (by simp [hpc, Pc.inside]) rfl rfl (by simp [hpc])
    intro _
    refine ⟨t, ?_⟩
    rw [thread_after, if_pos rfl]
    exact .inl rfl

end

theorem of_goto {pc : Pc} (h : Inv w) (hawake : (w.thread t).pc ≠ .asleep) (hawake' : pc ≠ .asleep)
    (hins : pc.inside = true → 0 < (w.thread t).held) (howes : Owes (w.thread t).pc → Owes pc) : Inv (w.goto t pc) :=
  h.of_same h.normal h.word rfl id hins (iff_of_false hawake hawake') fun hne =>
    (h.wake hne).imp_right fun howed => owed_after howed howes

theorem of_sleep {ts : List T} (h : Inv w) (hwait : (w.thread t).pc = .wait)
    (hsleep : futexWait w.mutex.lock 2 w.sleepers t = some ts) : Inv { w.goto t .asleep with sleepers := ts } := by
  rw [futexWait] at hsleep
  by_cases htwo : w.mutex.lock = 2
  · rw [if_neg (not_not.mpr htwo), Option.some.injEq] at hsleep
    subst hsleep
    have hnot : t ∉ w.sleepers := by
      rw [← h.asleep t, hwait]
      decide
    have hheld : ∀ u, ((w.goto t .asleep).thread u).held = (w.thread u).held := holders_of_same w.mutex rfl
    refine h.of_frame h.normal h.word id hheld (h.inside_after w.mutex fun hin => absurd hin Bool.false_ne_true) (fun u => ?_) ?_
      fun _ => .inl htwo
    · rw [World.goto, thread_after, mem_append, mem_singleton, ← h.asleep u]
      by_cases hut : u = t <;> simp [hut]
    · exact nodup_append.mpr ⟨h.nodup, nodup_singleton t, fun a ha b hb heq => hnot (mem_singleton.mp hb ▸ heq ▸ ha)⟩
  · rw [if_pos htwo] at hsleep
    simp at hsleep

theorem of_wake (h : Inv w) (hwake : (w.thread t).pc = .wake) :
    Inv { (w.goto t .idle).release (futexWake w.sleepers 1).1 with sleepers := (futexWake w.sleepers 1).2 } := by
  have hnot : t ∉ w.sleepers := by
    rw [← h.asleep t, hwake]
    decide
  cases hsleep : w.sleepers with
  | nil =>
    refine h.of_frame h.normal h.word id (holders_of_same w.mutex rfl)
      (h.inside_after w.mutex fun hin => absurd hin Bool.false_ne_true) (fun u => ?_) nodup_nil fun hne => absurd rfl hne
    show ((w.goto t .idle).thread u).pc = .asleep ↔ u ∈ []
    rw [World.goto, h.asleep_after w.mutex (by simp [hwake]), hsleep]
  | cons u rest =>
    rw [hsleep] at hnot
    have hnd := h.nodup
    rw [hsleep, nodup_cons] at hnd
    have hut : t ≠ u := fun heq => hnot (heq ▸ mem_cons_self ..)
    -- the woken thread is about to exchange the word
    have hthread : ∀ x, ((w.goto t .idle).goto u .exchange).thread x = if x = u then { w.thread u with pc := .exchange }
        else if x = t then { w.thread t with pc := .idle } else w.thread x := by
      intro x
      simp only [World.goto, thread_after, if_neg hut.symm]
    show Inv { (w.goto t .idle).goto u .exchange with sleepers := rest }
    refine h.of_frame h.normal h.word id
      (fun x => ?_) (fun x => ?_) (fun x => ?_) hnd.2 fun _ => .inr ⟨u, ?_⟩
    · rw [hthread]
      split_ifs with hxu hxt
      · rw [hxu]
      · rw [hxt]
      · rfl
    · rw [hthread]
      split_ifs
      · simp [Pc.inside]
      · simp [Pc.inside]
      · exact h.inside x
    · rw [hthread]
      split_ifs with hxu hxt
      · simpa [hxu] using hnd.1
      · simp only [hxt, false_iff]
        exact fun hmem => hnot (mem_cons_of_mem _ hmem)
      · rw [h.asleep x, hsleep, mem_cons, or_iff_right hxu]
    · rw [hthread, if_pos rfl]
      exact .inr rfl

theorem step {me : T → Int} {w' : World T} (h : Inv w) (hstep : Step me w w') : Inv w' := by
  have hidle_owes : ∀ {pc : Pc}, Owes .idle → Owes pc := fun hidle => by simp [Owes, Pc.waking, Pc.testing] at hidle
  cases hstep with
  | lock t hidle => exact h.of_goto (by simp [hidle]) (by decide) (by simp [Pc.inside]) (hidle ▸ hidle_owes)
  | trylock t hidle => exact h.of_goto (by simp [hidle]) (by decide) (by simp [Pc.inside]) (hidle ▸ hidle_owes)
  | unlock t hidle hheld => exact h.of_goto (by simp [hidle]) (by decide) (fun _ => hheld) (hidle ▸ hidle_owes)
  | exec t =>
    obtain ⟨hnormal, heffect⟩ := exec_effect (me t) w.mutex (w.thread t) h.normal
    exact h.effect hnormal heffect
  | sleep t hwait ts hsleep => exact h.of_sleep hwait hsleep
  | again t hwait hagain => exact h.of_goto (by simp [hwait]) (by decide) (by simp [Pc.inside]) fun _ => .inr rfl
  | wake t hwake => exact h.of_wake hwake

end Inv

variable [DecidableEq T]

/-- **Mutex correctness.** In every state that any number of threads can reach with a normal mutex, at most one thread
is between a successful lock and its unlock; and when the word is 0 and a thread sleeps on it, some thread is about to
call `FUTEX_WAKE` or to test the word again. -/
theorem mutex_correct (me : T → Int) {w : World T} (hrun : ReflTransGen (Step me) (World.start .normal) w) :
    (∀ t u, 0 < (w.thread t).held → 0 < (w.thread u).held → t = u) ∧
    ((∃ t, (w.thread t).pc = .asleep) → w.mutex.lock = 0 →
      ∃ u, (w.thread u).pc = .wake ∨ (w.thread u).pc = .exchange) := by
  have hstep : ∀ v v' : World T, Inv v → Step me v v' → Inv v' := fun _ _ hv hstep => hv.step hstep
  have hinv := invariant_of_step hstep Inv.start hrun
  refine ⟨hinv.unique, ?_⟩
  rintro ⟨t, ht⟩ hzero
  have hne : w.sleepers ≠ [] := List.ne_nil_of_mem ((hinv.asleep t).mp ht)
  rcases hinv.wake hne with htwo | ⟨u, hwaking | htesting⟩
  · omega
  · refine ⟨u, .inl ?_⟩
    -- before its store of 0 the thread still holds the mutex
    have hnot : (w.thread u).pc ≠ .storeZero := fun hpc => hinv.taken u (hinv.inside u (by rw [hpc]; rfl)) hzero
    exact ((Pc.waking_iff _).mp hwaking).resolve_left hnot
  · exact ⟨u, .inr ((Pc.testing_iff _).mp htesting)⟩

/-! ## Two threads -/

def World.execBy (me : T → Int) (w : World T) (t : T) : World T :=
  w.after t (exec (me t) w.mutex (w.thread t)).1 (exec (me t) w.mutex (w.thread t)).2

theorem run_execBy (me : T → Int) (w : World T) (ts : List T) :
    ReflTransGen (Step me) w (ts.foldl (World.execBy me) w) := by
  induction ts generalizing w with
  | nil => exact .refl
  | cons t ts ih => exact .head (.exec t) (ih _)

def twoIds (t : Bool) : Int := if t then 100 else 101

def firstHolds : World Bool :=
  ([true, true, true, true] : List Bool).foldl (World.execBy twoIds) ((World.start .normal).goto true .lockEntry)

def secondWaits : World Bool :=
  ([false, false, false] : List Bool).foldl (World.execBy twoIds) (firstHolds.goto false .lockEntry)

def secondSleeps : World Bool := { secondWaits.goto false .asleep with sleepers := [false] }

/-- The first thread has stored 0 into the word and is about to call the kernel. -/
def firstUnlocks : World Bool :=
  ([true, true, true, true, true] : List Bool).foldl (World.execBy twoIds) (secondSleeps.goto true .unlockEntry)

theorem run_firstUnlocks : ReflTransGen (Step twoIds) (World.start .normal) firstUnlocks := by
  have hfst : ReflTransGen (Step twoIds) (.start .normal) firstHolds :=
    ReflTransGen.head (.lock true rfl) (run_execBy _ _ _)
  have hsnd : ReflTransGen (Step twoIds) firstHolds secondWaits :=
    ReflTransGen.head (.lock false rfl) (run_execBy _ _ _)
  have hsleep : Step twoIds secondWaits secondSleeps := .sleep false rfl [false] rfl
  have hunlock : ReflTransGen (Step twoIds) secondSleeps firstUnlocks :=
    ReflTransGen.head (.unlock true rfl (by decide)) (run_execBy _ _ _)
  exact ((hfst.trans hsnd).tail hsleep).trans hunlock

/-- A sleeper, the word 0, and a wake-up on its way. -/
theorem mutex_correct_firstUnlocks : ((firstUnlocks.thread false).pc = .asleep ∧ firstUnlocks.mutex.lock = 0) ∧
      ∃ u, (firstUnlocks.thread u).pc = .wake ∨ (firstUnlocks.thread u).pc = .exchange :=
  ⟨⟨rfl, rfl⟩, (mutex_correct twoIds run_firstUnlocks).2 ⟨false, rfl⟩ rfl⟩

end SzpontOS.Libc
