import SzpontOS.Lib.Run

/-!
# Semaphores (`libc/src/pthread/sem.c`)

Any number of threads in `sem_wait`, `sem_trywait` and `sem_post`, as the list of their places; a step is one access to
memory or one call of the kernel. `sem_post` calls `FUTEX_WAKE` only if `waiters` says that somebody may sleep, and
another thread may take the value before the woken one. What holds is a count (`Inv.wake`): while threads sleep, the
value is at most the number of the posts that have not done their wake and the threads that are awake in the loop of
`sem_wait`.

`waiters` is an `int`. With 2^31 sleeping threads it is negative, and `sem_post` wakes nobody (`sem_wakeup_lost`).
-/

namespace SzpontOS.Libc.Semaphore

open Lib Relation List Semaphore

inductive Pc
  | idle
  /-- `int val = sem->val` in `sem_wait` -/
  | waitRead
  /-- the compare-and-swap of `val` by `val - 1` in `sem_wait` -/
  | waitCas (val : Int)
  /-- `__sync_fetch_and_add(&sem->waiters, 1)` -/
  | addWaiter
  /-- `futex_wait(&sem->val, 0, NULL)` -/
  | futexWait
  | asleep
  /-- `__sync_fetch_and_sub(&sem->waiters, 1)` -/
  | subWaiter
  /-- `int val = sem->val` in `sem_trywait` -/
  | tryRead
  | tryCas (val : Int)
  /-- `__sync_fetch_and_add(&sem->val, 1)` in `sem_post` -/
  | postAdd
  /-- `if (sem->waiters > 0)` -/
  | postTest
  /-- `futex_wake(&sem->val, 1)` -/
  | postWake
  deriving DecidableEq

/-- The semaphore. Its value does not overflow; the word `waiters` is the field modulo 2^32. `posts` and `waits` are not
in the source: they count the increments and the successful waits. -/
structure Sem where
  val : Int
  waiters : Int
  posts : Nat
  waits : Nat

/-- The next step of a thread in the code. What `FUTEX_WAKE` does is in `Step`. -/
def exec (s : Sem) : Pc → Sem × Pc
  | .waitRead => (s, if 0 < s.val then .waitCas s.val else .addWaiter)
  | .waitCas val => if s.val = val then ({ s with val := val - 1, waits := s.waits + 1 }, .idle) else (s, .waitRead)
  | .addWaiter => ({ s with waiters := s.waiters + 1 }, .futexWait)
  | .futexWait => (s, if s.val ≠ 0 then .subWaiter else .asleep)
  | .subWaiter => ({ s with waiters := s.waiters - 1 }, .waitRead)
  | .tryRead => (s, if s.val ≤ 0 then .idle else .tryCas s.val)
  | .tryCas val => if s.val = val then ({ s with val := val - 1, waits := s.waits + 1 }, .idle) else (s, .tryRead)
  | .postAdd => ({ s with val := s.val + 1, posts := s.posts + 1 }, .postTest)
  | .postTest => (s, if 0 < s.waiters.bmod (2 ^ 32) then .postWake else .idle)
  | pc => (s, pc)

structure World where
  sem : Sem
  threads : List Pc

/-- After `sem_init`, with so many threads. -/
def World.start (value : Nat) (n : Nat) : World := ⟨⟨value, 0, 0, 0⟩, replicate n .idle⟩

/-- One step of one thread. Which of the sleepers a wake reaches is left open, and a sleep may end by itself. -/
inductive Step : World → World → Prop
  | call (s l r pc) : pc = .waitRead ∨ pc = .tryRead ∨ pc = .postAdd → Step ⟨s, l ++ .idle :: r⟩ ⟨s, l ++ pc :: r⟩
  | exec (s l pc r) : Step ⟨s, l ++ pc :: r⟩ ⟨(exec s pc).1, l ++ (exec s pc).2 :: r⟩
  | wake (s l r l' r') : l' ++ .subWaiter :: r' = l ++ .postWake :: r →
      Step ⟨s, l' ++ .asleep :: r'⟩ ⟨s, l ++ .idle :: r⟩
  | stir (s l r) : Step ⟨s, l ++ .asleep :: r⟩ ⟨s, l ++ .subWaiter :: r⟩
  | wakeNone (s l r) : .asleep ∉ l ++ r → Step ⟨s, l ++ .postWake :: r⟩ ⟨s, l ++ .idle :: r⟩

/-- Counted in `waiters`. -/
def Pc.counted : Pc → Bool
  | .futexWait | .asleep | .subWaiter => true
  | _ => false

/-- Awake in the loop of `sem_wait`. -/
def Pc.inLoop : Pc → Bool
  | .waitRead | .waitCas _ | .addWaiter | .futexWait | .subWaiter => true
  | _ => false

/-- In `sem_post`, with the wake still to do. -/
def Pc.owesWake : Pc → Bool
  | .postTest | .postWake => true
  | _ => false

def Pc.busy (pc : Pc) : Bool := pc.inLoop || pc.owesWake

/-- A value that was read and found positive. -/
def Pc.Valid : Pc → Prop
  | .waitCas val | .tryCas val => 0 < val
  | _ => True

/-- `spare` is 0 between steps. -/
structure Inv (value n spare : Nat) (w : World) : Prop where
  length : w.threads.length = n
  nonneg : 0 ≤ w.sem.val
  sum : (value : Int) + w.sem.posts - w.sem.waits = w.sem.val
  waiters : w.sem.waiters = w.threads.countP Pc.counted
  valid : ∀ pc ∈ w.threads, pc.Valid
  wake : .asleep ∈ w.threads → w.sem.val + spare ≤ w.threads.countP Pc.busy

variable {value n spare spare' : Nat} {w w' : World} {s s' : Sem} {l r : List Pc} {pc pc' : Pc}

/-- **A thread goes on.** What it does to the counts has to fit its old and its new place. -/
theorem Inv.move (h : Inv value n spare ⟨s, l ++ pc :: r⟩) (hnneg : 0 ≤ s'.val)
    (hsum : s'.val - s'.posts + s'.waits = s.val - s.posts + s.waits)
    (hwaiters : s'.waiters + pc.counted.toNat = s.waiters + pc'.counted.toNat) (hval : pc'.Valid)
    (hwake : pc' ≠ .asleep ∧ s'.val + spare' + pc.busy.toNat ≤ s.val + spare + pc'.busy.toNat ∨ s'.val + spare' = 0 ∨
      .asleep ∉ l ++ pc' :: r) : Inv value n spare' ⟨s', l ++ pc' :: r⟩ := by
  obtain ⟨hlength, -, hold, hcount, hall, hbusy⟩ := h
  simp only [countP_append, countP_cons] at hcount hbusy
  refine ⟨by simpa using hlength, hnneg, by dsimp only at hold ⊢; omega, ?_, fun c hc => ?_, fun hsleep => ?_⟩
  · cases hpc : pc.counted <;> cases hpc' : pc'.counted <;> simp_all <;> omega
  · rcases mem_append.mp hc with hc | hc
    · exact hall c (mem_append_left _ hc)
    rcases mem_cons.mp hc with rfl | hc
    · exact hval
    · exact hall c (mem_append_right _ (mem_cons_of_mem _ hc))
  · simp only [countP_append, countP_cons]
    rcases hwake with ⟨hne, hle⟩ | hzero | hnone
    · have hbef : .asleep ∈ l ++ pc :: r := by
        simp only [mem_append, mem_cons] at hsleep ⊢
        exact hsleep.imp_right fun hmem => .inr (hmem.resolve_left (Ne.symm hne))
      cases hpc : pc.busy <;> cases hpc' : pc'.busy <;> simp_all <;> omega
    · omega
    · exact absurd hsleep hnone

theorem Inv.take (h : Inv value n 0 ⟨s, l ++ pc :: r⟩) (hpos : 0 < s.val) (hcount : pc.counted = false) :
    Inv value n 0 ⟨{ s with val := s.val - 1, waits := s.waits + 1 }, l ++ .idle :: r⟩ := by
  have hbusy := pc.busy.toNat_le
  refine h.move (by dsimp only; omega) (by dsimp only; omega) (by rw [hcount]; rfl) trivial (.inl ⟨by simp, ?_⟩)
  dsimp only
  omega

theorem Inv.waiters_pos (h : Inv value n 0 w) (hn : n < 2 ^ 31) (hsleep : .asleep ∈ w.threads) :
    0 < w.sem.waiters.bmod (2 ^ 32) := by
  have hpos : 0 < w.threads.countP Pc.counted := countP_pos_iff.mpr ⟨_, hsleep, rfl⟩
  have hle := w.threads.countP_le_length (p := Pc.counted)
  rw [h.length] at hle
  rw [h.waiters, Int.bmod_eq_of_le (by omega) (by omega)]
  omega

theorem Inv.exec (h : Inv value n 0 ⟨s, l ++ pc :: r⟩) (hn : n < 2 ^ 31) :
    Inv value n 0 ⟨(exec s pc).1, l ++ (exec s pc).2 :: r⟩ := by
  have hnneg : 0 ≤ s.val := h.nonneg
  have hvalid := h.valid pc (by simp)
  cases pc with
  | waitRead =>
    rw [exec]
    by_cases hpos : 0 < s.val
    · rw [if_pos hpos]
      exact h.move hnneg rfl rfl hpos (.inl ⟨by simp, le_rfl⟩)
    · rw [if_neg hpos]
      exact h.move hnneg rfl rfl trivial (.inl ⟨by simp, le_rfl⟩)
  | waitCas val =>
    rw [exec]
    split_ifs with hval
    · subst hval
      exact h.take hvalid rfl
    · exact h.move hnneg rfl rfl trivial (.inl ⟨by simp, le_rfl⟩)
  | addWaiter =>
    rw [exec]
    exact h.move hnneg rfl (by simp [Pc.counted]) trivial (.inl ⟨by simp, le_rfl⟩)
  | futexWait =>
    rw [exec]
    by_cases hzero : s.val = 0
    · rw [if_neg (not_not.mpr hzero)]
      exact h.move hnneg rfl rfl trivial (.inr (.inl (by rw [hzero]; rfl)))
    · rw [if_pos hzero]
      exact h.move hnneg rfl rfl trivial (.inl ⟨by simp, le_rfl⟩)
  | subWaiter =>
    rw [exec]
    exact h.move hnneg rfl (by simp [Pc.counted]) trivial (.inl ⟨by simp, le_rfl⟩)
  | tryRead =>
    rw [exec]
    by_cases hpos : s.val ≤ 0
    · rw [if_pos hpos]
      exact h.move hnneg rfl rfl trivial (.inl ⟨by simp, le_rfl⟩)
    · rw [if_neg hpos]
      exact h.move hnneg rfl rfl (not_le.mp hpos) (.inl ⟨by simp, le_rfl⟩)
  | tryCas val =>
    rw [exec]
    split_ifs with hval
    · subst hval
      exact h.take hvalid rfl
    · exact h.move hnneg rfl rfl trivial (.inl ⟨by simp, le_rfl⟩)
  | postAdd =>
    rw [exec]
    exact h.move (by dsimp only; omega) (by dsimp only; omega) rfl trivial
      (.inl ⟨by simp, by simp [Pc.busy, Pc.inLoop, Pc.owesWake]⟩)
  | postTest =>
    rw [exec]
    by_cases hwaiters : 0 < s.waiters.bmod (2 ^ 32)
    · rw [if_pos hwaiters]
      exact h.move hnneg rfl rfl trivial (.inl ⟨by simp, le_rfl⟩)
    · rw [if_neg hwaiters]
      refine h.move hnneg rfl rfl trivial (.inr (.inr fun hsleep => hwaiters (h.waiters_pos hn ?_)))
      simp_all
  | _ => exact h

theorem Inv.step (h : Inv value n 0 w) (hn : n < 2 ^ 31) (hstep : Step w w') : Inv value n 0 w' := by
  cases hstep with
  | call s l r pc hpc =>
    have hent : pc.counted = false ∧ pc.Valid ∧ pc ≠ .asleep := by
      rcases hpc with rfl | rfl | rfl <;> exact ⟨rfl, trivial, by simp⟩
    refine h.move h.nonneg rfl (by rw [hent.1]; rfl) hent.2.1 (.inl ⟨hent.2.2, ?_⟩)
    simp [Pc.busy, Pc.inLoop, Pc.owesWake]
  | exec s l pc r => exact h.exec hn
  | wake s l r l' r' heq =>
    have hwoke : Inv value n 1 ⟨s, l' ++ .subWaiter :: r'⟩ :=
      h.move h.nonneg rfl rfl trivial (.inl ⟨by simp, by simp [Pc.busy, Pc.inLoop, Pc.owesWake]⟩)
    rw [heq] at hwoke
    exact hwoke.move h.nonneg rfl rfl trivial (.inl ⟨by simp, by simp [Pc.busy, Pc.inLoop, Pc.owesWake]⟩)
  | stir s l r => exact h.move h.nonneg rfl rfl trivial (.inl ⟨by simp, by simp [Pc.busy, Pc.inLoop, Pc.owesWake]⟩)
  | wakeNone s l r hnone =>
    refine h.move h.nonneg rfl rfl trivial (.inr (.inr ?_))
    simpa using hnone

/-- **Semaphores.** With fewer than 2^31 threads: the value is never negative, it is what the completed increments and
waits make of the initial value, and while it is positive and somebody sleeps, a post has its wake still to do or a
thread is awake in the loop. -/
theorem semaphore_correct (hn : n < 2 ^ 31) (hrun : ReflTransGen Step (World.start value n) w) :
    0 ≤ w.sem.val ∧ (value : Int) + w.sem.posts - w.sem.waits = w.sem.val ∧
    ¬ (0 < w.sem.val ∧ .asleep ∈ w.threads ∧ ∀ pc ∈ w.threads, pc.owesWake = false ∧ pc.inLoop = false) := by
  have hstart : Inv value n 0 (World.start value n) := by
    refine ⟨by simp [World.start], by simp [World.start], by simp [World.start], ?_, fun pc hpc => ?_, fun hmem => ?_⟩
    · simp [World.start, countP_replicate, Pc.counted]
    · rw [eq_of_mem_replicate hpc]
      trivial
    · cases eq_of_mem_replicate hmem
  have hinv : Inv value n 0 w := invariant_of_step (fun _ _ h => h.step hn) hstart hrun
  refine ⟨hinv.nonneg, hinv.sum, fun ⟨hpos, hasleep, hquiet⟩ => ?_⟩
  have hnone : w.threads.countP Pc.busy = 0 := by
    rw [countP_eq_zero]
    intro pc hpc
    simp [Pc.busy, hquiet pc hpc]
  have := hinv.wake hasleep
  omega

theorem run_asleep (k : Nat) : ∀ m, ReflTransGen Step (World.start 0 (k + m))
    ⟨⟨0, k, 0, 0⟩, replicate k .asleep ++ replicate m .idle⟩ := by
  induction k with
  | zero =>
    intro m
    rw [Nat.zero_add]
    exact .refl
  | succ k ih =>
    intro m
    have hcall := Step.call ⟨0, k, 0, 0⟩ (replicate k .asleep) (replicate m .idle) .waitRead (.inl rfl)
    have hread := Step.exec ⟨0, k, 0, 0⟩ (replicate k .asleep) .waitRead (replicate m .idle)
    have hadd := Step.exec ⟨0, k, 0, 0⟩ (replicate k .asleep) .addWaiter (replicate m .idle)
    have hwait := Step.exec ⟨0, k + 1, 0, 0⟩ (replicate k .asleep) .futexWait (replicate m .idle)
    rw [replicate_succ', append_assoc, show k + 1 + m = k + (m + 1) by omega]
    exact ((((ih (m + 1)).tail hcall).tail hread).tail hadd).tail hwait

theorem semaphore_correct_asleep : ∃ w, ReflTransGen Step (World.start 0 2) w ∧ .asleep ∈ w.threads ∧ 0 ≤ w.sem.val ∧
    ((0 : Nat) : Int) + w.sem.posts - w.sem.waits = w.sem.val := by
  obtain ⟨hnonneg, hsum, -⟩ := semaphore_correct (by decide) (run_asleep 1 1)
  exact ⟨_, run_asleep 1 1, by decide, hnonneg, hsum⟩

theorem wakeup_lost {k : Nat} (hpos : 0 < k) (hwaiters : ¬ 0 < (k : Int).bmod (2 ^ 32)) :
    ∃ w, ReflTransGen Step (World.start 0 (k + 1)) w ∧ 0 < w.sem.val ∧ .asleep ∈ w.threads ∧
      ∀ pc ∈ w.threads, pc.owesWake = false ∧ pc.inLoop = false := by
  have hcall := Step.call ⟨0, k, 0, 0⟩ (replicate k .asleep) [] .postAdd (.inr (.inr rfl))
  have hadd := Step.exec ⟨0, k, 0, 0⟩ (replicate k .asleep) .postAdd []
  have htest := Step.exec ⟨1, k, 1, 0⟩ (replicate k .asleep) .postTest []
  rw [show exec ⟨1, k, 1, 0⟩ .postTest = (⟨1, k, 1, 0⟩, .idle) by rw [exec, if_neg hwaiters]] at htest
  refine ⟨_, (((run_asleep k 1).tail hcall).tail hadd).tail htest, Int.one_pos, ?_, fun pc hpc => ?_⟩
  · exact mem_append_left _ (mem_replicate.mpr ⟨hpos.ne', rfl⟩)
  · rcases mem_append.mp hpc with hpc | hpc
    · rw [eq_of_mem_replicate hpc]
      exact ⟨rfl, rfl⟩
    · rw [mem_singleton.mp hpc]
      exact ⟨rfl, rfl⟩

/-- When 2^31 threads sleep, a post finds `waiters` negative and returns without a wake. -/
theorem sem_wakeup_lost : ∃ w, ReflTransGen Step (World.start 0 (2 ^ 31 + 1)) w ∧ 0 < w.sem.val ∧ .asleep ∈ w.threads ∧
    ∀ pc ∈ w.threads, pc.owesWake = false ∧ pc.inLoop = false :=
  wakeup_lost (by decide) (by decide)

end SzpontOS.Libc.Semaphore
