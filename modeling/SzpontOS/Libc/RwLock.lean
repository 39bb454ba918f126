import SzpontOS.Lib.Run

/-!
# Read-write locks (`libc/src/pthread/mutex.c`)

Any number of threads in the calls of a read-write lock; a step is one access to memory or one call of the kernel, and
a futex wait may return at any time. Who holds the lock calls `unlock` before any other of them. A reader counts itself and then looks for a writer; a writer takes the flag and
then looks for readers, so one of two that come together sees the other (`Excluded.excl`). `unlock` finds out from
`writer_tid` what its caller holds.

`readers` is an `int`: with 2^31 readers it is negative, and a writer gets in. Readers sleep on a word that is never
written, so one that is about to sleep when the writer leaves is not woken.
-/

namespace SzpontOS.Libc.RwLock

open Lib Relation Function Finset

/-- Where a thread is; `once` says `tryrdlock`. -/
inductive Pc
  | idle
  /-- `rwlock->writers > 0` -/
  | rdTest (once : Bool)
  /-- `futex_wait(&rwlock->lock, rwlock->lock, NULL)` -/
  | rdWait
  | rdAsleep
  | rdAdd (once : Bool)
  /-- `rwlock->writers` after the increment -/
  | rdCheck (once : Bool)
  | rdSub (once : Bool)
  | reading
  /-- `__sync_lock_test_and_set(&rwlock->writers, 1)` -/
  | wrSet
  /-- `futex_wait(&rwlock->writers, 1, NULL)` -/
  | wrWait
  | wrAsleep
  /-- `rwlock->writer_tid = (int)me` -/
  | wrTid
  /-- `rwlock->readers > 0` -/
  | wrTest
  /-- `rwlock->readers` as an argument of `futex_wait` -/
  | wrRead
  | wrDrain (readers : Int)
  | wrDrainAsleep
  | writing
  /-- the compare-and-swap of `trywrlock` -/
  | tryCas
  | tryTest
  | tryTid
  /-- `rwlock->writers = 0` in `trywrlock` -/
  | tryUndo
  /-- `rwlock->writer_tid == (int)me` in `unlock`; what the caller holds is not in the source -/
  | unTid (writer : Bool)
  | unClear
  /-- `rwlock->writers = 0` -/
  | unRelease
  | unTest
  | unSub
  /-- `futex_wake(&rwlock->readers, 1)` -/
  | wakeDrain
  /-- `futex_wake(&rwlock->writers, 1)`, by a writer or by the last reader -/
  | wakeWriter (writer : Bool)
  /-- `futex_wake(&rwlock->lock, 64)` -/
  | wakeReaders
  deriving DecidableEq

/-- The words of a lock: `writers` is 0 or 1, and `readers` is the field modulo 2^32. Nothing is stored in `lock`. -/
structure Words where
  writers : Bool
  readers : Int
  writerTid : Nat

def Words.count (l : Words) : Int := l.readers.bmod (2 ^ 32)

/-- `__sync_fetch_and_sub(&rwlock->readers, 1)` -/
def Words.leave (l : Words) : Words := { l with readers := l.readers - 1 }

/-- The next step of a thread in the code. What `FUTEX_WAKE` does is in `Step`. -/
def exec (l : Words) (me : Nat) : Pc → Words × Pc
  | .rdTest once => if l.writers then if once then (l, .idle) else (l, .rdWait) else (l, .rdAdd once)
  | .rdWait => (l, .rdAsleep)
  | .rdAdd once => ({ l with readers := l.readers + 1 }, .rdCheck once)
  | .rdCheck once => if l.writers then (l, .rdSub once) else (l, .reading)
  | .rdSub once => if once then (l.leave, .idle) else (l.leave, .rdTest false)
  | .wrSet => if l.writers then (l, .wrWait) else ({ l with writers := true }, .wrTid)
  | .wrWait => if l.writers then (l, .wrAsleep) else (l, .wrSet)
  | .wrTid => ({ l with writerTid := me }, .wrTest)
  | .wrTest => if 0 < l.count then (l, .wrRead) else (l, .writing)
  | .wrRead => (l, .wrDrain l.count)
  | .wrDrain readers => if l.count = readers then (l, .wrDrainAsleep) else (l, .wrTest)
  | .tryCas => if l.writers then (l, .idle) else ({ l with writers := true }, .tryTest)
  | .tryTest => if l.count = 0 then (l, .tryTid) else (l, .tryUndo)
  | .tryTid => ({ l with writerTid := me }, .writing)
  | .tryUndo => ({ l with writers := false }, .idle)
  | .unTid _ => if l.writerTid = me then (l, .unClear) else (l, .unTest)
  | .unClear => ({ l with writerTid := 0 }, .unRelease)
  | .unRelease => ({ l with writers := false }, .wakeWriter true)
  | .unTest => if 0 < l.count then (l, .unSub) else (l, .idle)
  | .unSub => if l.leave.count = 0 then (l.leave, .wakeDrain) else (l.leave, .idle)
  | pc => (l, pc)

/-- Where a thread goes on its own: it calls a function, or its wait returns. Only holders call `unlock`. -/
@[simp] def Pc.jumps : Pc → List Pc
  | .idle => [.rdTest false, .rdTest true, .wrSet, .tryCas]
  | .reading => [.unTid false]
  | .writing => [.unTid true]
  | .rdAsleep => [.rdTest false]
  | .wrAsleep => [.wrSet]
  | .wrDrainAsleep => [.wrTest]
  | _ => []

/-- How many a wake may wake, who they are, and what comes after it. -/
@[simp] def Pc.wake : Pc → Option (Nat × Pc × Pc)
  | .wakeDrain => some (1, .wrDrainAsleep, .wakeWriter false)
  | .wakeWriter writer => some (1, .wrAsleep, if writer then .wakeReaders else .idle)
  | .wakeReaders => some (64, .rdAsleep, .idle)
  | _ => none

variable {T : Type*}

structure World (T : Type*) where
  lock : Words
  pc : T → Pc

/-- After `pthread_rwlock_init`. -/
def World.start : World T := ⟨⟨false, 0, 0⟩, fun _ => .idle⟩

def World.next [DecidableEq T] (w : World T) (me : T → Nat) (t : T) : World T :=
  ⟨(exec w.lock (me t) (w.pc t)).1, update w.pc t (exec w.lock (me t) (w.pc t)).2⟩

/-- How many threads are at such places. -/
def number [Fintype T] (pc : T → Pc) (p : Pc → Bool) : Nat := (Finset.univ.filter fun t => p (pc t) = true).card

/-- One step of one thread, which has the identifier `me t`. Which of the sleepers a wake reaches is left open. Steps
may be under a condition `ok`. -/
inductive Step [Fintype T] [DecidableEq T] (ok : World T → T → Prop) (me : T → Nat) : World T → World T → Prop
  | jump (w t p) : p ∈ (w.pc t).jumps → Step ok me w ⟨w.lock, update w.pc t p⟩
  | exec (w t) : ok w t → Step ok me w (w.next me t)
  | wake (w t n a next pc) : ok w t → (w.pc t).wake = some (n, a, next) →
      (∀ u, pc u = w.pc u ∨ w.pc u = a ∧ pc u ∈ a.jumps) → number pc (· = a) = number w.pc (· = a) - n →
      Step ok me w ⟨w.lock, update pc t next⟩

/-! ## Places -/

/-- Counted in `readers`. -/
@[simp] def Pc.counted : Pc → Bool
  | .rdCheck _ | .rdSub _ | .reading | .unTest | .unSub => true
  | .unTid writer => !writer
  | _ => false

/-- Has set the flag `writers`. -/
def Pc.owns : Pc → Bool
  | .wrTid | .wrTest | .wrRead | .wrDrain _ | .wrDrainAsleep | .writing | .tryTest | .tryTid | .tryUndo | .unClear
  | .unRelease => true
  | .unTid writer => writer
  | _ => false

/-- Is named by `writer_tid`. -/
@[simp] def Pc.named : Pc → Bool
  | .wrTest | .wrRead | .wrDrain _ | .wrDrainAsleep | .writing | .unClear => true
  | .unTid writer => writer
  | _ => false

/-- A writer that has found no readers. -/
@[simp] def Pc.alone : Pc → Bool
  | .tryTid | .writing => true
  | _ => false

variable {ok : World T → T → Prop} {me : T → Nat} {w w' : World T} {l : Words} {pc pc' : T → Pc} {i : Nat} {p : Pc}

/-- The proof of exclusion does not tell the places apart, or less of it is at stake at the new one. -/
structure Same (p' p : Pc) : Prop where
  owns : p'.owns = p.owns
  named : p'.named = p.named
  counted : p'.counted = p.counted
  alone : p'.alone = true → p.alone = true
  reading : p' = .reading → p = .reading

theorem Same.jump {p' : Pc} (h : p' ∈ p.jumps) : Same p' p := by
  cases p with
  | idle =>
    simp only [Pc.jumps, List.mem_cons, List.not_mem_nil, or_false] at h
    rcases h with rfl | rfl | rfl | rfl
    all_goals exact ⟨rfl, rfl, rfl, by simp, by simp⟩
  | reading | writing | rdAsleep | wrAsleep | wrDrainAsleep =>
    obtain rfl := List.mem_singleton.mp h
    exact ⟨rfl, rfl, rfl, by simp, by simp⟩
  | _ => exact absurd h List.not_mem_nil

theorem Same.wake {n : Nat} {a next : Pc} (h : p.wake = some (n, a, next)) : Same next p := by
  cases p with
  | wakeDrain | wakeReaders =>
    cases h
    exact ⟨rfl, rfl, rfl, by simp, by simp⟩
  | wakeWriter writer =>
    cases h
    cases writer <;> exact ⟨rfl, rfl, rfl, by simp, by simp⟩
  | _ => cases h

/-! ## Owners -/

/-- One thread at most has the flag, and `writer_tid` names it. -/
structure Owned (me : T → Nat) (w : World T) : Prop where
  flag : ∀ t, (w.pc t).owns = true → w.lock.writers = true
  unique : ∀ t u, (w.pc t).owns = true → (w.pc u).owns = true → t = u
  name : ∀ t, (w.pc t).named = true ↔ w.lock.writerTid = me t

theorem exec_owner (hname : p.named = true ↔ l.writerTid = i) (hi : 0 ≠ i) :
    ((exec l i p).2.owns = p.owns ∧ (exec l i p).1.writers = l.writers ∨
      l.writers = false ∧ (exec l i p).1.writers = true ∨ p.owns = true ∧ (exec l i p).2.owns = false) ∧
    ((exec l i p).2.named = true ↔ (exec l i p).1.writerTid = i) ∧
    ((exec l i p).1.writerTid = l.writerTid ∨ p.owns = true ∧ (exec l i p).1.writerTid ∈ [0, i]) := by
  cases p with
  | wrSet | tryCas =>
    -- the flag is taken if it is clear
    cases hset : l.writers <;> simp_all [exec, Pc.owns]
  | wrTid | tryTid =>
    simp [exec, Pc.owns]
  | unTid writer =>
    by_cases hme : l.writerTid = i <;> simp_all [exec, Pc.owns]
  | unClear => simp [exec, Pc.owns, hi]
  | tryUndo | unRelease =>
    simp_all [exec, Pc.owns]
  | rdTest once | rdCheck once | rdSub once | wrWait | wrTest | wrDrain readers | tryTest | unTest | unSub =>
    rw [exec]
    split_ifs <;> simpa [Pc.owns, Words.leave] using hname
  | _ => simpa [exec, Pc.owns] using hname

theorem Pc.owns_of_named (h : p.named = true) : p.owns = true := by
  cases p <;> simp_all [Pc.owns]

theorem Owned.start (hpos : ∀ t, 0 ≠ me t) : Owned me World.start := by
  refine ⟨fun t ht => ?_, fun t u ht => ?_, fun t => ?_⟩
  all_goals simp_all [World.start, Pc.owns]

section Steps

variable [DecidableEq T]

variable (hinj : Injective me) (hpos : ∀ t, 0 ≠ me t)

include hinj hpos in
theorem Owned.next (h : Owned me w) (t : T) : Owned me (w.next me t) := by
  obtain ⟨hflag, hself, hother⟩ := exec_owner (h.name t) (hpos t)
  unfold World.next
  generalize exec w.lock (me t) (w.pc t) = x at hflag hself hother ⊢
  -- another thread has the flag only if this one neither has it nor takes it
  have hrest : ∀ u, u ≠ t → (w.pc u).owns = true → x.2.owns = false ∧ x.1.writers = true := by
    intro u hu howns
    have hnot : (w.pc t).owns = false := by
      rw [Bool.eq_false_iff]
      exact fun ht => hu (h.unique u t howns ht)
    rw [hnot, h.flag u howns] at hflag
    simpa using hflag
  refine ⟨fun u => ?_, fun u v => ?_, fun u => ?_⟩
  all_goals dsimp only; rw [update_apply]
  · split_ifs with hut
    · rcases hflag with ⟨howns, hsame⟩ | ⟨-, hset⟩ | ⟨-, hnot⟩
      · exact fun hu => hsame.trans (h.flag t (howns ▸ hu))
      · exact fun _ => hset
      · simp [hnot]
    · exact fun hu => (hrest u hut hu).2
  · rw [update_apply]
    split_ifs with hut hvt hvt
    · exact fun _ _ => hut.trans hvt.symm
    · exact fun hu hv => by simp [(hrest v hvt hv).1] at hu
    · exact fun hu hv => by simp [(hrest u hut hu).1] at hv
    · exact h.unique u v
  · split_ifs with hut
    · rw [hut]
      exact hself
    · rcases hother with hsame | ⟨howns, hmem⟩
      · rw [hsame]
        exact h.name u
      · have hnot : (w.pc u).named ≠ true := fun hname => hut (h.unique u t (Pc.owns_of_named hname) howns)
        rw [List.mem_pair] at hmem
        rw [iff_false_left hnot]
        rcases hmem with hmem | hmem <;> rw [hmem]
        · exact hpos u
        · exact fun heq => hut (hinj heq).symm

variable [Fintype T]

/-- **Every step is one in the code, or leaves the words and what matters of the places alone.** -/
theorem Step.next_or_same (h : Step ok me w w') :
    (∃ t, w' = w.next me t) ∨ w'.lock = w.lock ∧ ∀ u, Same (w'.pc u) (w.pc u) := by
  have hupd : ∀ {pc : T → Pc} {p : Pc} {t : T}, Same p (w.pc t) → (∀ u, Same (pc u) (w.pc u)) →
      ∀ u, Same (update pc t p u) (w.pc u) := by
    intro pc p t hp hrest u
    rw [update_apply]
    split_ifs with hut
    · rw [hut]
      exact hp
    · exact hrest u
  have hrefl : ∀ u, Same (w.pc u) (w.pc u) := fun _ => ⟨rfl, rfl, rfl, id, id⟩
  cases h with
  | jump t p hp => exact .inr ⟨rfl, hupd (.jump hp) hrefl⟩
  | exec t _ => exact .inl ⟨t, rfl⟩
  | wake t n a next pc _ hwake hwoke _ =>
    refine .inr ⟨rfl, hupd (.wake hwake) fun u => ?_⟩
    rcases hwoke u with hsame | ⟨hsleep, hawake⟩
    · rw [hsame]
      exact hrefl u
    · rw [hsleep]
      exact .jump hawake

include hinj hpos in
theorem Owned.step (h : Owned me w) (hstep : Step ok me w w') : Owned me w' := by
  rcases hstep.next_or_same with ⟨t, rfl⟩ | ⟨hlock, hsame⟩
  · exact .next hinj hpos h t
  · refine ⟨fun t ht => ?_, fun t u ht hu => h.unique t u ?_ ?_, fun t => ?_⟩
    · rw [hlock]
      exact h.flag t ((hsame t).owns ▸ ht)
    · rwa [← (hsame t).owns]
    · rwa [← (hsame u).owns]
    · rw [(hsame t).named, hlock]
      exact h.name t

/-! ## Runs -/

theorem run_iterate {t : T} {k : Nat} (hok : ∀ j < k, ok ((World.next · me t)^[j] w) t) :
    ReflTransGen (Step ok me) w ((World.next · me t)^[k] w) := by
  induction k with
  | zero => exact .refl
  | succ k ih =>
    rw [iterate_succ_apply']
    exact (ih fun j hj => hok j (by omega)).tail (.exec _ t (hok k (by omega)))

theorem run_reading (t : T) (hidle : w.pc t = .idle) (hclear : w.lock.writers = false) :
    ReflTransGen (Step (fun _ _ => True) me) w
      ⟨{ w.lock with readers := w.lock.readers + 1 }, update w.pc t .reading⟩ := by
  have hcall : Step (fun _ _ => True) me w _ := .jump w t (.rdTest false) (by simp [hidle])
  have hrun := ReflTransGen.head hcall (run_iterate (t := t) (k := 3) fun _ _ => trivial)
  simpa [World.next, RwLock.exec, hclear] using hrun

theorem run_writing (me : T → Nat) (t : T) (hidle : w.pc t = .idle) (hclear : w.lock.writers = false)
    (hcount : w.lock.count ≤ 0) : ReflTransGen (Step (fun _ _ => True) me) w
      ⟨⟨true, w.lock.readers, me t⟩, update w.pc t .writing⟩ := by
  have hcall : Step (fun _ _ => True) me w _ := .jump w t .wrSet (by simp [hidle])
  have hrun := ReflTransGen.head hcall (run_iterate (t := t) (k := 3) fun _ _ => trivial)
  have hcount' : (⟨true, w.lock.readers, me t⟩ : Words).count ≤ 0 := hcount
  simpa [World.next, RwLock.exec, hclear, hcount'.not_gt] using hrun

/-! ## Exclusion -/

/-- `readers` counts the readers, and there are none beside a writer that has looked. -/
structure Excluded (w : World T) : Prop where
  readers : w.lock.readers = number w.pc Pc.counted
  excl : ∀ t u, (w.pc t).alone = true → w.pc u ≠ .reading

theorem number_update (pc : T → Pc) (t : T) (p : Pc) (q : Pc → Bool) :
    number (update pc t p) q + (q (pc t)).toNat = number pc q + (q p).toNat := by
  have hrest : ∑ u ∈ univ.erase t, (if q (update pc t p u) = true then 1 else 0) =
      ∑ u ∈ univ.erase t, if q (pc u) = true then 1 else 0 := by
    refine sum_congr rfl fun u hu => ?_
    rw [update_of_ne (ne_of_mem_erase hu)]
  simp only [number, card_filter]
  rw [← add_sum_erase _ _ (mem_univ t), hrest, update_self,
    ← add_sum_erase univ (fun u => if q (pc u) = true then 1 else 0) (mem_univ t)]
  cases q p <;> cases q (pc t) <;> simp <;> omega

theorem exec_counted (hname : p.named = true ↔ l.writerTid = i) (hpos : p.counted = true → 0 < l.count) :
    (exec l i p).1.readers + p.counted.toNat = l.readers + (exec l i p).2.counted.toNat := by
  cases p with
  | rdAdd once => simp [exec]
  | rdSub once =>
    cases once <;> simp [exec, Words.leave]
  | unSub =>
    rw [exec]
    split_ifs <;> simp [Words.leave]
  | unTid writer =>
    -- `unlock` takes its caller for what it is
    cases writer <;> simp_all [exec]
  | unTest => simp_all [exec]
  | rdTest once | rdCheck once | wrSet | wrWait | wrTest | wrDrain readers | tryCas | tryTest =>
    rw [exec]
    split_ifs <;> simp
  | _ => simp [exec]

theorem exec_excl : ((exec l i p).2.alone = true → p.alone = true ∨ l.count ≤ 0) ∧
    ((exec l i p).2 = .reading → p = .reading ∨ l.writers = false) := by
  cases p with
  | rdCheck once =>
    cases hset : l.writers <;> simp [exec, hset]
  | wrTest =>
    by_cases hsome : 0 < l.count
    · simp [exec, hsome]
    · simp [exec, hsome, not_lt.mp hsome]
  | tryTest =>
    by_cases hnone : l.count = 0 <;> simp [exec, hnone]
  | rdTest once | rdSub once | wrSet | wrWait | wrDrain readers | tryCas | unTid writer | unTest | unSub =>
    rw [exec]
    split_ifs <;> simp
  | _ => simp [exec]

theorem Excluded.next (hcard : Fintype.card T < 2 ^ 31) (howned : Owned me w) (h : Excluded w) (t : T) :
    Excluded (w.next me t) := by
  have hcount : ∀ u, (w.pc u).counted = true → 0 < w.lock.count := by
    intro u hu
    have hone : 0 < number w.pc Pc.counted := card_pos.mpr ⟨u, by simp [-Pc.counted, hu]⟩
    have hle : number w.pc Pc.counted ≤ Fintype.card T := card_le_univ _
    rw [Words.count, h.readers, Int.bmod_eq_of_le (by omega) (by omega)]
    omega
  have hreaders := exec_counted (howned.name t) (hcount t)
  have hnum := number_update w.pc t (exec w.lock (me t) (w.pc t)).2 Pc.counted
  obtain ⟨halone, hreading⟩ := exec_excl (l := w.lock) (i := me t) (p := w.pc t)
  have hold := h.readers
  unfold World.next
  generalize exec w.lock (me t) (w.pc t) = x at hreaders hnum halone hreading ⊢
  refine ⟨by dsimp only; omega, fun u v hu hv => ?_⟩
  dsimp only at hu hv
  rw [update_apply] at hu hv
  split_ifs at hu hv with hut hvt hvt
  · simp [hv] at hu
  · rcases halone hu with hold | hnone
    · exact h.excl t v hold hv
    · exact absurd (hcount v (by simp [hv])) (by omega)
  · rcases hreading hv with hold | hclear
    · exact h.excl u t hu hold
    · have hset := howned.flag u (by revert hu; cases w.pc u <;> simp [Pc.owns])
      simp [hclear] at hset
  · exact h.excl u v hu hv

theorem Excluded.step (hcard : Fintype.card T < 2 ^ 31) (howned : Owned me w) (h : Excluded w)
    (hstep : Step ok me w w') : Excluded w' := by
  rcases hstep.next_or_same with ⟨t, rfl⟩ | ⟨hlock, hsame⟩
  · exact h.next hcard howned t
  · refine ⟨?_, fun t u ht hu => h.excl t u ((hsame t).alone ht) ((hsame u).reading hu)⟩
    rw [hlock, h.readers]
    simp only [number, (hsame _).counted]

/-- **Exclusion.** With fewer than 2^31 threads nobody holds the lock beside a writer. -/
theorem rwlock_exclusion (hinj : Injective me) (hpos : ∀ t, 0 ≠ me t) (hcard : Fintype.card T < 2 ^ 31)
    (hrun : ReflTransGen (Step (fun _ _ => True) me) World.start w) {t u : T} (ht : w.pc t = .writing) (hu : u ≠ t) :
    w.pc u ≠ .reading ∧ w.pc u ≠ .writing := by
  have hkeep : ∀ w w' : World T, Owned me w ∧ Excluded w → Step (fun _ _ => True) me w w' →
      Owned me w' ∧ Excluded w' := fun _ _ h hstep => ⟨.step hinj hpos h.1 hstep, h.2.step hcard h.1 hstep⟩
  have hstart : Excluded (.start (T := T)) := by
    refine ⟨?_, fun t u ht => ?_⟩
    all_goals simp_all [World.start, number]
  obtain ⟨howned, hexcl⟩ := invariant_of_step hkeep ⟨.start hpos, hstart⟩ hrun
  refine ⟨hexcl.excl t u (by rw [ht]; rfl), fun hw => hu (howned.unique u t ?_ ?_)⟩
  · rw [hw]
    rfl
  · rw [ht]
    rfl

/-- Two threads, the second of which finds the first one writing. -/
theorem rwlock_exclusion_two : ∃ w : World (Fin 2),
    ReflTransGen (Step (fun _ _ => True) fun t => t.val + 1) World.start w ∧ w.pc 0 = .writing ∧ w.pc 1 = .rdWait ∧
      w.pc 1 ≠ .reading ∧ w.pc 1 ≠ .writing := by
  have hwriting := run_writing (w := .start) (fun t : Fin 2 => t.val + 1) 0 rfl rfl (by decide)
  have hrun := (hwriting.tail (.jump _ 1 (.rdTest false) (by decide))).tail (.exec _ 1 trivial)
  exact ⟨_, hrun, rfl, rfl, rwlock_exclusion (t := 0) (by decide) (by decide) (by simp) hrun rfl (by decide)⟩

/-- **The count overflows.** 2^31 readers are `INT_MIN` readers, and a writer comes in beside them. -/
theorem rwlock_overrun : ∃ w : World (Fin (2 ^ 31 + 1)),
    ReflTransGen (Step (fun _ _ => True) fun t => t.val + 1) World.start w ∧
      w.pc ⟨2 ^ 31, by decide⟩ = .writing ∧ ∀ t, t.val < 2 ^ 31 → w.pc t = .reading := by
  have hreaders : ∀ n k : Nat, k ≤ n → ReflTransGen (Step (fun _ _ => True) fun t : Fin n => t.val + 1) World.start
      ⟨⟨false, k, 0⟩, fun t => if t.val < k then .reading else .idle⟩ := by
    intro n k hk
    induction k with
    | zero => exact .refl
    | succ k ih =>
      have hrun := (ih (by omega)).trans (run_reading ⟨k, hk⟩ (by simp) rfl)
      have hpc : update (fun t : Fin n => if t.val < k then Pc.reading else .idle) ⟨k, hk⟩ .reading =
          fun t => if t.val < k + 1 then .reading else .idle := by
        funext t
        simp only [update_apply, Fin.ext_iff]
        split_ifs <;> first | rfl | omega
      rwa [hpc] at hrun
  have hrun := (hreaders (2 ^ 31 + 1) (2 ^ 31) (by omega)).trans
    (run_writing _ ⟨2 ^ 31, by decide⟩ (if_neg (lt_irrefl _)) rfl (by decide))
  refine ⟨_, hrun, by simp only [update_self], fun t ht => ?_⟩
  have hne : t ≠ ⟨2 ^ 31, by decide⟩ := fun heq => by simp [heq] at ht
  simp only [update_of_ne hne, if_pos ht]

/-! ## Nobody is left asleep -/

/-- What a step has to find: a writer when a reader goes to sleep, at most 64 sleeping readers when they are woken, and
nobody asleep when `trywrlock` gives the flag back. -/
def Careful (w : World T) (t : T) : Prop :=
  (w.pc t = .rdWait → w.lock.writers = true) ∧ (w.pc t = .wakeReaders → number w.pc (· = .rdAsleep) ≤ 64) ∧
    (w.pc t = .tryUndo → ∀ u, w.pc u ≠ .rdAsleep ∧ w.pc u ≠ .wrAsleep)

/-- Nobody holds or claims the lock, and somebody sleeps whom nobody will wake. -/
def Stranded (w : World T) : Prop :=
  w.lock.writers = false ∧ w.lock.readers = 0 ∧ (∃ t, w.pc t ∈ [.rdAsleep, .wrAsleep, .wrDrainAsleep]) ∧
    ∀ t, (w.pc t).wake = none ∧ w.pc t ≠ .wrSet ∧ ∀ once, w.pc t ≠ .rdTest once

/-- A thread at the first place will wake one that sleeps at the second, or take the flag. -/
def Pc.stirs : Pc → Pc → Bool
  | .wakeWriter writer, .rdAsleep => writer
  | .wakeWriter _, .wrAsleep | .wrSet, .wrAsleep | .wakeReaders, .rdAsleep => true
  | _, _ => false

def Stirred (l : Words) (pc : T → Pc) : Prop :=
  ∀ t, pc t ∈ [.rdAsleep, .wrAsleep] → l.writers = true ∨ ∃ u, (pc u).stirs (pc t) = true

theorem exec_stirs (h : (exec l i p).1.writers = false) : p = .unRelease ∨ p = .tryUndo ∨ l.writers = false ∧
    ((exec l i p).2 = p ∨
      (∀ a, p.stirs a = false) ∧ (p = .rdWait ∨ (exec l i p).2 ∉ [.rdAsleep, .wrAsleep])) := by
  cases p with
  | unRelease => exact .inl rfl
  | tryUndo => exact .inr (.inl rfl)
  | wrSet =>
    cases hset : l.writers <;> simp [exec, hset] at h
  | wrWait =>
    cases hset : l.writers <;> simp_all [exec, Pc.stirs]
  | wakeDrain | wakeWriter writer | wakeReaders | rdAsleep | wrAsleep | wrDrainAsleep =>
    exact .inr (.inr ⟨h, .inl rfl⟩)
  | _ =>
    simp only [exec] at h ⊢
    (try split_ifs at h ⊢) <;> simp_all [Pc.stirs, Words.leave]

omit [Fintype T] in
theorem Stirred.update {t : T} (h : Stirred l pc)
    (hp : p = pc t ∨ (∀ a, (pc t).stirs a = false) ∧ p ∉ [.rdAsleep, .wrAsleep]) : Stirred l (update pc t p) := by
  rcases hp with rfl | ⟨hnot, hawake⟩
  · rwa [update_eq_self]
  · intro u hu
    rw [update_apply] at hu ⊢
    split_ifs at hu ⊢ with hut
    · exact absurd hu hawake
    · rcases h u hu with hset | ⟨v, hv⟩
      · exact .inl hset
      · have hvt : v ≠ t := by
          rintro rfl
          simp [hnot] at hv
        exact .inr ⟨v, by rwa [update_of_ne hvt]⟩

theorem Stirred.next {t : T} (h : Stirred w.lock w.pc) (hcare : Careful w t) :
    Stirred (w.next me t).lock (w.next me t).pc := by
  intro u hu
  rcases Bool.eq_false_or_eq_true (w.next me t).lock.writers with hset | hclear
  · exact .inl hset
  obtain ⟨hwait, -, hundo⟩ := hcare
  rcases exec_stirs hclear with ht | ht | ⟨hold, hrest⟩
  -- the writer that leaves is about to wake both kinds
  · refine .inr ⟨t, ?_⟩
    rw [List.mem_pair] at hu
    rcases hu with hu | hu <;> rw [hu] <;> simp [World.next, ht, RwLock.exec, Pc.stirs]
  · simp only [World.next, ht, RwLock.exec, update_apply] at hu
    split_ifs at hu with hut
    · simp at hu
    · simp [hundo ht u] at hu
  · have hstay : Stirred w.lock (w.next me t).pc := by
      refine h.update (hrest.imp_right fun ⟨hnot, hawake⟩ => ⟨hnot, hawake.resolve_left fun hrd => ?_⟩)
      simp [hwait hrd] at hold
    exact (hstay u hu).imp_left fun hset => by simp [hold] at hset

theorem jump_stirs {p' : Pc} (h : p' ∈ p.jumps) : (∀ a, p.stirs a = false) ∧ p' ∉ [.rdAsleep, .wrAsleep] := by
  cases p with
  | idle =>
    simp only [Pc.jumps, List.mem_cons, List.not_mem_nil, or_false] at h
    rcases h with rfl | rfl | rfl | rfl
    all_goals exact ⟨fun _ => rfl, by simp⟩
  | reading | writing | rdAsleep | wrAsleep | wrDrainAsleep =>
    obtain rfl := List.mem_singleton.mp h
    exact ⟨fun _ => rfl, by simp⟩
  | _ => exact absurd h List.not_mem_nil

theorem wake_stirs {n : Nat} {a next : Pc} (h : p.wake = some (n, a, next)) :
    0 < n ∧ p ≠ a ∧ next ∉ [.rdAsleep, .wrAsleep] ∧
    (∀ b ∈ [.rdAsleep, .wrAsleep], b ≠ a → p.stirs b = true → next.stirs b = true) ∧
    (∀ b, a.stirs b = false) ∧ (a ∈ [.rdAsleep, .wrAsleep] →
      (∀ b ∈ a.jumps, b.stirs a = true) ∨ p = .wakeReaders ∧ a = .rdAsleep ∧ n = 64) := by
  cases p with
  | wakeDrain =>
    cases h
    simp [Pc.stirs]
  | wakeWriter writer =>
    cases h
    cases writer <;> simp [Pc.stirs]
  | wakeReaders =>
    cases h
    simp [Pc.stirs]
  | _ => cases h

theorem Stirred.wake {t : T} {n : Nat} {a next : Pc} (h : Stirred w.lock w.pc) (hcare : Careful w t)
    (hwake : (w.pc t).wake = some (n, a, next)) (hwoke : ∀ u, pc u = w.pc u ∨ w.pc u = a ∧ pc u ∈ a.jumps)
    (hnum : number pc (· = a) = number w.pc (· = a) - n) : Stirred w.lock (Function.update pc t next) := by
  obtain ⟨hn, hta, hnext, hpass, hsleep, hone⟩ := wake_stirs hwake
  intro u hu
  rw [update_apply] at hu ⊢
  split_ifs at hu ⊢ with hut
  · exact absurd hu hnext
  have hsame : pc u = w.pc u := (hwoke u).resolve_right fun ⟨_, hu'⟩ => (jump_stirs hu').2 hu
  by_cases hua : pc u = a
  -- one that was to be woken still sleeps, so another one was
  · have hpos : 0 < number w.pc (· = a) := card_pos.mpr ⟨u, by simp [← hsame, hua]⟩
    have hpos' : 0 < number pc (· = a) := card_pos.mpr ⟨u, by simp [hua]⟩
    rcases hone (hua ▸ hu) with hstirs | ⟨ht, rfl, rfl⟩
    · obtain ⟨v, hv⟩ : ∃ v, pc v ≠ w.pc v := by
        by_contra hnone
        push Not at hnone
        rw [funext hnone] at hnum
        omega
      obtain ⟨hva, hva'⟩ := (hwoke v).resolve_left hv
      have hvt : v ≠ t := by
        rintro rfl
        exact hta hva
      exact .inr ⟨v, by rw [update_of_ne hvt, hua]; exact hstirs _ hva'⟩
    · have hle := hcare.2.1 ht
      omega
  · refine (h u (hsame ▸ hu)).imp_right fun ⟨v, hv⟩ => ⟨v, ?_⟩
    rw [← hsame] at hv
    rw [update_apply]
    split_ifs with hvt
    · exact hpass _ hu hua (hvt ▸ hv)
    · rwa [(hwoke v).resolve_right fun ⟨hva, _⟩ => by simp [hva, hsleep] at hv]

theorem Stirred.step (h : Stirred w.lock w.pc) (hstep : Step Careful me w w') : Stirred w'.lock w'.pc := by
  cases hstep with
  | jump t p hp => exact h.update (.inr (jump_stirs hp))
  | exec t hcare => exact h.next hcare
  | wake t n a next pc hcare hwake hwoke hnum => exact h.wake hcare hwake hwoke hnum

/-- **Nobody is left asleep.** Every run whose steps are `Careful` keeps out of `Stranded`. -/
theorem rwlock_not_stranded (hinj : Injective me) (hpos : ∀ t, 0 ≠ me t)
    (hrun : ReflTransGen (Step Careful me) World.start w) : ¬ Stranded w := by
  have hkeep : ∀ w w' : World T, Owned me w ∧ Stirred w.lock w.pc → Step Careful me w w' →
      Owned me w' ∧ Stirred w'.lock w'.pc := fun _ _ h hstep => ⟨.step hinj hpos h.1 hstep, h.2.step hstep⟩
  have hstart : Stirred ⟨false, 0, 0⟩ fun _ : T => .idle := fun t ht => by simp at ht
  obtain ⟨howned, hstirred⟩ := invariant_of_step hkeep ⟨.start hpos, hstart⟩ hrun
  rintro ⟨hclear, -, ⟨t, ht⟩, hnobody⟩
  by_cases hdrain : w.pc t = .wrDrainAsleep
  · have hset := howned.flag t (by rw [hdrain]; rfl)
    simp [hclear] at hset
  · have hasleep : w.pc t ∈ [.rdAsleep, .wrAsleep] := by simpa [hdrain] using ht
    rcases hstirred t hasleep with hset | ⟨u, hu⟩
    · simp [hclear] at hset
    · obtain ⟨hwake, hset, -⟩ := hnobody u
      cases hpc : w.pc u with
      | wrSet => exact hset hpc
      | wakeWriter writer | wakeReaders => simp [hpc] at hwake
      | _ => simp [hpc, Pc.stirs] at hu

/-- A reader sleeps until the writer has left, and the writer is about to wake it. -/
theorem rwlock_not_stranded_two : ∃ w : World (Fin 2),
    ReflTransGen (Step Careful fun t => t.val + 1) World.start w ∧ w.lock.writers = false ∧ w.lock.readers = 0 ∧
      w.pc 1 = .rdAsleep ∧ ¬ Stranded w := by
  have hcall : Step Careful (fun t : Fin 2 => t.val + 1) World.start _ := .jump _ 0 .wrSet (by decide)
  have hwriting := ReflTransGen.head hcall (run_iterate (t := 0) (k := 3) (by unfold Careful; decide))
  have hasleep := (hwriting.tail (.jump _ 1 (.rdTest false) (by decide))).trans
    (run_iterate (t := 1) (k := 2) (by unfold Careful; decide))
  have hrun := (hasleep.tail (.jump _ 0 (.unTid true) (by decide))).trans
    (run_iterate (t := 0) (k := 3) (by unfold Careful; decide))
  exact ⟨_, hrun, rfl, rfl, rfl, rwlock_not_stranded (by decide) (by decide) hrun⟩

/-- **A wakeup that comes too early.** A reader has seen the writer; the writer leaves and wakes nobody; then the reader
goes to sleep, for the word it sleeps on has not changed. -/
theorem rwlock_stranded : ∃ w : World (Fin 2),
    ReflTransGen (Step (fun _ _ => True) fun t => t.val + 1) World.start w ∧ w.pc 0 = .idle ∧ w.pc 1 = .rdAsleep ∧
      Stranded w := by
  have hwriting := run_writing (w := .start) (fun t : Fin 2 => t.val + 1) 0 rfl rfl (by decide)
  have hseen := (hwriting.tail (.jump _ 1 (.rdTest false) (by decide))).tail (.exec _ 1 trivial)
  have hreleased := (hseen.tail (.jump _ 0 (.unTid true) (by decide))).trans
    (run_iterate (t := 0) (k := 3) fun _ _ => trivial)
  have hwoken := (hreleased.tail (.wake _ 0 1 .wrAsleep .wakeReaders _ trivial rfl (fun _ => .inl rfl) (by decide))).tail
    (.wake _ 0 64 .rdAsleep .idle _ trivial rfl (fun _ => .inl rfl) (by decide))
  exact ⟨_, hwoken.tail (.exec _ 1 trivial), rfl, rfl, by unfold Stranded; decide⟩

end Steps

end SzpontOS.Libc.RwLock
