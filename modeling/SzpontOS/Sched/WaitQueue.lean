import SzpontOS.Lib.Run

/-!
# Wait queues

`wait_queue_wait`, `wait_queue_wake_one` and `wait_queue_wake_all` of `sched/waitqueue.c`, with
`sched_block_current_thread` and `sched_unblock_thread` of `sched/sched.c`, as threads and wakers that take turns. A
turn is what runs under one lock: the queue's lock for the list, the scheduler's lock for the state of a thread and the
ready queue.

A waiting thread puts its node on the queue in one turn and becomes `THREAD_BLOCKED` in a later one. A wake that takes
the node off the queue in between finds the thread running and does nothing more for it; the thread then blocks, on no
queue. `Guarded` excludes that, and `no_lost_wakeup` says what holds then.
-/

namespace SzpontOS.Sched

open SzpontOS.Lib Relation Function List

abbrev Tid := Nat

inductive ThreadState
  | ready
  | running
  | blocked
  | sleeping
  | zombie
  deriving DecidableEq

namespace WaitQueue

/-- Where a thread is in `wait_queue_wait`. -/
inductive Place
  | out
  /-- Its node is on the queue; `sched_block_current_thread` is next. -/
  | entered
  /-- `sched_block_current_thread` has set `THREAD_BLOCKED`; `sched_yield` is next. -/
  | marked
  /-- `sched_yield` has given the CPU away. -/
  | parked
  /-- Running again; the cleanup of the node is next. -/
  | resumed
  /-- `process_exit` has been called. -/
  | exited
  deriving DecidableEq

inductive Holder
  | free
  /-- `wait_queue_wake_one`, which has taken the node of the thread off the queue. -/
  | one (thread : Tid)
  /-- `wait_queue_wake_all`, in its loop over the nodes of `covers`; the thread whose node it has just taken
  off is `taken`. -/
  | all (covers : List Tid) (taken : Option Tid)

/-- The queue (`waiters`, by the threads of its nodes), its lock, the states of the threads, the ready queue,
where each thread is in `wait_queue_wait`, and `woken` of each thread's node. -/
structure World where
  waiters : List Tid
  holder : Holder
  state : Tid → ThreadState
  ready : List Tid
  place : Tid → Place
  woken : Tid → Bool

namespace World

/-- The queue after `wait_queue_init`, among threads in any states. -/
def start (state : Tid → ThreadState) (ready : List Tid) : World :=
  ⟨[], .free, state, ready, fun _ => .out, fun _ => false⟩

def schedUnblockThread (w : World) (t : Tid) : World :=
  if w.state t = .blocked then
    { w with state := update w.state t .ready, ready := w.ready ++ [t] }
  else w

def enter (w : World) (t : Tid) : World :=
  { w with waiters := w.waiters ++ [t], woken := update w.woken t false,
           place := update w.place t .entered }

/-- The locked part of `sched_block_current_thread`: a thread that was killed meanwhile exits. -/
def schedBlockCurrentThread (w : World) (t : Tid) : World :=
  if w.state t = .zombie then { w with place := update w.place t .exited }
  else { w with state := update w.state t .blocked, place := update w.place t .marked }

/-- The thread gives the CPU away in `sched_yield`. It is not `THREAD_RUNNING`, so it stays where it is. -/
def park (w : World) (t : Tid) : World := { w with place := update w.place t .parked }

/-- `sched_yield` on some CPU picks the thread from the ready queue. -/
def dispatch (w : World) (t : Tid) : World :=
  { w with state := update w.state t .running, ready := w.ready.erase t,
           place := update w.place t .resumed }

/-- The cleanup: the node leaves the queue if it is still linked. -/
def leave (w : World) (t : Tid) : World :=
  { w with waiters := w.waiters.erase t, place := update w.place t .out }

def take (w : World) (t : Tid) (rest : List Tid) (holder : Holder) : World :=
  { w with waiters := rest, woken := update w.woken t true, holder := holder }

/-- A fatal signal: the thread leaves the scheduler, and one that waits never runs again. Its node stays. -/
def kill (w : World) (t : Tid) : World :=
  { w with state := update w.state t .zombie, ready := w.ready.erase t,
           place := if w.place t = .marked ∨ w.place t = .parked then update w.place t .exited else w.place }

inductive Step : World → World → Prop
  | enter (w t) : w.holder = .free → w.place t = .out → w.state t = .running ∨ w.state t = .zombie → Step w (w.enter t)
  | block (w t) : w.place t = .entered → Step w (w.schedBlockCurrentThread t)
  | park (w t) : w.place t = .marked → Step w (w.park t)
  | dispatch (w t) : w.place t = .parked → w.state t = .ready → t ∈ w.ready → Step w (w.dispatch t)
  | leave (w t) : w.place t = .resumed → w.holder = .free → Step w (w.leave t)
  -- `wait_queue_wake_one` on an empty queue does nothing
  | takeOne (w t rest) : w.holder = .free → w.waiters = t :: rest → Step w (w.take t rest (.one t))
  | unblockOne (w t) : w.holder = .one t → Step w { w.schedUnblockThread t with holder := .free }
  | beginAll (w) : w.holder = .free → Step w { w with holder := .all w.waiters none }
  | takeAll (w covers t rest) : w.holder = .all covers none → w.waiters = t :: rest →
      Step w (w.take t rest (.all covers (some t)))
  | unblockAll (w covers t) : w.holder = .all covers (some t) →
      Step w { w.schedUnblockThread t with holder := .all covers none }
  | endAll (w covers) : w.holder = .all covers none → w.waiters = [] → Step w { w with holder := .free }
  /-- `sched_unblock_thread` from elsewhere (a signal, another queue). -/
  | unblock (w t) : Step w (w.schedUnblockThread t)
  | kill (w t) : Step w (w.kill t)

def inHand (w : World) : Option Tid :=
  match w.holder with
  | .free => none
  | .one t => some t
  | .all _ taken => taken

/-- The thread is on the ready queue, or runs and is past its block, or has left or exited. -/
def Awake (w : World) (t : Tid) : Prop :=
  (w.state t = .ready ∧ t ∈ w.ready ∧ (w.place t = .marked ∨ w.place t = .parked)) ∨
    w.place t = .resumed ∨ w.place t = .out ∨ w.place t = .exited

/-- The turn is not a waker's `sched_unblock_thread` for a thread that is still on its way to block. -/
def Timely (w w' : World) : Prop := ∀ t, w.inHand = some t → w'.inHand = none → w.place t ≠ .entered

structure Inv (w : World) : Prop where
  nodup : w.waiters.Nodup
  inside : ∀ t ∈ w.waiters, w.place t ≠ .out
  entered : ∀ t, w.place t = .entered → t ∈ w.waiters ∨ w.inHand = some t
  waiting : ∀ t, w.place t = .marked ∨ w.place t = .parked →
    (w.state t = .blocked ∧ (t ∈ w.waiters ∨ w.inHand = some t)) ∨ (w.state t = .ready ∧ t ∈ w.ready)
  covered : ∀ covers taken, w.holder = .all covers taken → ∀ t ∈ covers, t ∈ w.waiters ∨ taken = some t ∨ w.Awake t

/-! ## Each turn -/

variable {w w' : World} {t u : Tid}

@[simp] theorem waiters_unblock : (w.schedUnblockThread t).waiters = w.waiters := by
  unfold schedUnblockThread
  split <;> rfl

@[simp] theorem holder_unblock : (w.schedUnblockThread t).holder = w.holder := by
  unfold schedUnblockThread
  split <;> rfl

@[simp] theorem place_unblock : (w.schedUnblockThread t).place = w.place := by
  unfold schedUnblockThread
  split <;> rfl

theorem unblock_cases (w : World) (t u : Tid) :
    ((w.schedUnblockThread t).state u = w.state u ∧ (u ∈ w.ready → u ∈ (w.schedUnblockThread t).ready) ∧
        (u = t → w.state t ≠ .blocked)) ∨
      (u = t ∧ w.state t = .blocked ∧ (w.schedUnblockThread t).state t = .ready ∧
        t ∈ (w.schedUnblockThread t).ready) := by
  unfold schedUnblockThread
  by_cases hblock : w.state t = .blocked
  · rw [if_pos hblock]
    by_cases hu : u = t
    · subst hu
      exact .inr ⟨rfl, hblock, update_self .., by simp⟩
    · exact .inl ⟨update_of_ne hu .., fun h => mem_append_left _ h, fun heq => absurd heq hu⟩
  · rw [if_neg hblock]
    exact .inl ⟨rfl, id, fun _ => hblock⟩

theorem Awake.unblock (h : w.Awake u) : (w.schedUnblockThread t).Awake u := by
  unfold Awake at h ⊢
  rw [place_unblock]
  refine h.imp_left fun ⟨hst, hready, hplace⟩ => ?_
  rcases unblock_cases w t u with ⟨hs, hr, -⟩ | ⟨rfl, hblock, -⟩
  · exact ⟨hs.trans hst, hr hready, hplace⟩
  · rw [hst] at hblock
    cases hblock

section

variable (h : w.Inv)

include h

theorem Inv.awake_unblock (hplace : w.place t ≠ .entered) : (w.schedUnblockThread t).Awake t := by
  unfold Awake
  rw [place_unblock]
  have hwait : w.place t = .marked ∨ w.place t = .parked →
      (w.schedUnblockThread t).state t = .ready ∧ t ∈ (w.schedUnblockThread t).ready := by
    intro hp
    rcases unblock_cases w t t with ⟨hs, hr, hne⟩ | ⟨-, -, hs, hr⟩
    · rcases h.waiting t hp with ⟨hblock, -⟩ | ⟨hst, hready⟩
      · exact absurd hblock (hne rfl)
      · exact ⟨hs.trans hst, hr hready⟩
    · exact ⟨hs, hr⟩
  cases hp : w.place t with
  | out => simp
  | entered => exact absurd hp hplace
  | marked => exact .inl ⟨(hwait (.inl hp)).1, (hwait (.inl hp)).2, .inl rfl⟩
  | parked => exact .inl ⟨(hwait (.inr hp)).1, (hwait (.inr hp)).2, .inr rfl⟩
  | resumed => simp
  | exited => simp

theorem Inv.turn (t : Tid) (hnd : w'.waiters.Nodup) (hholder : w'.holder = w.holder)
    (hmem : ∀ u, u ≠ t → (u ∈ w'.waiters ↔ u ∈ w.waiters)) (hst : ∀ u, u ≠ t → w'.state u = w.state u)
    (hready : ∀ u, u ≠ t → u ∈ w.ready → u ∈ w'.ready) (hplace : ∀ u, u ≠ t → w'.place u = w.place u)
    (hins : t ∈ w'.waiters → w'.place t ≠ .out) (henter : w'.place t = .entered → t ∈ w'.waiters ∨ w'.inHand = some t)
    (hwait : w'.place t = .marked ∨ w'.place t = .parked →
      (w'.state t = .blocked ∧ (t ∈ w'.waiters ∨ w'.inHand = some t)) ∨ (w'.state t = .ready ∧ t ∈ w'.ready))
    (hcovered : ∀ covers taken, w.holder = .all covers taken → t ∈ covers →
      t ∈ w'.waiters ∨ taken = some t ∨ w'.Awake t) : w'.Inv := by
  have hhand : w'.inHand = w.inHand := by rw [inHand, inHand, hholder]
  refine ⟨hnd, fun u hu => ?_, fun u hu => ?_, fun u hu => ?_, fun covers taken hall u hu => ?_⟩ <;>
    by_cases hut : u = t
  · exact hut ▸ hins (hut ▸ hu)
  · rw [hplace u hut]
    exact h.inside u ((hmem u hut).mp hu)
  · exact hut ▸ henter (hut ▸ hu)
  · rw [hmem u hut, hhand]
    exact h.entered u (hplace u hut ▸ hu)
  · exact hut ▸ hwait (hut ▸ hu)
  · rw [hmem u hut, hhand, hst u hut]
    rw [hplace u hut] at hu
    exact (h.waiting u hu).imp_right fun ⟨hs, hr⟩ => ⟨hs, hready u hut hr⟩
  · exact hut ▸ hcovered covers taken (hholder ▸ hall) (hut ▸ hu)
  · rw [hmem u hut]
    refine (h.covered covers taken (hholder ▸ hall) u hu).imp_right (.imp_right fun hawake => ?_)
    unfold Awake at hawake ⊢
    rw [hst u hut, hplace u hut]
    exact hawake.imp_left fun ⟨hs, hr, hp⟩ => ⟨hs, hready u hut hr, hp⟩

theorem Inv.enter (hfree : w.holder = .free) (hout : w.place t = .out) : (w.enter t).Inv := by
  have hnot : t ∉ w.waiters := fun hmem => h.inside t hmem hout
  have hself : (w.enter t).place t = .entered := update_self ..
  have hin : t ∈ (w.enter t).waiters := by simp [World.enter]
  refine h.turn t ?_ rfl (fun u hut => by simp [World.enter, hut]) (fun _ _ => rfl) (fun _ _ hr => hr)
    (fun u hut => update_of_ne hut ..) (fun _ => by simp [hself]) (fun _ => .inl hin) (fun hp => ?_)
    fun covers taken hall => ?_
  · exact nodup_append.mpr ⟨h.nodup, nodup_singleton t, fun a ha b hb hab => hnot (by simp_all)⟩
  · rw [hself] at hp
    simp at hp
  · cases hfree.symm.trans hall

theorem Inv.block (henter : w.place t = .entered) : (w.schedBlockCurrentThread t).Inv := by
  -- a thread on its way to block is not awake yet
  have hcovered : ∀ covers taken, w.holder = .all covers taken → t ∈ covers → t ∈ w.waiters ∨ taken = some t := by
    intro covers taken hall hmem
    rcases h.covered covers taken hall t hmem with hq | hq | hawake
    · exact .inl hq
    · exact .inr hq
    · simp [Awake, henter] at hawake
  unfold schedBlockCurrentThread
  by_cases hzom : w.state t = .zombie
  · rw [if_pos hzom]
    have hself : update w.place t .exited t = .exited := update_self ..
    refine h.turn t h.nodup rfl (fun _ _ => .rfl) (fun _ _ => rfl) (fun _ _ hr => hr)
      (fun u hut => update_of_ne hut ..) (fun _ => by simp) (fun hp => ?_) (fun hp => ?_)
      fun covers taken hall hmem => (hcovered covers taken hall hmem).imp_right .inl
    · cases hself.symm.trans hp
    · exact hp.elim (fun hp => by cases hself.symm.trans hp) fun hp => by cases hself.symm.trans hp
  · rw [if_neg hzom]
    have hself : update w.place t .marked t = .marked := update_self ..
    refine h.turn t h.nodup rfl (fun _ _ => .rfl) (fun u hut => update_of_ne hut ..) (fun _ _ hr => hr)
      (fun u hut => update_of_ne hut ..) (fun _ => by simp) (fun hp => ?_)
      (fun _ => .inl ⟨update_self .., h.entered t henter⟩)
      fun covers taken hall hmem => (hcovered covers taken hall hmem).imp_right .inl
    cases hself.symm.trans hp

theorem Inv.park (hmark : w.place t = .marked) : (w.park t).Inv := by
  have hself : (w.park t).place t = .parked := update_self ..
  refine h.turn t h.nodup rfl (fun _ _ => .rfl) (fun _ _ => rfl) (fun _ _ hr => hr)
    (fun u hut => update_of_ne hut ..) (fun _ => by simp [hself]) (fun hp => by cases hself.symm.trans hp)
    (fun _ => h.waiting t (.inl hmark)) fun covers taken hall hmem => ?_
  refine (h.covered covers taken hall t hmem).imp_right (.imp_right fun hawake => ?_)
  simp only [Awake, hmark, reduceCtorEq, or_false, and_true] at hawake
  exact .inl ⟨hawake.1, hawake.2, .inr hself⟩

theorem Inv.dispatch : (w.dispatch t).Inv := by
  have hself : (w.dispatch t).place t = .resumed := update_self ..
  refine h.turn t h.nodup rfl (fun _ _ => .rfl) (fun u hut => update_of_ne hut ..)
    (fun u hut hr => (mem_erase_of_ne hut).mpr hr) (fun u hut => update_of_ne hut ..)
    (fun _ => by simp [hself]) (fun hp => by cases hself.symm.trans hp) (fun hp => ?_)
    fun _ _ _ _ => .inr (.inr (.inr (.inl hself)))
  rw [hself] at hp
  simp at hp

theorem Inv.leave (hfree : w.holder = .free) : (w.leave t).Inv := by
  have hself : (w.leave t).place t = .out := update_self ..
  refine h.turn t (h.nodup.erase t) rfl (fun u hut => mem_erase_of_ne hut) (fun _ _ => rfl) (fun _ _ hr => hr)
    (fun u hut => update_of_ne hut ..) (fun hmem => absurd rfl (h.nodup.mem_erase_iff.mp hmem).1)
    (fun hp => by cases hself.symm.trans hp) (fun hp => ?_) fun covers taken hall => ?_
  · rw [hself] at hp
    simp at hp
  · cases hfree.symm.trans hall

theorem Inv.kill : (w.kill t).Inv := by
  -- a thread that waits is gone, and any other stays where it is
  have hplace : (w.place t = .marked ∨ w.place t = .parked) ∧ (w.kill t).place t = .exited ∨
      ¬(w.place t = .marked ∨ w.place t = .parked) ∧ (w.kill t).place t = w.place t := by
    by_cases hwait : w.place t = .marked ∨ w.place t = .parked
    · refine .inl ⟨hwait, ?_⟩
      rw [World.kill, if_pos hwait]
      exact update_self ..
    · exact .inr ⟨hwait, by rw [World.kill, if_neg hwait]⟩
  refine h.turn t h.nodup rfl (fun _ _ => .rfl) (fun u hut => update_of_ne hut ..)
    (fun u hut hr => (mem_erase_of_ne hut).mpr hr) (fun u hut => ?_) (fun hmem => ?_) (fun hp => ?_) (fun hp => ?_)
    fun covers taken hall hmem => ?_
  · show (if _ then _ else _ : Tid → Place) u = _
    split_ifs
    · exact update_of_ne hut ..
    · rfl
  all_goals rcases hplace with ⟨-, hgone⟩ | ⟨hnot, hkept⟩
  · simp [hgone]
  · rw [hkept]
    exact h.inside t hmem
  · cases hgone.symm.trans hp
  · exact h.entered t (hkept ▸ hp)
  · simp [hgone] at hp
  · exact absurd (hkept ▸ hp) hnot
  · exact .inr (.inr (.inr (.inr (.inr hgone))))
  · refine (h.covered covers taken hall t hmem).imp_right (.imp_right fun hawake => ?_)
    unfold Awake at hawake ⊢
    rw [hkept]
    exact .inr (hawake.resolve_left fun hready => hnot hready.2.2)

theorem Inv.take {rest : List Tid} {holder : Holder} (hw : w.waiters = t :: rest) (hnone : w.inHand = none)
    (hhand : (w.take t rest holder).inHand = some t)
    (hcover : ∀ covers taken, holder = .all covers taken → w.holder = .all covers none ∧ taken = some t) :
    (w.take t rest holder).Inv := by
  have hmem : ∀ u, u ∈ w.waiters ∨ w.inHand = some u → u ∈ rest ∨ (w.take t rest holder).inHand = some u := by
    intro u hu
    rw [hnone, hw, mem_cons] at hu
    rcases hu with (rfl | hu) | hu
    · exact .inr hhand
    · exact .inl hu
    · cases hu
  have hnd := h.nodup
  rw [hw] at hnd
  refine ⟨hnd.of_cons, fun u hu => ?_, fun u hu => hmem u (h.entered u hu), fun u hu => ?_,
    fun covers taken hall u hu => ?_⟩
  · exact h.inside u (by rw [hw]; exact mem_cons_of_mem t hu)
  · exact (h.waiting u hu).imp_left fun ⟨hs, hq⟩ => ⟨hs, hmem u hq⟩
  · obtain ⟨hold, rfl⟩ := hcover covers taken hall
    rcases h.covered covers none hold u hu with hq | hq | hawake
    · rw [hw, mem_cons] at hq
      exact hq.elim (fun heq => .inr (.inl (by rw [heq]))) .inl
    · cases hq
    · exact .inr (.inr hawake)

theorem Inv.unblock {holder : Holder}
    (hhand : ∀ u, w.inHand = some u → ({ w.schedUnblockThread t with holder := holder } : World).inHand = some u ∨
      (u = t ∧ w.place t ≠ .entered))
    (hcover : ∀ covers taken, holder = .all covers taken →
      ∃ taken', w.holder = .all covers taken' ∧ (taken' = taken ∨ (taken' = some t ∧ w.place t ≠ .entered))) :
    ({ w.schedUnblockThread t with holder := holder } : World).Inv := by
  refine ⟨?_, fun u hu => ?_, fun u hu => ?_, fun u hu => ?_, fun covers taken hall u hu => ?_⟩
  · rw [waiters_unblock]
    exact h.nodup
  · rw [waiters_unblock] at hu
    rw [place_unblock]
    exact h.inside u hu
  · rw [place_unblock] at hu
    rw [waiters_unblock]
    rcases h.entered u hu with hq | hq
    · exact .inl hq
    · rcases hhand u hq with hq' | ⟨rfl, hplace⟩
      · exact .inr hq'
      · exact absurd hu hplace
  · rw [place_unblock] at hu
    rw [waiters_unblock]
    rcases unblock_cases w t u with ⟨hs, hr, hne⟩ | ⟨rfl, -, hs, hr⟩
    · rw [hs]
      rcases h.waiting u hu with ⟨hb, hq⟩ | ⟨hready, hmem⟩
      · rcases hq with hq | hq
        · exact .inl ⟨hb, .inl hq⟩
        · rcases hhand u hq with hq' | ⟨rfl, -⟩
          · exact .inl ⟨hb, .inr hq'⟩
          · exact absurd hb (hne rfl)
      · exact .inr ⟨hready, hr hmem⟩
    · exact .inr ⟨hs, hr⟩
  · obtain ⟨taken', hold, htook⟩ := hcover covers taken hall
    rw [waiters_unblock]
    rcases h.covered covers taken' hold u hu with hq | hq | hawake
    · exact .inl hq
    · rcases htook with rfl | ⟨heq, hplace⟩
      · exact .inr (.inl hq)
      · obtain rfl : u = t := Option.some.inj (hq.symm.trans heq)
        exact .inr (.inr (h.awake_unblock hplace))
    · exact .inr (.inr hawake.unblock)

theorem Inv.step (hstep : Step w w') (htimely : w.Timely w') : w'.Inv := by
  cases hstep with
  | enter t hfree hout _ => exact h.enter hfree hout
  | block t henter => exact h.block henter
  | park t hmark => exact h.park hmark
  | dispatch t hparked _ _ => exact h.dispatch
  | leave t hresumed hfree => exact h.leave hfree
  | takeOne t rest hfree hw =>
    exact h.take hw (by rw [inHand, hfree]) rfl fun covers taken heq => by cases heq
  | unblockOne t hone =>
    refine h.unblock (fun u hu => .inr ?_) fun covers taken heq => by cases heq
    have hut : u = t := by
      rw [inHand, hone] at hu
      exact (Option.some.inj hu).symm
    exact ⟨hut, hut ▸ htimely u hu rfl⟩
  | beginAll hfree =>
    have hnone : w.inHand = none := by rw [inHand, hfree]
    refine ⟨h.nodup, h.inside, fun u hu => ?_, fun u hu => ?_, fun covers taken heq u hu => ?_⟩
    · exact (h.entered u hu).imp_right fun hq => by rw [hnone] at hq; cases hq
    · refine (h.waiting u hu).imp_left fun ⟨hs, hq⟩ => ⟨hs, hq.imp_right fun hq => ?_⟩
      rw [hnone] at hq
      cases hq
    · cases heq
      exact .inl hu
  | takeAll covers t rest hall hw =>
    refine h.take hw (by rw [inHand, hall]) rfl fun covers' taken heq => ?_
    cases heq
    exact ⟨hall, rfl⟩
  | unblockAll covers t hall =>
    have htime : w.place t ≠ .entered := htimely t (by rw [inHand, hall]) rfl
    refine h.unblock (fun u hu => .inr ?_) fun covers' taken heq => ?_
    · rw [inHand, hall] at hu
      exact ⟨(Option.some.inj hu).symm, htime⟩
    · cases heq
      exact ⟨some t, hall, .inr ⟨rfl, htime⟩⟩
  | endAll covers hall hemp =>
    have hnone : w.inHand = none := by rw [inHand, hall]
    refine ⟨h.nodup, h.inside, fun u hu => ?_, fun u hu => ?_, fun covers' taken heq => by cases heq⟩
    · exact (h.entered u hu).imp_right fun hq => by rw [hnone] at hq; cases hq
    · refine (h.waiting u hu).imp_left fun ⟨hs, hq⟩ => ⟨hs, hq.imp_right fun hq => ?_⟩
      rw [hnone] at hq
      cases hq
  | unblock t =>
    have hself : w.schedUnblockThread t = { w.schedUnblockThread t with holder := w.holder } := by
      rw [← holder_unblock (w := w) (t := t)]
    rw [hself]
    exact h.unblock (fun u hu => .inl hu) fun covers taken heq => ⟨taken, heq, .inl rfl⟩
  | kill t => exact h.kill

end

/-! ## Every run -/

theorem start_inv (state : Tid → ThreadState) (ready : List Tid) : (start state ready).Inv := by
  refine ⟨nodup_nil, fun t ht => absurd ht not_mem_nil, fun t ht => ?_, fun t ht => ?_, fun _ _ hall => ?_⟩
  · cases ht
  · exact ht.elim (fun ht => by cases ht) fun ht => by cases ht
  · cases hall

/-- **Wait queues lose no wakeups, when no wake overtakes a thread on its way to block.** In every state of such a run a
thread that `wait_queue_wait` has blocked is on the queue, or a waker unblocks it next; `wait_queue_wake_one` leaves the
thread it has selected awake, and `wait_queue_wake_all` every thread that was on the queue when it took the lock. -/
theorem no_lost_wakeup (state : Tid → ThreadState) (ready : List Tid) (w : World)
    (hrun : ReflTransGen (fun w w' => Step w w' ∧ Timely w w') (start state ready) w) :
    (∀ t, w.place t = .marked ∨ w.place t = .parked → w.state t = .blocked → t ∈ w.waiters ∨ w.inHand = some t) ∧
    (∀ t, w.holder = .one t → w.place t ≠ .entered →
      ({ w.schedUnblockThread t with holder := .free } : World).Awake t) ∧
    (∀ covers, w.holder = .all covers none → w.waiters = [] → ∀ t ∈ covers, w.Awake t) := by
  have hkeep : ∀ w w' : World, w.Inv → Step w w' ∧ Timely w w' → w'.Inv :=
    fun w w' hinv hstep => hinv.step hstep.1 hstep.2
  have hinv : w.Inv := invariant_of_step hkeep (start_inv state ready) hrun
  refine ⟨fun t hplace hblocked => ?_, fun t _ hplace => hinv.awake_unblock hplace, fun covers hall hempty t ht => ?_⟩
  · rcases hinv.waiting t hplace with ⟨-, hq⟩ | ⟨hready, -⟩
    · exact hq
    · rw [hblocked] at hready
      cases hready
  · rcases hinv.covered covers none hall t ht with hq | hq | hawake
    · rw [hempty] at hq
      cases hq
    · cases hq
    · exact hawake

def oneEntered : World := (start (fun _ => .running) []).enter 0

def oneParked : World := (oneEntered.schedBlockCurrentThread 0).park 0

/-- `wait_queue_wake_all` after its loop, from a queue with thread 0. -/
def wokenAll (w : World) : World :=
  { (w.take 0 [] (.all [0] (some 0))).schedUnblockThread 0 with holder := .all [0] none }

theorem steps_wokenAll (hfree : w.holder = .free) (hw : w.waiters = [0]) : Step w { w with holder := .all [0] none } ∧
      Step { w with holder := .all [0] none } (w.take 0 [] (.all [0] (some 0))) ∧
      Step (w.take 0 [] (.all [0] (some 0))) w.wokenAll := by
  refine ⟨?_, .takeAll { w with holder := .all [0] none } [0] 0 [] rfl hw, .unblockAll _ [0] 0 rfl⟩
  rw [← hw]
  exact .beginAll w hfree

theorem no_lost_wakeup_parked : oneParked.wokenAll.Awake 0 := by
  have htimely : ∀ {w w' : World}, w.inHand = none → Timely w w' := fun hnone t ht => by cases hnone.symm.trans ht
  have hlast : Timely (oneParked.take 0 [] (.all [0] (some 0))) oneParked.wokenAll := by
    intro t ht _
    cases ht
    decide
  obtain ⟨h1, h2, h3⟩ := steps_wokenAll (w := oneParked) rfl rfl
  refine (no_lost_wakeup (fun _ => .running) [] oneParked.wokenAll ?_).2.2 [0] rfl rfl 0 List.mem_cons_self
  exact (((((ReflTransGen.refl.tail ⟨.enter _ 0 rfl rfl (.inl rfl), htimely rfl⟩).tail
    ⟨.block oneEntered 0 rfl, htimely rfl⟩).tail ⟨.park (oneEntered.schedBlockCurrentThread 0) 0 rfl, htimely rfl⟩).tail
    ⟨h1, htimely rfl⟩).tail ⟨h2, htimely rfl⟩).tail ⟨h3, hlast⟩

/-- **A wakeup is lost** when the waker comes between the two turns of the waiting thread: the wake leaves
thread 0 on its way to block, and it ends up blocked on no queue, in nobody's hands. -/
theorem wakeup_lost : ∃ w v : World, ReflTransGen Step (start (fun _ => .running) []) w ∧
    w.holder = .all [0] none ∧ w.waiters = [] ∧ ¬ w.Awake 0 ∧
    ReflTransGen Step w v ∧ v.place 0 = .parked ∧ v.state 0 = .blocked ∧ 0 ∉ v.waiters ∧ v.inHand = none := by
  obtain ⟨h1, h2, h3⟩ := steps_wokenAll (w := oneEntered) rfl rfl
  set v := (({ oneEntered.wokenAll with holder := .free } : World).schedBlockCurrentThread 0).park 0 with hv
  refine ⟨oneEntered.wokenAll, v, ?_, rfl, rfl, ?_, ?_, rfl, rfl, List.not_mem_nil, rfl⟩
  · exact (((ReflTransGen.refl.tail (.enter _ 0 rfl rfl (.inl rfl))).tail h1).tail h2).tail h3
  · intro hawake
    have hplace : oneEntered.wokenAll.place 0 = .entered := rfl
    simp [Awake, hplace] at hawake
  · exact ((ReflTransGen.refl.tail (.endAll _ [0] rfl rfl)).tail (.block _ 0 rfl)).tail (.park _ 0 rfl)

end World

end WaitQueue

end SzpontOS.Sched
