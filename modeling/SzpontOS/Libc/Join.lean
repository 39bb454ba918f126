import SzpontOS.Libc.Mutex

/-!
# Creating and joining a thread (`libc/src/pthread/pthread.c`)

The kernel clears the word `clear_child_tid` of a thread's record when the thread exits and wakes a joiner
(`thread_exit`); `pthread_join` sleeps on the word until it is 0 and then takes `retval` out of the record. A run
interleaves the steps of the creator, from `clone` in `pthread_create` to the return of `pthread_join`, with those of
the new thread (`JoinStep`).

The protocol does not work in every order. `pthread_create` stores the thread's identifier into the word *after* the
thread may have exited, and `pthread_join` reads the word twice, for its test and for the value that it hands to
`FUTEX_WAIT`. The new thread looks for its own record through its identifier and finds that of the main thread.
-/

namespace SzpontOS.Libc

open Lib Relation

/-- What the protocol uses of a `pthread_internal_t`. Pointers are addresses, and `NULL` is 0. -/
structure Record where
  tid : Int
  retval : Nat
  detached : Bool
  clearChildTid : Int
  deriving DecidableEq, Repr

inductive Creator where
  /-- in `pthread_create`, at `__clone`: the record is allocated and zeroed -/
  | clone
  /-- `t->tid = (pthread_t)child_tid` -/
  | setTid
  /-- `t->clear_child_tid = child_tid` -/
  | setWord
  /-- `*thread = t->tid`, and the record goes to the thread list -/
  | register
  /-- `pthread_create` has returned 0 -/
  | created
  /-- in `pthread_join`: the search in the thread list -/
  | lookup
  /-- `while (curr->clear_child_tid != 0)` -/
  | test
  /-- the second read of the word, for the argument of `futex_wait` -/
  | readVal
  /-- `futex_wait(&curr->clear_child_tid, val, NULL)` -/
  | wait (val : Int)
  /-- blocked in the kernel -/
  | asleep
  /-- `*retval = curr->retval` -/
  | fetch
  /-- `pthread_join` has returned 0 -/
  | joined
  /-- `pthread_join` has returned `ESRCH` or `EINVAL` -/
  | failed
  deriving DecidableEq, Repr

inductive Child where
  | unborn
  /-- in its start routine -/
  | running
  /-- in `pthread_exit(retval)`, looking for its record -/
  | findSelf (retval : Nat)
  /-- `self->retval = retval`, where `self` is the record of the main thread -/
  | storeMain (retval : Nat)
  /-- in `thread_exit`: `*clear_child_tid = 0` -/
  | clear
  /-- `futex_wake(curr->clear_child_tid, 1)` -/
  | wake
  | zombie
  /-- killed by a store to an address that is not mapped, or gone wrong by freeing `g_main_thread` -/
  | fault
  deriving DecidableEq, Repr

structure JoinWorld where
  /-- the identifier that the kernel gives to the new thread -/
  tid : Int
  /-- whether the joiner wants the thread's result -/
  wants : Bool
  record : Record
  /-- `g_main_thread` -/
  main : Record
  registered : Bool
  creator : Creator
  child : Child
  /-- the threads that sleep on the word: the creator, or none -/
  sleepers : List Unit
  /-- the pointer that the start routine returned or passed to `pthread_exit` -/
  returned : Option Nat
  /-- what `pthread_join` stored through `retval` -/
  result : Option Nat

namespace JoinWorld

/-- The creator is about to clone a joinable thread that will have the identifier `tid`. -/
def start (tid : Int) (wants : Bool) (main : Record) : JoinWorld :=
  ⟨tid, wants, ⟨0, 0, false, 0⟩, main, false, .clone, .unborn, [], none, none⟩

/-- The next step of the creator: between its calls, in `pthread_create` and in `pthread_join`. -/
def creatorStep (w : JoinWorld) : JoinWorld :=
  match w.creator with
  | .clone => { w with creator := .setTid, child := .running }
  | .setTid => { w with record := { w.record with tid := w.tid }, creator := .setWord }
  | .setWord => { w with record := { w.record with clearChildTid := w.tid }, creator := .register }
  | .register => { w with registered := true, creator := .created }
  | .created => { w with creator := .lookup }
  | .lookup =>
    if !w.registered then { w with creator := .failed } -- ESRCH
    else if w.record.detached then { w with creator := .failed } -- EINVAL
    else { w with creator := .test }
  | .test => if w.record.clearChildTid ≠ 0 then { w with creator := .readVal } else { w with creator := .fetch }
  | .readVal => { w with creator := .wait w.record.clearChildTid }
  | .wait val =>
    match futexWait w.record.clearChildTid val w.sleepers () with
    | some sleepers => { w with sleepers := sleepers, creator := .asleep }
    | none => { w with creator := .test }
  | .fetch => { w with result := if w.wants then some w.record.retval else none, creator := .joined }
  | .asleep | .joined | .failed => w

def childStep (w : JoinWorld) : JoinWorld :=
  match w.child with
  | .findSelf retval =>
    -- `self = (pthread_internal_t *)pthread_self()`: the identifier taken for an address
    if w.record.tid < 4096 then { w with child := .storeMain retval } else { w with child := .fault }
  | .storeMain retval =>
    -- `if (self->detached) free(self)`
    { w with main := { w.main with retval := retval }, child := if w.main.detached then .fault else .clear }
  | .clear => { w with record := { w.record with clearChildTid := 0 }, child := .wake }
  | .wake =>
    { w with
      sleepers := (futexWake w.sleepers 1).2
      creator := if (futexWake w.sleepers 1).1 = [] then w.creator else .test
      child := .zombie }
  | .unborn | .running | .zombie | .fault => w

end JoinWorld

open JoinWorld

inductive JoinEvent where
  | creator
  /-- the start routine returns, or calls `pthread_exit` -/
  | returns (retval : Nat)
  | child
  deriving DecidableEq

inductive JoinStep (w : JoinWorld) : JoinEvent → JoinWorld → Prop where
  | creator : JoinStep w .creator w.creatorStep
  | returns (retval : Nat) (hrunning : w.child = .running) :
      JoinStep w (.returns retval) { w with child := .findSelf retval, returned := some retval }
  | child : JoinStep w .child w.childStep

/-! ## Runs in which joining works -/

/-- `pthread_create` has stored the identifier into the word. -/
def Creator.stored : Creator → Bool
  | .clone | .setTid | .setWord => false
  | _ => true

def Child.exited : Child → Bool
  | .wake | .zombie => true
  | _ => false

/-- The order in which joining works: the routine returns `NULL` if the joiner wants its result, and the kernel clears
the word after `pthread_create` has stored the identifier there and not between the two reads of the joiner. -/
def JoinWorld.Timely (w : JoinWorld) : JoinEvent → Prop
  | .creator => True
  | .returns retval => w.wants = true → retval = 0
  | .child => w.child = .clear → w.creator.stored = true ∧ w.creator ≠ .readVal

def TimelyStep (w w' : JoinWorld) : Prop := ∃ e, w.Timely e ∧ JoinStep w e w'

def JoinWorld.Linked (w : JoinWorld) : Prop :=
  w.registered = true ∧ w.record.clearChildTid = if w.child.exited then 0 else w.tid

/-- What the creator knows at each place. -/
def JoinWorld.Knows (w : JoinWorld) : Creator → Prop
  | .clone => w.child = .unborn
  | .setTid | .setWord => w.child.exited = false
  | .register => w.record.clearChildTid = if w.child.exited then 0 else w.tid
  | .created | .lookup | .test | .failed => w.Linked
  -- the word was not 0 and has not been cleared since
  | .readVal => w.Linked ∧ w.child.exited = false
  | .wait val => w.Linked ∧ val = w.tid
  | .asleep => w.Linked ∧ w.child ≠ .zombie
  | .fetch => w.child.exited = true
  | .joined => w.child.exited = true ∧ (w.wants = true → w.result = some 0)

def Child.finished : Child → Bool
  | .unborn | .running => false
  | _ => true

structure JoinInv (w : JoinWorld) : Prop where
  tid : w.tid ≠ 0
  joinable : w.record.detached = false
  /-- nobody ever stores a result into the record -/
  retval : w.record.retval = 0
  returned : w.child.finished = true → w.wants = true → w.returned = some 0
  sleepers : w.sleepers = if w.creator = .asleep then [()] else []
  knows : w.Knows w.creator

namespace JoinInv

variable {w : JoinWorld}

theorem start {tid : Int} (htid : tid ≠ 0) (wants : Bool) (main : Record) : JoinInv (.start tid wants main) :=
  ⟨htid, rfl, rfl, fun h => absurd h Bool.false_ne_true, rfl, rfl⟩

section

variable (h : JoinInv w)

include h

theorem creatorStep : JoinInv w.creatorStep := by
  obtain ⟨htid, hjoin, hrv, hret, hsleep, hknow⟩ := h
  unfold JoinWorld.creatorStep
  cases hc : w.creator with
  | clone =>
    rw [hc] at hknow hsleep
    exact ⟨htid, hjoin, hrv, fun hf => absurd hf Bool.false_ne_true, hsleep, rfl⟩
  | setTid =>
    rw [hc] at hknow hsleep
    exact ⟨htid, hjoin, hrv, hret, hsleep, hknow⟩
  | setWord =>
    rw [hc] at hknow hsleep
    refine ⟨htid, hjoin, hrv, hret, hsleep, ?_⟩
    show w.tid = if w.child.exited then 0 else w.tid
    rw [show w.child.exited = false from hknow]
    rfl
  | register =>
    rw [hc] at hknow hsleep
    exact ⟨htid, hjoin, hrv, hret, hsleep, rfl, hknow⟩
  | created =>
    rw [hc] at hknow hsleep
    exact ⟨htid, hjoin, hrv, hret, hsleep, hknow⟩
  | lookup =>
    rw [hc] at hknow hsleep
    have hreg : w.registered = true := hknow.1
    rw [if_neg (by simp [hreg]), if_neg (by simp [hjoin])]
    exact ⟨htid, hjoin, hrv, hret, hsleep, hknow⟩
  | test =>
    rw [hc] at hknow hsleep
    have hword := hknow.2
    dsimp only
    cases hexit : w.child.exited with
    | false =>
      rw [if_pos (by rw [hword, hexit]; exact htid)]
      exact ⟨htid, hjoin, hrv, hret, hsleep, hknow, hexit⟩
    | true =>
      rw [if_neg (by rw [hword, hexit]; exact fun hne => hne rfl)]
      exact ⟨htid, hjoin, hrv, hret, hsleep, hexit⟩
  | readVal =>
    rw [hc] at hknow hsleep
    obtain ⟨hlinked, hexit⟩ := hknow
    refine ⟨htid, hjoin, hrv, hret, hsleep, hlinked, ?_⟩
    rw [hlinked.2, hexit]
    rfl
  | wait val =>
    rw [hc] at hknow hsleep
    obtain ⟨hlinked, rfl⟩ := hknow
    have hlink := hlinked.2
    dsimp only
    rw [futexWait]
    cases hexit : w.child.exited with
    | false =>
      have hword : w.record.clearChildTid = w.tid := by rw [hlink, hexit]; rfl
      rw [if_neg (not_not.mpr hword), hsleep]
      refine ⟨htid, hjoin, hrv, hret, rfl, hlinked, fun hzom => ?_⟩
      rw [show w.child = .zombie from hzom] at hexit
      exact absurd hexit (by decide)
    | true =>
      have hword : w.record.clearChildTid = 0 := by rw [hlink, hexit]; rfl
      rw [if_pos (by rw [hword]; exact htid.symm)]
      exact ⟨htid, hjoin, hrv, hret, hsleep, hlinked⟩
  | asleep =>
    exact ⟨htid, hjoin, hrv, hret, hsleep, hknow⟩
  | fetch =>
    rw [hc] at hknow hsleep
    refine ⟨htid, hjoin, hrv, hret, hsleep, hknow, fun hwants => ?_⟩
    rw [show w.wants = true from hwants, hrv]
    rfl
  | joined => exact ⟨htid, hjoin, hrv, hret, hsleep, hknow⟩
  | failed => exact ⟨htid, hjoin, hrv, hret, hsleep, hknow⟩

/-- A step of the thread that does not touch the word: what the creator knows stays true. -/
theorem move (main : Record) {c : Child} {returned : Option Nat} (hexit : c.exited = w.child.exited)
    (hborn : w.child ≠ .unborn) (hzom : w.creator = .asleep → c ≠ .zombie)
    (hret : c.finished = true → w.wants = true → returned = some 0) :
    JoinInv { w with main := main, child := c, returned := returned } := by
  refine ⟨h.tid, h.joinable, h.retval, hret, h.sleepers, ?_⟩
  have hknow := h.knows
  have hlinked : w.Linked → JoinWorld.Linked { w with main := main, child := c, returned := returned } := fun hl => by
    rw [JoinWorld.Linked, hexit]
    exact hl
  cases hc : w.creator with
  | clone =>
    rw [hc] at hknow
    exact absurd hknow hborn
  | register =>
    rw [hc] at hknow
    show w.record.clearChildTid = if c.exited then 0 else w.tid
    rw [hexit]
    exact hknow
  | readVal =>
    rw [hc] at hknow
    exact ⟨hlinked hknow.1, hexit.trans hknow.2⟩
  | wait val =>
    rw [hc] at hknow
    exact ⟨hlinked hknow.1, hknow.2⟩
  | asleep =>
    rw [hc] at hknow
    exact ⟨hlinked hknow.1, hzom hc⟩
  | joined =>
    rw [hc] at hknow
    exact ⟨hexit.trans hknow.1, hknow.2⟩
  | setTid | setWord | fetch =>
    rw [hc] at hknow
    exact hexit.trans hknow
  | created | lookup | test | failed =>
    rw [hc] at hknow
    exact hlinked hknow

theorem clear (hclear : w.child = .clear) (htime : w.creator.stored = true ∧ w.creator ≠ .readVal) :
    JoinInv { w with record := { w.record with clearChildTid := 0 }, child := .wake } := by
  obtain ⟨htid, hjoin, hrv, hret, hsleep, hknow⟩ := h
  have hexit : w.child.exited ≠ true := by
    rw [hclear]
    decide
  refine ⟨htid, hjoin, hrv, fun _ => hret (by rw [hclear]; rfl), hsleep, ?_⟩
  cases hc : w.creator with
  | clone => simp [hc, Creator.stored] at htime
  | setTid => simp [hc, Creator.stored] at htime
  | setWord => simp [hc, Creator.stored] at htime
  | readVal => exact absurd hc htime.2
  | fetch =>
    rw [hc] at hknow
    exact absurd hknow hexit
  | joined =>
    rw [hc] at hknow
    exact absurd hknow.1 hexit
  | register => rfl
  | wait val =>
    rw [hc] at hknow
    exact ⟨⟨hknow.1.1, rfl⟩, hknow.2⟩
  | asleep =>
    rw [hc] at hknow
    exact ⟨⟨hknow.1.1, rfl⟩, Child.noConfusion⟩
  | _ =>
    rw [hc] at hknow
    exact ⟨hknow.1, rfl⟩

theorem wake (hwake : w.child = .wake) : JoinInv w.childStep := by
  have hexit : w.child.exited = true := by rw [hwake]; rfl
  have hdone := h.returned (by rw [hwake]; rfl)
  have hsleep := h.sleepers
  by_cases hasleep : w.creator = .asleep
  · have hknow := h.knows
    rw [hasleep] at hknow hsleep
    have hlink : w.record.clearChildTid = 0 := hknow.1.2.trans (if_pos hexit)
    unfold childStep
    rw [hwake, hsleep]
    exact ⟨h.tid, h.joinable, h.retval, fun _ => hdone, rfl, hknow.1.1, hlink⟩
  · have hstep : w.childStep = { w with child := .zombie } := by
      rw [if_neg hasleep] at hsleep
      unfold childStep
      rw [hwake]
      simp [hsleep, futexWake]
    rw [hstep]
    refine h.move w.main hexit.symm ?_ (fun h => absurd h hasleep) fun _ => hdone
    rw [hwake]
    exact Child.noConfusion

theorem childStep (htime : w.Timely .child) : JoinInv w.childStep := by
  cases hc : w.child with
  | clear =>
    have hstep : w.childStep = { w with record := { w.record with clearChildTid := 0 }, child := .wake } := by
      unfold JoinWorld.childStep
      rw [hc]
    rw [hstep]
    exact h.clear hc (htime hc)
  | wake => exact h.wake hc
  | findSelf retval | storeMain retval =>
    have hdone := h.returned (by rw [hc]; rfl)
    unfold JoinWorld.childStep
    rw [hc]
    dsimp only
    split_ifs
    all_goals
      exact h.move _ (by rw [hc]; rfl) (by rw [hc]; exact Child.noConfusion) (fun _ => Child.noConfusion) fun _ => hdone
  | unborn | running | zombie | fault =>
    unfold JoinWorld.childStep
    rw [hc]
    exact h

theorem returns (hrun : w.child = .running) {retval : Nat} (hnull : w.wants = true → retval = 0) :
    JoinInv { w with child := .findSelf retval, returned := some retval } :=
  h.move w.main (by rw [hrun]; rfl) (by rw [hrun]; exact Child.noConfusion) (fun _ => Child.noConfusion)
    fun _ hwants => congrArg some (hnull hwants)

theorem step {w' : JoinWorld} (hstep : TimelyStep w w') : JoinInv w' := by
  obtain ⟨e, htime, hstep⟩ := hstep
  cases hstep with
  | creator => exact h.creatorStep
  | returns retval hrun => exact h.returns hrun htime
  | child => exact h.childStep htime

end

end JoinInv

theorem TimelyStep.wants {w w' : JoinWorld} (hstep : TimelyStep w w') : w'.wants = w.wants := by
  obtain ⟨e, -, hstep⟩ := hstep
  cases hstep with
  | creator =>
    unfold creatorStep
    split <;> (try split_ifs) <;> (try split) <;> rfl
  | returns retval hrun => rfl
  | child =>
    unfold childStep
    split <;> (try split_ifs) <;> rfl

/-- **Joining a thread.** In every timely run `pthread_join` returns 0 only after the thread has exited, what it stores
is what the thread returned, and the joiner does not sleep on when the thread has exited and has done its wake-up. -/
theorem join_correct {tid : Int} (htid : tid ≠ 0) (wants : Bool) (main : Record) {w : JoinWorld}
    (hrun : ReflTransGen TimelyStep (.start tid wants main) w) :
    (w.creator = .joined → w.child.exited = true) ∧
    (w.creator = .joined → wants = true → w.result.isSome = true ∧ w.result = w.returned) ∧
    ¬ (w.creator = .asleep ∧ w.child = .zombie) := by
  have hstep : ∀ v v' : JoinWorld, JoinInv v ∧ v.wants = wants → TimelyStep v v' → JoinInv v' ∧ v'.wants = wants :=
    fun _ _ hv hstep => ⟨hv.1.step hstep, hstep.wants.trans hv.2⟩
  obtain ⟨hinv, hwants⟩ := invariant_of_step hstep ⟨.start htid wants main, rfl⟩ hrun
  have hknows := hinv.knows
  refine ⟨fun hjoined => ?_, fun hjoined hw => ?_, fun ⟨hasleep, hzombie⟩ => ?_⟩
  · rw [hjoined] at hknows
    exact hknows.1
  · rw [hjoined] at hknows
    have hresult := hknows.2 (hwants.trans hw)
    have hfinished : w.child.finished = true := by
      have hexited := hknows.1
      cases hc : w.child <;> simp_all [Child.exited, Child.finished]
    exact ⟨by rw [hresult]; rfl, hresult.trans (hinv.returned hfinished (hwants.trans hw)).symm⟩
  · rw [hasleep] at hknows
    exact hknows.2 hzombie

/-! ## Three runs -/

def AnyStep (w w' : JoinWorld) : Prop := ∃ e, JoinStep w e w'

def JoinWorld.perform (w : JoinWorld) : JoinEvent → JoinWorld
  | .creator => w.creatorStep
  | .returns retval => if w.child = .running then { w with child := .findSelf retval, returned := some retval } else w
  | .child => w.childStep

theorem run_perform (es : List JoinEvent) (w : JoinWorld) : ReflTransGen AnyStep w (es.foldl perform w) := by
  induction es generalizing w with
  | nil => exact .refl
  | cons e es ih =>
    refine .trans ?_ (ih _)
    cases e with
    | creator => exact .single ⟨.creator, .creator⟩
    | child => exact .single ⟨.child, .child⟩
    | returns retval =>
      unfold perform
      split_ifs with hrun
      · exact .single ⟨.returns retval, .returns retval hrun⟩
      · exact .refl

theorem run_creator (n : Nat) (w : JoinWorld) : ReflTransGen TimelyStep w (creatorStep^[n] w) := by
  induction n generalizing w with
  | zero => exact .refl
  | succ n ih => exact .head ⟨.creator, trivial, .creator⟩ (ih _)

theorem timelyStep_child {w : JoinWorld} (htime : w.child = .clear → w.creator.stored = true ∧ w.creator ≠ .readVal) :
    TimelyStep w w.childStep := ⟨.child, htime, .child⟩

def beforeClone : JoinWorld := .start 100 true ⟨1, 0, false, 1⟩

def joinerSleeps : JoinWorld := creatorStep^[9] beforeClone

def threadLeaves : JoinWorld := { joinerSleeps with child := .findSelf 0, returned := some 0 }

def joinedAfter : JoinWorld := creatorStep^[2] (childStep^[4] threadLeaves)

theorem run_joinedAfter : ReflTransGen TimelyStep beforeClone joinedAfter := by
  have hreturn : TimelyStep joinerSleeps threadLeaves := ⟨.returns 0, fun _ => rfl, .returns 0 rfl⟩
  have hexit : ReflTransGen TimelyStep threadLeaves (.childStep^[4] threadLeaves) := by
    refine .head (timelyStep_child (by decide)) ?_
    refine .head (timelyStep_child (by decide)) ?_
    refine ReflTransGen.head (timelyStep_child fun _ => ⟨rfl, Creator.noConfusion⟩) ?_
    exact .single (timelyStep_child (by decide))
  exact (((run_creator 9 beforeClone).tail hreturn).trans hexit).trans (run_creator 2 _)

theorem join_correct_joinedAfter :
    joinedAfter.creator = .joined ∧ joinedAfter.child.exited = true ∧ joinedAfter.result = joinedAfter.returned := by
  have hjoined : joinedAfter.creator = .joined := rfl
  obtain ⟨hexited, hresult, -⟩ := join_correct (by decide) true ⟨1, 0, false, 1⟩ run_joinedAfter
  exact ⟨hjoined, hexited hjoined, (hresult hjoined rfl).2⟩

/-- The result of a thread gets lost; and the joiner sleeps for ever when the thread exits before `pthread_create` has
stored its identifier into the word, or between the two reads in `pthread_join`. -/
theorem join_fails :
    (∃ w, ReflTransGen AnyStep beforeClone w ∧ w.creator = .joined ∧ w.returned = some 42 ∧ w.result = some 0) ∧
    (∃ w, ReflTransGen AnyStep beforeClone w ∧ w.creator = .asleep ∧ w.child = .zombie ∧ w.record.clearChildTid = 100) ∧
    (∃ w, ReflTransGen AnyStep beforeClone w ∧ w.creator = .asleep ∧ w.child = .zombie ∧
      w.record.clearChildTid = 0) := by
  refine ⟨⟨_, run_perform (List.replicate 9 .creator ++ [.returns 42, .child, .child, .child, .child, .creator,
    .creator]) _, rfl, rfl, rfl⟩, ⟨_, run_perform ([.creator, .returns 0, .child, .child, .child, .child] ++
    List.replicate 8 .creator) _, rfl, rfl, rfl⟩, ⟨_, run_perform (List.replicate 7 .creator ++ [.returns 0, .child,
    .child, .child, .child, .creator, .creator]) _, rfl, rfl, rfl⟩⟩

end SzpontOS.Libc
