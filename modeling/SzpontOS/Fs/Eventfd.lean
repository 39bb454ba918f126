import Mathlib.Tactic

/-!
# Event counters (`fs/eventfd.c`)

A write adds to a counter of 64 bits, and a read takes all of it, or one with `EFD_SEMAPHORE`. A round of either loop runs
under the counter's lock, so whatever the threads do is a list of rounds.
-/

namespace SzpontOS.Fs.Eventfd

structure Ctx where
  val : BitVec 64
  flags : BitVec 32

def efdSemaphore : BitVec 32 := 0x1
def efdNonblock : BitVec 32 := 0x800
def eventfdValMax : BitVec 64 := 0xFFFFFFFFFFFFFFFE

/-- A round of `eventfd_vfs_read`: the counter after it, `return_val`, and the result of the call, none if it waits.
`nonblock` is the flag of the descriptor, and `stored` that the buffer can be written. -/
def vfsRead (ctx : Ctx) (size : Nat) (nonblock stored : Bool) : Ctx × BitVec 64 × Option Int :=
  if size < 8 then (ctx, 0, some (-22))
  else if ctx.val > 0 then
    let (returnVal, val) := if ctx.flags &&& efdSemaphore ≠ 0 then (1, ctx.val - 1) else (ctx.val, 0)
    ({ ctx with val }, returnVal, some (if stored then 8 else -14))
  else (ctx, 0, if ctx.flags &&& efdNonblock ≠ 0 ∨ nonblock then some (-11) else none)

/-- A round of `eventfd_vfs_write`: the counter after it and the result; `buffer` is none if it cannot be read. -/
def vfsWrite (ctx : Ctx) (size : Nat) (buffer : Option (BitVec 64)) (nonblock : Bool) : Ctx × Option Int :=
  if size < 8 then (ctx, some (-22))
  else match buffer with
    | none => (ctx, some (-14))
    | some addVal =>
      if addVal = 0xFFFFFFFFFFFFFFFF then (ctx, some (-22))
      else if eventfdValMax - ctx.val ≥ addVal then ({ ctx with val := ctx.val + addVal }, some 8)
      else (ctx, if ctx.flags &&& efdNonblock ≠ 0 ∨ nonblock then some (-11) else none)

inductive Round
  | read (size : Nat) (nonblock stored : Bool)
  | write (size : Nat) (buffer : Option (BitVec 64)) (nonblock : Bool)

/-- The counter, what callers added and got by the results of their calls, and what reads took but could not store. -/
structure Log where
  ctx : Ctx
  added : Nat
  got : Nat
  lost : Nat

/-- The counter that `sys_eventfd2` makes. -/
def Log.start (initval flags : BitVec 32) : Log := ⟨⟨initval.setWidth 64, flags⟩, 0, 0, 0⟩

def Log.round (l : Log) : Round → Log
  | .read size nonblock stored =>
    let (ctx, returnVal, result) := vfsRead l.ctx size nonblock stored
    { l with
      ctx
      got := if result = some 8 then l.got + returnVal.toNat else l.got
      lost := if result = some (-14) then l.lost + returnVal.toNat else l.lost }
  | .write size buffer nonblock =>
    let (ctx, result) := vfsWrite l.ctx size buffer nonblock
    { l with ctx, added := if result = some 8 then l.added + (buffer.getD 0).toNat else l.added }

structure Balanced (initval : BitVec 32) (l : Log) : Prop where
  sum : initval.toNat + l.added = l.ctx.val.toNat + l.got + l.lost
  max : l.ctx.val ≤ eventfdValMax

theorem vfsRead_cases (ctx : Ctx) (size : Nat) (nonblock stored : Bool) :
    (∃ result, vfsRead ctx size nonblock stored = (ctx, 0, result)) ∨
    ∃ val returnVal, vfsRead ctx size nonblock stored = ({ ctx with val }, returnVal, some (if stored then 8 else -14)) ∧
      val.toNat + returnVal.toNat = ctx.val.toNat := by
  unfold vfsRead
  by_cases hsize : size < 8
  · exact .inl ⟨_, if_pos hsize⟩
  rw [if_neg hsize]
  by_cases hval : ctx.val > 0
  · rw [if_pos hval]
    by_cases hsem : ctx.flags &&& efdSemaphore ≠ 0
    · rw [if_pos hsem]
      exact .inr ⟨_, _, rfl, by bv_omega⟩
    · rw [if_neg hsem]
      exact .inr ⟨_, _, rfl, by bv_omega⟩
  · exact .inl ⟨_, if_neg hval⟩

theorem vfsWrite_cases {ctx : Ctx} (hmax : ctx.val ≤ eventfdValMax) (size : Nat) (buffer : Option (BitVec 64))
    (nonblock : Bool) :
    (∃ result, result ≠ some 8 ∧ vfsWrite ctx size buffer nonblock = (ctx, result)) ∨
    ∃ addVal val, buffer = some addVal ∧ vfsWrite ctx size buffer nonblock = ({ ctx with val }, some 8) ∧
      val.toNat = ctx.val.toNat + addVal.toNat ∧ val ≤ eventfdValMax := by
  unfold vfsWrite
  by_cases hsize : size < 8
  · exact .inl ⟨_, by simp, if_pos hsize⟩
  rw [if_neg hsize]
  cases buffer with
  | none => exact .inl ⟨_, by simp, rfl⟩
  | some addVal =>
    dsimp only
    by_cases hreserved : addVal = 0xFFFFFFFFFFFFFFFF
    · exact .inl ⟨_, by simp, if_pos hreserved⟩
    rw [if_neg hreserved]
    by_cases hroom : eventfdValMax - ctx.val ≥ addVal
    · rw [if_pos hroom]
      unfold eventfdValMax at hmax hroom ⊢
      exact .inr ⟨_, _, rfl, rfl, by bv_omega, by bv_omega⟩
    · exact .inl ⟨_, by split_ifs <;> simp, if_neg hroom⟩

theorem Balanced.round {initval l} (h : Balanced initval l) (r : Round) : Balanced initval (l.round r) := by
  obtain ⟨hsum, hmax⟩ := h
  cases r with
  | read size nonblock stored =>
    dsimp only [Log.round]
    rcases vfsRead_cases l.ctx size nonblock stored with ⟨result, hread⟩ | ⟨val, returnVal, hread, htaken⟩
    · rw [hread]
      exact ⟨by simpa using hsum, hmax⟩
    · rw [hread]
      refine ⟨?_, by dsimp only; bv_omega⟩
      cases stored <;> simp <;> omega
  | write size buffer nonblock =>
    dsimp only [Log.round]
    rcases vfsWrite_cases hmax size buffer nonblock with ⟨result, hfail, hwrite⟩ | ⟨addVal, val, rfl, hwrite, hadd, hle⟩
    · rw [hwrite]
      exact ⟨by simpa [hfail] using hsum, hmax⟩
    · rw [hwrite]
      refine ⟨?_, hle⟩
      simp
      omega

/-- **Event counters.** In every run the counter does not overflow, and what was added is in it, was read once, or was lost
in a read that could not store it. -/
theorem events_conserved (initval flags : BitVec 32) (rounds : List Round) :
    Balanced initval (rounds.foldl Log.round (.start initval flags)) := by
  have hlt := initval.isLt
  refine List.foldlRecOn rounds _ ⟨?_, ?_⟩ fun l h r _ => h.round r
  · simp only [Log.start, BitVec.toNat_setWidth]
    omega
  · simp only [Log.start, eventfdValMax]
    bv_omega

end SzpontOS.Fs.Eventfd
