import SzpontOS.Lib.Linked
import SzpontOS.Lib.Run

/-!
# The block cache

The buffer cache of `fs/bcache.c`: a pool of `BCACHE_ENTRIES` buffers, all on the list of least recently used buffers
(`lru_next`, `lru_prev`), those that hold a block also on the chain of its hash bucket (`hash_next`, `hash_prev`). A
buffer is named by its index in the pool. The links are gathered in `Bcache.lru` and `Bcache.hash`, and the bytes on the
devices are part of the state, since the cache writes blocks back on its own.

`Bcache.Ok` is what the operations keep: the LRU list holds the whole pool, the chains hold the valid buffers, each in
the bucket of its block, and a block has at most one of them.
-/

namespace SzpontOS.Fs

open SzpontOS.Lib List

abbrev Bytes := Nat → BitVec 8

@[irreducible] def bcacheEntries : Nat := 512

def bcacheMaxBlockSize : Nat := 4096

/-- `block_device_t` as the cache uses it; `addr` is the value of the pointer, which the hash reads. The operations take
the first sector and the number of sectors and return the status and what they have changed. -/
structure BlockDevice where
  addr : BitVec 64
  sectorSize : Nat
  readBlocks : (lba count : Nat) → (stored : Bytes) → (buffer : Bytes) → Int × Bytes
  writeBlocks : Option ((lba count : Nat) → (buffer : Bytes) → (stored : Bytes) → Int × Bytes)

/-- `buffer_t` without its link fields. -/
structure Buffer (Dev : Type) where
  dev : Option Dev
  blockNo : BitVec 32
  blockSize : Nat
  dirty : Bool
  valid : Bool
  refcount : BitVec 32
  data : Bytes

/-- The cache (`g_bcache_pool`, `g_lru_head` and `g_lru_tail` with the LRU links, `g_bcache_hash` with the
chain links) and the bytes on the devices. -/
structure Bcache (Dev : Type) where
  pool : Nat → Buffer Dev
  lru : Dll Nat
  hash : Chains Nat Nat
  media : Dev → Bytes

variable {Dev : Type} (device : Dev → BlockDevice)

def bcacheCalcHash (d : Dev) (blockNo : BitVec 32) : Nat :=
  (((device d).addr >>> 4 ^^^ blockNo.setWidth 64 ^^^ (blockNo >>> 8).setWidth 64) &&& 255).toNat

namespace Bcache

def setBuf (s : Bcache Dev) (i : Nat) (b : Buffer Dev) : Bcache Dev :=
  { s with pool := Function.update s.pool i b }

/-- `lru_touch`: `lru_unlink` and `lru_insert_tail`. -/
def lruTouch (s : Bcache Dev) (i : Nat) : Bcache Dev :=
  { s with lru := (s.lru.unlink i).pushBack i }

def hashInsert (s : Bcache Dev) (i : Nat) : Bcache Dev :=
  match (s.pool i).dev with
  | none => s
  | some d => { s with hash := s.hash.pushFront (bcacheCalcHash device d (s.pool i).blockNo) i }

def hashUnlink (s : Bcache Dev) (i : Nat) : Bcache Dev :=
  match (s.pool i).dev with
  | none => s
  | some d => { s with hash := s.hash.unlink (bcacheCalcHash device d (s.pool i).blockNo) i }

end Bcache

/-- `bcache_init`, on devices that hold `media`. -/
def bcacheInit (media : Dev → Bytes) : Bcache Dev where
  pool := fun _ => ⟨none, 0, 0, false, false, 0, fun _ => 0⟩
  lru := (List.range bcacheEntries).foldl Dll.pushBack ⟨⟨fun _ => none, fun _ => none⟩, none, none⟩
  hash := ⟨⟨fun _ => none, fun _ => none⟩, fun _ => none⟩
  media := media

/-- The first sector of a block; a block has at most `BCACHE_MAX_BLOCK_SIZE` bytes, so the product keeps far
below the 64 bits it is computed in. -/
def blockLba (d : Dev) (blockNo : BitVec 32) (blockSize : Nat) : Nat :=
  blockNo.toNat * (blockSize / (device d).sectorSize)

def blockCount (d : Dev) (blockSize : Nat) : Nat := blockSize / (device d).sectorSize

section Operations

variable [DecidableEq Dev]

namespace Bcache

/-- `dev->write_blocks` on the block of buffer `i`, for a device that has the operation. -/
def writeBlock (s : Bcache Dev) (i : Nat) (d : Dev) (write : Nat → Nat → Bytes → Bytes → Int × Bytes) :
    Int × Bcache Dev :=
  let b := s.pool i
  let r := write (blockLba device d b.blockNo b.blockSize) (blockCount device d b.blockSize) b.data (s.media d)
  (r.1, { s with media := Function.update s.media d r.2 })

/-- The block of a dirty buffer written back, whatever the device answers, and the buffer marked clean. -/
def writeBack (s : Bcache Dev) (i : Nat) (d : Dev) : Bcache Dev :=
  match (device d).writeBlocks with
  | none => s
  | some write => (s.writeBlock device i d write).2.setBuf i { s.pool i with dirty := false }

/-- The lookup of `bread`: the walk along the chain of the block's bucket. -/
def lookup (s : Bcache Dev) (d : Dev) (blockNo : BitVec 32) (blockSize : Nat) : Option Nat :=
  s.hash.links.find (fun i => (s.pool i).valid && (s.pool i).dev == some d && (s.pool i).blockNo == blockNo &&
    (s.pool i).blockSize == blockSize) bcacheEntries (s.hash.heads (bcacheCalcHash device d blockNo))

/-- The search of `bread` for an unreferenced buffer, the least recently used one first. -/
def victim (s : Bcache Dev) : Option Nat :=
  s.lru.links.find (fun i => (s.pool i).refcount == 0) bcacheEntries s.lru.head

/-- Step 3 of `bread`: the victim is written back if it is dirty, and leaves its bucket. -/
def evict (s : Bcache Dev) (i : Nat) : Bcache Dev :=
  match (s.pool i).dev with
  | none => s
  | some d =>
    if (s.pool i).valid then
      hashUnlink device (if (s.pool i).dirty then s.writeBack device i d else s) i
    else s

/-- Step 4 of `bread`: the victim set up for the new block. -/
def configure (s : Bcache Dev) (i : Nat) (d : Dev) (blockNo : BitVec 32) (blockSize : Nat) : Bcache Dev :=
  let s := s.setBuf i { s.pool i with
    dev := some d, blockNo := blockNo, blockSize := blockSize, refcount := 1, dirty := false, valid := false }
  (s.hashInsert device i).lruTouch i

/-- The end of `bread`: the block is read, and a buffer that cannot be filled leaves its bucket again. -/
def fill (s : Bcache Dev) (i : Nat) (d : Dev) : Bcache Dev × Option Nat :=
  let b := s.pool i
  let r := (device d).readBlocks (blockLba device d b.blockNo b.blockSize) (blockCount device d b.blockSize)
    (s.media d) b.data
  if r.1 = 0 then (s.setBuf i { b with data := r.2, valid := true }, some i)
  else ((s.setBuf i { b with data := r.2, valid := false, refcount := 0 }).hashUnlink device i, none)

end Bcache

open Bcache

def bread (s : Bcache Dev) (dev : Option Dev) (blockNo : BitVec 32) (blockSize : Nat) : Bcache Dev × Option Nat :=
  match dev with
  | none => (s, none)
  | some d =>
    if blockSize > bcacheMaxBlockSize ∨ blockSize = 0 ∨ (device d).sectorSize = 0 then (s, none)
    else
      match s.lookup device d blockNo blockSize with
      | some i => ((s.setBuf i { s.pool i with refcount := (s.pool i).refcount + 1 }).lruTouch i, some i)
      | none =>
        match s.victim with
        | none => (s, none)
        | some i => ((s.evict device i).configure device i d blockNo blockSize).fill device i d

def bwrite (s : Bcache Dev) (buf : Option Nat) : Int × Bcache Dev :=
  match buf with
  | none => (-1, s)
  | some i =>
    match (s.pool i).dev with
    | none => (-1, s)
    | some d =>
      match (device d).writeBlocks with
      | none => (-1, s)
      | some write =>
        if (device d).sectorSize = 0 then (-1, s)
        else
          let r := s.writeBlock device i d write
          (r.1, if r.1 = 0 then r.2.setBuf i { s.pool i with dirty := false } else r.2)

def brelse (s : Bcache Dev) (buf : Option Nat) : Bcache Dev :=
  match buf with
  | none => s
  | some i =>
    if 0 < (s.pool i).refcount then s.setBuf i { s.pool i with refcount := (s.pool i).refcount - 1 } else s

/-- One buffer's turn in `bflush`. -/
def bflushOne (dev : Option Dev) (s : Bcache Dev) (i : Nat) : Bcache Dev :=
  match (s.pool i).dev with
  | none => s
  | some d =>
    if (s.pool i).valid ∧ (s.pool i).dirty ∧ (dev = none ∨ dev = some d) ∧ 0 < (device d).sectorSize then
      s.writeBack device i d
    else s

def bflush (s : Bcache Dev) (dev : Option Dev) : Bcache Dev :=
  (List.range bcacheEntries).foldl (bflushOne device dev) s

def storeData (s : Bcache Dev) (i : Nat) (data : Bytes) : Bcache Dev := s.setBuf i { s.pool i with data := data }

/-- A holder sets `dirty`. -/
def markDirty (s : Bcache Dev) (i : Nat) : Bcache Dev := s.setBuf i { s.pool i with dirty := true }

end Operations

/-! ## What the lists hold -/

namespace Bcache

def Caches (s : Bcache Dev) (i : Nat) (d : Dev) (blockNo : BitVec 32) : Prop :=
  (s.pool i).valid = true ∧ (s.pool i).dev = some d ∧ (s.pool i).blockNo = blockNo

/-- The chains hold exactly the buffers of `on`, each in the bucket of its block. -/
def Hashed (s : Bcache Dev) (on : Nat → Prop) : Prop :=
  ∃ bucket, s.hash.Holds bucket ∧ ∀ h i, i ∈ bucket h ↔
    on i ∧ ∃ d, (s.pool i).dev = some d ∧ bcacheCalcHash device d (s.pool i).blockNo = h

/-- **The lists and the buffers between two operations.** `order` is the LRU list. -/
structure Ok (size : Dev → Nat) (s : Bcache Dev) (order : List Nat) : Prop where
  lru : s.lru.Holds order
  whole : ∀ i, i ∈ order ↔ i < bcacheEntries
  hashed : s.Hashed device fun i => i < bcacheEntries ∧ (s.pool i).valid = true
  named : ∀ i, i < bcacheEntries → (s.pool i).valid = true →
    ∃ d, (s.pool i).dev = some d ∧ (s.pool i).blockSize = size d
  unique : ∀ i j d no, i < bcacheEntries → j < bcacheEntries → s.Caches i d no → s.Caches j d no → i = j

variable {device} {s s' : Bcache Dev} {on on' : Nat → Prop} {size : Dev → Nat} {order : List Nat} {i : Nat} {d : Dev}
  {no : BitVec 32}

@[simp] theorem pool_setBuf_self (b : Buffer Dev) : (s.setBuf i b).pool i = b := by
  simp [setBuf]

theorem pool_setBuf_of_ne (b : Buffer Dev) {j : Nat} (h : j ≠ i) : (s.setBuf i b).pool j = s.pool j := by
  simp [setBuf, h]

@[simp] theorem pool_hashUnlink : (s.hashUnlink device i).pool = s.pool := by unfold hashUnlink; split <;> rfl

@[simp] theorem lru_hashUnlink : (s.hashUnlink device i).lru = s.lru := by unfold hashUnlink; split <;> rfl

@[simp] theorem media_hashUnlink : (s.hashUnlink device i).media = s.media := by unfold hashUnlink; split <;> rfl

@[simp] theorem pool_hashInsert : (s.hashInsert device i).pool = s.pool := by unfold hashInsert; split <;> rfl

@[simp] theorem lru_hashInsert : (s.hashInsert device i).lru = s.lru := by unfold hashInsert; split <;> rfl

@[simp] theorem media_hashInsert : (s.hashInsert device i).media = s.media := by unfold hashInsert; split <;> rfl

theorem Hashed.congr (h : s.Hashed device on) (hhash : s'.hash = s.hash) (hon : ∀ i, on' i ↔ on i)
    (hsame : ∀ i, on i → (s'.pool i).dev = (s.pool i).dev ∧ (s'.pool i).blockNo = (s.pool i).blockNo) :
    s'.Hashed device on' := by
  obtain ⟨bucket, hbucket, hmem⟩ := h
  refine ⟨bucket, hhash ▸ hbucket, fun h i => ?_⟩
  rw [hmem, hon]
  refine and_congr_right fun hi => ?_
  rw [(hsame i hi).1, (hsame i hi).2]

theorem Hashed.unlink (h : s.Hashed device on) (hi : on i) (hdev : (s.pool i).dev = some d) :
    (s.hashUnlink device i).Hashed device fun j => on j ∧ j ≠ i := by
  obtain ⟨bucket, hbucket, hmem⟩ := h
  obtain ⟨bucket', hholds, hmem'⟩ := hbucket.exists_unlink ((hmem _ i).mpr ⟨hi, d, hdev, rfl⟩)
  refine ⟨bucket', ?_, fun h j => ?_⟩
  · rw [hashUnlink, hdev]
    exact hholds
  · rw [hmem', hmem, pool_hashUnlink]
    tauto

theorem Hashed.insert (h : s.Hashed device on) (hi : ¬ on i) (hdev : (s.pool i).dev = some d) :
    (s.hashInsert device i).Hashed device fun j => on j ∨ j = i := by
  obtain ⟨bucket, hbucket, hmem⟩ := h
  obtain ⟨bucket', hholds, hmem'⟩ := hbucket.exists_pushFront (fun h hin => hi ((hmem h i).mp hin).1)
    (bcacheCalcHash device d (s.pool i).blockNo)
  refine ⟨bucket', ?_, fun h j => ?_⟩
  · rw [hashInsert, hdev]
    exact hholds
  · rw [hmem', hmem, pool_hashInsert]
    constructor
    · rintro (⟨hj, hd⟩ | ⟨rfl, rfl⟩)
      · exact ⟨.inl hj, hd⟩
      · exact ⟨.inr rfl, d, hdev, rfl⟩
    · rintro ⟨hj | rfl, hd⟩
      · exact .inl ⟨hj, hd⟩
      · obtain ⟨d', hd', hh⟩ := hd
        cases hdev.symm.trans hd'
        exact .inr ⟨hh.symm, rfl⟩

theorem length_le_entries {xs : List Nat} (hnd : xs.Nodup) (hlt : ∀ i ∈ xs, i < bcacheEntries) :
    xs.length ≤ bcacheEntries := by
  have hsub : xs ⊆ List.range bcacheEntries := fun i hi => mem_range.mpr (hlt i hi)
  have := (hnd.subperm hsub).length_le
  rwa [length_range] at this

section Lookup

variable [DecidableEq Dev]

section

variable (h : s.Ok device size order)

include h

theorem Ok.lookup_eq (d : Dev) (no : BitVec 32) :
    ∃ bucket : List Nat, (∀ i, i ∈ bucket ↔ (i < bcacheEntries ∧ (s.pool i).valid = true) ∧
        ∃ e, (s.pool i).dev = some e ∧ bcacheCalcHash device e (s.pool i).blockNo = bcacheCalcHash device d no) ∧
      ∀ n, s.lookup device d no n = bucket.find? fun i => (s.pool i).valid && (s.pool i).dev == some d &&
        (s.pool i).blockNo == no && (s.pool i).blockSize == n := by
  obtain ⟨bucket, hbucket, hmem⟩ := h.hashed
  refine ⟨bucket (bcacheCalcHash device d no), fun i => hmem _ i, fun n => ?_⟩
  exact hbucket.find _ (length_le_entries (hbucket.nodup _) fun i hi => ((hmem _ i).mp hi).1.1)

theorem Ok.lookup_some {n : Nat} (hi : s.lookup device d no n = some i) : i < bcacheEntries ∧ s.Caches i d no := by
  obtain ⟨bucket, hmem, hfind⟩ := h.lookup_eq d no
  rw [hfind] at hi
  have htest := find?_some hi
  simp only [Bool.and_eq_true, beq_iff_eq] at htest
  exact ⟨((hmem i).mp (mem_of_find?_eq_some hi)).1.1, htest.1.1.1, htest.1.1.2, htest.1.2⟩

theorem Ok.lookup_none (hnone : s.lookup device d no (size d) = none) (hi : i < bcacheEntries) : ¬ s.Caches i d no := by
  intro ⟨hval, hdev, hno⟩
  obtain ⟨bucket, hmem, hfind⟩ := h.lookup_eq d no
  obtain ⟨e, hdev', hsize⟩ := h.named i hi hval
  cases hdev.symm.trans hdev'
  have hin : i ∈ bucket := (hmem i).mpr ⟨⟨hi, hval⟩, d, hdev, by rw [hno]⟩
  rw [hfind, find?_eq_none] at hnone
  exact hnone i hin (by simp [hval, hdev, hno, hsize])

theorem Ok.lookup_of_miss {n : Nat} (hmiss : ∀ j, j < bcacheEntries → ¬ s.Caches j d no) :
    s.lookup device d no n = none := by
  cases hlook : s.lookup device d no n with
  | none => rfl
  | some j => exact absurd (h.lookup_some hlook).2 (hmiss j (h.lookup_some hlook).1)

end

end Lookup

section

variable (h : s.Ok device size order)

include h

theorem Ok.victim_eq : s.victim = order.find? fun i => (s.pool i).refcount == 0 :=
  h.lru.find (length_le_entries h.lru.nodup fun i hi => (h.whole i).mp hi)

theorem Ok.victim_some (hi : s.victim = some i) : i < bcacheEntries ∧ (s.pool i).refcount = 0 := by
  rw [h.victim_eq] at hi
  exact ⟨(h.whole i).mp (mem_of_find?_eq_some hi), by simpa using find?_some hi⟩

theorem Ok.congr (hlru : s'.lru = s.lru) (hhash : s'.hash = s.hash)
    (hsame : ∀ i, (s'.pool i).valid = (s.pool i).valid ∧ (s'.pool i).dev = (s.pool i).dev ∧
      (s'.pool i).blockNo = (s.pool i).blockNo ∧ (s'.pool i).blockSize = (s.pool i).blockSize) :
    s'.Ok device size order := by
  have hcach : ∀ {i d no}, s'.Caches i d no → s.Caches i d no := by
    intro i d no ⟨hval, hdev, hno⟩
    obtain ⟨h1, h2, h3, _⟩ := hsame i
    exact ⟨h1 ▸ hval, h2 ▸ hdev, h3 ▸ hno⟩
  refine ⟨hlru ▸ h.lru, h.whole, ?_, fun i hi hval => ?_, fun i j d no hi hj hci hcj => ?_⟩
  · exact h.hashed.congr hhash (fun i => by rw [(hsame i).1]) fun i _ => ⟨(hsame i).2.1, (hsame i).2.2.1⟩
  · obtain ⟨h1, h2, _, h4⟩ := hsame i
    rw [h2, h4]
    exact h.named i hi (h1 ▸ hval)
  · exact h.unique i j d no hi hj (hcach hci) (hcach hcj)

theorem Ok.setBuf {b : Buffer Dev} (hval : b.valid = (s.pool i).valid) (hdev : b.dev = (s.pool i).dev)
    (hno : b.blockNo = (s.pool i).blockNo) (hsize : b.blockSize = (s.pool i).blockSize) :
    (s.setBuf i b).Ok device size order := by
  refine h.congr rfl rfl fun j => ?_
  by_cases hj : j = i
  · subst hj
    rw [pool_setBuf_self]
    exact ⟨hval, hdev, hno, hsize⟩
  · rw [pool_setBuf_of_ne b hj]
    exact ⟨rfl, rfl, rfl, rfl⟩

theorem Ok.lruTouch (hi : i < bcacheEntries) : (s.lruTouch i).Ok device size (order.erase i ++ [i]) := by
  have hmem := (h.whole i).mpr hi
  refine ⟨h.lru.touch hmem, fun j => ?_, h.hashed, h.named, h.unique⟩
  rw [← h.whole j, mem_append, mem_singleton, h.lru.nodup.mem_erase_iff]
  by_cases hj : j = i
  · simp [hj, hmem]
  · simp [hj]

end

/-! ## A miss -/

section Miss

variable [DecidableEq Dev]

theorem writeBack_frame (device : Dev → BlockDevice) (s : Bcache Dev) (i : Nat) (d : Dev) :
    (s.writeBack device i d).lru = s.lru ∧ (s.writeBack device i d).hash = s.hash ∧
    (∀ j, j ≠ i → (s.writeBack device i d).pool j = s.pool j) ∧
    ∃ b, (s.writeBack device i d).pool i = { s.pool i with dirty := b } := by
  unfold writeBack
  split
  · exact ⟨rfl, rfl, fun _ _ => rfl, (s.pool i).dirty, rfl⟩
  · exact ⟨rfl, rfl, fun j hj => pool_setBuf_of_ne _ hj, false, pool_setBuf_self _⟩

theorem evict_frame (device : Dev → BlockDevice) (s : Bcache Dev) (i : Nat) :
    (s.evict device i).lru = s.lru ∧ ∀ j, j ≠ i → (s.evict device i).pool j = s.pool j := by
  unfold evict
  split
  · exact ⟨rfl, fun _ _ => rfl⟩
  · rename_i d _
    split
    · rw [lru_hashUnlink, pool_hashUnlink]
      split
      · have hframe := writeBack_frame device s i d
        exact ⟨hframe.1, hframe.2.2.1⟩
      · exact ⟨rfl, fun _ _ => rfl⟩
    · exact ⟨rfl, fun _ _ => rfl⟩

theorem Ok.evict_hashed (h : s.Ok device size order) (hi : i < bcacheEntries) :
    (s.evict device i).Hashed device fun j => (j < bcacheEntries ∧ (s.pool j).valid = true) ∧ j ≠ i := by
  have hskip : (s.pool i).valid = false →
      s.Hashed device fun j => (j < bcacheEntries ∧ (s.pool j).valid = true) ∧ j ≠ i := by
    intro hinv
    refine h.hashed.congr rfl (fun j => ⟨fun hj => hj.1, fun hj => ⟨hj, ?_⟩⟩) fun _ _ => ⟨rfl, rfl⟩
    intro heq
    rw [heq, hinv] at hj
    exact absurd hj.2 (by decide)
  unfold evict
  cases hdev : (s.pool i).dev with
  | none =>
    refine hskip ?_
    by_contra hval
    obtain ⟨d, hd, _⟩ := h.named i hi (by simpa using hval)
    rw [hdev] at hd
    cases hd
  | some d =>
    by_cases hval : (s.pool i).valid = true
    · simp only [hval, if_true]
      cases hdirty : (s.pool i).dirty with
      | false => exact h.hashed.unlink ⟨hi, hval⟩ hdev
      | true =>
        obtain ⟨-, hhash, hrest, b, hself⟩ := writeBack_frame device s i d
        have hsame : ∀ j, (j < bcacheEntries ∧ (s.pool j).valid = true) →
            ((s.writeBack device i d).pool j).dev = (s.pool j).dev ∧
              ((s.writeBack device i d).pool j).blockNo = (s.pool j).blockNo := by
          intro j _
          by_cases hj : j = i
          · subst hj
            rw [hself]
            exact ⟨rfl, rfl⟩
          · rw [hrest j hj]
            exact ⟨rfl, rfl⟩
        have hback := h.hashed.congr hhash (fun _ => Iff.rfl) hsame
        exact hback.unlink ⟨hi, hval⟩ (by rw [hself]; exact hdev)
    · simp only [hval]
      exact hskip (by simpa using hval)

theorem Ok.configure (h : s.Ok device size order) (hi : i < bcacheEntries) (d : Dev) (no : BitVec 32) (n : Nat) :
    ((s.evict device i).configure device i d no n).lru.Holds (order.erase i ++ [i]) ∧
    ((s.evict device i).configure device i d no n).pool = Function.update s.pool i
      ⟨some d, no, n, false, false, 1, ((s.evict device i).pool i).data⟩ ∧
    ((s.evict device i).configure device i d no n).media = (s.evict device i).media ∧
    ((s.evict device i).configure device i d no n).Hashed device fun j =>
      ((j < bcacheEntries ∧ (s.pool j).valid = true) ∧ j ≠ i) ∨ j = i := by
  obtain ⟨hlru, hrest⟩ := evict_frame device s i
  set s1 := s.evict device i with hs1
  set s2 := s1.setBuf i ⟨some d, no, n, false, false, 1, (s1.pool i).data⟩ with hs2
  have hhash : s2.Hashed device fun j => (j < bcacheEntries ∧ (s.pool j).valid = true) ∧ j ≠ i := by
    refine (h.evict_hashed hi).congr rfl (fun _ => Iff.rfl) fun j hj => ?_
    rw [hs2, pool_setBuf_of_ne _ hj.2]
    exact ⟨rfl, rfl⟩
  refine ⟨?_, ?_, ?_, ?_⟩
  · show ((((s2.hashInsert device i).lru).unlink i).pushBack i).Holds _
    rw [lru_hashInsert, show s2.lru = s.lru from hlru]
    exact h.lru.touch ((h.whole i).mpr hi)
  · show (s2.hashInsert device i).pool = _
    rw [pool_hashInsert]
    funext j
    by_cases hj : j = i
    · subst hj
      rw [Function.update_self, hs2, pool_setBuf_self]
    · rw [Function.update_of_ne hj, hs2, pool_setBuf_of_ne _ hj, hrest j hj]
  · show (s2.hashInsert device i).media = _
    rw [media_hashInsert]
    rfl
  · have hinst := hhash.insert (fun hin => hin.2 rfl) (d := d) (by rw [hs2, pool_setBuf_self])
    exact hinst.congr rfl (fun _ => Iff.rfl) fun _ _ => ⟨rfl, rfl⟩

omit [DecidableEq Dev] in
theorem pool_setBuf_update {b b' : Buffer Dev} (hpool : s'.pool = Function.update s.pool i b) :
    (s'.setBuf i b').pool = Function.update s.pool i b' := by
  show Function.update s'.pool i b' = _
  rw [hpool, Function.update_idem]

omit [DecidableEq Dev] in
theorem Ok.replace {b : Buffer Dev} (h : s.Ok device size order) (hi : i < bcacheEntries)
    (hlru : s'.lru.Holds (order.erase i ++ [i])) (hpool : s'.pool = Function.update s.pool i b)
    (hhash : s'.Hashed device fun j =>
      ((j < bcacheEntries ∧ (s.pool j).valid = true) ∧ j ≠ i) ∨ (j = i ∧ b.valid = true))
    (hb : b.valid = true → b.dev = some d ∧ b.blockNo = no ∧ b.blockSize = size d)
    (hmiss : ∀ j, j < bcacheEntries → ¬ s.Caches j d no) : s'.Ok device size (order.erase i ++ [i]) := by
  have hself : s'.pool i = b := by rw [hpool, Function.update_self]
  have hrest : ∀ j, j ≠ i → s'.pool j = s.pool j := fun j hj => by rw [hpool, Function.update_of_ne hj]
  have hold : ∀ {j d no}, j ≠ i → s'.Caches j d no → s.Caches j d no := by
    intro j d no hj hc
    rwa [Caches, hrest j hj] at hc
  have hnew : ∀ {d' no'}, s'.Caches i d' no' → d' = d ∧ no' = no := by
    intro d' no' ⟨hval, hdev, hno⟩
    rw [hself] at hval hdev hno
    obtain ⟨h1, h2, -⟩ := hb hval
    exact ⟨Option.some.inj (hdev.symm.trans h1), hno.symm.trans h2⟩
  refine ⟨hlru, (h.lruTouch hi).whole, hhash.congr rfl (fun j => ?_) fun _ _ => ⟨rfl, rfl⟩, fun j hj hval => ?_, ?_⟩
  · by_cases hj : j = i
    · subst hj
      simp [hself, hi]
    · simp [hj, hrest j hj]
  · by_cases hj' : j = i
    · subst hj'
      rw [hself] at hval ⊢
      exact ⟨d, (hb hval).1, (hb hval).2.2⟩
    · rw [hrest j hj'] at hval ⊢
      exact h.named j hj hval
  · intro j k e m hj hk hcj hck
    by_cases hj' : j = i
    · by_cases hk' : k = i
      · rw [hj', hk']
      · rw [hj'] at hcj
        obtain ⟨rfl, rfl⟩ := hnew hcj
        exact absurd (hold hk' hck) (hmiss k hk)
    · by_cases hk' : k = i
      · rw [hk'] at hck
        obtain ⟨rfl, rfl⟩ := hnew hck
        exact absurd (hold hj' hcj) (hmiss j hj)
      · exact h.unique j k e m hj hk (hold hj' hcj) (hold hk' hck)

/-- **A miss.** The victim takes the new block when the device reads it, and is left free otherwise; in
both cases its old block has been written back if it was dirty. -/
theorem Ok.load (h : s.Ok device size order) (hi : i < bcacheEntries)
    (hmiss : ∀ j, j < bcacheEntries → ¬ s.Caches j d no) :
    ∃ s' b buffer, ((s.evict device i).configure device i d no (size d)).fill device i d =
        (s', if b.valid then some i else none) ∧
      s'.Ok device size (order.erase i ++ [i]) ∧ s'.pool = Function.update s.pool i b ∧
      s'.media = (s.evict device i).media ∧
      let r := (device d).readBlocks (blockLba device d no (size d)) (blockCount device d (size d))
        ((s.evict device i).media d) buffer
      (r.1 ≠ 0 ∧ b.valid = false ∧ b.refcount = 0 ∨ r.1 = 0 ∧ b = ⟨some d, no, size d, false, true, 1, r.2⟩) := by
  obtain ⟨hlru, hpool, hmed, hhash⟩ := h.configure hi d no (size d)
  set s2 := (s.evict device i).configure device i d no (size d) with hs2
  have hself : s2.pool i = ⟨some d, no, size d, false, false, 1, ((s.evict device i).pool i).data⟩ := by
    rw [hpool, Function.update_self]
  unfold fill
  simp only [hself, hmed]
  set r := (device d).readBlocks (blockLba device d no (size d)) (blockCount device d (size d))
    ((s.evict device i).media d) ((s.evict device i).pool i).data with hr
  by_cases hok : r.1 = 0
  · rw [if_pos hok]
    refine ⟨_, ⟨some d, no, size d, false, true, 1, r.2⟩, _, rfl, ?_, ?_, hmed, .inr ⟨hok, rfl⟩⟩
    · refine h.replace hi hlru (pool_setBuf_update hpool) ?_ (fun _ => ⟨rfl, rfl, rfl⟩) hmiss
      refine hhash.congr rfl (fun j => by simp) fun j hj => ?_
      rw [pool_setBuf_update hpool, hpool]
      by_cases hj' : j = i <;> simp [hj']
    · exact pool_setBuf_update hpool
  · rw [if_neg hok]
    refine ⟨_, ⟨some d, no, size d, false, false, 0, r.2⟩, _, rfl, ?_, ?_, ?_, .inl ⟨hok, rfl, rfl⟩⟩
    · have hset : (s2.setBuf i ⟨some d, no, size d, false, false, 0, r.2⟩).Hashed device fun j =>
          ((j < bcacheEntries ∧ (s.pool j).valid = true) ∧ j ≠ i) ∨ j = i := by
        refine hhash.congr rfl (fun j => Iff.rfl) fun j hj => ?_
        rw [pool_setBuf_update hpool, hpool]
        by_cases hj' : j = i <;> simp [hj']
      refine h.replace hi (by rwa [lru_hashUnlink]) (pool_hashUnlink.trans (pool_setBuf_update hpool)) ?_
        (fun hval => absurd hval (by simp)) hmiss
      refine (hset.unlink (.inr rfl) (d := d) (by rw [pool_setBuf_self])).congr rfl (fun j => ?_) fun _ _ => ⟨rfl, rfl⟩
      tauto
    · exact pool_hashUnlink.trans (pool_setBuf_update hpool)
    · exact media_hashUnlink.trans hmed

def BadArgs (device : Dev → BlockDevice) (d : Dev) (blockSize : Nat) : Prop :=
  blockSize > bcacheMaxBlockSize ∨ blockSize = 0 ∨ (device d).sectorSize = 0

theorem Ok.bread_hit (h : s.Ok device size order) (hargs : ¬ BadArgs device d (size d)) (hi : i < bcacheEntries)
    (hcach : s.Caches i d no) : bread device s (some d) no (size d) =
      ((s.setBuf i { s.pool i with refcount := (s.pool i).refcount + 1 }).lruTouch i, some i) := by
  have hlook : s.lookup device d no (size d) = some i := by
    cases hlook : s.lookup device d no (size d) with
    | none => exact absurd hcach (h.lookup_none hlook hi)
    | some j =>
      obtain ⟨hj, hcach'⟩ := h.lookup_some hlook
      rw [h.unique j i d no hj hi hcach' hcach]
  unfold BadArgs at hargs
  unfold bread
  simp only [if_neg hargs, hlook]

theorem Ok.bread_miss (h : s.Ok device size order) (hargs : ¬ BadArgs device d (size d))
    (hmiss : ∀ j, j < bcacheEntries → ¬ s.Caches j d no)
    (hvic : (order.find? fun i => (s.pool i).refcount == 0) = some i) : bread device s (some d) no (size d) =
      ((s.evict device i).configure device i d no (size d)).fill device i d := by
  unfold BadArgs at hargs
  unfold bread
  simp only [if_neg hargs, h.lookup_of_miss hmiss, h.victim_eq, hvic]

/-- **What `bread` does**: nothing, a hit, or a miss that takes an unreferenced buffer. -/
theorem Ok.bread_cases (h : s.Ok device size order) (d : Dev) (no : BitVec 32) :
    bread device s (some d) no (size d) = (s, none) ∨
    (∃ i, i < bcacheEntries ∧ s.Caches i d no ∧ bread device s (some d) no (size d) =
      ((s.setBuf i { s.pool i with refcount := (s.pool i).refcount + 1 }).lruTouch i, some i)) ∨
    ∃ i, i < bcacheEntries ∧ (s.pool i).refcount = 0 ∧ (∀ j, j < bcacheEntries → ¬ s.Caches j d no) ∧
      bread device s (some d) no (size d) = ((s.evict device i).configure device i d no (size d)).fill device i d := by
  by_cases hargs : BadArgs device d (size d)
  · exact .inl (if_pos hargs)
  by_cases hhit : ∃ i, i < bcacheEntries ∧ s.Caches i d no
  · obtain ⟨i, hi, hcach⟩ := hhit
    exact .inr (.inl ⟨i, hi, hcach, h.bread_hit hargs hi hcach⟩)
  have hmiss : ∀ j, j < bcacheEntries → ¬ s.Caches j d no := fun j hj hc => hhit ⟨j, hj, hc⟩
  cases hvic : s.victim with
  | none =>
    refine .inl ?_
    unfold BadArgs at hargs
    unfold bread
    simp only [if_neg hargs, h.lookup_of_miss hmiss, hvic]
  | some i =>
    obtain ⟨hi, hfree⟩ := h.victim_some hvic
    exact .inr (.inr ⟨i, hi, hfree, hmiss, h.bread_miss hargs hmiss (h.victim_eq ▸ hvic)⟩)

end Miss

end Bcache

end SzpontOS.Fs
