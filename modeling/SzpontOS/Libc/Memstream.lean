import SzpontOS.Lib.ByteMem
import SzpontOS.Lib.Extent
import SzpontOS.Lib.Run

/-!
# Streams into memory (`open_memstream`, `fwrite`, `fputc`, `fseek` and `ftell` of `libc/src/stdio/printf.c`)

The stream owns a block of `mem_capacity` bytes that `realloc` may move. It stands for an array of bytes with a position
(`MemArray`), and a write past the end fills the gap. The block has room for the terminator at all times (`Holds`).
The object that `fwrite` reads has `size * nmemb` bytes, so that the product is not cut off, and a block that `realloc`
gives has fewer than `2 ^ 63`. A seek adds in `long`, where a sum past the largest position wraps and is refused.
-/

namespace SzpontOS.Libc

open Lib Extent Relation

structure MemStream where
  mem : Mem
  memBuf : Nat
  memCapacity : Nat
  memSize : Nat
  memPos : Nat
  /-- `*mem_bufp` -/
  bufp : Nat
  /-- `*mem_sizep` -/
  sizep : Nat

inductive Whence where
  | set
  | cur
  | end

inductive MemCall where
  /-- `ptr` gives the bytes at the pointer -/
  | fwrite (ptr : Nat → BitVec 8) (size nmemb : Nat)
  | fputc (c : BitVec 8)
  | fseek (offset : BitVec 64) (whence : Whence)
  | ftell

/-- `open_memstream`, when `malloc` gives the block at `a`. -/
def openMemstream (mem : Mem) (a : Nat) : MemStream := ⟨mem.memset a 0 1, a, 64, 0, 0, a, 0⟩

namespace MemStream

/-- The block for `needed` bytes, when `realloc` answers with the block at `block` in the memory `mem`. -/
def grow (s : MemStream) (block : Nat) (mem : Mem) (needed : Nat) : MemStream :=
  if needed > s.memCapacity then
    { s with
      mem := mem, memBuf := block,
      memCapacity := if s.memCapacity * 2 < needed then needed + 64 else s.memCapacity * 2 }
  else s

/-- What `fwrite` does with a block that has room for `data`. -/
def store (s : MemStream) (data : List (BitVec 8)) : MemStream :=
  let mem := s.mem.memset (s.memBuf + s.memSize) 0 (s.memPos - s.memSize)
  let mem := mem.storeBytes (s.memBuf + s.memPos) data
  let memSize := if s.memPos + data.length > s.memSize then s.memPos + data.length else s.memSize
  { s with
    mem := mem.memset (s.memBuf + memSize) 0 1, memPos := s.memPos + data.length, memSize := memSize, bufp := s.memBuf,
    sizep := memSize }

def fwrite (s : MemStream) (block : Nat) (mem : Mem) (ptr : Nat → BitVec 8) (size nmemb : Nat) : Nat × MemStream :=
  if size = 0 ∨ nmemb = 0 then (0, s)
  else (nmemb, (s.grow block mem (s.memPos + size * nmemb + 1)).store ((List.range (size * nmemb)).map ptr))

/-- `new_pos` -/
def seekTo (s : MemStream) (offset : BitVec 64) : Whence → BitVec 64
  | .set => offset
  | .cur => BitVec.ofNat 64 s.memPos + offset
  | .end => BitVec.ofNat 64 s.memSize + offset

/-- A call, and what it returns. -/
def perform (s : MemStream) (block : Nat) (mem : Mem) : MemCall → Int × MemStream
  | .fwrite ptr size nmemb =>
    let (n, s) := s.fwrite block mem ptr size nmemb
    (n, s)
  | .fputc c =>
    let (n, s) := s.fwrite block mem (fun _ => c) 1 1
    (if n = 1 then c.toNat else -1, s)
  | .fseek offset whence =>
    let newPos := s.seekTo offset whence
    if newPos.toInt < 0 then (-1, s) else (0, { s with memPos := newPos.toNat })
  | .ftell => ((BitVec.ofNat 64 s.memPos).toInt, s)

/-- The block and the memory that `realloc` answers with hold the bytes of the old block. -/
def Moves (s : MemStream) (block : Nat) (mem : Mem) : Prop :=
  ∀ i, i < s.memCapacity → mem (block + i) = s.mem (s.memBuf + i)

end MemStream

/-- An array of bytes with a position. -/
structure MemArray where
  bytes : List (BitVec 8)
  pos : Nat

namespace MemArray

def write (a : MemArray) (data : List (BitVec 8)) : MemArray :=
  if data = [] then a else ⟨writeAt 0 a.bytes a.pos data, a.pos + data.length⟩

/-- Where a seek goes. -/
def seekTo (a : MemArray) (offset : BitVec 64) : Whence → Int
  | .set => offset.toInt
  | .cur => a.pos + offset.toInt
  | .end => a.bytes.length + offset.toInt

/-- A seek in front of the array, or to where no `long` reaches, is refused. -/
def perform (a : MemArray) : MemCall → Int × MemArray
  | .fwrite ptr size nmemb => (if size = 0 then 0 else nmemb, a.write ((List.range (size * nmemb)).map ptr))
  | .fputc c => (c.toNat, a.write [c])
  | .fseek offset whence =>
    let newPos := a.seekTo offset whence
    if newPos < 0 ∨ 2 ^ 63 ≤ newPos then (-1, a) else (0, { a with pos := newPos.toNat })
  | .ftell => (a.pos, a)

end MemArray

/-- The block holds the array and a terminator. -/
structure Holds (s : MemStream) (a : MemArray) : Prop where
  bytes : ∀ i, i ≤ a.bytes.length → s.mem (s.memBuf + i) = a.bytes.getD i 0
  size : s.memSize = a.bytes.length
  room : a.bytes.length < s.memCapacity
  limit : s.memCapacity < 2 ^ 63
  pos : s.memPos = a.pos
  pos_lt : a.pos < 2 ^ 63

/-- The caller sees the block. -/
structure Shows (s : MemStream) (a : MemArray) : Prop extends Holds s a where
  bufp : s.bufp = s.memBuf
  sizep : s.sizep = a.bytes.length

variable {s : MemStream} {a : MemArray} {block : Nat} {mem : Mem}

theorem Holds.grow (h : Holds s a) (hmove : s.Moves block mem) {needed : Nat}
    (hlimit : (s.grow block mem needed).memCapacity < 2 ^ 63) :
    Holds (s.grow block mem needed) a ∧ needed ≤ (s.grow block mem needed).memCapacity := by
  have hroom := h.room
  have hbytes : ∀ i, i ≤ a.bytes.length → mem (block + i) = a.bytes.getD i 0 :=
    fun i hi => (hmove i (by omega)).trans (h.bytes i hi)
  unfold MemStream.grow at hlimit ⊢
  split_ifs at hlimit ⊢
  · exact ⟨⟨hbytes, h.size, by dsimp only; omega, hlimit, h.pos, h.pos_lt⟩, by dsimp only; omega⟩
  · exact ⟨⟨hbytes, h.size, by dsimp only; omega, hlimit, h.pos, h.pos_lt⟩, by dsimp only; omega⟩
  · exact ⟨h, by omega⟩

theorem Holds.store (h : Holds s a) {data : List (BitVec 8)} (hdata : data ≠ [])
    (hroom : a.pos + data.length < s.memCapacity) : Shows (s.store data) (a.write data) := by
  have hlen := length_writeAt 0 a.bytes a.pos data
  have hold := h.room
  have hmax : (if a.pos + data.length > a.bytes.length then a.pos + data.length else a.bytes.length) =
      (writeAt 0 a.bytes a.pos data).length := by
    split_ifs <;> omega
  unfold MemStream.store MemArray.write
  rw [if_neg hdata]
  simp only [h.size, h.pos, hmax]
  refine ⟨⟨fun i hi => ?_, rfl, by dsimp only; omega, h.limit, rfl, hroom.trans h.limit⟩, rfl, rfl⟩
  dsimp only at hi ⊢
  rw [getD_writeAt]
  simp only [Mem.memset, Mem.storeBytes]
  rcases lt_or_eq_of_le hi with hlt | rfl
  · rw [if_neg (by omega)]
    by_cases hin : a.pos ≤ i ∧ i < a.pos + data.length
    · rw [if_pos (by omega), if_pos hin, Nat.add_sub_add_left]
    · rw [if_neg (by omega), if_neg hin]
      by_cases hgap : a.bytes.length ≤ i
      · rw [if_pos (by omega), List.getD_eq_default _ _ hgap]
      · rw [if_neg (by omega)]
        exact h.bytes i (by omega)
  · rw [if_pos (by omega), if_neg (by omega), List.getD_eq_default _ _ (by omega)]

theorem fwrite_returns (s : MemStream) (block : Nat) (mem : Mem) (ptr : Nat → BitVec 8) (size nmemb : Nat) :
    (s.fwrite block mem ptr size nmemb).1 = if size = 0 then 0 else nmemb := by
  unfold MemStream.fwrite
  split_ifs <;> first | rfl | (dsimp only; omega)

theorem Shows.fwrite (h : Shows s a) (hmove : s.Moves block mem) (ptr : Nat → BitVec 8) (size nmemb : Nat)
    (hlimit : (s.fwrite block mem ptr size nmemb).2.memCapacity < 2 ^ 63) :
    Shows (s.fwrite block mem ptr size nmemb).2 (a.write ((List.range (size * nmemb)).map ptr)) := by
  unfold MemStream.fwrite at hlimit ⊢
  by_cases hzero : size = 0 ∨ nmemb = 0
  · rcases hzero with rfl | rfl <;> simpa [MemArray.write] using h
  · have hpos : 0 < size * nmemb := Nat.mul_pos (by omega) (by omega)
    rw [if_neg hzero] at hlimit ⊢
    obtain ⟨hgrow, hneed⟩ := h.grow hmove hlimit
    refine hgrow.store ?_ ?_
    · simpa using hpos.ne'
    · rw [← h.pos, List.length_map, List.length_range]
      omega

/-- A sum in `long` that starts from a position is negative where the seek is to be refused. -/
theorem toInt_pos_add {n : Nat} (hn : n < 2 ^ 63) (offset : BitVec 64) :
    ((BitVec.ofNat 64 n + offset).toInt < 0 ↔ n + offset.toInt < 0 ∨ 2 ^ 63 ≤ n + offset.toInt) ∧
      (¬ (n + offset.toInt < 0 ∨ 2 ^ 63 ≤ n + offset.toInt) →
        (BitVec.ofNat 64 n + offset).toNat = (n + offset.toInt).toNat) := by
  have hlt := offset.isLt
  simp only [BitVec.toInt_eq_toNat_cond, BitVec.toNat_add, BitVec.toNat_ofNat]
  split_ifs <;> omega

theorem Holds.seekTo (h : Holds s a) (offset : BitVec 64) (whence : Whence) :
    ((s.seekTo offset whence).toInt < 0 ↔ a.seekTo offset whence < 0 ∨ 2 ^ 63 ≤ a.seekTo offset whence) ∧
      (¬ (a.seekTo offset whence < 0 ∨ 2 ^ 63 ≤ a.seekTo offset whence) →
        (s.seekTo offset whence).toNat = (a.seekTo offset whence).toNat) := by
  cases whence with
  | set =>
    have hzero := toInt_pos_add (n := 0) (by norm_num) offset
    rwa [BitVec.zero_add, Nat.cast_zero, zero_add] at hzero
  | cur =>
    simp only [MemStream.seekTo, MemArray.seekTo, h.pos]
    exact toInt_pos_add h.pos_lt offset
  | «end» =>
    simp only [MemStream.seekTo, MemArray.seekTo, h.size]
    exact toInt_pos_add (h.room.trans h.limit) offset

theorem Holds.returns (h : Holds s a) (block : Nat) (mem : Mem) (call : MemCall) :
    (s.perform block mem call).1 = (a.perform call).1 := by
  cases call with
  | fwrite ptr size nmemb =>
    simp only [MemStream.perform, MemArray.perform, fwrite_returns]
    split_ifs <;> rfl
  | fputc c =>
    simp only [MemStream.perform, MemArray.perform, fwrite_returns]
    rfl
  | fseek offset whence =>
    simp only [MemStream.perform, MemArray.perform, (h.seekTo offset whence).1]
    split_ifs <;> rfl
  | ftell =>
    have hlt := h.pos_lt
    simp only [MemStream.perform, MemArray.perform, h.pos, BitVec.toInt_ofNat', Int.bmod_eq_emod]
    split_ifs <;> omega

theorem Shows.perform (h : Shows s a) (hmove : s.Moves block mem) {call : MemCall}
    (hlimit : (s.perform block mem call).2.memCapacity < 2 ^ 63) :
    Shows (s.perform block mem call).2 (a.perform call).2 := by
  cases call with
  | fwrite ptr size nmemb => exact h.fwrite hmove ptr size nmemb hlimit
  | fputc c => exact h.fwrite hmove (fun _ => c) 1 1 hlimit
  | fseek offset whence =>
    obtain ⟨hneg, hto⟩ := h.seekTo offset whence
    simp only [MemStream.perform, MemArray.perform, hneg]
    split_ifs with hout
    · exact h
    · rw [hto hout]
      exact ⟨⟨h.bytes, h.size, h.room, h.limit, rfl, by dsimp only; omega⟩, h.bufp, h.sizep⟩
  | ftell => exact h

/-- The stream and the array go through the same call. -/
def Lockstep (x y : MemStream × MemArray) : Prop :=
  ∃ call block mem, x.1.Moves block mem ∧ y = ((x.1.perform block mem call).2, (x.2.perform call).2) ∧
    y.1.memCapacity < 2 ^ 63

/-- **A stream into memory is an array.** After any calls the caller's pointer and size show the bytes of the array and
a zero byte, and the next call returns what the array returns. -/
theorem memstream_is_array {start : Mem} {b : Nat}
    (hrun : ReflTransGen Lockstep (openMemstream start b, ⟨[], 0⟩) (s, a)) :
    (∀ i, i ≤ a.bytes.length → s.mem (s.bufp + i) = a.bytes.getD i 0) ∧ s.sizep = a.bytes.length ∧
      ∀ call block mem, (s.perform block mem call).1 = (a.perform call).1 := by
  have hopen : Shows (openMemstream start b) ⟨[], 0⟩ := by
    refine ⟨⟨fun i hi => ?_, rfl, by simp [openMemstream], by simp [openMemstream], rfl, by simp⟩, rfl, rfl⟩
    rw [Nat.le_zero.mp hi]
    exact if_pos ⟨le_rfl, Nat.lt_succ_self b⟩
  have hkeep : ∀ x y : MemStream × MemArray, Shows x.1 x.2 → Lockstep x y → Shows y.1 y.2 := by
    rintro x _ h ⟨call, block, mem, hmove, rfl, hlimit⟩
    exact h.perform hmove hlimit
  have hshows := invariant_of_step hkeep hopen hrun
  exact ⟨hshows.bufp ▸ hshows.bytes, hshows.sizep, fun call block mem => hshows.returns block mem call⟩

/-- A byte that is written after a gap of two. -/
theorem memstream_is_array_gap : ∃ s, ReflTransGen Lockstep (openMemstream (fun _ => 7) 100, ⟨[], 0⟩)
    (s, ⟨[0, 0, 65], 3⟩) ∧ s.sizep = 3 ∧ s.mem (s.bufp + 1) = 0 := by
  have hrun := (ReflTransGen.single (r := Lockstep) (a := (openMemstream (fun _ => 7) 100, ⟨[], 0⟩))
    ⟨.fseek 2 .set, 100, _, fun _ _ => rfl, rfl, by decide⟩).tail ⟨.fputc 65, 100, _, fun _ _ => rfl, rfl, by decide⟩
  obtain ⟨hbytes, hsize, -⟩ := memstream_is_array hrun
  exact ⟨_, hrun, hsize, hbytes 1 (by decide)⟩

/-- **From the largest position a seek further on is refused**, although it does not go in front of the array. -/
theorem seek_past_long_refused :
    let s := (openMemstream (fun _ => 7) 100).perform 100 (fun _ => 7) (.fseek (.intMax 64) .set)
    s.1 = 0 ∧ s.2.memPos = 2 ^ 63 - 1 ∧ (s.2.perform 100 (fun _ => 7) (.fseek 1 .cur)).1 = -1 := by
  decide

end SzpontOS.Libc
