import SzpontOS.Fs.Ext2

/-!
# Reading files on ext2

`ext2_read` copies a file block by block and stops at a data block that cannot be read. `ext2_get_inode_block` answers 0
for a hole, and also when a pointer block cannot be read and for triple indirect blocks. The file is what the disk says,
whether or not it can be read (`fileByte`). Pointer blocks are read again for every block of the file, and what can be
read may change in between.
-/

namespace SzpontOS.Fs.Ext2Fs

open Lib List Nat
open Option hiding map_map

/-- The file system while `bread` gives these answers. -/
def during (fs : Ext2Fs) (bread : BitVec 32 → Option Mem) : Ext2Fs := { fs with bread := bread }

variable (fs : Ext2Fs) (inode : Ext2Inode) (cache : Nat → BitVec 32 → Option Mem)

/-- The loop of `ext2_read`: `left` bytes from `pos` on; `cache i` is what `bread` returns in the pass for block `i` of the
file. -/
def readBlocks : Nat → (pos left : Nat) → List (BitVec 8)
  | 0, _, _ => []
  | fuel + 1, pos, left =>
    if left = 0 then []
    else
      let blockOffset := pos % fs.blockSize
      let toRead := min (fs.blockSize - blockOffset) left
      let blockIdx := pos / fs.blockSize % 2 ^ 32
      let diskBlock := (fs.during (cache blockIdx)).getInodeBlock inode blockIdx
      let rest := readBlocks fuel ((pos + toRead) % 2 ^ 64) (left - toRead)
      if diskBlock = 0 then replicate toRead 0 ++ rest
      else
        match cache blockIdx diskBlock with
        | none => []
        | some data => (range toRead).map (fun i => data (blockOffset + i)) ++ rest

/-- `ext2_read`: the bytes it stores, whose number it returns. The offset is signed in the first comparison only. -/
def ext2Read (offset : Int) (size : Nat) : List (BitVec 8) :=
  if offset ≥ inode.size.toNat then []
  else
    let start := (offset % 2 ^ 64).toNat
    let size := if (start + size) % 2 ^ 64 > inode.size.toNat then ((inode.size.toNat - offset) % 2 ^ 64).toNat else size
    fs.readBlocks inode cache size start size

/-! ## The file -/

def perBlock : Nat := fs.blockSize / 4

/-- The block that is `depth` pointers away, if all blocks on the way can be read. -/
def follow (look : BitVec 32 → Option Mem) : (depth : Nat) → BitVec 32 → Nat → Option (BitVec 32)
  | 0, block, _ => some block
  | depth + 1, block, i =>
    if block = 0 then some 0
    else (look block).bind fun data =>
      follow look depth (data.load32 (4 * (i / fs.perBlock ^ depth))) (i % fs.perBlock ^ depth)

/-- The place of block `i` of the file; 0 is a hole. -/
def blockOf (look : BitVec 32 → Option Mem) (i : Nat) : Option (BitVec 32) :=
  if i < 12 then some (inode.block i)
  else if i - 12 < fs.perBlock then fs.follow look 1 (inode.block 12) (i - 12)
  else if i - 12 - fs.perBlock < fs.perBlock ^ 2 then fs.follow look 2 (inode.block 13) (i - 12 - fs.perBlock)
  else fs.follow look 3 (inode.block 14) (i - 12 - fs.perBlock - fs.perBlock ^ 2)

def fileByte (disk : BitVec 32 → Mem) (pos : Nat) : BitVec 8 :=
  let block := (fs.blockOf inode (fun b => some (disk b)) (pos / fs.blockSize)).getD 0
  if block = 0 then 0 else disk block (pos % fs.blockSize)

/-- The place of block `i`, where the pointers to it can be read and are not triple indirect. -/
def known (i : Nat) : Option (BitVec 32) :=
  if i < 12 + fs.perBlock + fs.perBlock ^ 2 then fs.blockOf inode (cache i) i else none

/-- Block `i` has a known place, and cannot be read. -/
def Unreadable (i : Nat) : Prop := ∃ b, fs.known inode cache i = some b ∧ b ≠ 0 ∧ cache i b = none

/-! ## What is read -/

/-- What the loop copies from for block `i`. -/
def view (i : Nat) : Option Mem :=
  let block := (fs.during (cache i)).getInodeBlock inode i
  if block = 0 then some fun _ => 0 else cache i block

def seen (pos : Nat) : BitVec 8 :=
  (fs.view inode cache (pos / fs.blockSize)).elim 0 fun data => data (pos % fs.blockSize)

variable {fs inode cache} {disk : BitVec 32 → Mem}

/-- **The loop** sees one byte after the other up to a block that cannot be read. -/
theorem readBlocks_eq (hpos : 0 < fs.blockSize) {fuel : Nat} : ∀ {pos left : Nat}, left ≤ fuel → pos + left ≤ 2 ^ 32 →
    ∃ k, fs.readBlocks inode cache fuel pos left = (range k).map (fun j => fs.seen inode cache (pos + j)) ∧
      ∀ j, j < k ↔ j < left ∧ ∀ i ≤ j, fs.view inode cache ((pos + i) / fs.blockSize) ≠ none := by
  induction fuel with
  | zero => exact fun hleft _ => ⟨0, rfl, fun j => by omega⟩
  | succ fuel ih =>
    intro pos left hleft hend
    rw [readBlocks]
    by_cases hzero : left = 0
    · exact ⟨0, if_pos hzero, fun j => by omega⟩
    have hidx : pos / fs.blockSize % 2 ^ 32 = pos / fs.blockSize :=
      mod_eq_of_lt ((div_le_self ..).trans_lt (by omega))
    have hmod := mod_lt pos hpos
    rw [if_neg hzero, hidx]
    dsimp only
    set n := min (fs.blockSize - pos % fs.blockSize) left with hn
    rw [mod_eq_of_lt (show pos + n < 2 ^ 64 by omega)]
    -- the next `n` bytes are in the same block
    have hsame : ∀ j < n, (pos + j) / fs.blockSize = pos / fs.blockSize ∧
        (pos + j) % fs.blockSize = pos % fs.blockSize + j := by
      intro j hj
      have hlt : pos % fs.blockSize + j < fs.blockSize := by omega
      have hsum : pos + j = pos % fs.blockSize + j + fs.blockSize * (pos / fs.blockSize) := by
        have := mod_add_div pos fs.blockSize
        omega
      rw [hsum, add_mul_div_left _ _ hpos, add_mul_mod_self_left, div_eq_of_lt hlt, mod_eq_of_lt hlt]
      exact ⟨zero_add _, rfl⟩
    obtain ⟨k, heq, hk⟩ := ih (show left - n ≤ fuel by omega) (show pos + n + (left - n) ≤ 2 ^ 32 by omega)
    have hblock : ∀ {data}, fs.view inode cache (pos / fs.blockSize) = some data →
        ∃ k, (range n).map (fun i => data (pos % fs.blockSize + i)) ++
          fs.readBlocks inode cache fuel (pos + n) (left - n) = (range k).map (fun j => fs.seen inode cache (pos + j)) ∧
            ∀ j, j < k ↔ j < left ∧ ∀ i ≤ j, fs.view inode cache ((pos + i) / fs.blockSize) ≠ none := by
      intro data hview
      have hfine : ∀ j < n, fs.view inode cache ((pos + j) / fs.blockSize) ≠ none := fun j hj => by
        simp [(hsame j hj).1, hview]
      refine ⟨n + k, ?_, fun j => ?_⟩
      · rw [heq, range_add, map_append, map_map]
        congr 1
        · refine map_congr_left fun j hj => ?_
          rw [seen, (hsame j (mem_range.mp hj)).1, (hsame j (mem_range.mp hj)).2, hview, elim_some]
        · simp [Function.comp_def, add_assoc]
      · by_cases hj : j < n
        · exact iff_of_true (by omega) ⟨by omega, fun i hi => hfine i (by omega)⟩
        · rw [show j < n + k ↔ j - n < k by omega, hk]
          refine and_congr (by omega) ⟨fun h i hi => ?_, fun h i hi => ?_⟩
          · by_cases hin : i < n
            · exact hfine i hin
            · have := h (i - n) (by omega)
              rwa [show pos + n + (i - n) = pos + i by omega] at this
          · rw [add_assoc]
            exact h (n + i) (by omega)
    split_ifs with hhole
    · have hzeros : replicate n (0 : BitVec 8) = (range n).map fun _ => 0 := by simp
      rw [hzeros]
      exact hblock (if_pos hhole)
    · have hview : fs.view inode cache (pos / fs.blockSize) = _ := if_neg hhole
      cases hread : cache (pos / fs.blockSize) ((fs.during _).getInodeBlock inode (pos / fs.blockSize)) with
      | none => exact ⟨0, rfl, fun j => iff_of_false (by omega) fun h => h.2 0 (zero_le _) (hview.trans hread)⟩
      | some data => exact hblock (hview.trans hread)

theorem getInodeBlock_eq (hsize : fs.blockSize ≤ 65536) (i : Nat) :
    (fs.during (cache i)).getInodeBlock inode i = (fs.known inode cache i).getD 0 := by
  have hper : fs.blockSize / 4 % 2 ^ 32 = fs.perBlock := Nat.mod_eq_of_lt (by omega)
  have hcap : fs.perBlock * fs.perBlock % 2 ^ 32 = fs.perBlock ^ 2 := by
    have hle : fs.perBlock ≤ 16384 := by
      omega
    rw [sq]
    exact Nat.mod_eq_of_lt ((Nat.mul_le_mul hle hle).trans_lt (by norm_num))
  have hptr : ∀ block j, (fs.during (cache i)).pointerIn block j = (fs.follow (cache i) 1 block j).getD 0 := by
    intro block j
    unfold pointerIn follow follow during
    split_ifs
    · rfl
    · cases hread : cache i block <;> simp [hread]
  unfold getInodeBlock known blockOf
  rw [show (fs.during (cache i)).blockSize = fs.blockSize from rfl, hper]
  dsimp only
  rw [hcap]
  split_ifs with hdirect _ hsingle _ hdouble
  · rfl
  · omega
  · exact hptr ..
  · omega
  · rw [hptr (inode.block 13), follow, follow]
    split_ifs with hzero
    · simp [pointerIn]
    · cases cache i (inode.block 13) with
      | none => simp [pointerIn]
      | some data => simp [hptr, follow]
  · omega
  · omega
  · rfl

theorem follow_disk {look : BitVec 32 → Option Mem} (hlook : ∀ b data, look b = some data → data = disk b) {x : BitVec 32}
    (depth : Nat) : ∀ {block i}, fs.follow look depth block i = some x →
      fs.follow (fun b => some (disk b)) depth block i = some x := by
  induction depth with
  | zero => exact id
  | succ depth ih =>
    intro block i h
    rw [follow] at h ⊢
    split_ifs at h ⊢ with hzero
    · exact h
    · obtain ⟨data, hdata, hnext⟩ := bind_eq_some_iff.mp h
      rw [hlook block data hdata] at hnext
      exact ih hnext

theorem view_eq_none_iff (hsize : fs.blockSize ≤ 65536) {i : Nat} :
    fs.view inode cache i = none ↔ fs.Unreadable inode cache i := by
  unfold view Unreadable
  rw [getInodeBlock_eq hsize]
  cases fs.known inode cache i with
  | none => simp
  | some b => by_cases hb : b = 0#32 <;> simp [hb]

/-- **What the loop sees** is the file, or zero where the place of the block is not known. -/
theorem seen_eq (hsize : fs.blockSize ≤ 65536) (hreads : ∀ i b data, cache i b = some data → data = disk b) {pos : Nat}
    (hread : fs.view inode cache (pos / fs.blockSize) ≠ none) : fs.seen inode cache pos =
      if (fs.known inode cache (pos / fs.blockSize)).isSome then fs.fileByte inode disk pos else 0 := by
  unfold seen
  obtain ⟨data, hview⟩ := ne_none_iff_exists'.mp hread
  rw [hview, elim_some]
  rw [view, getInodeBlock_eq hsize] at hview
  cases hknown : fs.known inode cache (pos / fs.blockSize) with
  | none =>
    rw [hknown, getD_none, if_pos rfl, some.injEq] at hview
    rw [← hview]
    rfl
  | some b =>
    have hblock : fs.blockOf inode (fun b => some (disk b)) (pos / fs.blockSize) = some b := by
      unfold known blockOf at hknown
      unfold blockOf
      split_ifs at hknown ⊢
      · exact hknown
      · exact follow_disk (hreads _) 1 hknown
      · exact follow_disk (hreads _) 2 hknown
      · exact follow_disk (hreads _) 3 hknown
    rw [hknown, getD_some] at hview
    rw [fileByte, hblock, isSome_some, if_pos rfl, getD_some]
    split_ifs at hview ⊢ with hzero
    · rw [← some.inj hview]
    · rw [hreads _ b data hview]

/-- **`ext2_read` returns bytes of the file** exactly if the bytes that it gets to, up to a data block that cannot be
read, are zero wherever the place of their block is not known. -/
theorem ext2_read_iff (log : Nat) (hlog : log ≤ 6) (hblock : fs.blockSize = 1024 * 2 ^ log)
    (hreads : ∀ i b data, cache i b = some data → data = disk b) (offset size : Nat) (hoffset : offset < 2 ^ 63)
    (hend : offset + size < 2 ^ 64) :
    (∃ n, offset + n ≤ max offset inode.size.toNat ∧
      fs.ext2Read inode cache offset size = (range n).map fun i => fs.fileByte inode disk (offset + i)) ↔
    ∀ i < size, offset + i < inode.size.toNat → (∀ j ≤ i, ¬ fs.Unreadable inode cache ((offset + j) / fs.blockSize)) →
      fs.known inode cache ((offset + i) / fs.blockSize) = none → fs.fileByte inode disk (offset + i) = 0 := by
  have hsize : 0 < fs.blockSize ∧ fs.blockSize ≤ 65536 := by
    rw [hblock]
    interval_cases log <;> norm_num
  have hstart : ((offset : Int) % 2 ^ 64).toNat = offset := by omega
  unfold ext2Read
  dsimp only
  rw [hstart, mod_eq_of_lt hend]
  by_cases hpast : (offset : Int) ≥ inode.size.toNat
  · rw [if_pos hpast]
    exact iff_of_true ⟨0, by omega, rfl⟩ fun i _ hi => by omega
  have hrest : (((inode.size.toNat : Int) - offset) % 2 ^ 64).toNat = inode.size.toNat - offset := by
    have := inode.size.isLt
    omega
  rw [if_neg hpast, hrest]
  set left := if offset + size > inode.size.toNat then inode.size.toNat - offset else size with hleft
  have hclip : ∀ i, i < left ↔ i < size ∧ offset + i < inode.size.toNat := by
    split_ifs at hleft <;> omega
  obtain ⟨k, heq, hk⟩ := @readBlocks_eq fs inode cache hsize.1 left offset left le_rfl
    (by split_ifs at hleft <;> omega)
  simp only [hclip, ne_eq, view_eq_none_iff hsize.2] at hk
  rw [heq]
  constructor
  · rintro ⟨n, hn, hmap⟩ i hi hlen hread hknown
    have hkn : k = n := by simpa using congrArg length hmap
    subst hkn
    have hbyte := map_inj_left.mp hmap i (mem_range.mpr ((hk i).mpr ⟨⟨hi, hlen⟩, hread⟩))
    rw [seen_eq hsize.2 hreads ((view_eq_none_iff hsize.2).not.mpr (hread i le_rfl)), hknown] at hbyte
    exact hbyte.symm
  · intro h
    refine ⟨k, ?_, map_congr_left fun i hi => ?_⟩
    · rcases k with _ | k
      · omega
      · have := (hk k).mp (lt_succ_self k)
        omega
    · obtain ⟨⟨hlt, hlen⟩, hread⟩ := (hk i).mp (mem_range.mp hi)
      rw [seen_eq hsize.2 hreads ((view_eq_none_iff hsize.2).not.mpr (hread i le_rfl))]
      cases hknown : fs.known inode cache ((offset + i) / fs.blockSize) with
      | none => exact (h i hlt hlen hread hknown).symm
      | some b => rfl

/-- Block 5 points to block 6, whose bytes are all 7. -/
def smallDisk (b : BitVec 32) : Mem := fun a => if b = 5 then if a = 0 then 6 else 0 else 7

/-- A file of thirteen blocks, the last of which is found through block 5. -/
def thirteenBlocks : Ext2Inode := ⟨0, 0, 0, 13312, fun i => if i = 12 then 5 else 0⟩

def smallFs : Ext2Fs := ⟨fun _ => none, 1024, 128, 1, 1, fun _ => 0⟩

/-- The last byte, when all blocks can be read. -/
theorem ext2_read_iff_lastByte : ∃ n, 13311 + n ≤ max 13311 thirteenBlocks.size.toNat ∧
    smallFs.ext2Read thirteenBlocks (fun _ b => some (smallDisk b)) 13311 1 =
      (range n).map fun i => smallFs.fileByte thirteenBlocks smallDisk (13311 + i) := by
  have hreads : ∀ (i : Nat) b data, some (smallDisk b) = some data → data = smallDisk b :=
    fun i b data h => (some.inj h).symm
  refine (ext2_read_iff 0 (by decide) rfl hreads 13311 1 (by norm_num) (by norm_num)).mpr fun i hi _ _ hnone => ?_
  rw [lt_one_iff.mp hi] at hnone
  exact absurd hnone (by decide)

/-- **Zeros for what cannot be read.** Block 5 cannot be read, and the last byte of the file, a 7, is returned as 0. -/
theorem ext2_read_loses_pointers :
    smallFs.ext2Read thirteenBlocks (fun _ b => if b = 5 then none else some (smallDisk b)) 13311 1 = [0] ∧
    smallFs.fileByte thirteenBlocks smallDisk 13311 = 7 := by
  decide

end SzpontOS.Fs.Ext2Fs
