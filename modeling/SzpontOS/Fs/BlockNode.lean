import SzpontOS.Fs.Bcache

/-!
# Block devices as files

`devfs_block_read` and `devfs_block_write` go through a bounce buffer of as many sectors as the length alone asks for: a
range that begins inside a sector and reaches into one more does not fit it. Behind the buffer is the memory of the
kernel heap, which a read then returns and a write overwrites.
-/

namespace SzpontOS.Fs

/-- `num_sectors`, a `uint32_t`. -/
def BlockDevice.sectorsFor (dev : BlockDevice) (size : Nat) : Nat :=
  (size + dev.sectorSize - 1) % 2 ^ 64 / dev.sectorSize % 2 ^ 32

def BlockDevice.bounceSize (dev : BlockDevice) (size : Nat) : Nat := dev.sectorsFor size * dev.sectorSize % 2 ^ 64

/-- `kmalloc` of the bounce buffer, where the heap has `room` bytes to give: it returns `NULL` for no bytes, and does not
return when there is no room. -/
def withBounce {α : Type*} (room n : Nat) (null : α) (go : α) : Option α :=
  if n = 0 then some null else if room < n then none else some go

/-- `devfs_block_read`: the value and the buffer. `heap` is the memory from the bounce buffer on. -/
def devfsBlockRead (dev : BlockDevice) (room : Nat) (stored heap : Bytes) (offset size : Nat) (buffer : Bytes) :
    Option (Int × Bytes) :=
  if size = 0 then some (0, buffer)
  else
    let read := dev.readBlocks (offset / dev.sectorSize) (dev.sectorsFor size) stored heap
    withBounce room (dev.bounceSize size) (-1, buffer)
      (if read.1 ≠ 0 then (-1, buffer)
      else (size, fun j => if j < size then read.2 (offset % dev.sectorSize + j) else buffer j))

/-- `devfs_block_write`: the value, the bytes on the device, and the memory from the bounce buffer on. -/
def devfsBlockWrite (dev : BlockDevice) (room : Nat) (stored heap : Bytes) (offset size : Nat) (buffer : Bytes) :
    Option (Int × Bytes × Bytes) :=
  if size = 0 then some (0, stored, heap)
  else
    match dev.writeBlocks with
    | none => none
    | some writeBlocks =>
      let start := offset / dev.sectorSize
      let within := offset % dev.sectorSize
      let read := dev.readBlocks start (dev.sectorsFor size) stored heap
      let tmp : Bytes := fun j => if within ≤ j ∧ j < within + size then buffer (j - within) else read.2 j
      let write := writeBlocks start (dev.sectorsFor size) tmp stored
      withBounce room (dev.bounceSize size) (-1, stored, heap)
        (if read.1 ≠ 0 then (-1, stored, read.2)
        else if write.1 ≠ 0 then (-1, write.2, tmp)
        else (size, write.2, tmp))

/-- A device that reads and writes whole sectors, always. -/
structure BlockDevice.Exact (dev : BlockDevice) : Prop where
  sectorSize_pos : 0 < dev.sectorSize
  read : ∀ lba count stored buffer, dev.readBlocks lba count stored buffer =
    (0, fun j => if j < count * dev.sectorSize then stored (lba * dev.sectorSize + j) else buffer j)
  write : ∃ f, dev.writeBlocks = some f ∧ ∀ lba count buffer stored, f lba count buffer stored =
    (0, fun j => if lba * dev.sectorSize ≤ j ∧ j < (lba + count) * dev.sectorSize then
      buffer (j - lba * dev.sectorSize) else stored j)

def splice (stored : Bytes) (offset size : Nat) (data : Bytes) : Bytes :=
  fun j => if offset ≤ j ∧ j < offset + size then data (j - offset) else stored j

def ReadsRange (dev : BlockDevice) (room offset size : Nat) : Prop :=
  ∀ stored heap buffer, devfsBlockRead dev room stored heap offset size buffer =
    some ((size : Int), fun j => if j < size then stored (offset + j) else buffer j)

/-- A write changes the bytes of the range on the device and none behind the bounce buffer. -/
def WritesRange (dev : BlockDevice) (room offset size : Nat) : Prop :=
  ∀ stored heap buffer, ∃ heap' : Bytes, devfsBlockWrite dev room stored heap offset size buffer =
    some ((size : Int), splice stored offset size buffer, heap') ∧
      ∀ j, dev.sectorsFor size * dev.sectorSize ≤ j → heap' j = heap j

/-- The range ends inside the bounce buffer, and the heap has the room for that. -/
def FitsBounce (dev : BlockDevice) (room offset size : Nat) : Prop :=
  dev.bounceSize size ≠ 0 ∧ dev.bounceSize size ≤ room ∧
    offset % dev.sectorSize + size ≤ dev.sectorsFor size * dev.sectorSize

variable {dev : BlockDevice} {room offset size : Nat}

theorem withBounce_eq {α : Type*} {n : Nat} {null go : α} (hn : n ≠ 0) (hroom : n ≤ room) :
    withBounce room n null go = some go := by
  unfold withBounce
  rw [if_neg hn, if_neg (by omega)]

theorem offset_eq (offset sector : Nat) : offset / sector * sector + offset % sector = offset := by
  rw [Nat.mul_comm]
  exact Nat.div_add_mod ..

section

variable (hdev : dev.Exact) (hsize : size ≠ 0)

include hdev hsize

theorem readsRange_of_fits (h : FitsBounce dev room offset size) : ReadsRange dev room offset size := by
  intro stored heap buffer
  obtain ⟨hn, hroom, hfits⟩ := h
  unfold devfsBlockRead
  rw [if_neg hsize, hdev.read]
  dsimp only
  rw [withBounce_eq hn hroom, if_neg (by simp)]
  congr 2
  funext j
  by_cases hj : j < size
  · rw [if_pos hj, if_pos hj, if_pos (by omega), ← Nat.add_assoc, offset_eq]
  · rw [if_neg hj, if_neg hj]

theorem writesRange_of_fits (h : FitsBounce dev room offset size) : WritesRange dev room offset size := by
  intro stored heap buffer
  obtain ⟨hn, hroom, hfits⟩ := h
  obtain ⟨f, hf, hwrite⟩ := hdev.write
  have hoff := offset_eq offset dev.sectorSize
  unfold devfsBlockWrite
  rw [if_neg hsize, hf]
  dsimp only
  rw [withBounce_eq hn hroom, hdev.read, hwrite]
  dsimp only
  refine ⟨_, congrArg (fun m => some ((size : Int), m, _)) ?_, fun j hj => ?_⟩
  · funext j
    unfold splice
    rw [Nat.add_mul]
    by_cases hin : offset ≤ j ∧ j < offset + size
    · rw [if_pos hin, if_pos (by omega), if_pos (by omega)]
      congr 1
      omega
    · split_ifs with hsector hrange hins
      · omega
      · congr 1
        omega
      · omega
      · rfl
  · rw [if_neg (by omega), if_neg (by omega)]

/-- A byte behind the bounce buffer comes from the heap, whatever the device has. -/
theorem fits_of_readsRange (h : ReadsRange dev room offset size) : FitsBounce dev room offset size := by
  have hrun := h (fun _ => 0) (fun _ => 1) (fun _ => 0)
  unfold devfsBlockRead withBounce at hrun
  rw [if_neg hsize, hdev.read] at hrun
  dsimp only at hrun
  rw [if_neg (not_not_intro rfl)] at hrun
  split_ifs at hrun with hn hroom
  · injection hrun with hpair
    have hvalue : (-1 : Int) = size := congrArg Prod.fst hpair
    omega
  · refine ⟨hn, by omega, ?_⟩
    by_contra hlong
    injection hrun with hpair
    have hbyte := congrFun (congrArg Prod.snd hpair) (dev.sectorsFor size * dev.sectorSize - offset % dev.sectorSize)
    dsimp only at hbyte
    have hins : dev.sectorsFor size * dev.sectorSize - offset % dev.sectorSize < size := by omega
    rw [if_pos hins, if_neg (by omega), if_pos hins] at hbyte
    exact absurd hbyte (by decide)

end

theorem readsRange_zero : ReadsRange dev room offset 0 := fun _ _ _ => by
  simp [devfsBlockRead]

theorem writesRange_zero : WritesRange dev room offset 0 := fun stored heap buffer => by
  refine ⟨heap, ?_, fun _ _ => rfl⟩
  have hnone : splice stored offset 0 buffer = stored := by
    funext j
    exact if_neg (by omega)
  simp [devfsBlockWrite, hnone]

/-- **Block nodes are flat byte arrays** exactly for the ranges that end inside the bounce buffer. There a read that
follows a write sees the new bytes inside the range written and the old ones outside. -/
theorem flat_block_node (dev : BlockDevice) (hdev : dev.Exact) (room offset size : Nat) :
    (ReadsRange dev room offset size ∧ WritesRange dev room offset size ↔ size = 0 ∨ FitsBounce dev room offset size) ∧
    ∀ offset' size', WritesRange dev room offset size → ReadsRange dev room offset' size' →
      ∀ stored heap heap' data buffer, ∃ stored' heap'' : Bytes,
        devfsBlockWrite dev room stored heap offset size data = some ((size : Int), stored', heap'') ∧
        devfsBlockRead dev room stored' heap' offset' size' buffer =
          some ((size' : Int), fun j => if j < size' then splice stored offset size data (offset' + j) else buffer j) := by
  refine ⟨⟨fun ⟨hread, _⟩ => ?_, ?_⟩, fun offset' size' hwrite hread stored heap heap' data buffer => ?_⟩
  · by_cases hsize : size = 0
    · exact .inl hsize
    · exact .inr (fits_of_readsRange hdev hsize hread)
  · intro h
    by_cases hsize : size = 0
    · rw [hsize]
      exact ⟨readsRange_zero, writesRange_zero⟩
    · have hfits := h.resolve_left hsize
      exact ⟨readsRange_of_fits hdev hsize hfits, writesRange_of_fits hdev hsize hfits⟩
  · obtain ⟨heap'', hrun, -⟩ := hwrite stored heap data
    exact ⟨_, heap'', hrun, hread _ heap' buffer⟩

def plainDisk : BlockDevice where
  addr := 0
  sectorSize := 512
  readBlocks lba count stored buffer := (0, fun j => if j < count * 512 then stored (lba * 512 + j) else buffer j)
  writeBlocks := some fun lba count buffer stored =>
    (0, fun j => if lba * 512 ≤ j ∧ j < (lba + count) * 512 then buffer (j - lba * 512) else stored j)

theorem plainDisk_exact : plainDisk.Exact := ⟨by decide, fun _ _ _ _ => rfl, _, rfl, fun _ _ _ _ => rfl⟩

theorem flat_block_node_part : ReadsRange plainDisk 4096 100 200 ∧ WritesRange plainDisk 4096 100 200 := by
  refine (flat_block_node plainDisk plainDisk_exact 4096 100 200).1.mpr (.inr ?_)
  unfold FitsBounce
  decide

/-- Two bytes that lie in two sectors: a read returns one of them and a byte of the heap, and a write stores one of them
and leaves the other in the heap. -/
theorem block_straddles :
    ((devfsBlockRead plainDisk 4096 (fun _ => 0) (fun _ => 0xff) 511 2 fun _ => 0).map fun result =>
      (result.1, result.2 0, result.2 1)) = some (2, 0, 0xff) ∧
    ((devfsBlockWrite plainDisk 4096 (fun _ => 0) (fun _ => 0xff) 511 2 fun _ => 7).map fun result =>
      (result.1, result.2.1 511, result.2.1 512, result.2.2 512)) = some (2, 7, 0, 7) := by
  decide

end SzpontOS.Fs
