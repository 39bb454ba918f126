import SzpontOS.Lib.Extent
import SzpontOS.Lib.Run

/-!
# Regular files in memory (`kernel/src/fs/tmpfs.c`, `kernel/src/fs/initramfs.c`)

A regular file of `tmpfs` or of the initial RAM disk is a buffer with a capacity and a length; a file that still lives
in the archive is moved to a buffer of its own by its first write. `kmalloc` gives memory with arbitrary contents and
`kzalloc` zeroed memory.

A file is meant to be an array of bytes (`Lib.Extent`), which `Represents` relates to the buffer. Nothing clears the
bytes between the length and the capacity, so an operation that makes them part of the file refines its counterpart on
arrays only when they happen to be zero (`Clean`).
-/

namespace SzpontOS.Fs

open Lib Extent Relation List

abbrev Byte := BitVec 8

/-! ## The files -/

/-- The fields of `tmpfs_node_t` and `initramfs_entry_t` that hold a regular file. -/
structure RamFile where
  /-- the buffer at `data`; `none` is `NULL` -/
  data : Option (Nat → Byte)
  capacity : Nat
  /-- the buffer was allocated and is not part of the archive; always so in `tmpfs` -/
  isDynamic : Bool
  length : Nat

/-- The memory that `kmalloc` returns for a size, with whatever it contains; `none` is `NULL`. -/
abbrev Alloc := Nat → Option (Nat → Byte)

/-- `(off_t)n` for a `size_t`. -/
def offT (n : Nat) : Int := if n < 2 ^ 63 then n else n - 2 ^ 64

/-- `memcpy(c + offset, buffer, size)`. -/
def overlay (c : Nat → Byte) (offset : Nat) (buffer : List Byte) : Nat → Byte :=
  fun i => if offset ≤ i ∧ i < offset + buffer.length then buffer.getD (i - offset) 0 else c i

/-- `memcpy(new_data, data, length)`. -/
def copyInto (new : Nat → Byte) (data : Option (Nat → Byte)) (length : Nat) : Nat → Byte :=
  match data with
  | some old => fun i => if i < length then old i else new i
  | none => new

/-- The `size` that is left of a read when it is cut at the end of the file. -/
def clampSize (f : RamFile) (offset size : Nat) : Nat :=
  if (offset + size) % 2 ^ 64 > f.length then f.length - offset else size

/-- The bytes of a buffer from `offset` on. -/
def bytesAt (c : Nat → Byte) (offset size : Nat) : List Byte := (List.range size).map fun i => c (offset + i)

/-- `tmpfs_file_read`: the result, and the bytes that are stored in the caller's buffer. -/
def tmpfsFileRead (f : RamFile) (offset size : Nat) : Nat × List Byte :=
  if (offset : Int) ≥ offT f.length then (0, [])
  else
    match f.data with
    | some c => (clampSize f offset size, bytesAt c offset (clampSize f offset size))
    | none => (clampSize f offset size, [])

def initramfsRead (f : RamFile) (offset size : Nat) : Nat × List Byte :=
  match f.data with
  | none => (0, [])
  | some c =>
    if (offset : Int) ≥ offT f.length then (0, [])
    else (clampSize f offset size, bytesAt c offset (clampSize f offset size))

def newCapacity (f : RamFile) (required : Nat) : Nat :=
  if required > f.capacity * 2 % 2 ^ 64 then (required + 512) % 2 ^ 64 else (f.capacity * 2 + 512) % 2 ^ 64

def storeBytes (f : RamFile) (offset : Nat) (buffer : List Byte) : Int × RamFile :=
  (buffer.length, { f with
    data := f.data.map (overlay · offset buffer)
    length := if (offset + buffer.length) % 2 ^ 64 > f.length then (offset + buffer.length) % 2 ^ 64 else f.length })

/-- A write, where `move` forces a new buffer. -/
def ramWrite (f : RamFile) (move : Bool) (offset : Nat) (buffer : List Byte) (kmalloc : Alloc) : Int × RamFile :=
  let required := (offset + buffer.length) % 2 ^ 64
  if move ∨ required > f.capacity then
    match kmalloc (newCapacity f required) with
    | none => (-1, f)
    | some new =>
      storeBytes { f with
        data := some (copyInto new f.data f.length), capacity := newCapacity f required, isDynamic := true } offset buffer
  else storeBytes f offset buffer

def tmpfsFileWrite (f : RamFile) (offset : Nat) (buffer : List Byte) (kmalloc : Alloc) : Int × RamFile :=
  ramWrite f false offset buffer kmalloc

def initramfsWrite (f : RamFile) (offset : Nat) (buffer : List Byte) (kmalloc : Alloc) : Int × RamFile :=
  ramWrite f (!f.isDynamic) offset buffer kmalloc

/-- A truncation; `available` is whether `kzalloc` finds memory for a size. -/
def ramTruncate (f : RamFile) (length : Int) (available : Nat → Bool) : Int × RamFile :=
  if length < 0 then (-1, f)
  else if length.toNat > f.capacity then
    if available ((length.toNat + 512) % 2 ^ 64) then
      (0, { data := some (copyInto (fun _ => 0) f.data f.length)
            capacity := (length.toNat + 512) % 2 ^ 64
            isDynamic := true
            length := length.toNat })
    else (-1, f)
  else (0, { f with length := length.toNat })

def tmpfsTruncate (f : RamFile) (length : Int) (available : Nat → Bool) : Int × RamFile := ramTruncate f length available

def initramfsTruncate (f : RamFile) (length : Int) (available : Nat → Bool) : Int × RamFile :=
  ramTruncate f length available

/-- What `tmpfs_dir_link` copies into the new entry, where `new` is the memory that `kmalloc` returns. -/
def RamFile.tmpfsDirLink (src : RamFile) (new : Nat → Byte) : RamFile :=
  if src.data.isSome ∧ src.capacity > 0 then ⟨some (copyInto new src.data src.length), src.capacity, true, src.length⟩
  else ⟨none, 0, true, src.length⟩

/-- The same for `initramfs_link`. A link to an empty file has a capacity, but no buffer. -/
def RamFile.initramfsLink (src : RamFile) (new : Nat → Byte) : RamFile :=
  let cap := if src.capacity < src.length then src.length else src.capacity
  ⟨if src.data.isSome ∧ src.length > 0 then some (copyInto new src.data src.length) else none,
    if cap = 0 ∧ src.length = 0 then 512 else cap, true, src.length⟩

inductive RamFs where
  | tmpfs
  | initramfs
  deriving DecidableEq, Repr

namespace RamFs

def read : RamFs → RamFile → Nat → Nat → Nat × List Byte
  | tmpfs => tmpfsFileRead
  | initramfs => initramfsRead

def write : RamFs → RamFile → Nat → List Byte → Alloc → Int × RamFile
  | tmpfs => tmpfsFileWrite
  | initramfs => initramfsWrite

def truncate : RamFs → RamFile → Int → (Nat → Bool) → Int × RamFile
  | tmpfs => tmpfsTruncate
  | initramfs => initramfsTruncate

def link : RamFs → RamFile → (Nat → Byte) → RamFile
  | tmpfs => RamFile.tmpfsDirLink
  | initramfs => RamFile.initramfsLink

def moves : RamFs → RamFile → Bool
  | tmpfs, _ => false
  | initramfs, f => !f.isDynamic

theorem write_eq (fs : RamFs) (f : RamFile) (offset : Nat) (buffer : List Byte) (kmalloc : Alloc) :
    fs.write f offset buffer kmalloc = ramWrite f (fs.moves f) offset buffer kmalloc := by
  cases fs <;> rfl

theorem truncate_eq (fs : RamFs) (f : RamFile) (length : Int) (available : Nat → Bool) :
    fs.truncate f length available = ramTruncate f length available := by
  cases fs <;> rfl

end RamFs

open RamFs

/-! ## The array that a file stands for -/

/-- The buffer holds the array `a`. -/
structure Represents (f : RamFile) (a : List Byte) : Prop where
  length : f.length = a.length
  fits : f.length ≤ f.capacity
  capacity : f.capacity ≤ 2 ^ 62
  present : f.data = none → f.length = 0
  bytes : ∀ c, f.data = some c → ∀ i, i < f.length → c i = a.getD i 0

def newFile : RamFile := ⟨none, 0, true, 0⟩

theorem Represents.newFile : Represents newFile [] :=
  ⟨rfl, le_rfl, by norm_num [Fs.newFile], fun _ => rfl, by simp [Fs.newFile]⟩

theorem length_bytesAt (c : Nat → Byte) (offset size : Nat) : (bytesAt c offset size).length = size := by
  simp [bytesAt]

variable {offset size i : Nat} {buffer : List Byte}

theorem getD_bytesAt (c : Nat → Byte) (hi : i < size) : (bytesAt c offset size).getD i 0 = c (offset + i) := by
  rw [getD_eq_getElem _ _ (by rw [length_bytesAt]; exact hi)]
  simp [bytesAt]

theorem copyInto_of_ge (new : Nat → Byte) (data : Option (Nat → Byte)) {length : Nat} (hi : length ≤ i) :
    copyInto new data length i = new i := by
  cases data with
  | none => rfl
  | some old =>
    dsimp only [copyInto]
    rw [if_neg (by omega)]

section Represents

variable {f : RamFile} {a : List Byte}

theorem Represents.offT (h : Represents f a) : offT f.length = f.length := by
  have := h.fits
  have := h.capacity
  rw [Fs.offT, if_pos (by omega)]

theorem Represents.some_of_lt (h : Represents f a) (hi : i < f.length) : ∃ c, f.data = some c := by
  cases hdata : f.data with
  | none =>
    have := h.present hdata
    omega
  | some c => exact ⟨c, rfl⟩

theorem clampSize_eq (hoff : offset < f.length) (hrange : offset + size < 2 ^ 64) :
    clampSize f offset size = min (offset + size) f.length - offset := by
  unfold clampSize
  split_ifs
  · omega
  · omega

theorem Represents.read (h : Represents f a) (fs : RamFs) (hrange : offset + size < 2 ^ 64) :
    fs.read f offset size = ((slice a offset size).length, slice a offset size) := by
  have hlength := h.length
  by_cases hend : offset < f.length
  · obtain ⟨c, hc⟩ := h.some_of_lt hend
    have hoff : ¬ (offset : Int) ≥ Fs.offT f.length := by
      rw [h.offT]
      omega
    have hclamp : clampSize f offset size = (slice a offset size).length := by
      rw [clampSize_eq hend hrange, length_slice, hlength]
    have hbyte : bytesAt c offset (clampSize f offset size) = slice a offset size := by
      apply ext_getD 0
      · rw [length_bytesAt, hclamp]
      · intro i hi
        rw [length_bytesAt] at hi
        rw [getD_bytesAt c hi, getD_slice 0 a offset size i (hclamp ▸ hi)]
        rw [clampSize_eq hend hrange] at hi
        exact h.bytes c hc _ (by omega)
    cases fs with
    | tmpfs =>
      rw [RamFs.read, tmpfsFileRead, if_neg hoff, hc]
      dsimp only
      rw [hbyte, hclamp]
    | initramfs =>
      rw [RamFs.read, initramfsRead, hc]
      dsimp only
      rw [if_neg hoff, hbyte, hclamp]
  · have hoff : (offset : Int) ≥ Fs.offT f.length := by
      rw [h.offT]
      omega
    have hslice : slice a offset size = [] := by
      rw [← length_eq_zero_iff, length_slice]
      omega
    rw [hslice]
    cases fs with
    | tmpfs => rw [RamFs.read, tmpfsFileRead, if_pos hoff, length_nil]
    | initramfs =>
      rw [RamFs.read, initramfsRead]
      split
      · rfl
      · rw [if_pos hoff, length_nil]

/-! ## Writing -/

def Zeros (c : Nat → Byte) (lo hi : Nat) : Prop := ∀ i, lo ≤ i → i < hi → c i = 0

theorem Represents.storeBytes (h : Represents f a) (hfits : offset + buffer.length ≤ f.capacity)
    (hbuffer : f.data = none → offset + buffer.length = 0) (hgap : ∀ c, f.data = some c → Zeros c f.length offset) :
    (storeBytes f offset buffer).1 = buffer.length ∧
      Represents (storeBytes f offset buffer).2 (writeAt 0 a offset buffer) := by
  have hcap := h.capacity
  have hfit := h.fits
  have hlength := h.length
  refine ⟨rfl, ?_⟩
  unfold Fs.storeBytes
  rw [Nat.mod_eq_of_lt (show offset + buffer.length < 2 ^ 64 by omega)]
  have hmax : (if offset + buffer.length > f.length then offset + buffer.length else f.length) =
      max f.length (offset + buffer.length) := by
    split_ifs <;> omega
  rw [hmax]
  refine ⟨?_, ?_, h.capacity, fun hnone => ?_, fun c hc i hi => ?_⟩
  · rw [length_writeAt, ← hlength]
  · dsimp only
    omega
  · have hdata := Option.map_eq_none_iff.mp hnone
    have := h.present hdata
    have := hbuffer hdata
    dsimp only
    omega
  · obtain ⟨old, hold, rfl⟩ := Option.map_eq_some_iff.mp hc
    rw [getD_writeAt, overlay]
    split_ifs with hin
    · rfl
    · by_cases hlt : i < f.length
      · exact h.bytes old hold i hlt
      · -- past the old end: only the gap is left
        dsimp only at hi
        rw [hgap old hold i (by omega) (by omega), getD_eq_default]
        omega

theorem Represents.move {new : Nat → Byte} {capacity : Nat} (h : Represents f a) (hle : f.length ≤ capacity)
    (hcap : capacity ≤ 2 ^ 62) (dynamic : Bool) :
    Represents ⟨some (copyInto new f.data f.length), capacity, dynamic, f.length⟩ a := by
  refine ⟨h.length, hle, hcap, by simp, fun c hc i hi => ?_⟩
  rw [← Option.some.inj hc]
  obtain ⟨old, hold⟩ := h.some_of_lt hi
  rw [hold]
  dsimp only [copyInto]
  rw [if_pos hi]
  exact h.bytes old hold i hi

theorem Represents.newCapacity {required : Nat} (h : Represents f a) (hrequired : required + 512 < 2 ^ 64) :
    required ≤ newCapacity f required ∧ f.length ≤ newCapacity f required := by
  have hcap := h.capacity
  have hfit := h.fits
  unfold Fs.newCapacity
  rw [Nat.mod_eq_of_lt (show f.capacity * 2 < 2 ^ 64 by omega), Nat.mod_eq_of_lt hrequired,
    Nat.mod_eq_of_lt (show f.capacity * 2 + 512 < 2 ^ 64 by omega)]
  split_ifs <;> omega

/-- There is a buffer that the write goes to, the present one or the memory that `kmalloc` returns, in which the bytes
between the end of the file and the first written byte are zero. -/
def WriteClean (fs : RamFs) (f : RamFile) (offset : Nat) (buffer : List Byte) (kmalloc : Alloc) : Prop :=
  if fs.moves f ∨ offset + buffer.length > f.capacity then
    ∀ new, kmalloc (newCapacity f (offset + buffer.length)) = some new → Zeros new f.length offset
  else (f.data = none → offset + buffer.length = 0) ∧ ∀ c, f.data = some c → Zeros c f.length offset

/-- The bytes that a truncation adds without a new buffer are zero. -/
def TruncateClean (f : RamFile) (length : Int) : Prop :=
  length.toNat ≤ f.capacity →
    (f.data = none → length.toNat = 0) ∧ ∀ c, f.data = some c → Zeros c f.length length.toNat

theorem Represents.write (h : Represents f a) (fs : RamFs) {kmalloc : Alloc} (hoff : offset < 2 ^ 63)
    (hsize : buffer.length ≤ 2 ^ 62) (hheap : ∀ n m, kmalloc n = some m → n ≤ 2 ^ 62)
    (hclean : WriteClean fs f offset buffer kmalloc) :
    fs.write f offset buffer kmalloc = (-1, f) ∨ (fs.write f offset buffer kmalloc).1 = buffer.length ∧
        Represents (fs.write f offset buffer kmalloc).2 (writeAt 0 a offset buffer) := by
  rw [write_eq, ramWrite]
  rw [Nat.mod_eq_of_lt (show offset + buffer.length < 2 ^ 64 by omega)]
  unfold WriteClean at hclean
  by_cases hmove : fs.moves f = true ∨ offset + buffer.length > f.capacity
  · rw [if_pos hmove] at hclean ⊢
    cases hnew : kmalloc (Fs.newCapacity f (offset + buffer.length)) with
    | none => exact .inl rfl
    | some new =>
      obtain ⟨hroom, hlength⟩ := h.newCapacity (show offset + buffer.length + 512 < 2 ^ 64 by omega)
      refine .inr ((h.move hlength (hheap _ _ hnew) true).storeBytes hroom (fun hnone => nomatch hnone)
        fun c hc i hlo hhi => ?_)
      rw [← Option.some.inj hc, copyInto_of_ge new f.data hlo]
      exact hclean new hnew i hlo hhi
  · rw [if_neg hmove] at hclean ⊢
    exact .inr (h.storeBytes (by omega) hclean.1 hclean.2)

theorem Represents.truncate (h : Represents f a) (fs : RamFs) {length : Int} {available : Nat → Bool}
    (hlength : length < 2 ^ 63) (hheap : ∀ n, available n = true → n ≤ 2 ^ 62) (hclean : TruncateClean f length) :
    fs.truncate f length available = (-1, f) ∨ (fs.truncate f length available).1 = 0 ∧
        Represents (fs.truncate f length available).2 (resize 0 a length.toNat) := by
  have hlen := h.length
  rw [truncate_eq, ramTruncate]
  by_cases hneg : length < 0
  · rw [if_pos hneg]
    exact .inl rfl
  rw [if_neg hneg]
  generalize hn : length.toNat = n at hclean ⊢
  by_cases hgrow : n > f.capacity
  · rw [if_pos hgrow, Nat.mod_eq_of_lt (show n + 512 < 2 ^ 64 by omega)]
    cases havail : available (n + 512) with
    | false => exact .inl rfl
    | true =>
      rw [if_pos rfl]
      refine .inr ⟨rfl, ?_, by dsimp only; omega, hheap _ havail, by simp, fun c hc i hi => ?_⟩
      · rw [length_resize]
      · rw [getD_resize, if_pos hi, ← Option.some.inj hc]
        by_cases hold : i < f.length
        · obtain ⟨old, hdata⟩ := h.some_of_lt hold
          rw [hdata]
          dsimp only [copyInto]
          rw [if_pos hold]
          exact h.bytes old hdata i hold
        · rw [copyInto_of_ge _ f.data (by omega), getD_eq_default]
          omega
  · rw [if_neg hgrow]
    obtain ⟨hbuffer, hgap⟩ := hclean (by omega)
    refine .inr ⟨rfl, ?_, by dsimp only; omega, h.capacity, fun hnone => hn ▸ hbuffer hnone, fun c hc i hi => ?_⟩
    · rw [length_resize]
    · rw [getD_resize, if_pos hi]
      by_cases hold : i < f.length
      · exact h.bytes c hc i hold
      · rw [hgap c hc i (by omega) (hn ▸ hi), getD_eq_default]
        omega

theorem Represents.unbuffered (h : Represents f a) (hempty : f.length = 0) {capacity : Nat} (hcap : capacity ≤ 2 ^ 62) :
    Represents ⟨none, capacity, true, f.length⟩ a :=
  ⟨h.length, hempty.trans_le (Nat.zero_le _), hcap, fun _ => hempty, fun _ hc => nomatch hc⟩

theorem Represents.link (h : Represents f a) (fs : RamFs) (new : Nat → Byte) : Represents (fs.link f new) a := by
  have hfits := h.fits
  have hcap := h.capacity
  have hempty : f.data.isSome = false → f.length = 0 := fun hnone => h.present (by simpa using hnone)
  cases fs with
  | tmpfs =>
    show Represents (if _ then _ else _) a
    split_ifs with hdata
    · exact h.move hfits hcap true
    · refine h.unbuffered ?_ (Nat.zero_le _)
      grind
  | initramfs =>
    show Represents ⟨if _ then _ else _, if _ then _ else _, true, f.length⟩ a
    rw [if_neg (show ¬ f.capacity < f.length by omega)]
    generalize hroom : (if f.capacity = 0 ∧ f.length = 0 then 512 else f.capacity) = capacity
    have hle : f.length ≤ capacity ∧ capacity ≤ 2 ^ 62 := by
      split_ifs at hroom <;> omega
    split_ifs with hdata
    · exact h.move hle.1 hle.2 true
    · refine h.unbuffered ?_ hle.2
      grind

end Represents

/-! ## Runs -/

structure FileState where
  file : RamFile
  array : List Byte

/-- One operation. Offsets are not negative, as the system calls check; no request above `2 ^ 62` bytes is
served by the heap, and none is made by a user. -/
inductive FileStep (fs : RamFs) (st : FileState) : FileState → Prop where
  | write (offset : Nat) (buffer : List Byte) (kmalloc : Alloc) (hoffset : offset < 2 ^ 63)
      (hsize : buffer.length ≤ 2 ^ 62) (hheap : ∀ n m, kmalloc n = some m → n ≤ 2 ^ 62)
      (hclean : WriteClean fs st.file offset buffer kmalloc) :
      FileStep fs st ⟨(fs.write st.file offset buffer kmalloc).2,
        if (fs.write st.file offset buffer kmalloc).1 < 0 then st.array else writeAt 0 st.array offset buffer⟩
  | truncate (length : Int) (available : Nat → Bool) (hlength : length < 2 ^ 63)
      (hheap : ∀ n, available n = true → n ≤ 2 ^ 62) (hclean : TruncateClean st.file length) :
      FileStep fs st ⟨(fs.truncate st.file length available).2,
        if (fs.truncate st.file length available).1 < 0 then st.array else resize 0 st.array length.toNat⟩
  /-- the run goes on with the new entry -/
  | link (new : Nat → Byte) : FileStep fs st ⟨fs.link st.file new, st.array⟩

def FileState.Ok (st : FileState) : Prop := Represents st.file st.array

theorem FileState.Ok.step {fs : RamFs} {st st' : FileState} (h : st.Ok) (hstep : FileStep fs st st') : st'.Ok := by
  cases hstep with
  | write offset buffer kmalloc hoff hsize hheap hclean =>
    rcases h.write fs hoff hsize hheap hclean with heq | ⟨hres, hrep⟩
    · rw [heq, if_pos (by norm_num)]
      exact h
    · rw [if_neg (by omega)]
      exact hrep
  | truncate length available hlength hheap hclean =>
    rcases h.truncate fs hlength hheap hclean with heq | ⟨hres, hrep⟩
    · rw [heq, if_pos (by norm_num)]
      exact h
    · rw [hres, if_neg (by norm_num)]
      exact hrep
  | link new => exact Represents.link h fs new

/-- **Files are byte arrays.** After any run of writes, truncations and links that add only clean bytes to the file,
every read returns the bytes of the array. -/
theorem ram_file_refines (fs : RamFs) {start st : FileState} (hstart : start.Ok)
    (hrun : ReflTransGen (FileStep fs) start st) {offset size : Nat} (hoffset : offset < 2 ^ 63)
    (hsize : size ≤ 2 ^ 62) :
    fs.read st.file offset size = ((slice st.array offset size).length, slice st.array offset size) := by
  have hrep : st.Ok := invariant_of_step (fun _ _ h hstep => h.step hstep) hstart hrun
  exact Represents.read hrep fs (by omega)

def zeroAlloc : Alloc := fun n => if n ≤ 2 ^ 62 then some fun _ => 0 else none

def twoBytes (fs : RamFs) : RamFile :=
  (fs.write newFile 0 [0x61, 0x62] zeroAlloc).2

/-- Two bytes written to a new file, and one of them cut off again: the file and its ideal contents. -/
def twoBytesCut (fs : RamFs) : FileState :=
  ⟨(fs.truncate (twoBytes fs) 1 fun _ => false).2, [0x61]⟩

theorem twoBytes_run (fs : RamFs) : ReflTransGen (FileStep fs) ⟨newFile, []⟩ (twoBytesCut fs) := by
  have hwrite : FileStep fs ⟨newFile, []⟩ ⟨twoBytes fs, [0x61, 0x62]⟩ := by
    have hstep : FileStep fs ⟨newFile, []⟩ _ := .write 0 [0x61, 0x62] zeroAlloc (by norm_num) (by simp)
      (fun n m hm => by unfold zeroAlloc at hm; split_ifs at hm; assumption)
      (by rw [WriteClean, if_pos (.inr (by decide))]; exact fun _ _ i _ hi => by omega)
    cases fs <;> exact hstep
  have hclean : TruncateClean (twoBytes fs) 1 := by
    have hlen : (twoBytes fs).length = 2 := by cases fs <;> rfl
    refine fun _ => ⟨fun hnone => ?_, fun c _ i hlo hhi => ?_⟩
    · cases fs <;> cases hnone
    · rw [hlen] at hlo
      exact absurd (lt_of_le_of_lt hlo hhi) (by decide)
  have htrunc : FileStep fs ⟨twoBytes fs, [0x61, 0x62]⟩ (twoBytesCut fs) := by
    have hstep : FileStep fs ⟨twoBytes fs, [0x61, 0x62]⟩ _ :=
      FileStep.truncate 1 (fun _ => false) (by norm_num) (by simp) hclean
    cases fs <;> exact hstep
  exact (ReflTransGen.single hwrite).tail htrunc

theorem ram_file_refines_twoBytes : tmpfs.read (twoBytesCut .tmpfs).file 0 8 = (1, [0x61]) ∧
      initramfs.read (twoBytesCut .initramfs).file 0 8 = (1, [0x61]) := by
  have hstart : FileState.Ok ⟨newFile, []⟩ := .newFile
  exact ⟨ram_file_refines .tmpfs hstart (twoBytes_run .tmpfs) (by norm_num) (by norm_num),
    ram_file_refines .initramfs hstart (twoBytes_run .initramfs) (by norm_num) (by norm_num)⟩

/-- Bytes that were cut off come back when the file grows again, and what is written to a link of an empty file is
lost. -/
theorem truncate_exposes_stale_bytes :
    (tmpfs.read (tmpfs.truncate (tmpfs.truncate (twoBytes .tmpfs) 0 fun _ => true).2
        2 fun _ => true).2 0 2 = (2, [0x61, 0x62]) ∧
      initramfs.read (initramfs.truncate (initramfs.truncate (twoBytes .initramfs) 0
        fun _ => true).2 2 fun _ => true).2 0 2 = (2, [0x61, 0x62])) ∧
      slice (resize 0 (resize 0 (writeAt 0 ([] : List Byte) 0 [0x61, 0x62]) 0) 2) 0 2 = [0, 0] ∧
      initramfs.read (initramfs.write (initramfs.link newFile fun _ => 0) 0 [0x61, 0x62] zeroAlloc).2 0 2 = (0, []) ∧
      slice (writeAt 0 ([] : List Byte) 0 [0x61, 0x62]) 0 2 = [0x61, 0x62] :=
  ⟨⟨rfl, rfl⟩, rfl, rfl, rfl⟩

end SzpontOS.Fs
