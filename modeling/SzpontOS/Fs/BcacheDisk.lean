import SzpontOS.Fs.Bcache

/-!
# The cache and the disk

What the block cache is for: its users see, block by block, one disk that holds what they last stored
(`CacheWorld.contents`). A user that has got a buffer from `bread` is a `Hold` on it, until `brelse`; `unsaved` says
that it has stored into the data since it last set `dirty` or called `bwrite`. `Coherent` is the simulation relation: a
valid buffer shows the contents of its block, and where the device does not, a buffer that is dirty or has an unsaved
user will bring the block up to date.
-/

namespace SzpontOS.Fs

open SzpontOS.Lib Bcache Relation List Option Function

variable {Dev : Type} {device : Dev → BlockDevice} {size : Dev → Nat}

/-! ## Reliable devices -/

/-- A device that reads what it stores, when it reads at all, and stores what it is given. -/
structure BlockDevice.Reliable (dev : BlockDevice) : Prop where
  read : ∀ lba count stored buffer, (dev.readBlocks lba count stored buffer).1 = 0 →
    ∀ j, j < count * dev.sectorSize → (dev.readBlocks lba count stored buffer).2 j = stored (lba * dev.sectorSize + j)
  write : ∃ f, dev.writeBlocks = some f ∧ ∀ lba count buffer stored, (f lba count buffer stored).1 = 0 ∧
    ∀ j, (f lba count buffer stored).2 j =
      if lba * dev.sectorSize ≤ j ∧ j < (lba + count) * dev.sectorSize then buffer (j - lba * dev.sectorSize)
      else stored j

/-- The devices are reliable, and each is used with one block size, a positive multiple of its sector size. -/
structure Devices (device : Dev → BlockDevice) (size : Dev → Nat) : Prop where
  reliable : ∀ d, (device d).Reliable
  pos : ∀ d, 0 < size d
  sectors : ∀ d, (device d).sectorSize ∣ size d

def blockByte (size : Dev → Nat) (m : Dev → Bytes) (d : Dev) (no : BitVec 32) (j : Nat) : BitVec 8 :=
  m d (no.toNat * size d + j)

/-- The bytes of a block replaced by `data`. -/
def putBlock [DecidableEq Dev] (size : Dev → Nat) (m : Dev → Bytes) (d : Dev) (no : BitVec 32) (data : Bytes) :
    Dev → Bytes :=
  update m d fun off =>
    if no.toNat * size d ≤ off ∧ off < no.toNat * size d + size d then data (off - no.toNat * size d) else m d off

variable {j i : Nat} {d : Dev} {no no' : BitVec 32} {s s' : Bcache Dev} {b : Buffer Dev} {r : Option Nat}

theorem blockByte_putBlock_self [DecidableEq Dev] (m : Dev → Bytes) (d : Dev) (no : BitVec 32) (data : Bytes)
    (hj : j < size d) : blockByte size (putBlock size m d no data) d no j = data j := by
  unfold blockByte putBlock
  rw [update_self, if_pos ⟨Nat.le_add_right _ _, by omega⟩, Nat.add_sub_cancel_left]

theorem blockByte_putBlock_of_ne [DecidableEq Dev] (m : Dev → Bytes) {e : Dev} (data : Bytes) (hj : j < size e)
    (hne : ¬ (e = d ∧ no' = no)) : blockByte size (putBlock size m d no data) e no' j = blockByte size m e no' j := by
  unfold blockByte putBlock
  by_cases he : e = d
  · subst he
    rw [update_self, if_neg]
    intro ⟨hlow, hhigh⟩
    -- the block number of a byte is its offset divided by the block size
    have hdiv : ∀ k r, r < size e → (k * size e + r) / size e = k := by
      intro k r hr
      rw [Nat.mul_comm, Nat.mul_add_div (by omega), Nat.div_eq_of_lt hr, Nat.add_zero]
    obtain ⟨r, hr⟩ := Nat.exists_eq_add_of_le hlow
    have hsame : no'.toNat = no.toNat := by
      rw [← hdiv no'.toNat j hj, hr, hdiv no.toNat r (by omega)]
    exact hne ⟨rfl, BitVec.eq_of_toNat_eq hsame⟩
  · rw [update_of_ne he]

namespace Devices

variable (hdevs : Devices device size)
include hdevs

theorem lba_mul (d : Dev) (no : BitVec 32) :
    blockLba device d no (size d) * (device d).sectorSize = no.toNat * size d := by
  rw [blockLba, Nat.mul_assoc, Nat.div_mul_cancel (hdevs.sectors d)]

theorem count_mul (d : Dev) : blockCount device d (size d) * (device d).sectorSize = size d :=
  Nat.div_mul_cancel (hdevs.sectors d)

theorem sectorSize_pos (d : Dev) : 0 < (device d).sectorSize := Nat.pos_of_dvd_of_pos (hdevs.sectors d) (hdevs.pos d)

variable [DecidableEq Dev]

theorem writeBlock_eq (hsize : (s.pool i).blockSize = size d) {f : Nat → Nat → Bytes → Bytes → Int × Bytes}
    (hf : (device d).writeBlocks = some f) : s.writeBlock device i d f =
      (0, { s with media := putBlock size s.media d (s.pool i).blockNo (s.pool i).data }) := by
  obtain ⟨g, hg, hwrite⟩ := (hdevs.reliable d).write
  obtain rfl : f = g := some.inj (hf.symm.trans hg)
  simp only [writeBlock, hsize]
  obtain ⟨hstat, hbyte⟩ := hwrite (blockLba device d (s.pool i).blockNo (size d)) (blockCount device d (size d))
    (s.pool i).data (s.media d)
  refine Prod.ext hstat ?_
  show ({ s with media := _ } : Bcache Dev) = { s with media := _ }
  congr 1
  congr 1
  funext off
  rw [hbyte off, Nat.add_mul, hdevs.lba_mul, hdevs.count_mul]

theorem writeBack_eq (hsize : (s.pool i).blockSize = size d) : s.writeBack device i d =
    ({ s with media := putBlock size s.media d (s.pool i).blockNo (s.pool i).data } : Bcache Dev).setBuf i
      { s.pool i with dirty := false } := by
  obtain ⟨f, hf, -⟩ := (hdevs.reliable d).write
  unfold writeBack
  simp only [hf, hdevs.writeBlock_eq hsize hf]

theorem bwrite_eq (hdev : (s.pool i).dev = some d) (hsize : (s.pool i).blockSize = size d) :
    bwrite device s (some i) = (0, s.writeBack device i d) := by
  obtain ⟨f, hf, -⟩ := (hdevs.reliable d).write
  unfold bwrite writeBack
  simp only [hdev, hf, hdevs.writeBlock_eq hsize hf, if_neg (hdevs.sectorSize_pos d).ne', if_true]

end Devices

/-! ## The users of the cache -/

/-- A user of a buffer, from its `bread` to its `brelse`: the buffer, the block it asked for, and whether it
has stored into the data since it last set `dirty` or called `bwrite`. -/
structure Hold (Dev : Type) where
  buf : Nat
  dev : Dev
  blockNo : BitVec 32
  unsaved : Bool

/-- The cache, its users, and the disk they see: what was last stored in each block. -/
structure CacheWorld (Dev : Type) where
  cache : Bcache Dev
  holds : List (Hold Dev)
  contents : Dev → Bytes

namespace CacheWorld

def users (w : CacheWorld Dev) (i : Nat) : Nat := w.holds.countP fun h => h.buf == i

def start (media : Dev → Bytes) : CacheWorld Dev := ⟨bcacheInit media, [], media⟩

variable (device size) in
/-- One step: `bread` of any block, a user storing into its buffer, setting `dirty`, calling `bwrite` or, with
nothing unsaved, `brelse`; and `bflush`. -/
inductive Step [DecidableEq Dev] : CacheWorld Dev → CacheWorld Dev → Prop
  | breadNull (w d no s') : bread device w.cache (some d) no (size d) = (s', none) → Step w ⟨s', w.holds, w.contents⟩
  | bread (w d no s' i) : bread device w.cache (some d) no (size d) = (s', some i) →
      Step w ⟨s', ⟨i, d, no, false⟩ :: w.holds, w.contents⟩
  | store (w pre h post data) : w.holds = pre ++ h :: post →
      Step w ⟨storeData w.cache h.buf data, pre ++ { h with unsaved := true } :: post,
        putBlock size w.contents h.dev h.blockNo data⟩
  | mark (w pre h post) : w.holds = pre ++ h :: post →
      Step w ⟨markDirty w.cache h.buf, pre ++ { h with unsaved := false } :: post, w.contents⟩
  | bwrite (w pre h post) : w.holds = pre ++ h :: post →
      Step w ⟨(bwrite device w.cache (some h.buf)).2, pre ++ { h with unsaved := false } :: post, w.contents⟩
  | brelse (w pre h post) : w.holds = pre ++ h :: post → h.unsaved = false →
      Step w ⟨brelse w.cache (some h.buf), pre ++ post, w.contents⟩
  | bflush (w dev) : Step w ⟨bflush device w.cache dev, w.holds, w.contents⟩

/-- Buffer `i` has data that its device may lack: it is dirty, or a user has not saved yet. -/
def Pending (w : CacheWorld Dev) (i : Nat) : Prop :=
  (w.cache.pool i).dirty = true ∨ ∃ h ∈ w.holds, h.buf = i ∧ h.unsaved = true

def Stored (size : Dev → Nat) (w : CacheWorld Dev) (d : Dev) (no : BitVec 32) : Prop :=
  ∀ j, j < size d → blockByte size w.cache.media d no j = blockByte size w.contents d no j

variable (device size) in
/-- **The cache shows the disk.** -/
structure Coherent (w : CacheWorld Dev) : Prop where
  lists : ∃ order, w.cache.Ok device size order
  held : ∀ h ∈ w.holds, h.buf < bcacheEntries ∧ w.cache.Caches h.buf h.dev h.blockNo
  data : ∀ i d no, i < bcacheEntries → w.cache.Caches i d no →
    ∀ j, j < size d → (w.cache.pool i).data j = blockByte size w.contents d no j
  stored : ∀ d no, w.Stored size d no ∨ ∃ i, i < bcacheEntries ∧ w.cache.Caches i d no ∧ w.Pending i

def Counted (w : CacheWorld Dev) : Prop :=
  ∀ i, i < bcacheEntries → (w.cache.pool i).refcount.toNat = w.users i

/-! ## Each step keeps the cache coherent -/

variable {w : CacheWorld Dev} {pre post : List (Hold Dev)} {hold : Hold Dev}

theorem caches_setBuf (hval : b.valid = (s.pool i).valid) (hdev : b.dev = (s.pool i).dev)
    (hno : b.blockNo = (s.pool i).blockNo) : (s.setBuf i b).Caches j d no ↔ s.Caches j d no := by
  unfold Caches
  by_cases hj : j = i
  · rw [hj, pool_setBuf_self, hval, hdev, hno]
  · rw [pool_setBuf_of_ne b hj]

theorem caches_inj {d' : Dev} (h : s.Caches i d no) (h' : s.Caches i d' no') : d' = d ∧ no' = no :=
  ⟨some.inj (h'.2.1.symm.trans h.2.1), h'.2.2.symm.trans h.2.2⟩

/-- **A step on one buffer that keeps its block.** The other blocks keep their contents and their bytes on
the device, and the users of other buffers stay. -/
theorem Coherent.setBuf (h : w.Coherent device size) (media : Dev → Bytes) {contents : Dev → Bytes}
    {holds : List (Hold Dev)} (hi : i < bcacheEntries) (hval : b.valid = (w.cache.pool i).valid)
    (hdev : b.dev = (w.cache.pool i).dev) (hno : b.blockNo = (w.cache.pool i).blockNo)
    (hsize : b.blockSize = (w.cache.pool i).blockSize)
    (hheld : ∀ x ∈ holds, ∃ y ∈ w.holds, x.buf = y.buf ∧ x.dev = y.dev ∧ x.blockNo = y.blockNo)
    (hrest : ∀ x ∈ w.holds, x.buf ≠ i → x ∈ holds) (hframe : ∀ d no, ¬ w.cache.Caches i d no → ∀ j, j < size d →
      blockByte size contents d no j = blockByte size w.contents d no j ∧
        blockByte size media d no j = blockByte size w.cache.media d no j)
    (hdata : ∀ d no, w.cache.Caches i d no → ∀ j, j < size d → b.data j = blockByte size contents d no j)
    (hstored : ∀ d no, w.cache.Caches i d no →
      (∀ j, j < size d → blockByte size media d no j = blockByte size contents d no j) ∨
        b.dirty = true ∨ ∃ x ∈ holds, x.buf = i ∧ x.unsaved = true) :
    Coherent device size ⟨({ w.cache with media := media } : Bcache Dev).setBuf i b, holds, contents⟩ := by
  obtain ⟨order, hok⟩ := h.lists
  have hok' : ({ w.cache with media := media } : Bcache Dev).Ok device size order :=
    hok.congr rfl rfl fun _ => ⟨rfl, rfl, rfl, rfl⟩
  have hsame : ∀ {j d no}, (({ w.cache with media := media } : Bcache Dev).setBuf i b).Caches j d no ↔
      w.cache.Caches j d no := by
    exact caches_setBuf (s := { w.cache with media := media }) hval hdev hno
  -- a block of another buffer is not the block of buffer `i`
  have hother : ∀ {k d no}, k < bcacheEntries → k ≠ i → w.cache.Caches k d no → ¬ w.cache.Caches i d no :=
    fun hk hki hck hci => hki (hok.unique _ i _ _ hk hi hck hci)
  refine ⟨⟨order, hok'.setBuf hval hdev hno hsize⟩, fun x hx => ?_, fun k d no hk hc j hj => ?_, fun d no => ?_⟩
  · obtain ⟨y, hy, hbuf, hd, hn⟩ := hheld x hx
    rw [hbuf, hd, hn]
    exact ⟨(h.held y hy).1, hsame.mpr (h.held y hy).2⟩
  · replace hc := hsame.mp hc
    by_cases hki : k = i
    · subst hki
      rw [pool_setBuf_self]
      exact hdata d no hc j hj
    · rw [pool_setBuf_of_ne _ hki, (hframe d no (hother hk hki hc) j hj).1]
      exact h.data k d no hk hc j hj
  · by_cases hci : w.cache.Caches i d no
    · refine (hstored d no hci).imp id fun hpend => ⟨i, hi, hsame.mpr hci, hpend.imp_left fun hdirty => ?_⟩
      rwa [pool_setBuf_self]
    · refine (h.stored d no).imp (fun hst j hj => ?_) fun ⟨k, hk, hc, hpend⟩ => ⟨k, hk, hsame.mpr hc, ?_⟩
      · show blockByte size media d no j = blockByte size contents d no j
        rw [(hframe d no hci j hj).1, (hframe d no hci j hj).2]
        exact hst j hj
      · have hki : k ≠ i := fun heq => hci (heq ▸ hc)
        refine hpend.imp (fun hdirty => ?_) fun ⟨x, hx, hxk, hunsaved⟩ => ⟨x, hrest x hx (hxk ▸ hki), hxk, hunsaved⟩
        rwa [pool_setBuf_of_ne _ hki]

theorem Coherent.stored_or (h : w.Coherent device size) (hi : i < bcacheEntries) (hc : w.cache.Caches i d no) :
    w.Stored size d no ∨ w.Pending i := by
  obtain ⟨order, hok⟩ := h.lists
  refine (h.stored d no).imp id fun ⟨k, hk, hck, hpend⟩ => ?_
  exact hok.unique k i d no hk hi hck hc ▸ hpend

theorem held_change {l : List (Hold Dev)} (hl : l = pre ++ hold :: post) (b : Bool) :
    ∀ x ∈ pre ++ { hold with unsaved := b } :: post, ∃ y ∈ l, x.buf = y.buf ∧ x.dev = y.dev ∧ x.blockNo = y.blockNo := by
  intro x hx
  rw [mem_append, mem_cons] at hx
  rcases hx with hx | rfl | hx
  · exact ⟨x, by rw [hl]; simp [hx], rfl, rfl, rfl⟩
  · exact ⟨hold, by rw [hl]; simp, rfl, rfl, rfl⟩
  · exact ⟨x, by rw [hl]; simp [hx], rfl, rfl, rfl⟩

theorem others_change {l : List (Hold Dev)} (hl : l = pre ++ hold :: post) :
    ∀ x ∈ l, x.buf ≠ hold.buf → ∀ rest, x ∈ pre ++ rest ++ post := by
  intro x hx hne rest
  rw [hl, mem_append, mem_cons] at hx
  simp only [mem_append]
  tauto

theorem Coherent.mark (h : w.Coherent device size) (hw : w.holds = pre ++ hold :: post) :
    Coherent device size ⟨markDirty w.cache hold.buf, pre ++ { hold with unsaved := false } :: post, w.contents⟩ := by
  obtain ⟨hbuf, hcach⟩ := h.held hold (by rw [hw]; simp)
  refine h.setBuf w.cache.media hbuf rfl rfl rfl rfl (held_change hw false)
    (fun x hx hne => by simpa using others_change hw x hx hne [_]) (fun d no _ j _ => ⟨rfl, rfl⟩)
    (fun d no hc j hj => h.data _ d no hbuf hc j hj) fun _ _ _ => .inr (.inl rfl)

theorem brelse_eq (s : Bcache Dev) (i : Nat) : brelse s (some i) = s.setBuf i { s.pool i with
    refcount := if 0 < (s.pool i).refcount then (s.pool i).refcount - 1 else (s.pool i).refcount } := by
  unfold brelse
  by_cases hpos : 0 < (s.pool i).refcount
  · simp only [if_pos hpos]
  · simp only [if_neg hpos, Bcache.setBuf, update_eq_self]

theorem Coherent.brelse (h : w.Coherent device size) (hw : w.holds = pre ++ hold :: post)
    (hsafe : hold.unsaved = false) :
    Coherent device size ⟨brelse w.cache (some hold.buf), pre ++ post, w.contents⟩ := by
  obtain ⟨hbuf, hcach⟩ := h.held hold (by rw [hw]; simp)
  have hheld : ∀ x ∈ pre ++ post, ∃ y ∈ w.holds, x.buf = y.buf ∧ x.dev = y.dev ∧ x.blockNo = y.blockNo := by
    intro x hx
    exact ⟨x, by rw [hw]; simp at hx ⊢; tauto, rfl, rfl, rfl⟩
  rw [brelse_eq]
  refine h.setBuf w.cache.media hbuf rfl rfl rfl rfl hheld
    (fun x hx hne => by simpa using others_change hw x hx hne []) (fun d no _ j _ => ⟨rfl, rfl⟩)
    (fun d no hc j hj => h.data _ d no hbuf hc j hj) ?_
  intro d no hc
  refine (h.stored_or hbuf hc).imp id (.imp id fun ⟨x, hx, hxk, hunsaved⟩ => ⟨x, ?_, hxk, hunsaved⟩)
  rw [hw, mem_append, mem_cons] at hx
  rw [mem_append]
  rcases hx with hx | rfl | hx
  · exact .inl hx
  · rw [hsafe] at hunsaved
    cases hunsaved
  · exact .inr hx

variable [DecidableEq Dev]

theorem pool_bflushOne (dev : Option Dev) (hj : j ≠ i) : (bflushOne device dev s i).pool j = s.pool j := by
  unfold bflushOne
  cases (s.pool i).dev with
  | none => rfl
  | some d =>
    dsimp only
    split
    · exact (writeBack_frame device s i d).2.2.1 j hj
    · rfl

theorem Coherent.store (h : w.Coherent device size) (hw : w.holds = pre ++ hold :: post) (data : Bytes) :
    Coherent device size ⟨storeData w.cache hold.buf data, pre ++ { hold with unsaved := true } :: post,
      putBlock size w.contents hold.dev hold.blockNo data⟩ := by
  obtain ⟨hbuf, hcach⟩ := h.held hold (by rw [hw]; simp)
  refine h.setBuf w.cache.media hbuf rfl rfl rfl rfl (held_change hw true)
    (fun x hx hne => by simpa using others_change hw x hx hne [_]) ?_ ?_ ?_
  · intro d no hc j hj
    rw [blockByte_putBlock_of_ne _ _ hj fun heq => hc (heq.1 ▸ heq.2 ▸ hcach)]
    exact ⟨rfl, rfl⟩
  · intro d no hc j hj
    obtain ⟨rfl, rfl⟩ := caches_inj hcach hc
    rw [blockByte_putBlock_self _ _ _ _ hj]
  · intro d no hc
    exact .inr (.inr ⟨{ hold with unsaved := true }, by simp, rfl, rfl⟩)

section

variable (hdevs : Devices device size)

include hdevs

theorem Coherent.writeBack (h : w.Coherent device size) {holds : List (Hold Dev)} (hi : i < bcacheEntries)
    (hc : w.cache.Caches i d no)
    (hheld : ∀ x ∈ holds, ∃ y ∈ w.holds, x.buf = y.buf ∧ x.dev = y.dev ∧ x.blockNo = y.blockNo)
    (hrest : ∀ x ∈ w.holds, x.buf ≠ i → x ∈ holds) :
    Coherent device size ⟨w.cache.writeBack device i d, holds, w.contents⟩ := by
  obtain ⟨order, hok⟩ := h.lists
  obtain ⟨e, hdev, hsize⟩ := hok.named i hi hc.1
  obtain rfl : d = e := some.inj (hc.2.1.symm.trans hdev)
  rw [hdevs.writeBack_eq hsize]
  refine h.setBuf _ hi rfl rfl rfl rfl hheld hrest ?_ (fun e no' hc' => h.data i e no' hi hc') ?_
  · intro e no' hc' j hj
    refine ⟨rfl, blockByte_putBlock_of_ne _ _ hj fun heq => hc' ?_⟩
    rw [heq.1, heq.2, hc.2.2]
    exact hc
  · intro e no' hc'
    obtain ⟨rfl, rfl⟩ := caches_inj hc hc'
    refine .inl fun j hj => ?_
    rw [hc'.2.2, blockByte_putBlock_self _ _ _ _ hj]
    exact h.data i _ _ hi hc' j hj

theorem Coherent.bwrite (h : w.Coherent device size) (hw : w.holds = pre ++ hold :: post) :
    Coherent device size ⟨(bwrite device w.cache (some hold.buf)).2, pre ++ { hold with unsaved := false } :: post,
      w.contents⟩ := by
  obtain ⟨hbuf, hcach⟩ := h.held hold (by rw [hw]; simp)
  obtain ⟨order, hok⟩ := h.lists
  obtain ⟨e, hdev, hsize⟩ := hok.named hold.buf hbuf hcach.1
  obtain rfl : hold.dev = e := some.inj (hcach.2.1.symm.trans hdev)
  rw [hdevs.bwrite_eq hdev hsize]
  exact h.writeBack hdevs hbuf hcach (held_change hw false)
    fun x hx hne => by simpa using others_change hw x hx hne [_]

theorem Coherent.bflushOne (dev : Option Dev) (hi : i < bcacheEntries)
    (h : Coherent device size ⟨s, w.holds, w.contents⟩) :
    Coherent device size ⟨bflushOne device dev s i, w.holds, w.contents⟩ ∧
    ∀ d no, (dev = none ∨ dev = some d) → (Fs.bflushOne device dev s i).Caches i d no →
      ((Fs.bflushOne device dev s i).pool i).dirty = false := by
  unfold Fs.bflushOne
  cases hdev : (s.pool i).dev with
  | none =>
    refine ⟨h, fun d no _ hc => ?_⟩
    cases hdev.symm.trans hc.2.1
  | some e =>
    by_cases hflush : (s.pool i).valid ∧ (s.pool i).dirty ∧ (dev = none ∨ dev = some e) ∧ 0 < (device e).sectorSize
    · simp only [if_pos hflush]
      obtain ⟨order, hok⟩ := h.lists
      obtain ⟨e', hdev', hsize⟩ := hok.named i hi hflush.1
      obtain rfl : e = e' := some.inj (hdev.symm.trans hdev')
      refine ⟨?_, fun d no _ _ => ?_⟩
      · exact h.writeBack hdevs hi ⟨hflush.1, hdev, rfl⟩ (fun x hx => ⟨x, hx, rfl, rfl, rfl⟩) fun x hx _ => hx
      · rw [hdevs.writeBack_eq hsize, pool_setBuf_self]
    · simp only [if_neg hflush]
      refine ⟨h, fun d no hd hc => ?_⟩
      obtain rfl : e = d := some.inj (hdev.symm.trans hc.2.1)
      by_contra hdirty
      exact hflush ⟨hc.1, by simpa using hdirty, hd, hdevs.sectorSize_pos e⟩

theorem Coherent.bflush (h : w.Coherent device size) (dev : Option Dev) :
    Coherent device size ⟨bflush device w.cache dev, w.holds, w.contents⟩ ∧
    ∀ i, i < bcacheEntries → ∀ d no, (dev = none ∨ dev = some d) → (bflush device w.cache dev).Caches i d no →
      ((Fs.bflush device w.cache dev).pool i).dirty = false := by
  refine foldl_range_rule (fun k s => Coherent device size ⟨s, w.holds, w.contents⟩ ∧
    ∀ i, i < k → ∀ d no, (dev = none ∨ dev = some d) → s.Caches i d no → (s.pool i).dirty = false)
    ⟨h, fun i hi => absurd hi (Nat.not_lt_zero i)⟩ ?_
  intro k s hk ⟨hcoh, hclean⟩
  obtain ⟨hcoh', hself⟩ := hcoh.bflushOne hdevs dev hk
  refine ⟨hcoh', fun i hi d no hd hc => ?_⟩
  by_cases hik : i = k
  · subst hik
    exact hself d no hd hc
  · rw [Caches, pool_bflushOne dev hik] at hc
    rw [pool_bflushOne dev hik]
    exact hclean i (by omega) d no hd hc

theorem evict_media {order : List Nat} (hok : s.Ok device size order) (hi : i < bcacheEntries) :
    ((s.evict device i).media = s.media ∧ ∀ d no, s.Caches i d no → (s.pool i).dirty = false) ∨
      ∃ d no, s.Caches i d no ∧ (s.evict device i).media = putBlock size s.media d no (s.pool i).data := by
  unfold evict
  cases hdev : (s.pool i).dev with
  | none => exact .inl ⟨rfl, fun d no hc => by cases hdev.symm.trans hc.2.1⟩
  | some d =>
    by_cases hval : (s.pool i).valid = true
    · simp only [hval, if_true, media_hashUnlink]
      cases hdirty : (s.pool i).dirty with
      | false => exact .inl ⟨rfl, fun _ _ _ => rfl⟩
      | true =>
        obtain ⟨e, hdev', hsize⟩ := hok.named i hi hval
        obtain rfl : d = e := some.inj (hdev.symm.trans hdev')
        refine .inr ⟨d, (s.pool i).blockNo, ⟨hval, hdev, rfl⟩, ?_⟩
        rw [if_pos rfl, hdevs.writeBack_eq hsize]
        rfl
    · simp only [if_neg hval]
      exact .inl ⟨trivial, fun d no hc => absurd hc.1 hval⟩

/-- **A miss.** The victim has no user, so once it is written back its block is stored; the new block is
read from a device that stores it, since no buffer held it. -/
theorem Coherent.load (h : w.Coherent device size) (hi : i < bcacheEntries) (hfree : ∀ x ∈ w.holds, x.buf ≠ i)
    (hmiss : ∀ j, j < bcacheEntries → ¬ w.cache.Caches j d no)
    (hload : ((w.cache.evict device i).configure device i d no (size d)).fill device i d = (s', r)) :
    Coherent device size ⟨s', w.holds, w.contents⟩ ∧ (r = none ∨ r = some i ∧ s'.Caches i d no) := by
  obtain ⟨order, hok⟩ := h.lists
  obtain ⟨s1, b, buffer, heq, hok', hpool, hmed, hb⟩ := hok.load hi hmiss
  rw [hload] at heq
  obtain ⟨rfl, rfl⟩ := Prod.mk.inj heq
  have hself : s'.pool i = b := by rw [hpool, update_self]
  have hother : ∀ {k}, k ≠ i → s'.pool k = w.cache.pool k := fun hk => by rw [hpool, update_of_ne hk]
  -- after the eviction the device stores every block that no other buffer has pending
  have hevicted : ∀ e m, (∀ j, j < size e → blockByte size (w.cache.evict device i).media e m j =
      blockByte size w.contents e m j) ∨
      ∃ k, k < bcacheEntries ∧ k ≠ i ∧ w.cache.Caches k e m ∧ w.Pending k := by
    intro e m
    rcases evict_media hdevs hok hi with ⟨hsame, hclean⟩ | ⟨e', m', hc, hput⟩
    · rcases h.stored e m with hst | ⟨k, hk, hc, hpend⟩
      · exact .inl fun j hj => by rw [hsame]; exact hst j hj
      · refine .inr ⟨k, hk, ?_, hc, hpend⟩
        rintro rfl
        rcases hpend with hdirty | ⟨x, hx, hxk, -⟩
        · rw [hclean e m hc] at hdirty
          cases hdirty
        · exact hfree x hx hxk
    · by_cases hblock : e = e' ∧ m = m'
      · obtain ⟨rfl, rfl⟩ := hblock
        refine .inl fun j hj => ?_
        rw [hput, blockByte_putBlock_self _ _ _ _ hj]
        exact h.data i e m hi hc j hj
      · rcases h.stored e m with hst | ⟨k, hk, hck, hpend⟩
        · refine .inl fun j hj => ?_
          rw [hput, blockByte_putBlock_of_ne _ _ hj hblock]
          exact hst j hj
        · exact .inr ⟨k, hk, fun hki => hblock (caches_inj hc (hki ▸ hck)), hck, hpend⟩
  have hdata : b.valid = true → s'.Caches i d no ∧ ∀ j, j < size d → b.data j = blockByte size w.contents d no j := by
    intro hval
    rcases hb with ⟨-, hinv, -⟩ | ⟨hstat, hnew⟩
    · rw [hval] at hinv
      cases hinv
    · refine ⟨⟨by rw [hself, hnew], by rw [hself, hnew], by rw [hself, hnew]⟩, fun j hj => ?_⟩
      rcases hevicted d no with hst | ⟨k, hk, -, hc, -⟩
      · have hread := (hdevs.reliable d).read _ _ _ _ hstat j (by rwa [hdevs.count_mul])
        rw [hdevs.lba_mul] at hread
        rw [hnew]
        exact hread.trans (hst j hj)
      · exact absurd hc (hmiss k hk)
  refine ⟨⟨⟨_, hok'⟩, fun x hx => ?_, fun k e m hk hc j hj => ?_, fun e m => ?_⟩, ?_⟩
  · obtain ⟨hbuf, hc⟩ := h.held x hx
    refine ⟨hbuf, ?_⟩
    rw [Caches, hother (hfree x hx)]
    exact hc
  · by_cases hki : k = i
    · subst hki
      have hval := hc.1
      rw [hself] at hval
      obtain ⟨hnew, hbyte⟩ := hdata hval
      obtain ⟨rfl, rfl⟩ := caches_inj hnew hc
      rw [hself]
      exact hbyte j hj
    · rw [Caches, hother hki] at hc
      rw [hother hki]
      exact h.data k e m hk hc j hj
  · rcases hevicted e m with hst | ⟨k, hk, hki, hc, hpend⟩
    · exact .inl fun j hj => by rw [hmed]; exact hst j hj
    · refine .inr ⟨k, hk, ?_, hpend.imp_left fun hdirty => ?_⟩
      · rw [Caches, hother hki]
        exact hc
      · rwa [hother hki]
  · cases hval : b.valid with
    | false => exact .inl rfl
    | true => exact .inr ⟨rfl, (hdata hval).1⟩

/-- **`bread`.** The users it may not disturb are those of buffers it finds unreferenced. -/
theorem Coherent.bread (h : w.Coherent device size) (hcounted : w.Counted)
    (hread : bread device w.cache (some d) no (size d) = (s', r)) :
    Coherent device size ⟨s', w.holds, w.contents⟩ ∧ ∀ i, r = some i → i < bcacheEntries ∧ s'.Caches i d no := by
  obtain ⟨order, hok⟩ := h.lists
  rcases hok.bread_cases d no with hnone | ⟨i, hi, hc, hhit⟩ | ⟨i, hi, hfree, hmiss, hload⟩
  · obtain ⟨rfl, rfl⟩ := Prod.mk.inj (hread.symm.trans hnone)
    exact ⟨h, fun _ hr => by cases hr⟩
  · obtain ⟨rfl, rfl⟩ := Prod.mk.inj (hread.symm.trans hhit)
    have hset : Coherent device size
        ⟨w.cache.setBuf i { w.cache.pool i with refcount := (w.cache.pool i).refcount + 1 }, w.holds, w.contents⟩ := by
      refine h.setBuf w.cache.media hi rfl rfl rfl rfl (fun x hx => ⟨x, hx, rfl, rfl, rfl⟩) (fun x hx _ => hx)
        (fun _ _ _ _ _ => ⟨rfl, rfl⟩) (fun e m hc' => h.data i e m hi hc') fun e m hc' => h.stored_or hi hc'
    obtain ⟨order', hok'⟩ := hset.lists
    refine ⟨⟨⟨_, hok'.lruTouch hi⟩, hset.held, hset.data, hset.stored⟩, fun k hk => ?_⟩
    obtain rfl := some.inj hk
    refine ⟨hi, ?_⟩
    have := (caches_setBuf (i := i) (b := { w.cache.pool i with refcount := (w.cache.pool i).refcount + 1 })
      rfl rfl rfl).mpr hc
    exact this
  · have husers : ∀ x ∈ w.holds, x.buf ≠ i := by
      intro x hx heq
      have hcount := hcounted i hi
      rw [hfree] at hcount
      have hpos : 0 < w.users i := countP_pos_iff.mpr ⟨x, hx, by simpa using heq⟩
      rw [← hcount] at hpos
      exact absurd hpos (by decide)
    obtain ⟨hcoh, hr⟩ := h.load hdevs hi husers hmiss (hload.symm.trans hread)
    refine ⟨hcoh, fun k hk => ?_⟩
    rcases hr with hr | ⟨hr, hc⟩
    · cases hr.symm.trans hk
    · obtain rfl := some.inj (hr.symm.trans hk)
      exact ⟨hi, hc⟩

end

end CacheWorld

end SzpontOS.Fs
