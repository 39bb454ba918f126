import SzpontOS.Fs.BcacheRun

/-!
# Devices that fail to write

The block cache on devices whose writes may fail. `Faults` are the writes that fail during one operation, which writes a
block at most once. A modification survives as long as the device holds it or a dirty buffer does (`Kept`).

`bread` and `bflush` take no notice of what the device answers: a buffer whose block could not be written is marked
clean by `bflush` and given to another block by `bread`. Where none of these writes fails, an operation on the failing
devices is the same operation on reliable ones (`bread_faulty`, `bflush_faulty`), and every modification survives every
run.
-/

namespace SzpontOS.Fs

open SzpontOS.Lib Bcache Relation List

variable {Dev : Type} {device : Dev → BlockDevice} {size : Dev → Nat}

/-! ## Failing writes -/

/-- A write that fails: what the device answers, and what becomes of the bytes on it. -/
structure Fault where
  status : Int
  failed : status ≠ 0
  leaves : Bytes → Bytes

/-- The writes that fail during one operation, by the device and the first sector. -/
abbrev Faults (Dev : Type) := Dev → Nat → Option Fault

def faulty (device : Dev → BlockDevice) (faults : Faults Dev) (d : Dev) : BlockDevice :=
  { device d with
    writeBlocks := (device d).writeBlocks.map fun write lba count buffer stored =>
      match faults d lba with
      | none => write lba count buffer stored
      | some fault => (fault.status, fault.leaves stored) }

/-- If the block of buffer `i` is written, that succeeds. -/
def Bcache.Writes (device : Dev → BlockDevice) (faults : Faults Dev) (s : Bcache Dev) (i : Nat) : Prop :=
  (s.pool i).valid = true → (s.pool i).dirty = true → ∀ d, (s.pool i).dev = some d →
    faults d (blockLba device d (s.pool i).blockNo (s.pool i).blockSize) = none

section Operations

variable [DecidableEq Dev] {faults : Faults Dev} {s : Bcache Dev} {i : Nat}

theorem writeBack_faulty {d : Dev} (hwrite : faults d (blockLba device d (s.pool i).blockNo (s.pool i).blockSize) = none) :
    s.writeBack (faulty device faults) i d = s.writeBack device i d := by
  unfold writeBack faulty
  cases (device d).writeBlocks with
  | none => rfl
  | some write =>
    have hlba : blockLba (faulty device faults) d = blockLba device d := rfl
    unfold faulty at hlba
    simp only [Option.map_some, writeBlock, hlba, hwrite]
    rfl

theorem evict_faulty (hwrite : s.Writes device faults i) : s.evict (faulty device faults) i = s.evict device i := by
  unfold evict
  cases hdev : (s.pool i).dev with
  | none => rfl
  | some d =>
    cases hval : (s.pool i).valid with
    | false => rfl
    | true =>
      cases hdirty : (s.pool i).dirty with
      | false => rfl
      | true =>
        simp only [if_true, writeBack_faulty (hwrite hval hdirty d hdev)]
        rfl

theorem bread_faulty {d : Dev} {no : BitVec 32} {n : Nat}
    (hwrite : s.lookup device d no n = none → ∀ i, s.victim = some i → s.Writes device faults i) :
    bread (faulty device faults) s (some d) no n = bread device s (some d) no n := by
  have hlook : s.lookup (faulty device faults) d no n = s.lookup device d no n := rfl
  unfold bread
  simp only [hlook]
  cases hfind : s.lookup device d no n with
  | some i => rfl
  | none =>
    cases hvic : s.victim with
    | none => rfl
    | some i =>
      simp only [evict_faulty (hwrite hfind i hvic)]
      rfl

theorem bflushOne_faulty {dev : Option Dev} (hwrite : (dev = none ∨ dev = (s.pool i).dev) → s.Writes device faults i) :
    bflushOne (faulty device faults) dev s i = bflushOne device dev s i := by
  unfold bflushOne
  cases hdev : (s.pool i).dev with
  | none => rfl
  | some d =>
    have hsector : (faulty device faults d).sectorSize = (device d).sectorSize := rfl
    simp only [hsector]
    by_cases hflush : (s.pool i).valid ∧ (s.pool i).dirty ∧ (dev = none ∨ dev = some d) ∧ 0 < (device d).sectorSize
    · rw [if_pos hflush, if_pos hflush]
      exact writeBack_faulty (hwrite (hdev ▸ hflush.2.2.1) hflush.1 hflush.2.1 d hdev)
    · rw [if_neg hflush, if_neg hflush]

/-- **`bflush`, when all its writes succeed.** A buffer's turn leaves the buffers of later turns alone, so what
is known of their writes at the start still holds. -/
theorem bflush_faulty {dev : Option Dev}
    (hwrite : ∀ i, i < bcacheEntries → (dev = none ∨ dev = (s.pool i).dev) → s.Writes device faults i) :
    bflush (faulty device faults) s dev = bflush device s dev := by
  have hfold : ∀ (turns : List Nat) (s' : Bcache Dev), turns.Nodup → (∀ i ∈ turns, i < bcacheEntries) →
      (∀ i ∈ turns, s'.pool i = s.pool i) →
      turns.foldl (bflushOne (faulty device faults) dev) s' = turns.foldl (bflushOne device dev) s' := by
    intro turns
    induction turns with
    | nil => intros; rfl
    | cons i turns ih =>
      intro s' hnd hlt hsame
      obtain ⟨hi, hnd⟩ := nodup_cons.mp hnd
      have hpool : s'.pool i = s.pool i := hsame i mem_cons_self
      have hturn : bflushOne (faulty device faults) dev s' i = bflushOne device dev s' i := by
        apply bflushOne_faulty
        unfold Writes
        rw [hpool]
        exact hwrite i (hlt i mem_cons_self)
      rw [foldl_cons, foldl_cons, hturn]
      apply ih _ hnd fun j hj => hlt j (mem_cons_of_mem i hj)
      intro j hj
      have hne : j ≠ i := fun heq => hi (heq ▸ hj)
      rw [CacheWorld.pool_bflushOne dev hne]
      exact hsame j (mem_cons_of_mem i hj)
  exact hfold _ s nodup_range (fun i hi => mem_range.mp hi) fun _ _ => rfl

end Operations

namespace CacheWorld

/-! ## Runs -/

inductive Op (Dev : Type)
  | bread (d : Dev) (no : BitVec 32)
  | modify
  | brelse
  | bflush (dev : Option Dev)

variable (device size) in
/-- One operation on devices some of whose writes fail: `bread` of any block, a user storing into its buffer and
setting `dirty`, `brelse`, and `bflush`. -/
inductive FailStep [DecidableEq Dev] (faults : Faults Dev) : Op Dev → CacheWorld Dev → CacheWorld Dev → Prop
  | breadNull (w d no s') : bread (faulty device faults) w.cache (some d) no (size d) = (s', none) →
      FailStep faults (.bread d no) w ⟨s', w.holds, w.contents⟩
  | bread (w d no s' i) : bread (faulty device faults) w.cache (some d) no (size d) = (s', some i) →
      FailStep faults (.bread d no) w ⟨s', ⟨i, d, no, false⟩ :: w.holds, w.contents⟩
  | modify (w pre h post data) : w.holds = pre ++ h :: post →
      FailStep faults .modify w ⟨markDirty (storeData w.cache h.buf data) h.buf,
        pre ++ { h with unsaved := false } :: post, putBlock size w.contents h.dev h.blockNo data⟩
  | brelse (w pre h post) : w.holds = pre ++ h :: post →
      FailStep faults .brelse w ⟨brelse w.cache (some h.buf), pre ++ post, w.contents⟩
  | bflush (w dev) : FailStep faults (.bflush dev) w ⟨bflush (faulty device faults) w.cache dev, w.holds, w.contents⟩

/-- None of the writes fails that the operation makes on its own: of the victim, if `bread` needs one, and of the
buffers that `bflush` covers. -/
def WritesBack [DecidableEq Dev] (device : Dev → BlockDevice) (size : Dev → Nat) (faults : Faults Dev)
    (w : CacheWorld Dev) : Op Dev → Prop
  | .bread d no => w.cache.lookup device d no (size d) = none → ∀ i, w.cache.victim = some i →
      w.cache.Writes device faults i
  | .bflush dev => ∀ i, i < bcacheEntries → (dev = none ∨ dev = (w.cache.pool i).dev) → w.cache.Writes device faults i
  | .modify => True
  | .brelse => True

/-- **No modification is lost.** Each block is on its device as it was last modified, or in a dirty buffer. -/
def Kept (size : Dev → Nat) (w : CacheWorld Dev) : Prop :=
  ∀ d no, w.Stored size d no ∨ ∃ i, i < bcacheEntries ∧ w.cache.Caches i d no ∧ (w.cache.pool i).dirty = true ∧
      ∀ j, j < size d → (w.cache.pool i).data j = blockByte size w.contents d no j

variable [DecidableEq Dev] {w w' : CacheWorld Dev} {faults : Faults Dev} {op : Op Dev}

def Saved (w : CacheWorld Dev) : Prop := ∀ h ∈ w.holds, h.unsaved = false

omit [DecidableEq Dev] in
theorem Coherent.kept (h : w.Coherent device size) (hsafe : w.Saved) : w.Kept size := by
  intro d no
  refine (h.stored d no).imp id fun ⟨i, hi, hc, hpend⟩ => ⟨i, hi, hc, ?_, h.data i d no hi hc⟩
  rcases hpend with hdirty | ⟨x, hx, -, hunsaved⟩
  · exact hdirty
  · rw [hsafe x hx] at hunsaved
    cases hunsaved

theorem FailStep.keeps (hdevs : Devices device size) (hcoh : w.Coherent device size) (hcount : w.Counted)
    (hsafe : w.Saved) (hstep : FailStep device size faults op w w') (hwrites : w.WritesBack device size faults op)
    (hwin : w'.Within) : w'.Coherent device size ∧ w'.Counted ∧ w'.Saved := by
  cases hstep with
  | breadNull _ d no s' hbread =>
    rw [bread_faulty hwrites] at hbread
    obtain ⟨hc, hn⟩ := (Step.breadNull w d no s' hbread).keeps hdevs hcoh hcount hwin
    exact ⟨hc, hn, hsafe⟩
  | bread _ d no s' i hbread =>
    rw [bread_faulty hwrites] at hbread
    obtain ⟨hc, hn⟩ := (Step.bread w d no s' i hbread).keeps hdevs hcoh hcount hwin
    refine ⟨hc, hn, fun x hx => ?_⟩
    rcases mem_cons.mp hx with rfl | hx
    · rfl
    · exact hsafe x hx
  | modify _ pre h post data hw =>
    -- the store, and then the mark
    obtain ⟨hc, hn⟩ := (Step.store w pre h post data hw).keeps hdevs hcoh hcount fun i => by
      rw [users_change _ _ hw]
      have := hwin i
      rwa [users_change _ _ hw] at this
    obtain ⟨hc', hn'⟩ := (Step.mark _ pre { h with unsaved := true } post rfl).keeps hdevs hc hn hwin
    refine ⟨hc', hn', fun x hx => ?_⟩
    rw [mem_append, mem_cons] at hx
    rcases hx with hx | rfl | hx
    · exact hsafe x (by rw [hw]; simp [hx])
    · rfl
    · exact hsafe x (by rw [hw]; simp [hx])
  | brelse _ pre h post hw =>
    obtain ⟨hc, hn⟩ := (Step.brelse w pre h post hw (hsafe h (by rw [hw]; simp))).keeps hdevs hcoh hcount hwin
    refine ⟨hc, hn, fun x hx => hsafe x ?_⟩
    rw [hw]
    rcases mem_append.mp hx with hx | hx
    · exact mem_append_left _ hx
    · exact mem_append_right _ (mem_cons_of_mem _ hx)
  | bflush _ dev =>
    rw [bflush_faulty hwrites] at hwin ⊢
    obtain ⟨hc, hn⟩ := (Step.bflush w dev).keeps hdevs hcoh hcount hwin
    exact ⟨hc, hn, hsafe⟩

variable (device size) in
/-- A run on failing devices, with fewer than `2 ^ 32` users of each buffer. -/
def FailRun (media : Dev → Bytes) : CacheWorld Dev → Prop :=
  ReflTransGen (fun w w' => ∃ faults op, FailStep device size faults op w w' ∧ w'.Within) (start media)

variable (device size) in
def WrittenRun (media : Dev → Bytes) : CacheWorld Dev → Prop :=
  ReflTransGen (fun w w' => ∃ faults op, FailStep device size faults op w w' ∧ w.WritesBack device size faults op ∧
    w'.Within) (start media)

theorem WrittenRun.coherent (hdevs : Devices device size) {media : Dev → Bytes} (hrun : WrittenRun device size media w) :
    w.Coherent device size ∧ w.Counted ∧ w.Saved := by
  have hkeep : ∀ w w' : CacheWorld Dev, w.Coherent device size ∧ w.Counted ∧ w.Saved →
      (∃ faults op, FailStep device size faults op w w' ∧ w.WritesBack device size faults op ∧ w'.Within) →
      w'.Coherent device size ∧ w'.Counted ∧ w'.Saved := by
    intro w w' ⟨hcoh, hcount, hsafe⟩ ⟨faults, op, hstep, hwrites, hwin⟩
    exact hstep.keeps hdevs hcoh hcount hsafe hwrites hwin
  refine invariant_of_step hkeep ⟨start_coherent device size media, start_counted media, fun h hh => ?_⟩ hrun
  exact absurd hh not_mem_nil

/-- **Modifications survive.** In every run in which no write of a victim or of `bflush` fails, each block is on its
device or in a dirty buffer as it was last modified, `bread` returns it so, and `bflush` brings it to the device. -/
theorem modified_blocks_survive (hdevs : Devices device size) (media : Dev → Bytes) (w : CacheWorld Dev)
    (hrun : WrittenRun device size media w) :
    w.Kept size ∧
    (∀ faults d no s' i, w.WritesBack device size faults (.bread d no) →
      bread (faulty device faults) w.cache (some d) no (size d) = (s', some i) →
      ∀ j, j < size d → (s'.pool i).data j = blockByte size w.contents d no j) ∧
    ∀ faults dev, w.WritesBack device size faults (.bflush dev) → ∀ d no, (dev = none ∨ dev = some d) →
      Stored size ⟨bflush (faulty device faults) w.cache dev, w.holds, w.contents⟩ d no := by
  obtain ⟨hcoherent, hcounted, hsaved⟩ := hrun.coherent hdevs
  refine ⟨hcoherent.kept hsaved, fun faults d no s' i hwrites hbread => ?_, fun faults dev hwrites d no hdev => ?_⟩
  · rw [bread_faulty hwrites] at hbread
    obtain ⟨hnew, hgot⟩ := hcoherent.bread hdevs hcounted hbread
    obtain ⟨hi, hc⟩ := hgot i rfl
    exact hnew.data i d no hi hc
  · rw [bflush_faulty hwrites]
    obtain ⟨hnew, hclean⟩ := hcoherent.bflush hdevs dev
    rcases hnew.kept (fun h hh => hsaved h hh) d no with hst | ⟨i, hi, hc, hdirty, -⟩
    · exact hst
    · rw [hclean i hi d no hdev hc] at hdirty
      cases hdirty

/-! ## On the device of one-byte blocks -/

def allFail : Faults Unit := fun _ _ => some ⟨-1, by decide, id⟩

def noFaults : Faults Unit := fun _ _ => none

theorem faulty_noFaults : faulty ram noFaults = ram := by
  rfl

def firstRead : CacheWorld Unit :=
  ⟨(bread ram (bcacheInit fun _ _ => 0) (some ()) 0 (oneByte ())).1, [⟨0, (), 0, false⟩], fun _ _ => 0⟩

def modified : CacheWorld Unit :=
  ⟨markDirty (storeData firstRead.cache 0 fun _ => 1) 0, [⟨0, (), 0, false⟩],
    putBlock oneByte (fun _ _ => 0) () 0 fun _ => 1⟩

theorem run_modified : WrittenRun ram oneByte (fun _ _ => 0) modified := by
  have hwin : ∀ (s : Bcache Unit) (contents : Unit → Bytes) (h : Hold Unit), Within ⟨s, [h], contents⟩ := by
    intro s contents h k
    exact lt_of_le_of_lt countP_le_length (show 1 < 2 ^ 32 by decide)
  have hbread : (bread ram (bcacheInit fun _ _ => 0) (some ()) 0 (oneByte ())).2 = some 0 := by decide +kernel
  have hread : FailStep ram oneByte noFaults (.bread () 0) (start fun _ _ => 0) firstRead :=
    .bread _ () 0 _ 0 (by rw [faulty_noFaults]; exact Prod.ext rfl hbread)
  have hmodify : FailStep ram oneByte noFaults .modify firstRead modified :=
    .modify firstRead [] ⟨0, (), 0, false⟩ [] (fun _ => 1) rfl
  exact (ReflTransGen.single ⟨_, _, hread, fun _ k _ _ _ _ _ => rfl, hwin _ _ _⟩).tail
    ⟨_, _, hmodify, trivial, hwin _ _ _⟩

theorem modified_not_stored : ¬ modified.Stored oneByte () 0 := by
  intro hst
  have hbyte := hst 0 Nat.one_pos
  revert hbyte
  decide +kernel

/-- The theorem at that world: the modification is in the dirty buffer only, and a `bflush` that fails nowhere
brings it to the device. -/
theorem modified_blocks_survive_ram : ∃ w : CacheWorld Unit, ¬ w.Stored oneByte () 0 ∧ w.Kept oneByte ∧
    Stored oneByte ⟨bflush (faulty ram noFaults) w.cache none, w.holds, w.contents⟩ () 0 := by
  obtain ⟨hkept, -, hflush⟩ := modified_blocks_survive ram_devices _ modified run_modified
  exact ⟨modified, modified_not_stored, hkept, hflush noFaults none (fun k _ _ _ _ d _ => rfl) () 0 (.inl rfl)⟩

theorem WrittenRun.failRun {media : Dev → Bytes} (hrun : WrittenRun device size media w) : FailRun device size media w :=
  ReflTransGen.mono (fun _ _ ⟨faults, op, hstep, _, hwin⟩ => ⟨faults, op, hstep, hwin⟩) _ _ hrun

/-- **A failing `bflush` drops a modification.** Block 0 is modified and flushed while the device refuses the write: the
device lacks the modification, and no buffer is dirty. -/
theorem flush_drops_modification : Devices ram oneByte ∧
    ∃ w : CacheWorld Unit, FailRun ram oneByte (fun _ _ => 0) w ∧ ¬ w.Kept oneByte := by
  have hclean : ∀ k < bcacheEntries, ((bflush (faulty ram allFail) modified.cache none).pool k).dirty = false := by
    decide +kernel
  refine ⟨ram_devices, _, run_modified.failRun.tail ⟨allFail, _, .bflush modified none, fun k => ?_⟩, fun hkept => ?_⟩
  · exact lt_of_le_of_lt List.countP_le_length (show 1 < 2 ^ 32 by decide)
  · rcases hkept () 0 with hst | ⟨k, hk, -, hdirty, -⟩
    · have hbyte := hst 0 Nat.one_pos
      revert hbyte
      decide +kernel
    · rw [hclean k hk] at hdirty
      cases hdirty

end CacheWorld

end SzpontOS.Fs
