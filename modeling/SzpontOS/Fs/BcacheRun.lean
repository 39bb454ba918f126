import SzpontOS.Fs.BcacheDisk

/-!
# Runs of the block cache

As long as no buffer has `2 ^ 32` users, the reference counts count them and the cache stays coherent: a block is read
as it was last stored, and `bflush` leaves it so on its device once its users have marked what they stored. Both
conditions are needed, as two runs on a device of one-byte blocks show.
-/

namespace SzpontOS.Fs

open SzpontOS.Lib Bcache Relation List BitVec Function

variable {Dev : Type} {device : Dev → BlockDevice} {size : Dev → Nat}

namespace CacheWorld

variable {w : CacheWorld Dev} {pre post : List (Hold Dev)} {hold : Hold Dev}

/-! ## The reference counts -/

def Within (w : CacheWorld Dev) : Prop := ∀ i, w.users i < 2 ^ 32

theorem users_change (s : Bcache Dev) (contents : Dev → Bytes) (hw : w.holds = pre ++ hold :: post) (b : Bool) (i : Nat) :
    users ⟨s, pre ++ { hold with unsaved := b } :: post, contents⟩ i = w.users i := by
  unfold users
  simp only [hw, countP_append, countP_cons]

theorem Counted.congr (h : w.Counted) {w' : CacheWorld Dev}
    (hcount : ∀ i, (w'.cache.pool i).refcount = (w.cache.pool i).refcount) (husers : ∀ i, w'.users i = w.users i) :
    w'.Counted := by
  intro i hi
  rw [hcount, husers]
  exact h i hi

theorem refcount_setBuf {s : Bcache Dev} {i : Nat} {b : Buffer Dev} (hb : b.refcount = (s.pool i).refcount) (k : Nat) :
    ((s.setBuf i b).pool k).refcount = (s.pool k).refcount := by
  by_cases hk : k = i
  · rw [hk, pool_setBuf_self, hb]
  · rw [pool_setBuf_of_ne b hk]

theorem Counted.brelse (h : w.Counted) (hw : w.holds = pre ++ hold :: post) :
    Counted ⟨brelse w.cache (some hold.buf), pre ++ post, w.contents⟩ := by
  intro k hk
  have husers : w.users k = users ⟨Fs.brelse w.cache (some hold.buf), pre ++ post, w.contents⟩ k +
      if hold.buf = k then 1 else 0 := by
    unfold users
    simp only [hw, countP_append, countP_cons, beq_iff_eq]
    omega
  have hcount := h k hk
  rw [husers] at hcount
  by_cases hbuf : hold.buf = k
  · subst hbuf
    rw [if_pos rfl] at hcount
    have hpos : 0 < (w.cache.pool hold.buf).refcount := by
      rw [lt_def, hcount]
      exact Nat.succ_pos _
    have hone : (1 : BitVec 32) ≤ (w.cache.pool hold.buf).refcount := by
      rw [le_def, hcount]
      exact Nat.le_add_left _ _
    rw [brelse_eq, pool_setBuf_self, if_pos hpos, toNat_sub_of_le hone, hcount]
    exact Nat.add_sub_cancel _ 1
  · rw [if_neg hbuf, Nat.add_zero] at hcount
    rw [← hcount, brelse_eq, pool_setBuf_of_ne _ (Ne.symm hbuf)]

variable [DecidableEq Dev]

theorem refcount_writeBack (s : Bcache Dev) (i : Nat) (d : Dev) (k : Nat) :
    ((s.writeBack device i d).pool k).refcount = (s.pool k).refcount := by
  obtain ⟨-, -, hrest, b, hself⟩ := writeBack_frame device s i d
  by_cases hk : k = i
  · rw [hk, hself]
  · rw [hrest k hk]

theorem refcount_bflush (device : Dev → BlockDevice) (s : Bcache Dev) (dev : Option Dev) (k : Nat) :
    ((bflush device s dev).pool k).refcount = (s.pool k).refcount := by
  refine foldl_range_rule (fun _ (s' : Bcache Dev) => (s'.pool k).refcount = (s.pool k).refcount) rfl fun i s' _ hs' => ?_
  rw [← hs']
  unfold bflushOne
  split
  · rfl
  · split
    · exact refcount_writeBack s' i _ k
    · rfl

theorem refcount_bread {s s' : Bcache Dev} {order : List Nat} {d : Dev} {no : BitVec 32} {r : Option Nat}
    (hok : s.Ok device size order) (hread : bread device s (some d) no (size d) = (s', r)) (k : Nat) :
    (s'.pool k).refcount = (s.pool k).refcount + if r = some k then 1 else 0 := by
  rcases hok.bread_cases d no with hnone | ⟨i, hi, -, hhit⟩ | ⟨i, hi, hfree, hmiss, hload⟩
  · obtain ⟨rfl, rfl⟩ := Prod.mk.inj (hread.symm.trans hnone)
    simp
  · obtain ⟨rfl, rfl⟩ := Prod.mk.inj (hread.symm.trans hhit)
    show ((Bcache.setBuf s i _).pool k).refcount = _
    by_cases hk : k = i
    · rw [hk, pool_setBuf_self, if_pos rfl]
    · rw [pool_setBuf_of_ne _ hk, if_neg (by simpa using Ne.symm hk)]
      simp
  · obtain ⟨s1, b, buffer, heq, -, hpool, -, hb⟩ := hok.load hi hmiss
    obtain ⟨rfl, rfl⟩ := Prod.mk.inj (hread.symm.trans (hload.trans heq))
    rw [hpool]
    by_cases hk : k = i
    · subst hk
      rw [update_self, hfree]
      rcases hb with ⟨-, hinv, hzero⟩ | ⟨-, rfl⟩
      · simp [hinv, hzero]
      · simp
    · rw [update_of_ne hk]
      cases b.valid with
      | false => simp
      | true => simp [Ne.symm hk]

theorem Counted.bread (h : w.Counted) {order : List Nat} {d : Dev} {no : BitVec 32} {s' : Bcache Dev} {i : Nat}
    (hok : w.cache.Ok device size order) (hread : bread device w.cache (some d) no (size d) = (s', some i))
    (hwin : Within ⟨s', ⟨i, d, no, false⟩ :: w.holds, w.contents⟩) :
    Counted ⟨s', ⟨i, d, no, false⟩ :: w.holds, w.contents⟩ := by
  intro k hk
  have husers : users ⟨s', ⟨i, d, no, false⟩ :: w.holds, w.contents⟩ k = w.users k + if i = k then 1 else 0 := by
    unfold users
    simp [countP_cons]
  have hlt := hwin k
  rw [husers] at hlt ⊢
  rw [refcount_bread hok hread k, ← h k hk]
  rw [← h k hk] at hlt
  by_cases hik : i = k
  · rw [if_pos hik] at hlt ⊢
    rw [if_pos (by rw [hik]), toNat_add, Nat.mod_eq_of_lt (by simpa using hlt)]
    rfl
  · rw [if_neg hik, if_neg (by simpa using hik)]
    simp

/-! ## Every run -/

theorem Step.keeps (hdevs : Devices device size) {w' : CacheWorld Dev} (hcoh : w.Coherent device size)
    (hcount : w.Counted) (hstep : Step device size w w') (hwin : w'.Within) : w'.Coherent device size ∧ w'.Counted := by
  obtain ⟨order, hok⟩ := hcoh.lists
  cases hstep with
  | breadNull d no s' hread =>
    refine ⟨(hcoh.bread hdevs hcount hread).1, hcount.congr (fun k => ?_) fun _ => rfl⟩
    simpa using refcount_bread hok hread k
  | bread d no s' i hread =>
    obtain ⟨hnew, hgot⟩ := hcoh.bread hdevs hcount hread
    refine ⟨⟨hnew.lists, fun x hx => ?_, hnew.data, fun e m => ?_⟩, hcount.bread hok hread hwin⟩
    · rcases mem_cons.mp hx with rfl | hx
      · exact hgot i rfl
      · exact hnew.held x hx
    · refine (hnew.stored e m).imp id fun ⟨k, hk, hc, hpend⟩ => ⟨k, hk, hc, hpend.imp id ?_⟩
      exact fun ⟨x, hx, hxk⟩ => ⟨x, mem_cons_of_mem _ hx, hxk⟩
  | store pre h post data hw =>
    exact ⟨hcoh.store hw data, hcount.congr (fun k => refcount_setBuf (by rfl) k) fun k => users_change _ _ hw _ k⟩
  | mark pre h post hw =>
    exact ⟨hcoh.mark hw, hcount.congr (fun k => refcount_setBuf (by rfl) k) fun k => users_change _ _ hw _ k⟩
  | bwrite pre h post hw =>
    refine ⟨hcoh.bwrite hdevs hw, hcount.congr (fun k => ?_) fun k => users_change _ _ hw _ k⟩
    obtain ⟨hbuf, hc⟩ := hcoh.held h (by rw [hw]; simp)
    obtain ⟨e, hdev, hsize⟩ := hok.named h.buf hbuf hc.1
    rw [hdevs.bwrite_eq hdev hsize]
    exact refcount_writeBack _ _ _ k
  | brelse pre h post hw hsafe => exact ⟨hcoh.brelse hw hsafe, hcount.brelse hw⟩
  | bflush dev =>
    exact ⟨(hcoh.bflush hdevs dev).1, hcount.congr (fun k => refcount_bflush device w.cache dev k) fun _ => rfl⟩

section

variable (device : Dev → BlockDevice) (size : Dev → Nat) (media : Dev → Bytes)

omit [DecidableEq Dev] in
theorem init_ok : (bcacheInit media).Ok device size (List.range bcacheEntries) := by
  refine ⟨?_, fun i => mem_range, ⟨fun _ => [], ?_, ?_⟩, ?_, ?_⟩
  · refine foldl_range_rule (fun k (l : Dll Nat) => l.Holds (List.range k)) ⟨nodup_nil, trivial, rfl, rfl⟩ ?_
    intro k l _ hl
    rw [range_succ]
    exact hl.pushBack (by simp)
  · exact ⟨fun _ => nodup_nil, fun _ _ _ h => absurd h not_mem_nil, fun _ => trivial, fun _ => rfl⟩
  · simp [bcacheInit]
  · intro i _ hval
    cases hval
  · intro i j d no _ _ hc
    cases hc.1

omit [DecidableEq Dev] in
theorem start_coherent : (start media).Coherent device size := by
  refine ⟨⟨_, init_ok device size media⟩, fun h hh => absurd hh not_mem_nil, fun i d no _ hc => ?_,
    fun d no => .inl fun j _ => rfl⟩
  cases hc.1

end

omit [DecidableEq Dev] in
theorem start_counted (media : Dev → Bytes) : (start media).Counted := fun _ _ => rfl

theorem run_coherent (hdevs : Devices device size) {media : Dev → Bytes}
    (hrun : ReflTransGen (fun w w' => Step device size w w' ∧ w'.Within) (start media) w) :
    w.Coherent device size ∧ w.Counted := by
  have hkeep : ∀ w w' : CacheWorld Dev, w.Coherent device size ∧ w.Counted →
      Step device size w w' ∧ w'.Within → w'.Coherent device size ∧ w'.Counted := by
    intro w w' ⟨hcoh, hcount⟩ ⟨hstep, hwin⟩
    exact hstep.keeps hdevs hcoh hcount hwin
  exact invariant_of_step hkeep ⟨start_coherent device size media, start_counted media⟩ hrun

/-- **The block cache refines the disk.** -/
theorem cache_refines_disk (hdevs : Devices device size) (media : Dev → Bytes) (w : CacheWorld Dev)
    (hrun : ReflTransGen (fun w w' => Step device size w w' ∧ w'.Within) (start media) w) :
    (∀ d no s' i, bread device w.cache (some d) no (size d) = (s', some i) →
      ∀ j, j < size d → (s'.pool i).data j = blockByte size w.contents d no j) ∧
    (∀ dev d no, (dev = none ∨ dev = some d) → (∀ h ∈ w.holds, h.dev = d → h.blockNo = no → h.unsaved = false) →
      ∀ j, j < size d →
        blockByte size (bflush device w.cache dev).media d no j = blockByte size w.contents d no j) := by
  obtain ⟨hcoherent, hcounted⟩ := run_coherent hdevs hrun
  constructor
  · intro d no s' i hbread
    obtain ⟨hnew, hgot⟩ := hcoherent.bread hdevs hcounted hbread
    obtain ⟨hi, hc⟩ := hgot i rfl
    exact hnew.data i d no hi hc
  · intro dev d no hdev hsaved
    obtain ⟨hnew, hclean⟩ := hcoherent.bflush hdevs dev
    rcases hnew.stored d no with hst | ⟨i, hi, hc, hdirty | ⟨h, hh, hhi, hunsaved⟩⟩
    · exact hst
    · rw [hclean i hi d no hdev hc] at hdirty
      cases hdirty
    · have hblock := (hnew.held h hh).2
      rw [hhi] at hblock
      obtain ⟨hd, hno⟩ := caches_inj hc hblock
      rw [hsaved h hh hd hno] at hunsaved
      cases hunsaved

/-! ## A device of one-byte blocks -/

def ramDevice : BlockDevice where
  addr := 0
  sectorSize := 1
  readBlocks := fun lba count stored buffer => (0, fun j => if j < count then stored (lba + j) else buffer j)
  writeBlocks := some fun lba count buffer stored =>
    (0, fun j => if lba ≤ j ∧ j < lba + count then buffer (j - lba) else stored j)

def ram : Unit → BlockDevice := fun _ => ramDevice

def oneByte : Unit → Nat := fun _ => 1

theorem ram_devices : Devices ram oneByte where
  reliable _ := by
    refine ⟨fun lba count stored buffer _ j hj => ?_, _, rfl, fun lba count buffer stored => ⟨rfl, fun j => ?_⟩⟩
    · simp only [ram, ramDevice, Nat.mul_one] at hj ⊢
      rw [if_pos hj]
    · simp only [ram, ramDevice, Nat.mul_one]
  pos _ := Nat.one_pos
  sectors _ := Nat.dvd_refl 1

def RamRun (w : CacheWorld Unit) : Prop := ReflTransGen (Step ram oneByte) (start fun _ _ => 0) w

theorem ram_args : ¬ BadArgs ram () (oneByte ()) := by
  unfold BadArgs
  decide

theorem ram_miss {s : Bcache Unit} {order : List Nat} {i : Nat} (no : BitVec 32) (hok : s.Ok ram oneByte order)
    (hmiss : ∀ j, j < bcacheEntries → ¬ s.Caches j () no)
    (hvic : (order.find? fun i => (s.pool i).refcount == 0) = some i) :
    ∃ s' data, bread ram s (some ()) no (oneByte ()) = (s', some i) ∧ s'.Ok ram oneByte (order.erase i ++ [i]) ∧
      s'.pool = update s.pool i ⟨some (), no, 1, false, true, 1, data⟩ ∧
      s'.media = (s.evict ram i).media := by
  have hi : i < bcacheEntries := (hok.whole i).mp (mem_of_find?_eq_some hvic)
  obtain ⟨s', b, buffer, heq, hok', hpool, hmed, hb⟩ := hok.load hi hmiss
  rcases hb with ⟨hstat, -⟩ | ⟨-, rfl⟩
  · exact absurd rfl hstat
  · exact ⟨s', _, (hok.bread_miss ram_args hmiss hvic).trans heq, hok', hpool, hmed⟩

theorem ram_first : ∃ s' i data, i < bcacheEntries ∧
    bread ram (bcacheInit fun _ _ => 0) (some ()) 0 (oneByte ()) = (s', some i) ∧
    (∃ order, s'.Ok ram oneByte order) ∧ s'.media = (fun _ _ => 0) ∧
    ∀ k, s'.pool k = if k = i then ⟨some (), 0, 1, false, true, 1, data⟩
      else ⟨none, 0, 0, false, false, 0, fun _ => 0⟩ := by
  have hok := init_ok ram oneByte fun _ _ => 0
  obtain ⟨i, hi⟩ : ∃ i, ((List.range bcacheEntries).find? fun i =>
      ((bcacheInit fun (_ : Unit) _ => 0).pool i).refcount == 0) = some i := by
    refine Option.isSome_iff_exists.mp (find?_isSome.mpr ⟨0, mem_range.mpr ?_, rfl⟩)
    unfold bcacheEntries
    decide
  obtain ⟨s', data, hread, hok', hpool, hmed⟩ := ram_miss 0 hok (fun j _ hc => by cases hc.1) hi
  refine ⟨s', i, data, (hok.whole i).mp (mem_of_find?_eq_some hi), hread, ⟨_, hok'⟩, hmed, fun k => ?_⟩
  rw [hpool, update_apply]
  rfl

/-- `n` users of block 0, which nobody has changed, and no other block in the cache. -/
structure Crowd (w : CacheWorld Unit) (order : List Nat) (i n : Nat) : Prop where
  run : RamRun w
  ok : w.cache.Ok ram oneByte order
  lt : i < bcacheEntries
  caches : w.cache.Caches i () 0
  count : (w.cache.pool i).refcount = BitVec.ofNat 32 n
  clean : ∀ k, (w.cache.pool k).dirty = false
  only : ∀ k, (w.cache.pool k).valid = true → (w.cache.pool k).blockNo = 0
  user : ⟨i, (), 0, false⟩ ∈ w.holds
  media : w.cache.media = fun _ _ => 0
  contents : w.contents = fun _ _ => 0

theorem exists_crowd (n : Nat) : ∃ w order i, Crowd w order i (n + 1) := by
  induction n with
  | zero =>
    obtain ⟨s', i, data, hi, hread, ⟨order, hok⟩, hmed, hpool⟩ := ram_first
    have hself : s'.pool i = ⟨some (), 0, 1, false, true, 1, data⟩ := by rw [hpool, if_pos rfl]
    refine ⟨_, order, i, .single (.bread _ () 0 s' i hread), hok, hi,
      ⟨by rw [hself], by rw [hself], by rw [hself]⟩, by rw [hself]; rfl, fun k => ?_, fun k hval => ?_,
      mem_cons_self, hmed, rfl⟩
    · rw [hpool]
      split <;> rfl
    · rw [hpool]
      split <;> rfl
  | succ n ih =>
    obtain ⟨w, order, i, h⟩ := ih
    have hhit := h.ok.bread_hit ram_args h.lt h.caches
    set b : Buffer Unit := { w.cache.pool i with refcount := (w.cache.pool i).refcount + 1 } with hb
    have hpool : ∀ k, ((w.cache.setBuf i b).lruTouch i).pool k = if k = i then b else w.cache.pool k := by
      intro k
      show (w.cache.setBuf i b).pool k = _
      by_cases hk : k = i
      · rw [if_pos hk, hk, pool_setBuf_self]
      · rw [if_neg hk, pool_setBuf_of_ne _ hk]
    have hok : (w.cache.setBuf i b).Ok ram oneByte order := h.ok.setBuf rfl rfl rfl rfl
    refine ⟨_, _, i, h.run.tail (.bread _ () 0 _ i hhit), hok.lruTouch h.lt, h.lt, ?_, ?_, fun k => ?_,
      fun k hval => ?_, mem_cons_self, h.media, h.contents⟩
    · exact (caches_setBuf (s := w.cache) (b := b) rfl rfl rfl).mpr h.caches
    · rw [hpool, if_pos rfl]
      show (w.cache.pool i).refcount + 1 = _
      rw [h.count, ofNat_add (n + 1)]
      rfl
    · rw [hpool]
      split
      · exact h.clean i
      · exact h.clean k
    · rw [hpool] at hval ⊢
      by_cases hk : k = i
      · rw [if_pos hk] at hval ⊢
        exact h.only i hval
      · rw [if_neg hk] at hval ⊢
        exact h.only k hval

/-- A buffer that is free to be evicted though it has a user, with all cached blocks below `bound`. -/
structure Stale (w : CacheWorld Unit) (order : List Nat) (i bound : Nat) : Prop where
  run : RamRun w
  ok : w.cache.Ok ram oneByte order
  free : (w.cache.pool i).refcount = 0
  below : ∀ k, k < bcacheEntries → (w.cache.pool k).valid = true → (w.cache.pool k).blockNo.toNat < bound
  user : ⟨i, (), 0, false⟩ ∈ w.holds
  contents : w.contents = fun _ _ => 0

structure Evicted (w : CacheWorld Unit) (order : List Nat) (i : Nat) (no : BitVec 32) : Prop where
  run : RamRun w
  ok : w.cache.Ok ram oneByte order
  lt : i < bcacheEntries
  moved : no ≠ 0
  caches : w.cache.Caches i () no
  user : ⟨i, (), 0, false⟩ ∈ w.holds
  contents : w.contents = fun _ _ => 0

theorem Stale.miss {w : CacheWorld Unit} {pre post : List Nat} {i bound : Nat} (h : Stale w (pre ++ i :: post) i bound)
    (hpos : 0 < bound) (hbound : bound < 2 ^ 32) :
    (∃ w' order no, Evicted w' order i no) ∨
      ∃ w' pre' post', pre'.length + 1 = pre.length ∧ Stale w' (pre' ++ i :: post') i (bound + 1) := by
  set no := BitVec.ofNat 32 bound with hno
  have htoNat : no.toNat = bound := by rw [hno, BitVec.toNat_ofNat, Nat.mod_eq_of_lt hbound]
  have hmiss : ∀ j, j < bcacheEntries → ¬ w.cache.Caches j () no := by
    intro j hj hc
    have := h.below j hj hc.1
    rw [hc.2.2, htoNat] at this
    exact lt_irrefl _ this
  have hstep : ∀ {v}, ((pre ++ i :: post).find? fun k => (w.cache.pool k).refcount == 0) = some v →
      ∃ s' data, Step ram oneByte w ⟨s', ⟨v, (), no, false⟩ :: w.holds, w.contents⟩ ∧
        s'.Ok ram oneByte ((pre ++ i :: post).erase v ++ [v]) ∧
        s'.pool = update w.cache.pool v ⟨some (), no, 1, false, true, 1, data⟩ := by
    intro v hv
    obtain ⟨s', data, hread, hok, hpool, -⟩ := ram_miss no h.ok hmiss hv
    exact ⟨s', data, .bread w () no s' v hread, hok, hpool⟩
  cases hpre : pre.find? fun k => (w.cache.pool k).refcount == 0 with
  | none =>
    obtain ⟨s', data, hstep, hok, hpool⟩ := hstep (v := i) (by
      rw [find?_append, hpre, find?_cons_of_pos (by simpa using h.free)]
      rfl)
    have hself : s'.pool i = ⟨some (), no, 1, false, true, 1, data⟩ := by rw [hpool, update_self]
    refine .inl ⟨_, _, no, h.run.tail hstep, hok, (h.ok.whole i).mp (by simp), ?_, ⟨by rw [hself], by rw [hself], by rw [hself]⟩,
      mem_cons_of_mem _ h.user, h.contents⟩
    intro hzero
    rw [hzero] at htoNat
    exact hpos.ne htoNat
  | some v =>
    obtain ⟨s', data, hstep, hok, hpool⟩ := hstep (v := v) (by rw [find?_append, hpre]; rfl)
    have hv : v ∈ pre := mem_of_find?_eq_some hpre
    have hvi : i ≠ v := by
      intro heq
      exact (nodup_append.mp h.ok.lru.nodup).2.2 v hv i mem_cons_self heq.symm
    have herase : (pre ++ i :: post).erase v ++ [v] = pre.erase v ++ i :: (post ++ [v]) := by
      rw [List.erase_append_left _ hv, List.append_assoc, List.cons_append]
    rw [herase] at hok
    refine .inr ⟨_, pre.erase v, post ++ [v], ?_, h.run.tail hstep, hok, ?_, fun k hk hval => ?_,
      mem_cons_of_mem _ h.user, h.contents⟩
    · rw [length_erase_of_mem hv, Nat.sub_add_cancel (length_pos_of_mem hv)]
    · rw [hpool, update_of_ne hvi]
      exact h.free
    · by_cases hkv : k = v
      · rw [hkv, hpool, update_self, htoNat]
        exact Nat.lt_succ_self bound
      · rw [hpool, update_of_ne hkv] at hval ⊢
        exact Nat.lt_succ_of_lt (h.below k hk hval)

theorem Stale.evicted {i n : Nat} {w : CacheWorld Unit} {pre post : List Nat} {bound : Nat}
    (h : Stale w (pre ++ i :: post) i bound) (hlen : pre.length = n) (hpos : 0 < bound) (hbound : bound + n < 2 ^ 32) :
    ∃ w' order no, Evicted w' order i no := by
  induction n generalizing w pre post bound with
  | zero =>
    rcases h.miss hpos (by omega) with hdone | ⟨w', pre', post', hlen', -⟩
    · exact hdone
    · omega
  | succ n ih =>
    rcases h.miss hpos (by omega) with hdone | ⟨w', pre', post', hlen', h'⟩
    · exact hdone
    · exact ih h' (by omega) (by omega) (by omega)

theorem exists_evicted : ∃ w order i no, Evicted w order i no := by
  obtain ⟨w, order, i, h⟩ := exists_crowd (2 ^ 32 - 1)
  obtain ⟨pre, post, rfl⟩ := append_of_mem ((h.ok.whole i).mpr h.lt)
  have hstale : Stale w (pre ++ i :: post) i 1 := by
    refine ⟨h.run, h.ok, h.count.trans (by decide), fun k _ hval => ?_, h.user, h.contents⟩
    rw [h.only k hval]
    decide
  have hlen : pre.length ≤ bcacheEntries := by
    have := length_le_entries h.ok.lru.nodup fun k hk => (h.ok.whole k).mp hk
    rw [length_append] at this
    omega
  have hents : bcacheEntries = 512 := by unfold bcacheEntries; rfl
  obtain ⟨w', order, no, hw'⟩ := hstale.evicted rfl Nat.one_pos (by omega)
  exact ⟨w', order, i, no, hw'⟩

/-- The theorem at the world after one `bread`, with its user. -/
theorem cache_refines_disk_ram : ∃ w : CacheWorld Unit, w.holds.length = 1 ∧
    (∀ d no s' i, bread ram w.cache (some d) no (oneByte d) = (s', some i) →
      ∀ j, j < oneByte d → (s'.pool i).data j = blockByte oneByte w.contents d no j) ∧
    (∀ dev d no, (dev = none ∨ dev = some d) → (∀ h ∈ w.holds, h.dev = d → h.blockNo = no → h.unsaved = false) →
      ∀ j, j < oneByte d →
        blockByte oneByte (bflush ram w.cache dev).media d no j = blockByte oneByte w.contents d no j) := by
  obtain ⟨s', i, data, -, hbread, -⟩ := ram_first
  refine ⟨⟨s', [⟨i, (), 0, false⟩], fun _ _ => 0⟩, rfl, cache_refines_disk ram_devices (fun _ _ => 0) _ ?_⟩
  refine .single ⟨.bread (start fun _ _ => 0) () 0 s' i hbread, fun k => ?_⟩
  exact lt_of_le_of_lt List.countP_le_length (show 1 < 2 ^ 32 by decide)

theorem bflush_of_clean {s : Bcache Dev} (hclean : ∀ k, (s.pool k).dirty = false) (dev : Option Dev) :
    bflush device s dev = s := by
  refine foldl_range_rule (fun _ s' => s' = s) rfl fun i s' _ hs' => ?_
  rw [hs']
  unfold bflushOne
  split
  · rfl
  · rw [if_neg fun hflush => by rw [hclean i] at hflush; exact absurd hflush.2.1 (by decide)]

/-- **Both conditions are needed.** A user may store into its buffer and mark it dirty only after a `bflush`, which then
leaves the device behind; and with `2 ^ 32` users of one buffer its count is zero and it is given to another block. -/
theorem cache_limits : Devices ram oneByte ∧
    (∃ w, RamRun w ∧ ∃ no, blockByte oneByte (bflush ram w.cache none).media () no 0 ≠
      blockByte oneByte w.contents () no 0) ∧
    ∃ w, RamRun w ∧ ∃ no s' i, bread ram w.cache (some ()) no (oneByte ()) = (s', some i) ∧
      (s'.pool i).data 0 ≠ blockByte oneByte w.contents () no 0 := by
  refine ⟨ram_devices, ?_, ?_⟩
  · obtain ⟨w, order, i, h⟩ := exists_crowd 0
    obtain ⟨pre, post, hw⟩ := List.append_of_mem h.user
    refine ⟨_, h.run.tail (.store w pre _ post (fun _ => 1) hw), 0, ?_⟩
    have hclean : ∀ k, ((storeData w.cache i fun _ => 1).pool k).dirty = false := by
      intro k
      show ((w.cache.setBuf i _).pool k).dirty = false
      by_cases hk : k = i
      · rw [hk, pool_setBuf_self]
        exact h.clean i
      · rw [pool_setBuf_of_ne _ hk]
        exact h.clean k
    rw [bflush_of_clean hclean, blockByte_putBlock_self _ _ _ _ (show 0 < oneByte () from Nat.one_pos)]
    show w.cache.media () _ ≠ 1
    rw [h.media]
    decide
  · obtain ⟨w, order, i, no, h⟩ := exists_evicted
    obtain ⟨pre, post, hw⟩ := List.append_of_mem h.user
    have hok : (storeData w.cache i fun _ => 1).Ok ram oneByte order := h.ok.setBuf rfl rfl rfl rfl
    have hcaches :=
      (caches_setBuf (s := w.cache) (b := { w.cache.pool i with data := fun _ => 1 }) rfl rfl rfl).mpr h.caches
    refine ⟨_, h.run.tail (.store w pre _ post (fun _ => 1) hw), no, _, i, hok.bread_hit ram_args h.lt hcaches, ?_⟩
    rw [blockByte_putBlock_of_ne _ _ (show 0 < oneByte () from Nat.one_pos) fun heq => h.moved heq.2]
    show ((Bcache.setBuf _ i _).pool i).data 0 ≠ w.contents () _
    rw [pool_setBuf_self, h.contents]
    show ((w.cache.setBuf i _).pool i).data 0 ≠ 0
    rw [pool_setBuf_self]
    show (1 : BitVec 8) ≠ 0
    decide

end CacheWorld

end SzpontOS.Fs
