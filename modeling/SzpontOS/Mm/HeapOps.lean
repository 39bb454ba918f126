import SzpontOS.Mm.HeapBlocks

/-!
# What the heap operations do to the blocks

The three changes that `mm/heap.c` makes to the list, each first on the headers and then on the memory that holds
them: a block marked free or taken (`Listed.mark`), a block cut in two (`Listed.split`), and two neighbours joined
(`Listed.join`). `kmalloc` and `kfree` are made of them.
-/

namespace SzpontOS.Mm

open SzpontOS.Lib HeapBlock Function
open List hiding span
open BitVec hiding append_assoc

variable {H H' : Nat → HeapHeader} {bs pre post : List HeapBlock} {b c : HeapBlock} {ranges : List Span}

/-! ## Changes of the headers -/

variable {bs' : List HeapBlock} {size : BitVec 64} {m : Mem}

namespace Listed

theorem congr (h : Listed H bs) (hsame : ∀ b ∈ bs, H' b.addr = H b.addr) : Listed H' bs := by
  refine ⟨h.links.congr fun a ha => ?_, fun b hb => ?_⟩
  · obtain ⟨b, hb, rfl⟩ := mem_map.mp ha
    unfold linksOf
    dsimp only
    rw [hsame b hb]
    exact ⟨rfl, rfl⟩
  · rw [hsame b hb]
    exact h.described b hb

theorem next_eq (h : Listed H (pre ++ b :: post)) : pointerOf (H b.addr).next = (post.map addr).head? := by
  have hlink := h.links
  rw [map_append, Links.chain_append, map_cons] at hlink
  exact hlink.2.2.1.trans (Option.or_none)

theorem prev_eq (h : Listed H (pre ++ b :: post)) : pointerOf (H b.addr).prev = (pre.map addr).getLast? := by
  have hlink := h.links
  rw [map_append, Links.chain_append, map_cons] at hlink
  exact hlink.2.1.trans (Option.or_none)

/-- A list with the links `h'` of the same or other blocks, of which those of `bs` keep what their headers say. -/
theorem of_links (h : Listed H bs) (hlink : (linksOf H').Chain none none (bs'.map addr))
    (hsame : ∀ b ∈ bs', b ∈ bs ∧ (H' b.addr).magic = (H b.addr).magic ∧ (H' b.addr).isFree = (H b.addr).isFree ∧
      (H' b.addr).size = (H b.addr).size ∨ b.Described (H' b.addr)) : Listed H' bs' := by
  refine ⟨hlink, fun b hb => ?_⟩
  rcases hsame b hb with ⟨hmem, hmagic, hfree, hsize⟩ | hdesc
  · obtain ⟨h1, h2, h3⟩ := h.described b hmem
    exact ⟨hmagic.trans h1, hfree.trans h2, by rw [hsize, h3]⟩
  · exact hdesc

end Listed

theorem addr_ne_of_nodup (hnd : ((pre ++ b :: post).map addr).Nodup) (hc : c ∈ pre ∨ c ∈ post) : c.addr ≠ b.addr := by
  rw [map_append, map_cons, nodup_append, nodup_cons] at hnd
  obtain ⟨-, ⟨hpost, -⟩, hcross⟩ := hnd
  rcases hc with hc | hc
  · exact hcross _ (mem_map_of_mem hc) _ mem_cons_self
  · intro heq
    exact hpost (heq ▸ mem_map_of_mem hc)

def markHeader (free : Bool) (h : HeapHeader) : HeapHeader :=
  { h with isFree := if free then 1 else 0, magic := if free then heapMagicFree else heapMagicAlloc }

theorem Listed.mark (h : Listed H (pre ++ b :: post)) (hnd : ((pre ++ b :: post).map addr).Nodup) (free : Bool) :
    Listed (assignHeader H b.addr (markHeader free)) (pre ++ { b with free := free } :: post) := by
  refine h.of_links ?_ fun c hc => ?_
  · rw [linksOf_assign_same (markHeader free) (fun _ => rfl) fun _ => rfl]
    have hlink := h.links
    rwa [map_append, map_cons] at hlink ⊢
  · rw [mem_append, mem_cons] at hc
    by_cases hcb : c = { b with free := free }
    · right
      rw [hcb, assignHeader_self]
      exact ⟨rfl, rfl, (h.described b (by simp)).size⟩
    · have hc : c ∈ pre ∨ c ∈ post := by tauto
      left
      rw [assignHeader_of_ne _ (addr_ne_of_nodup hnd hc)]
      rw [mem_append, mem_cons]
      tauto

theorem toNat_sub_header {x n : BitVec 64} (h : n.toNat + 32 ≤ x.toNat) : (x - n - 32).toNat = x.toNat - n.toNat - 32 := by
  have h32 : (32 : BitVec 64).toNat = 32 := rfl
  rw [toNat_sub, toNat_sub, h32]
  omega

/-- The headers after block `curr` is cut behind `size` bytes of data, at `split`. -/
def splitHeaders (H : Nat → HeapHeader) (curr split : Nat) (size : BitVec 64) : Nat → HeapHeader :=
  let H1 := Function.update H split ⟨heapMagicFree, 1, (H curr).size - size - 32, (H curr).next, BitVec.ofNat 64 curr⟩
  let H2 := assignHeaderPrev H1 (pointerOf (H curr).next) split
  let H3 := assignHeader H2 curr fun b => { b with next := BitVec.ofNat 64 split }
  assignHeader H3 curr fun b => { b with size := size }

theorem Listed.split (h : Listed H (pre ++ b :: post)) (hnd : ((pre ++ b :: post).map addr).Nodup) {split : Nat}
    (hfree : b.free = true) (hsize : size.toNat + 32 ≤ b.size) (hnew : split ∉ (pre ++ b :: post).map addr)
    (hcut : 0 < split ∧ split < 2 ^ 64) (haddr : 0 < b.addr ∧ b.addr < 2 ^ 64) :
    Listed (splitHeaders H b.addr split size)
      (pre ++ ⟨b.addr, size.toNat, true⟩ :: ⟨split, b.size - size.toNat - 32, true⟩ :: post) := by
  obtain ⟨hmagic, hisFree, hdsize⟩ := h.described b (by simp)
  have hne : split ≠ b.addr := fun heq => hnew (by simp [heq])
  -- the links are those of the new block linked in behind `b`
  have hlink : linksOf (splitHeaders H b.addr split size) =
      (linksOf H).insert split (some b.addr) (post.map addr).head? := by
    unfold splitHeaders
    rw [linksOf_assign_same (fun b => { b with size := size }) (fun _ => rfl) fun _ => rfl, linksOf_assign_next, linksOf_assignHeaderPrev _ hcut,
      linksOf_update, pointerOf_ofNat hcut.1 hcut.2, pointerOf_ofNat haddr.1 haddr.2, h.next_eq]
    rfl
  -- the other headers change in `prev` at most
  have hkept : ∀ c, c ∈ pre ∨ c ∈ post → c ∈ pre ++ b :: post ∧
      (splitHeaders H b.addr split size c.addr).magic = (H c.addr).magic ∧
      (splitHeaders H b.addr split size c.addr).isFree = (H c.addr).isFree ∧
      (splitHeaders H b.addr split size c.addr).size = (H c.addr).size := by
    intro c hc
    have hmem : c ∈ pre ++ b :: post := by
      rw [mem_append, mem_cons]
      tauto
    have hcb : c.addr ≠ b.addr := addr_ne_of_nodup hnd hc
    have hcs : c.addr ≠ split := fun heq => hnew (heq ▸ mem_map_of_mem hmem)
    unfold splitHeaders
    rw [assignHeader_of_ne _ hcb, assignHeader_of_ne _ hcb]
    obtain ⟨w, hw⟩ := assignHeaderPrev_eq (update H split _) (pointerOf (H b.addr).next) split c.addr
    rw [hw, update_of_ne hcs]
    exact ⟨hmem, rfl, rfl, rfl⟩
  refine h.of_links ?_ fun c hc => ?_
  · have hins : ((linksOf H).insert split ((pre.map addr ++ [b.addr]).getLast?.or none)
        ((post.map addr).head?.or none)).Chain none none ((pre.map addr ++ [b.addr]) ++ split :: post.map addr) := by
      rw [map_append, map_cons, ← singleton_append, ← append_assoc] at hnd hnew
      have hchain := h.links
      rw [map_append, map_cons, ← singleton_append, ← append_assoc] at hchain
      exact hchain.insert hnd hnew (fun _ _ => by simp) fun _ _ => by simp
    rw [hlink]
    simpa using hins
  · rw [mem_append, mem_cons, mem_cons] at hc
    rcases hc with hc | rfl | rfl | hc
    · exact .inl (hkept c (.inl hc))
    · right
      unfold splitHeaders
      rw [assignHeader_self, assignHeader_self]
      obtain ⟨w, hw⟩ := assignHeaderPrev_eq (update H split _) (pointerOf (H b.addr).next) split b.addr
      rw [hw, update_of_ne hne.symm]
      refine ⟨?_, ?_, rfl⟩
      · rw [hmagic, hfree]
      · rw [hisFree, hfree]
    · right
      unfold splitHeaders
      rw [assignHeader_of_ne _ hne, assignHeader_of_ne _ hne]
      obtain ⟨w, hw⟩ := assignHeaderPrev_eq (update H split _) (pointerOf (H b.addr).next) split split
      rw [hw, update_self]
      refine ⟨rfl, rfl, ?_⟩
      rw [← hdsize] at hsize ⊢
      exact toNat_sub_header hsize
    · exact .inl (hkept c (.inr hc))

/-- The headers after block `second` is joined to block `first` before it. -/
def joinHeaders (H : Nat → HeapHeader) (first second : Nat) : Nat → HeapHeader :=
  let H1 := assignHeader H first fun b => { b with size := b.size + (32 + (H second).size) }
  let H2 := assignHeader H1 first fun b => { b with next := (H second).next }
  assignHeaderPrev H2 (pointerOf (H second).next) first

theorem Listed.join (h : Listed H (pre ++ b :: c :: post)) (hnd : ((pre ++ b :: c :: post).map addr).Nodup)
    (hfree : b.free = true) (hsum : b.size + 32 + c.size < 2 ^ 64) (haddr : 0 < b.addr ∧ b.addr < 2 ^ 64) :
    Listed (joinHeaders H b.addr c.addr) (pre ++ ⟨b.addr, b.size + 32 + c.size, true⟩ :: post) := by
  obtain ⟨hmagic, hisFree, hdsize⟩ := h.described b (by simp)
  have hcsize := (h.described c (by simp)).size
  have hmid : pre ++ b :: c :: post = (pre ++ [b]) ++ c :: post := by simp
  have hprev : pointerOf (H c.addr).prev = some b.addr := by
    rw [hmid] at h
    rw [h.prev_eq]
    simp
  -- the links are those with `c` taken out
  have hlink : linksOf (joinHeaders H b.addr c.addr) = (linksOf H).unlink c.addr := by
    unfold joinHeaders
    rw [linksOf_assignHeaderPrev _ haddr, linksOf_assign_next,
      linksOf_assign_same (fun x => { x with size := x.size + (32 + (H c.addr).size) }) (fun _ => rfl) fun _ => rfl]
    show _ = ((linksOf H).setNext (pointerOf (H c.addr).prev) _).setPrev _ (pointerOf (H c.addr).prev)
    rw [hprev]
    rfl
  refine h.of_links ?_ fun d hd => ?_
  · have hchain := h.links
    rw [hmid, map_append, map_cons] at hchain hnd
    have hout := hchain.unlink hnd (fun _ _ => by simp) fun _ _ => by simp
    rw [hlink]
    simpa using hout
  · rw [mem_append, mem_cons] at hd
    by_cases hdb : d = ⟨b.addr, b.size + 32 + c.size, true⟩
    · right
      rw [hdb]
      unfold joinHeaders
      obtain ⟨w, hw⟩ := assignHeaderPrev_eq (assignHeader (assignHeader H b.addr
        fun x => { x with size := x.size + (32 + (H c.addr).size) }) b.addr fun x => { x with next := (H c.addr).next })
        (pointerOf (H c.addr).next) b.addr b.addr
      rw [hw, assignHeader_self, assignHeader_self]
      refine ⟨?_, ?_, ?_⟩
      · rw [hmagic, hfree]
      · rw [hisFree, hfree]
      · have h32 : (32 : BitVec 64).toNat = 32 := rfl
        dsimp only
        rw [toNat_add, toNat_add, h32, hdsize, hcsize]
        omega
    · have hd : d ∈ pre ∨ d ∈ post := by tauto
      have hdb : d.addr ≠ b.addr := addr_ne_of_nodup hnd (hd.imp id (mem_cons_of_mem c))
      left
      unfold joinHeaders
      obtain ⟨w, hw⟩ := assignHeaderPrev_eq (assignHeader (assignHeader H b.addr
        fun x => { x with size := x.size + (32 + (H c.addr).size) }) b.addr fun x => { x with next := (H c.addr).next })
        (pointerOf (H c.addr).next) b.addr d.addr
      rw [hw, assignHeader_of_ne _ hdb, assignHeader_of_ne _ hdb]
      rw [mem_append, mem_cons, mem_cons]
      tauto

/-! ## Changes of the memory -/

section Memory

variable {addrs : List Nat} {m' : Mem}

theorem Edited.listed (he : Edited addrs m m' H) (h : Listed H bs) (hmem : ∀ b ∈ bs, b.addr ∈ addrs) :
    Listed (readHeader m') bs :=
  h.congr fun b hb => he.headers b.addr (hmem b hb)

theorem edited_split (hspace : Spaced addrs) {curr : Nat} (hcurr : curr ∈ addrs) (hcut : curr + 32 + size.toNat ∈ addrs)
    (hnext : ∀ next, pointerOf (readHeader m curr).next = some next → next ∈ addrs) :
    Edited addrs m (Heap.split m curr size) (splitHeaders (readHeader m) curr (curr + 32 + size.toNat) size) := by
  unfold Heap.split splitHeaders
  apply Edited.assign _ hspace hcurr
  apply Edited.assign _ hspace hcurr
  apply Edited.assignPrev _ hspace hnext
  exact (Edited.refl addrs m).write hspace hcut _

theorem edited_absorb (hspace : Spaced addrs) {first second : Nat} (hfst : first ∈ addrs) (hsnd : second ∈ addrs)
    (hne : second ≠ first) (hnext : ∀ next, pointerOf (readHeader m second).next = some next → next ∈ addrs) :
    Edited addrs m (Heap.absorb m first second) (joinHeaders (readHeader m) first second) := by
  have h1 := (Edited.refl addrs m).assign hspace hfst
    fun b => { b with size := b.size + (32 + (readHeader m second).size) }
  have hs1 := (h1.headers second hsnd).trans (assignHeader_of_ne _ hne)
  have h2 := h1.assign hspace hfst fun b => { b with next := (readHeader m second).next }
  have hs2 := ((h2.headers second hsnd).trans (assignHeader_of_ne _ hne)).trans (assignHeader_of_ne _ hne)
  unfold Heap.absorb joinHeaders
  dsimp only
  rw [hs1, hs2]
  exact h2.assignPrev hspace hnext first

/-- What a list of blocks becomes when free neighbours are joined. -/
structure Coalesced (ranges : List Span) (bs : List HeapBlock) (m : Mem) (bs' : List HeapBlock) (m' : Mem) : Prop where
  listed : Listed (readHeader m') bs'
  tiled : Tiled bs' ranges
  head : (bs'.map addr).head? = (bs.map addr).head?
  addrs : ∀ a ∈ bs'.map addr, a ∈ bs.map addr
  total : Span.total (bs'.map span) = Span.total (bs.map span)
  allocated : allocatedBytes bs' = allocatedBytes bs
  keeps : ∀ d ∈ bs, d.free = false → d ∈ bs'
  frame : ∀ x, (∀ a ∈ bs.map addr, x < a ∨ a + 32 ≤ x) → m' x = m x

theorem Coalesced.refl (hlisted : Listed (readHeader m) bs) (htiled : Tiled bs ranges) : Coalesced ranges bs m bs m :=
  ⟨hlisted, htiled, rfl, fun _ ha => ha, rfl, rfl, fun _ hd _ => hd, fun _ _ => rfl⟩

theorem Coalesced.trans {bs'' : List HeapBlock} {m'' : Mem} (h : Coalesced ranges bs m bs' m')
    (h' : Coalesced ranges bs' m' bs'' m'') : Coalesced ranges bs m bs'' m'' where
  listed := h'.listed
  tiled := h'.tiled
  head := h'.head.trans h.head
  addrs a ha := h.addrs a (h'.addrs a ha)
  total := h'.total.trans h.total
  allocated := h'.allocated.trans h.allocated
  keeps d hd hused := h'.keeps d (h.keeps d hd hused) hused
  frame x hx := (h'.frame x fun a ha => hx a (h.addrs a ha)).trans (h.frame x hx)

theorem coalesced_join (hlisted : Listed (readHeader m) (pre ++ b :: c :: post))
    (htiled : Tiled (pre ++ b :: c :: post) ranges) (hb : b.free = true) (hc : c.free = true)
    (hadj : c.addr = b.addr + 32 + b.size)
    (hedit : Edited ((pre ++ b :: c :: post).map addr) m m' (joinHeaders (readHeader m) b.addr c.addr)) :
    Coalesced ranges (pre ++ b :: c :: post) m (pre ++ ⟨b.addr, b.size + 32 + c.size, true⟩ :: post) m' := by
  have hfb := htiled.fits b (by simp)
  have hfc := htiled.fits c (by simp)
  have hfits : (⟨b.addr, b.size + 32 + c.size, true⟩ : HeapBlock).Fits := by
    obtain ⟨h1, h2, h3, h4⟩ := hfb
    obtain ⟨h5, h6, h7, h8⟩ := hfc
    refine ⟨h1, ?_, h3, ?_⟩
    · show 16 ∣ b.size + 32 + c.size
      omega
    · show b.addr + 32 + (b.size + 32 + c.size) ≤ 2 ^ 64
      omega
  have htile' : Tiled (pre ++ ([⟨b.addr, b.size + 32 + c.size, true⟩] ++ post)) ranges := by
    refine .replace [b, c] _ htiled (pairwise_singleton _ _) ?_ fun x => ?_
    · intro d hd
      rw [mem_singleton.mp hd]
      exact hfits
    · simp only [map_cons, map_nil, Span.covered_cons, Span.covered_nil, or_false, Span.Covers, Span.stop,
        span, hadj]
      omega
  have haddrs : ∀ d ∈ pre ++ ⟨b.addr, b.size + 32 + c.size, true⟩ :: post, d.addr ∈ (pre ++ b :: c :: post).map addr := by
    intro d hd
    simp only [mem_append, mem_cons, map_append, map_cons, mem_map] at hd ⊢
    rcases hd with hd | rfl | hd
    · exact .inl ⟨d, hd, rfl⟩
    · exact .inr (.inl rfl)
    · exact .inr (.inr (.inr ⟨d, hd, rfl⟩))
  refine ⟨?_, htile', ?_, fun a ha => ?_, ?_, ?_, fun d hd hused => ?_, hedit.frame⟩
  · refine hedit.listed (hlisted.join htiled.nodup hb ?_ ⟨hfb.pos, ?_⟩) haddrs
    · have := hfits.stop
      dsimp only at this
      omega
    · have := hfb.stop
      omega
  · simp
  · obtain ⟨d, hd, rfl⟩ := mem_map.mp ha
    exact haddrs d hd
  · simp [span]
    omega
  · simp [hb, hc]
  · rw [mem_append, mem_cons, mem_cons] at hd
    rw [mem_append, mem_cons]
    rcases hd with hd | rfl | rfl | hd
    · exact .inl hd
    · rw [hb] at hused
      cases hused
    · rw [hc] at hused
      cases hused
    · exact .inr (.inr hd)

theorem mem_of_next (h : Listed (readHeader m) (pre ++ b :: post)) {a : Nat}
    (ha : pointerOf (readHeader m b.addr).next = some a) : a ∈ (pre ++ b :: post).map addr := by
  rw [h.next_eq] at ha
  have := mem_of_mem_head? ha
  simp only [map_append, map_cons, mem_append, mem_cons]
  tauto

theorem free_of_isFree (h : Listed H bs) (hb : b ∈ bs) (hfree : (H b.addr).isFree ≠ 0) : b.free = true := by
  by_contra hused
  rw [(h.described b hb).isFree, if_neg hused] at hfree
  exact hfree rfl

section

variable (hlisted : Listed (readHeader m) (pre ++ b :: post)) (htiled : Tiled (pre ++ b :: post) ranges)
  (hb : b.free = true)

include hlisted htiled hb

theorem coalesceNext_spec : ∃ b' post', b'.addr = b.addr ∧ b'.free = true ∧
      Coalesced ranges (pre ++ b :: post) m (pre ++ b' :: post') (Heap.coalesceNext m b.addr) := by
  have hnext := hlisted.next_eq
  unfold Heap.coalesceNext
  cases post with
  | nil =>
    simp only [hnext, map_nil, head?_nil]
    exact ⟨b, [], rfl, hb, .refl hlisted htiled⟩
  | cons c post =>
    simp only [hnext, map_cons, head?_cons]
    split
    case isTrue hjoin =>
      have hc : c.free = true := free_of_isFree hlisted (by simp) hjoin.1
      have hadj := hjoin.2
      rw [(hlisted.described b (by simp)).size] at hadj
      have hmem : pre ++ b :: c :: post = (pre ++ [b]) ++ c :: post := by simp
      refine ⟨⟨b.addr, b.size + 32 + c.size, true⟩, post, rfl, rfl, coalesced_join hlisted htiled hb hc hadj ?_⟩
      apply edited_absorb htiled.spaced (by simp) (by simp) (by omega)
      intro a ha
      rw [hmem] at hlisted ⊢
      exact mem_of_next hlisted ha
    case isFalse => exact ⟨b, c :: post, rfl, hb, .refl hlisted htiled⟩

theorem coalescePrev_spec : ∃ bs', Coalesced ranges (pre ++ b :: post) m bs' (Heap.coalescePrev m b.addr) := by
  have hprev := hlisted.prev_eq
  unfold Heap.coalescePrev
  rcases eq_nil_or_concat' pre with rfl | ⟨pre, a, rfl⟩
  · simp only [hprev, map_nil, getLast?_nil]
    exact ⟨_, .refl hlisted htiled⟩
  · have hmem : (pre ++ [a]) ++ b :: post = pre ++ a :: b :: post := by simp
    simp only [hprev, map_append, map_cons, map_nil, getLast?_concat]
    split
    case isTrue hjoin =>
      have ha : a.free = true := free_of_isFree hlisted (by simp) hjoin.1
      have hadj := hjoin.2
      rw [(hlisted.described a (by simp)).size] at hadj
      rw [hmem] at hlisted htiled ⊢
      refine ⟨_, coalesced_join hlisted htiled ha hb hadj ?_⟩
      apply edited_absorb htiled.spaced (by simp) (by simp) (by omega)
      intro d hd
      rw [← hmem] at hlisted ⊢
      exact mem_of_next hlisted hd
    case isFalse => exact ⟨_, .refl hlisted htiled⟩

end

end Memory

/-! ## The operations -/

namespace Heap

variable {h : Heap}

/-- The data of block `d` is the same in both memories. -/
def SameData (m m' : Mem) (d : HeapBlock) : Prop :=
  ∀ x, d.addr + 32 ≤ x → x < d.addr + 32 + d.size → m' x = m x

theorem mark_as {m' : Mem} (free : Bool) (htiled : Tiled (pre ++ b :: post) ranges)
    (hlisted : Listed H (pre ++ b :: post)) (hedit : Edited ((pre ++ b :: post).map addr) m m' H) :
    Listed (readHeader (assign m' b.addr (markHeader free))) (pre ++ { b with free := free } :: post) ∧
      Tiled (pre ++ { b with free := free } :: post) ranges ∧
      ∀ d, d ∈ pre ∨ d ∈ post → SameData m (assign m' b.addr (markHeader free)) d := by
  have hmark := hedit.assign htiled.spaced (by simp : b.addr ∈ (pre ++ b :: post).map addr) (markHeader free)
  have haddrs : (pre ++ { b with free := free } :: post).map addr = (pre ++ b :: post).map addr := by simp
  refine ⟨hmark.listed (hlisted.mark htiled.nodup free) fun d hd => haddrs ▸ mem_map_of_mem hd, ?_,
    fun d hd x hlow hhigh => ?_⟩
  · obtain ⟨h1, h2, h3, h4⟩ := htiled.fits b (by simp)
    refine .replace [b] [{ b with free := free }] htiled (pairwise_singleton _ _) (fun d hd => ?_) fun x => ?_
    · rw [mem_singleton.mp hd]
      exact ⟨h1, h2, h3, h4⟩
    · rfl
  · have hmem : d ∈ pre ++ b :: post := by
      rw [mem_append, mem_cons]
      tauto
    exact hmark.frame x (htiled.data_outside hmem hlow hhigh)

/-- **`kfree`.** The block is free again, perhaps as a part of a larger one; the other allocations stay. -/
theorem Ok.kfree (hok : h.Ok (pre ++ b :: post) ranges) (hused : b.free = false) :
    ∃ bs', (h.kfree (some (b.addr + 32))).Ok bs' ranges ∧
      ∀ d, d ∈ pre ∨ d ∈ post → d.free = false → d ∈ bs' ∧ SameData h.mem (h.kfree (some (b.addr + 32))).mem d := by
  have hdesc := hok.listed.described b (by simp)
  -- the block is marked free
  obtain ⟨hlisted, htiled, hsame⟩ := mark_as true hok.tiled hok.listed (.refl _ h.mem)
  set freed : HeapBlock := { b with free := true } with hgone
  have haddrs : (pre ++ freed :: post).map addr = (pre ++ b :: post).map addr := by simp [hgone]
  have hspans : (pre ++ freed :: post).map span = (pre ++ b :: post).map span := by simp [hgone, span]
  -- and joined to its neighbours
  obtain ⟨b', post', haddr', hfree', hnext⟩ := coalesceNext_spec hlisted htiled rfl
  obtain ⟨bs', hprev⟩ := coalescePrev_spec hnext.listed hnext.tiled hfree'
  have hboth := hnext.trans hprev
  rw [haddr'] at hboth
  have hkfree : h.kfree (some (b.addr + 32)) = { h with
      mem := coalescePrev (coalesceNext (assign h.mem b.addr (markHeader true)) b.addr) b.addr
      allocated := h.allocated - (readHeader (assign h.mem b.addr (markHeader true)) b.addr).size } := by
    unfold Heap.kfree
    dsimp only
    rw [Nat.add_sub_cancel, if_neg]
    · rfl
    · rw [hdesc.magic, hused]
      simp
  rw [hkfree]
  refine ⟨bs', ⟨?_, hboth.listed, hboth.tiled, ?_, ?_⟩, fun d hd hdused => ⟨hboth.keeps d ?_ hdused, fun x hlow hhigh => ?_⟩⟩
  · rw [hboth.head, haddrs]
    exact hok.head
  · rw [hboth.total, hspans]
    exact hok.total
  · have hsize : (readHeader (assign h.mem b.addr (markHeader true)) b.addr).size.toNat = b.size :=
      (hlisted.described freed (by simp)).size
    have hsum := hok.allocated
    simp only [allocatedBytes_append, allocatedBytes_cons, hused, Bool.false_eq_true, if_false] at hsum
    rw [hboth.allocated, toNat_sub_of_le (by rw [le_def, hsize]; omega), hsize, hsum]
    simp only [allocatedBytes_append, allocatedBytes_cons, hgone, if_true]
    omega
  · rw [mem_append, mem_cons]
    tauto
  · have hmem : d ∈ pre ++ b :: post := by
      rw [mem_append, mem_cons]
      tauto
    refine (hboth.frame x ?_).trans (hsame d hd x hlow hhigh)
    rw [haddrs]
    exact hok.tiled.data_outside hmem hlow hhigh

theorem Ok.cut (hok : h.Ok (pre ++ b :: post) ranges) (hfree : b.free = true) (halign : 16 ∣ size.toNat)
    (hroom : size.toNat + 48 ≤ b.size) :
    let bs := pre ++ ⟨b.addr, size.toNat, true⟩ :: ⟨b.addr + 32 + size.toNat, b.size - size.toNat - 32, true⟩ :: post
    Tiled bs ranges ∧ Span.total (bs.map span) = Span.total ((pre ++ b :: post).map span) ∧
      Listed (splitHeaders (readHeader h.mem) b.addr (b.addr + 32 + size.toNat) size) bs ∧
      Edited (bs.map addr) h.mem (split h.mem b.addr size)
        (splitHeaders (readHeader h.mem) b.addr (b.addr + 32 + size.toNat) size) := by
  intro bs
  obtain ⟨h1, h2, h3, h4⟩ := hok.tiled.fits b (by simp)
  have htiled : Tiled bs ranges := by
    refine .replace [b] [⟨b.addr, size.toNat, true⟩, ⟨b.addr + 32 + size.toNat, b.size - size.toNat - 32, true⟩]
      hok.tiled ?_ ?_ fun x => ?_
    · simp [Span.Apart, Span.Covers, Span.stop, span]
      omega
    · intro d hd
      simp only [mem_cons, not_mem_nil, or_false] at hd
      rcases hd with rfl | rfl
      · exact ⟨h1, halign, h3, by dsimp only; omega⟩
      · exact ⟨by dsimp only; omega, by dsimp only; omega, by dsimp only; omega, by dsimp only; omega⟩
    · simp only [map_cons, map_nil, Span.covered_cons, Span.covered_nil, or_false, Span.Covers, Span.stop, span]
      omega
  refine ⟨htiled, ?_, hok.listed.split hok.tiled.nodup hfree (by omega) ?_ ⟨by omega, by omega⟩ ⟨h3, by omega⟩, ?_⟩
  · simp [bs, span]
    omega
  · -- the new header lies inside the block that is cut, where no other block starts
    intro hmem
    obtain ⟨d, hd, haddr⟩ := mem_map.mp hmem
    by_cases hdb : d = b
    · rw [hdb] at haddr
      omega
    · have := hok.tiled.le_or_le hd (by simp : b ∈ pre ++ b :: post) hdb
      omega
  · apply edited_split htiled.spaced (by simp [bs]) (by simp [bs])
    intro a ha
    rw [hok.listed.next_eq] at ha
    have := mem_of_mem_head? ha
    simp only [bs, map_append, map_cons, mem_append, mem_cons]
    tauto

theorem allocatedBytes_of_free {rest : List HeapBlock} (hrest : ∀ d ∈ rest, d.free = true) : allocatedBytes rest = 0 := by
  induction rest with
  | nil => rfl
  | cons d rest ih =>
    rw [allocatedBytes_cons, hrest d mem_cons_self, ih fun e he => hrest e (mem_cons_of_mem d he)]
    rfl

/-- The end of `kmalloc`: the block, of which a free `rest` may have been split off, becomes an allocation. -/
theorem Ok.occupy (hok : h.Ok (pre ++ b :: post) ranges) (hfree : b.free = true) (rest : List HeapBlock) {n : Nat}
    (hrest : ∀ d ∈ rest, d.free = true) (htiled : Tiled (pre ++ ⟨b.addr, n, true⟩ :: (rest ++ post)) ranges)
    (htot : Span.total ((pre ++ ⟨b.addr, n, true⟩ :: (rest ++ post)).map span) = Span.total ((pre ++ b :: post).map span))
    (hlisted : Listed H (pre ++ ⟨b.addr, n, true⟩ :: (rest ++ post)))
    (hedit : Edited ((pre ++ ⟨b.addr, n, true⟩ :: (rest ++ post)).map addr) h.mem m H) :
    Heap.Ok { h with
        mem := assign m b.addr (markHeader false)
        allocated := h.allocated + (readHeader (assign m b.addr (markHeader false)) b.addr).size }
      (pre ++ ⟨b.addr, n, false⟩ :: (rest ++ post)) ranges ∧
      ∀ d, d ∈ pre ∨ d ∈ post → SameData h.mem (assign m b.addr (markHeader false)) d := by
  obtain ⟨hlist', htile', hsame⟩ := mark_as false htiled hlisted hedit
  have hsum : Span.total ((pre ++ ⟨b.addr, n, false⟩ :: (rest ++ post)).map span) =
      Span.total ((pre ++ b :: post).map span) := by
    rw [← htot]
    simp [span]
  refine ⟨⟨?_, hlist', htile', hok.total.trans hsum.symm, ?_⟩, fun d hd => hsame d (hd.imp id (mem_append_right rest))⟩
  · rw [hok.head]
    simp
  · have hsize := (hlist'.described ⟨b.addr, n, false⟩ (by simp)).size
    dsimp only at hsize
    have hle := Nat.le_trans (allocatedBytes_le_total _) htile'.total_le
    have hold := hok.allocated
    simp only [allocatedBytes_append, allocatedBytes_cons, hfree, if_true, Bool.false_eq_true, if_false,
      allocatedBytes_of_free hrest] at hle hold ⊢
    rw [toNat_add, hsize, hold, Nat.mod_eq_of_lt (by omega)]
    omega

theorem Ok.splits_iff (hok : h.Ok bs ranges) (hb : b ∈ bs) (hsmall : size.toNat + 48 < 2 ^ 64) :
    (readHeader h.mem b.addr).size ≥ size + 32 + 16 ↔ size.toNat + 48 ≤ b.size := by
  have h48 : (size + 32 + 16).toNat = size.toNat + 48 := by
    have h32 : (32 : BitVec 64).toNat = 32 := rfl
    have h16 : (16 : BitVec 64).toNat = 16 := rfl
    rw [toNat_add, toNat_add, h32, h16]
    omega
  rw [ge_iff_le, le_def, h48, (hok.listed.described b hb).size]

section

variable (hok : h.Ok (pre ++ b :: post) ranges) (hfree : b.free = true) (halign : 16 ∣ size.toNat)

include hok hfree halign

/-- **The front of a large free block taken for a request.** -/
theorem Ok.take_front (hcut : size.toNat + 48 ≤ b.size) :
    (h.take b.addr size).1.Ok (pre ++ ⟨b.addr, size.toNat, false⟩ ::
        ([⟨b.addr + 32 + size.toNat, b.size - size.toNat - 32, true⟩] ++ post)) ranges ∧
      ∀ d, d ∈ pre ∨ d ∈ post → SameData h.mem (h.take b.addr size).1.mem d := by
  have hstop := (hok.tiled.fits b (by simp)).stop
  obtain ⟨htiled, htot, hlisted, hedit⟩ := hok.cut hfree halign hcut
  unfold Heap.take
  rw [if_pos ((hok.splits_iff (by simp) (by omega)).mpr hcut)]
  exact hok.occupy hfree [_] (fun d hd => by rw [mem_singleton.mp hd]) htiled htot hlisted hedit

theorem Ok.take (hsmall : size.toNat + 48 < 2 ^ 64) (hfits : size.toNat ≤ b.size) :
    ∃ n rest, (h.take b.addr size).1.Ok (pre ++ ⟨b.addr, n, false⟩ :: (rest ++ post)) ranges ∧
      (h.take b.addr size).2 = some (b.addr + 32) ∧ size.toNat ≤ n ∧ (∀ d ∈ rest, d.free = true) ∧
      ∀ d, d ∈ pre ∨ d ∈ post → SameData h.mem (h.take b.addr size).1.mem d := by
  by_cases hcut : size.toNat + 48 ≤ b.size
  · obtain ⟨hok', hsame⟩ := hok.take_front hfree halign hcut
    exact ⟨size.toNat, [_], hok', rfl, Nat.le_refl _, fun d hd => by rw [mem_singleton.mp hd], hsame⟩
  · unfold Heap.take
    rw [if_neg fun hge => hcut ((hok.splits_iff (by simp) hsmall).mp hge)]
    have hb : (⟨b.addr, b.size, true⟩ : HeapBlock) = b := by rw [← hfree]
    obtain ⟨hok', hsame⟩ := hok.occupy hfree [] (fun d hd => absurd hd not_mem_nil)
      (by rw [hb]; exact hok.tiled) (by rw [hb]; rfl) (by rw [hb]; exact hok.listed) (.refl _ h.mem)
    exact ⟨b.size, [], hok', rfl, hfits, fun d hd => absurd hd not_mem_nil, hsame⟩

end

end Heap

end SzpontOS.Mm
