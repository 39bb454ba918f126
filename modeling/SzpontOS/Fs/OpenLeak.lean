import SzpontOS.Fs.OpenClose

/-!
# What opening and closing leaves behind

`sys_close` frees the descriptor that `sys_open` allocated, and nobody frees the nodes that the lookup made. So the
count of allocated bytes comes back exactly where the path leads to the root of the mount, and grows by more than the
size of a node for each name otherwise.
-/

namespace SzpontOS.Fs

open SzpontOS.Lib SzpontOS.Mm Function List Option

/-! ## The names below a mount -/

namespace NameSpace

variable (ns : NameSpace)

/-- The walk through a file system that keeps its nodes, up to a symbolic link. -/
def belowOther (again : Text → Option (List Text)) : Nat → Text → List Text → Option (List Text) :=
  walkBy (fun cur token => (ns.findOther cur token).bind) (fun _ => none) (fun next _ => ns.linkTarget (.other next))
    again

def lookedUp (names : List Text) : List Text := names.filter fun name => ¬ (name = dot ∨ name = dotDot)

/-- The names that a path has below the ext2 or procfs mount it leads to, over at most `depth` symbolic links. -/
def below : Nat → Text → Option (List Text)
  | 0, _ => none
  | depth + 1, path =>
    let ((dir, node), names) := ns.startOf path
    match node with
    | .ext2 .. | .proc _ => some (lookedUp names)
    | .epoll _ => none
    | .other id => ns.belowOther (below depth) id dir names

/-- **The path leads to the root of an ext2 or procfs mount.** -/
def NamesMount (path : Text) : Prop := ns.below 17 (vfsResolvePath ns.cwd path) = some []

end NameSpace

/-! ## The kernel heap -/

/-- What the page allocator may return: pages that the heap does not have, in the kernel's half. -/
def PageSource.Sound (pmm : PageSource) : Prop :=
  ∀ h bs ranges n virt, Heap.Ok h bs ranges → pmm h n = some virt → Heap.Fresh ranges ⟨virt, n * 4096⟩ ∧ kernelBase ≤ virt

def KernelHeap (h : Heap) : Prop := ∃ bs ranges, h.Ok bs ranges ∧ ∀ r ∈ ranges, kernelBase ≤ r.start

variable {pmm : PageSource} {h h' : Heap} {size : BitVec 64}

variable {bs : List HeapBlock} {ranges : List Span} {full : Text}

theorem PageSource.Sound.granted (hsound : pmm.Sound) (hok : h.Ok bs ranges) (size : BitVec 64) :
    ∀ s ∈ Heap.granted (pmm h) h size, Heap.Fresh ranges s ∧ kernelBase ≤ s.start := by
  intro s hs
  unfold Heap.granted at hs
  split at hs
  · exact absurd hs not_mem_nil
  · cases hp : pmm h (Heap.pagesFor (Heap.alignUp size 16 * 2)) with
    | none =>
      rw [hp] at hs
      exact absurd hs not_mem_nil
    | some virt =>
      rw [hp] at hs
      rw [mem_singleton.mp hs]
      exact hsound h bs ranges _ virt hok hp

namespace KernelHeap

theorem base_le {b : HeapBlock} (hok : h.Ok bs ranges) (hhigh : ∀ r ∈ ranges, kernelBase ≤ r.start) (hb : b ∈ bs) :
    kernelBase ≤ b.addr := by
  have hcov : Span.Covered (bs.map HeapBlock.span) b.addr := by
    refine ⟨b.span, mem_map_of_mem hb, ?_⟩
    unfold Span.Covers Span.stop HeapBlock.span
    dsimp only
    omega
  obtain ⟨r, hr, hcover⟩ := (hok.tiled.cover _).mp hcov
  exact Nat.le_trans (hhigh r hr) hcover.1

section

variable (hheap : KernelHeap h) (hsound : pmm.Sound) (hsize : size.toNat ≤ 2 ^ 62)

include hheap hsound hsize

theorem kzalloc {ptr : Option Nat} (heq : h.kzalloc (pmm h) size = some (h', ptr)) :
    KernelHeap h' ∧ h.allocated.toNat + size.toNat ≤ h'.allocated.toNat ∧ ∀ p, ptr = some p → kernelBase ≤ p := by
  obtain ⟨bs, ranges, hok, hhigh⟩ := hheap
  have hgrant := hsound.granted hok size
  obtain ⟨hzero, rfl, rfl⟩ | ⟨-, p, bs', rfl, hok', hgot, -⟩ := hok.kzalloc hsize (fun s hs => (hgrant s hs).1) heq
  · refine ⟨⟨bs, ranges, hok, hhigh⟩, ?_, fun p hp => by cases hp⟩
    rw [hzero]
    exact Nat.le_refl _
  · have hhigh' : ∀ r ∈ ranges ++ Heap.granted (pmm h) h size, kernelBase ≤ r.start := by
      intro r hr
      rcases mem_append.mp hr with hr | hr
      · exact hhigh r hr
      · exact (hgrant r hr).2
    refine ⟨⟨bs', _, hok', hhigh'⟩, ?_, fun q hq => ?_⟩
    · rw [hok.allocated, hok'.allocated]
      exact hgot.bytes_le hok.tiled.nodup
    · obtain ⟨b, hb, -, hp, -⟩ := hgot.block
      have := base_le hok' hhigh' hb
      rw [← some.inj hq]
      omega

theorem kfree_kzalloc {p : Nat} (heq : h.kzalloc (pmm h) size = some (h', some p)) :
    KernelHeap (h'.kfree (some p)) ∧ (h'.kfree (some p)).allocated = h.allocated := by
  obtain ⟨bs, ranges, hok, hhigh⟩ := hheap
  have hgrant := hsound.granted hok size
  obtain ⟨hcount, bs', hok'⟩ := hok.kfree_kzalloc hsize (fun s hs => (hgrant s hs).1) heq
  refine ⟨⟨bs', _, hok', fun r hr => ?_⟩, hcount⟩
  rcases mem_append.mp hr with hr | hr
  · exact hhigh r hr
  · exact (hgrant r hr).2

theorem allocNode (heq : Fs.allocNode pmm size h = some h') :
    KernelHeap h' ∧ h.allocated.toNat + 200 ≤ h'.allocated.toNat := by
  unfold Fs.allocNode at heq
  simp only [bind_eq_bind, bind_eq_some_iff] at heq
  obtain ⟨⟨h1, p1⟩, hfst, ⟨h2, p2⟩, hsnd, hlast⟩ := heq
  obtain rfl : h2 = h' := some.inj hlast
  obtain ⟨hheap1, hle1, -⟩ := hheap.kzalloc hsound (by decide) hfst
  obtain ⟨hheap2, hle2, -⟩ := hheap1.kzalloc hsound hsize hsnd
  have h200 : (200 : BitVec 64).toNat = 200 := rfl
  exact ⟨hheap2, by omega⟩

end

end KernelHeap

/-! ## The lookup -/

/-- Between two heaps, these names were looked up on ext2 or procfs. -/
structure Leaked (names : List Text) (h h' : Heap) : Prop where
  heap : KernelHeap h'
  grows : h.allocated.toNat + 200 * names.length ≤ h'.allocated.toNat
  same : names = [] → h' = h

namespace NameSpace

variable {ns : NameSpace} {names : List Text} {dir token : Text} {cur next node : VNode}
  {again : Heap → Text → Option (Heap × Option VNode)} {againBelow : Text → Option (List Text)}

theorem linkTarget_of_onDemand (hnode : node.OnDemand) : ns.linkTarget node = [] := by
  apply if_neg
  cases node with
  | ext2 fs ino inode =>
    unfold nodeOf Ext2Inode.node
    dsimp only
    split <;> decide
  | proc node =>
    intro hlink
    cases node <;> cases hlink
  | epoll inst => exact hnode.elim
  | other id => exact hnode.elim

theorem finddir_onDemand (hheap : KernelHeap h) (hsound : pmm.Sound) (hcur : cur.OnDemand)
    (heq : ns.finddir pmm h cur token = some (h', some next)) :
    next.OnDemand ∧ KernelHeap h' ∧ h.allocated.toNat + 200 ≤ h'.allocated.toNat := by
  cases cur with
  | ext2 fs ino inode =>
    simp only [finddir] at heq
    split at heq
    · cases heq
    · obtain ⟨h1, hgot, hpair⟩ := map_eq_some_iff.mp heq
      cases hpair
      exact ⟨trivial, hheap.allocNode hsound (by decide) hgot⟩
  | proc node =>
    simp only [finddir] at heq
    split at heq
    · cases heq
    · obtain ⟨h1, hgot, hpair⟩ := map_eq_some_iff.mp heq
      cases hpair
      exact ⟨trivial, hheap.allocNode hsound (by decide) hgot⟩
  | epoll inst => exact hcur.elim
  | other id => exact hcur.elim

/-- **The walk on ext2 and procfs.** It stays there, and each name leaves a node behind. -/
theorem walk_onDemand (hsound : pmm.Sound) (names : List Text) :
    ∀ {h : Heap} {cur : VNode} {dir : Text}, KernelHeap h → cur.OnDemand →
      ns.walk pmm again h cur dir names = some (h', some node) → Leaked (lookedUp names) h h' := by
  induction names with
  | nil =>
    intro h cur dir hheap _ heq
    cases heq
    exact ⟨hheap, Nat.le_refl _, fun _ => rfl⟩
  | cons token rest ih =>
    intro h cur dir hheap hcur heq
    unfold walk walkBy at heq
    dsimp only at heq
    by_cases hdots : token = dot ∨ token = dotDot
    · rw [if_pos hdots] at heq
      have hskip : lookedUp (token :: rest) = lookedUp rest := filter_cons_of_neg (by simpa [not_or] using or_iff_not_imp_left.mp hdots)
      rw [hskip]
      exact ih hheap hcur heq
    · rw [if_neg hdots] at heq
      have hname : lookedUp (token :: rest) = token :: lookedUp rest := filter_cons_of_pos (by simpa using hdots)
      split at heq
      · cases heq
      · cases heq
      · rename_i h1 next hfind
        obtain ⟨hnext, hheap1, hle⟩ := finddir_onDemand hheap hsound hcur hfind
        rw [if_neg (not_not.mpr (linkTarget_of_onDemand hnext))] at heq
        obtain ⟨hheap', hgrows, -⟩ := ih hheap1 hnext heq
        refine ⟨hheap', ?_, fun hnil => ?_⟩
        · rw [hname, length_cons]
          omega
        · rw [hname] at hnil
          cases hnil

/-- **The walk on the other file systems** leaves the heap alone; it comes to ext2 or procfs by a symbolic link. -/
theorem walk_other (hnode : node.OnDemand) (names : List Text) (hagain : ∀ path, again h path = some (h', some node) →
      ∃ below, againBelow path = some below ∧ Leaked below h h') :
    ∀ {id : Nat} {dir : Text}, ns.walk pmm again h (.other id) dir names = some (h', some node) →
      ∃ below, ns.belowOther againBelow id dir names = some below ∧ Leaked below h h' := by
  induction names with
  | nil =>
    intro id dir heq
    cases heq
    exact hnode.elim
  | cons token rest ih =>
    intro id dir heq
    unfold walk walkBy at heq
    dsimp only at heq
    unfold belowOther walkBy
    by_cases hdots : token = dot ∨ token = dotDot
    · rw [if_pos hdots] at heq ⊢
      exact ih heq
    · rw [if_neg hdots] at heq ⊢
      cases hfind : ns.findOther id token with
      | none =>
        simp only [finddir, hfind, map_none] at heq
        cases heq
      | some next =>
        simp only [finddir, hfind, map_some] at heq
        rw [bind_some]
        by_cases hlink : ns.linkTarget (.other next) ≠ []
        · rw [if_pos hlink] at heq ⊢
          exact hagain _ heq
        · rw [if_neg hlink] at heq ⊢
          exact ih heq

theorem walk_epoll {inst : Nat} (names : List Text) :
    ∀ {dir : Text}, ns.walk pmm again h (.epoll inst) dir names = some (h', some node) → node = .epoll inst := by
  induction names with
  | nil =>
    intro dir heq
    cases heq
    rfl
  | cons token rest ih =>
    intro dir heq
    unfold walk walkBy at heq
    dsimp only at heq
    by_cases hdots : token = dot ∨ token = dotDot
    · rw [if_pos hdots] at heq
      exact ih heq
    · rw [if_neg hdots] at heq
      cases heq

theorem lookupInternal_leaked (hsound : pmm.Sound) (hheap : KernelHeap h) (hnode : node.OnDemand) (depth : Nat) :
    ∀ {path : Text}, ns.lookupInternal pmm depth h path = some (h', some node) →
      ∃ below, ns.below depth path = some below ∧ Leaked below h h' := by
  induction depth with
  | zero =>
    intro path heq
    cases heq
  | succ depth ih =>
    intro path heq
    unfold lookupInternal at heq
    unfold below
    generalize ns.startOf path = start at heq ⊢
    obtain ⟨⟨dir, start⟩, names⟩ := start
    cases start with
    | ext2 fs ino inode => exact ⟨_, rfl, walk_onDemand hsound names hheap (by trivial) heq⟩
    | proc node => exact ⟨_, rfl, walk_onDemand hsound names hheap (by trivial) heq⟩
    | epoll inst =>
      exact absurd (walk_epoll names heq) (by rintro rfl; exact hnode)
    | other id => exact walk_other hnode names (fun path => ih) heq

end NameSpace

/-! ## Opening and closing -/

/-- No epoll instance that the process holds has an entry for that number. -/
def OpenWorld.NoInterest (w : OpenWorld) (fd : Nat) : Prop :=
  ∀ i inst, w.epollAt i = some inst → ∀ entry ∈ w.interest inst, entry.fd ≠ fd

theorem OpenWorld.NoInterest.epollOnFdClose {w : OpenWorld} {fd : Nat} (hquiet : w.NoInterest fd) :
    w.epollOnFdClose fd = w := by
  unfold OpenWorld.epollOnFdClose
  generalize List.range 256 = slots
  induction slots with
  | nil => rfl
  | cons i slots ih =>
    have hturn : (w.epollAt i).elim w (w.dropInterest fd) = w := by
      cases hinst : w.epollAt i with
      | none => rfl
      | some inst =>
        have hnone : (w.interest inst).find? (fun entry => entry.fd = fd) = none :=
          find?_eq_none.mpr fun entry hmem => by simpa using hquiet i inst hinst entry hmem
        show w.dropInterest fd inst = w
        unfold OpenWorld.dropInterest
        rw [hnone]
    rw [foldl_cons, hturn]
    exact ih

namespace NameSpace

variable {ns : NameSpace} {node : VNode} {path : Text} {flags : BitVec 32} {w w1 w2 : OpenWorld} {fd f : Nat}

def installed (w : OpenWorld) (h : Heap) (node : VNode) (flags : BitVec 32) (fd f : Nat) : OpenWorld where
  heap := h
  files := Function.update w.files f ⟨node, flags, 1⟩
  fds := Function.update w.fds fd (some f)
  cloexec := Function.update w.cloexec fd (flags &&& 0x80000 ≠ 0)
  interest := w.interest

theorem installFd_some {clone : Option Nat} (heq : installFd pmm w node flags clone = some (w1, (fd : Int))) :
    ∃ h f, w.freeFd = some fd ∧ w.heap.kzalloc (pmm w.heap) 24 = some (h, some f) ∧
      w1 = installed w h node flags fd f := by
  unfold installFd at heq
  split at heq
  · have := (Prod.mk.inj (some.inj heq)).2
    omega
  · rename_i slot hslot
    split at heq
    · cases heq
    · cases heq
    · rename_i h f hgot
      obtain ⟨rfl, hfd⟩ := Prod.mk.inj (some.inj heq)
      obtain rfl : slot = fd := by omega
      exact ⟨h, f, hslot, hgot, rfl⟩

theorem openLookup_ok (hnode : node.OnDemand) (heq : ns.openLookup pmm h full = some (h', .ok node)) :
    ns.vfsLookup pmm h full = some (h', some node) := by
  unfold openLookup at heq
  split at heq
  · cases hctty : ns.ctty with
    | none =>
      rw [hctty] at heq
      cases heq
    | some id =>
      rw [hctty] at heq
      cases heq
      exact hnode.elim
  · obtain ⟨⟨h1, found⟩, hfind, hpair⟩ := map_eq_some_iff.mp heq
    cases found with
    | none => cases hpair
    | some node' =>
      cases hpair
      exact hfind

theorem openLookup_error {e : Int} (heq : ns.openLookup pmm h full = some (h', .error e)) : e < 0 := by
  unfold openLookup at heq
  split at heq
  · cases hctty : ns.ctty with
    | none =>
      rw [hctty] at heq
      cases heq
      decide
    | some id =>
      rw [hctty] at heq
      cases heq
  · obtain ⟨⟨h1, found⟩, -, hpair⟩ := map_eq_some_iff.mp heq
    cases found with
    | none =>
      cases hpair
      decide
    | some node => cases hpair

theorem openNode_onDemand (hnode : node.OnDemand) : ns.openNode flags h node = some (0, h, none) := by
  cases node with
  | ext2 fs ino inode => rfl
  | proc node => rfl
  | epoll inst => exact hnode.elim
  | other id => exact hnode.elim

theorem sysOpen_onDemand (hsound : pmm.Sound) (hheap : KernelHeap w.heap)
    (hopen : ns.sysOpen pmm path flags w = some (w1, (fd : Int))) (hfile : w1.fds fd = some f)
    (hkind : (w1.files f).node.OnDemand) :
    ∃ below h h1 node, ns.below 17 (vfsResolvePath ns.cwd path) = some below ∧ Leaked below w.heap h ∧
      w.freeFd = some fd ∧ h.kzalloc (pmm h) 24 = some (h1, some f) ∧ node.OnDemand ∧
      w1 = installed w h1 node flags fd f := by
  -- an error code is not a descriptor
  have herror : ∀ {v : OpenWorld} {e : Int}, e < 0 → some (v, e) ≠ some (w1, (fd : Int)) := by
    intro v e he heq
    have := (Prod.mk.inj (some.inj heq)).2
    omega
  unfold sysOpen at hopen
  split at hopen
  · cases hopen
  · rename_i h e hlook
    exact absurd hopen (herror (openLookup_error hlook))
  · rename_i h node hlook
    split at hopen
    · exact absurd hopen (herror (by decide))
    split at hopen
    · split at hopen
      · cases hopen
      · rename_i r h2 clone hop
        split at hopen
        · rename_i hr
          exact absurd hopen (herror hr)
        · obtain ⟨h1, f', hslot, hgot, rfl⟩ := installFd_some hopen
          obtain rfl : f' = f := by simpa [installed] using hfile
          have hnode : node.OnDemand := by simpa [installed] using hkind
          rw [openNode_onDemand hnode] at hop
          cases hop
          obtain ⟨below, hbelow, hleaked⟩ := lookupInternal_leaked hsound hheap hnode 17 (openLookup_ok hnode hlook)
          exact ⟨below, h, h1, node, hbelow, hleaked, hslot, hgot, hnode, rfl⟩
    · exact absurd hopen (herror (by decide))

theorem sysClose_installed (ns : NameSpace) (hnode : node.OnDemand) (hfd : fd < 256) (hf : kernelBase ≤ f)
    (hquiet : (installed w h node flags fd f).NoInterest fd) :
    (ns.sysClose fd (installed w h node flags fd f)).1.heap = h.kfree (some f) := by
  have hent : (installed w h node flags fd f).fds fd = some f := by simp [installed]
  unfold sysClose
  rw [if_neg (by rw [hent]; simp; omega), hquiet.epollOnFdClose]
  simp only [hent]
  unfold fdRelease
  rw [if_neg (by omega)]
  cases node with
  | ext2 fs ino inode => simp [installed]
  | proc node => simp [installed]
  | epoll inst => exact hnode.elim
  | other id => exact hnode.elim

/-- The new descriptor is not an epoll instance, so the numbers of interest are those there were. -/
theorem noInterest_installed (hnode : node.OnDemand) (hquiet : w.NoInterest fd) :
    (installed w h node flags fd f).NoInterest fd := by
  intro i inst hinst
  apply hquiet i inst
  unfold OpenWorld.epollAt at hinst ⊢
  obtain ⟨ptr, hptr, hkind⟩ := bind_eq_some_iff.mp hinst
  -- at the address of the new file there is no epoll instance
  have hold : ptr ≠ f := by
    rintro rfl
    simp only [installed, update_self] at hkind
    cases node with
    | ext2 fs ino inode => cases hkind
    | proc node => cases hkind
    | epoll inst => exact hnode
    | other id => exact hnode
  have hi : i ≠ fd := by
    rintro rfl
    simp only [installed, update_self] at hptr
    exact hold (some.inj hptr).symm
  simp only [installed, update_of_ne hi] at hptr
  simp only [installed, update_of_ne hold] at hkind
  rw [hptr]
  exact hkind

end NameSpace

/-- **One turn.** `path`, a file or directory on ext2 or procfs, is opened for reading, and the descriptor is closed.
The page allocator may be any sound one, and no epoll instance has an entry for the number that is free. -/
inductive Reopened (ns : NameSpace) (path : Text) (flags : BitVec 32) : OpenWorld → OpenWorld → Prop
  | intro {pmm : PageSource} {w w1 w2 : OpenWorld} {fd f : Nat} (sound : pmm.Sound) (reading : flags &&& 3 = 0)
    (quiet : ∀ free, w.freeFd = some free → w.NoInterest free)
    (opened : ns.sysOpen pmm path flags w = some (w1, (fd : Int))) (file : w1.fds fd = some f)
    (kind : (w1.files f).node.OnDemand) (closed : (w2, 0) = ns.sysClose fd w1) : Reopened ns path flags w w2

inductive ReopenedTimes (ns : NameSpace) (path : Text) (flags : BitVec 32) : Nat → OpenWorld → OpenWorld → Prop
  | zero (w : OpenWorld) : ReopenedTimes ns path flags 0 w w
  | succ {n : Nat} {w w1 w2 : OpenWorld} : ReopenedTimes ns path flags n w w1 → Reopened ns path flags w1 w2 →
      ReopenedTimes ns path flags (n + 1) w w2

variable {ns : NameSpace} {path : Text} {flags : BitVec 32} {w w' : OpenWorld}

theorem Reopened.leaked (hheap : KernelHeap w.heap) (hturn : Reopened ns path flags w w') :
    KernelHeap w'.heap ∧ ∃ below, ns.below 17 (vfsResolvePath ns.cwd path) = some below ∧
      w.heap.allocated.toNat + 200 * below.length ≤ w'.heap.allocated.toNat ∧
      (below = [] → w'.heap.allocated = w.heap.allocated) := by
  obtain @⟨pmm, _, w1, _, fd, f, hsound, -, hquiet, hopen, hfile, hkind, hclose⟩ := hturn
  obtain ⟨below, h, h1, node, hbelow, ⟨hheap1, hgrows, hsame⟩, hslot, hgot, hnode, rfl⟩ :=
    NameSpace.sysOpen_onDemand hsound hheap hopen hfile hkind
  have hfd : fd < 256 := mem_range.mp (mem_of_find?_eq_some hslot)
  have hf := (hheap1.kzalloc hsound (by decide) hgot).2.2 f rfl
  obtain ⟨hheap2, hcount⟩ := hheap1.kfree_kzalloc hsound (by decide) hgot
  have hshut : w'.heap = h1.kfree (some f) := by
    rw [show w' = _ from congrArg Prod.fst hclose]
    exact NameSpace.sysClose_installed ns hnode hfd hf (NameSpace.noInterest_installed hnode (hquiet fd hslot))
  rw [hshut, hcount]
  exact ⟨hheap2, below, hbelow, hgrows, fun hnil => by rw [hsame hnil]⟩

/-- **Any number of turns.** The count stays for the root of a mount, and else grows with each turn. -/
theorem ReopenedTimes.leaked {n : Nat} (hheap : KernelHeap w.heap) (hturns : ReopenedTimes ns path flags n w w') :
    KernelHeap w'.heap ∧ (ns.NamesMount path → w'.heap.allocated = w.heap.allocated) ∧
      (¬ ns.NamesMount path → w.heap.allocated.toNat + 200 * n ≤ w'.heap.allocated.toNat) := by
  induction hturns with
  | zero w => exact ⟨hheap, fun _ => rfl, fun _ => Nat.le_refl _⟩
  | succ _ hturn ih =>
    obtain ⟨hheap1, hmount, hbelow⟩ := ih hheap
    obtain ⟨hheap2, below, hname, hgrows, hsame⟩ := hturn.leaked hheap1
    refine ⟨hheap2, fun hroot => ?_, fun hnot => ?_⟩
    · have hnil : below = [] := some.inj (hname.symm.trans hroot)
      rw [hsame hnil, hmount hroot]
    · have hpos : below ≠ [] := fun hnil => hnot (by unfold NameSpace.NamesMount; rw [hname, hnil])
      have := length_pos_iff.mpr hpos
      have := hbelow hnot
      omega

/-- **Opening and closing leaks exactly below the root of a mount.** However often a path on ext2 or procfs is opened
and closed again, the number of allocated bytes is what it was if and only if that was not done at all or the path leads
to the root of the mount. -/
theorem open_close_leaks_nothing_iff (ns : NameSpace) (path : Text) (flags : BitVec 32) (n : Nat) (w w' : OpenWorld)
    (hheap : KernelHeap w.heap) (hturns : ReopenedTimes ns path flags n w w') :
    w'.heap.allocated = w.heap.allocated ↔ n = 0 ∨ ns.NamesMount path := by
  obtain ⟨-, hmount, hgrows⟩ := hturns.leaked hheap
  constructor
  · intro heq
    by_contra hnot
    rw [not_or] at hnot
    have := hgrows hnot.2
    rw [heq] at this
    omega
  · rintro (rfl | hroot)
    · cases hturns
      rfl
    · exact hmount hroot

/-! ## `/proc/version` -/

/-- procfs at `/proc`, and nothing else. -/
def procOnly : NameSpace where
  root := .other 0
  mounts := [(ascii "/proc", .proc .root)]
  cwd := [slash]
  procs := ⟨some 1, fun pid => pid = 1⟩
  caller := ⟨0, 0, []⟩
  ctty := none
  findOther := fun _ _ => none
  nodeOther := fun _ => ⟨[], .directory, [], [], 0o755, 0, 0⟩
  openOther := fun _ _ h => some (0, h, none)
  closeOther := fun _ _ h => h

def versionPath : Text := ascii "/proc/version"

def noPages : PageSource := fun _ _ => none

theorem noPages_sound : noPages.Sound := by
  intro h bs ranges n virt _ hpage
  cases hpage

def highPage : Nat := 0xffff800000001000

/-- The page allocator during `heap_init`. -/
def highPages : Nat → Option Nat := fun _ => some highPage

def onePageHeap : Heap := (Heap.empty fun _ => 0).heapExpand highPages 4064

theorem onePageHeap_kernel : KernelHeap onePageHeap := by
  have hemp : (Heap.empty fun _ => 0).Ok [] [] := (HeapWorld.start_ok fun _ => 0).heap
  have hnew : Heap.Fresh [] ⟨highPage, Heap.pagesFor 4064 * 4096⟩ := by
    exact ⟨by decide, by decide, by decide, fun r hr => absurd hr not_mem_nil⟩
  have hpage : highPages (Heap.pagesFor 4064) = some highPage := rfl
  obtain ⟨hok, -⟩ := hemp.heapExpand_some (by decide) hpage hnew
  refine ⟨_, _, hok, fun r hr => ?_⟩
  rw [mem_singleton.mp hr]
  decide

def freshWorld : OpenWorld := ⟨onePageHeap, fun _ => ⟨.other 0, 0, 0⟩, fun _ => none, fun _ => false, fun _ => []⟩

/-- Number 0 names the version file. -/
def openedVersion : OpenWorld := ((procOnly.sysOpen noPages versionPath 0 freshWorld).getD (freshWorld, 0)).1

def closedVersion : OpenWorld := (procOnly.sysClose 0 openedVersion).1

/-- The node, its data and the descriptor come from the front of the page, one after the other. -/
theorem reopened_version : Reopened procOnly versionPath 0 freshWorld closedVersion := by
  have hnum : (procOnly.sysOpen noPages versionPath 0 freshWorld).map Prod.snd = some 0 := by decide +kernel
  obtain ⟨⟨w, r⟩, hopen, rfl⟩ := map_eq_some_iff.mp hnum
  have hw : w = openedVersion := by
    unfold openedVersion
    rw [hopen]
    rfl
  subst hw
  have hfile : openedVersion.fds 0 = some (highPage + 320) := by decide +kernel
  have hnode : (openedVersion.files (highPage + 320)).node.OnDemand := by decide +kernel
  have hclose : (procOnly.sysClose 0 openedVersion).2 = 0 := by decide +kernel
  exact .intro noPages_sound (by decide) (fun fd _ i inst hinst => by cases hinst) hopen hfile hnode
    (Prod.ext rfl hclose.symm)

/-- Reading `/proc/version` once costs memory for good. -/
theorem open_close_leaks_version : ∃ w w', KernelHeap w.heap ∧ Reopened procOnly versionPath 0 w w' ∧
    w'.heap.allocated ≠ w.heap.allocated :=
  ⟨freshWorld, closedVersion, onePageHeap_kernel, reopened_version, by decide +kernel⟩

/-- The theorem at that turn. -/
theorem open_close_leaks_nothing_iff_version : ∃ w w', KernelHeap w.heap ∧ ReopenedTimes procOnly versionPath 0 1 w w' ∧
    (w'.heap.allocated = w.heap.allocated ↔ 1 = 0 ∨ procOnly.NamesMount versionPath) := by
  have hturns := (ReopenedTimes.zero freshWorld).succ reopened_version
  exact ⟨freshWorld, closedVersion, onePageHeap_kernel, hturns,
    open_close_leaks_nothing_iff procOnly versionPath 0 1 freshWorld closedVersion onePageHeap_kernel hturns⟩

end SzpontOS.Fs
