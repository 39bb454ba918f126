import SzpontOS.Ipc.ShmPages

/-!
# Segments, slots and page tables

The world of the shared memory calls: the segment table and any number of processes, each with its slots and its address
space. `ShmWorld.Base` ties them together: a page borrowed from a frame of a segment is covered by an active slot of the
process. Each change that a call makes has one lemma here.
-/

namespace SzpontOS.Ipc

open Lib Lib.Radix Mm Syscall Function Set Finset

/-! ## Worlds -/

/-- Where a process is in its life: `exiting k` is in the loop of `shm_process_exit`, before slot `k`. -/
inductive Phase where
  | running
  | exiting (k : Nat)
  | zombie
  deriving DecidableEq

def Phase.past : Phase → Nat
  | .running => 0
  | .exiting k => k
  | .zombie => maxProcShm

structure ShmTask where
  proc : ShmProc
  phase : Phase

structure ShmWorld extends Shm where
  tasks : Nat → Option ShmTask

inductive ShmCall where
  | get (pid : Nat) (key : BitVec 32) (size : Nat) (shmflg : BitVec 32) (now : Nat)
  | attach (pid : Nat) (shmid : BitVec 32) (shmaddr now : Nat)
  | detach (pid shmaddr now : Nat)
  | ctl (pid : Nat) (shmid : BitVec 32) (cmd : ShmCmd) (now : Nat)
  | munmap (pid addr length : Nat)
  | mprotect (pid addr len : Nat) (prot : BitVec 32)
  | fork (pid child : Nat)
  | exit (pid : Nat)
  | exitSlot (pid now : Nat)
  | reap (pid : Nat)

/-- `sys_fork` as far as address spaces and slots go: `process_create` makes an empty address space, which
the copy of the parent's replaces. The slots of the child are those of `kzalloc`. -/
def shmFork (sh : Shm) (parent : ShmProc) (child : Nat) : Shm × Option ShmProc :=
  match sh.machine.kmalloc with
  | (false, s) => ({ sh with machine := s }, none)
  | (true, s) =>
    match vmmCreateAddressSpace s with
    | (none, s) => ({ sh with machine := s }, none)
    | (some old, s) =>
      match vmmCloneAddressSpace s parent.map with
      | (none, s) => ({ sh with machine := vmmDestroyAddressSpace s old }, none)
      | (some map, s) => ({ sh with machine := vmmDestroyAddressSpace s old },
          some { parent with pid := child, map := map, shmMappings := fun _ => ⟨0, 0, 0, false⟩ })

variable {j : Nat} {s : Machine} {ext : Set Nat} {o : Option ShmTask}

namespace ShmWorld

def setTask (w : ShmWorld) (pid : Nat) (t : Option ShmTask) : ShmWorld :=
  { w with tasks := Function.update w.tasks pid t }

def setShm (w : ShmWorld) (sh : Shm) : ShmWorld := { w with toShm := sh }

/-- The log of freed pages starts anew with each call. -/
def settle (w : ShmWorld) : ShmWorld := { w with machine := { w.machine with freed := [] } }

def onRunning (w : ShmWorld) (pid : Nat) (f : ShmProc → Shm × ShmProc) : ShmWorld :=
  match w.tasks pid with
  | some ⟨proc, .running⟩ => (w.setShm (f proc).1).setTask pid (some ⟨(f proc).2, .running⟩)
  | _ => w

def perform (w : ShmWorld) : ShmCall → ShmWorld
  | .get pid key size shmflg now =>
    w.onRunning pid fun proc => ((shmGet w.toShm proc key size shmflg now).2, proc)
  | .attach pid shmid shmaddr now => w.onRunning pid fun proc => (shmAt w.toShm proc shmid shmaddr now).2
  | .detach pid shmaddr now => w.onRunning pid fun proc => (shmDt w.toShm proc shmaddr now).2
  | .ctl pid shmid cmd now => w.onRunning pid fun proc => ((shmCtl w.toShm shmid cmd now).2.2, proc)
  | .munmap pid addr length => w.onRunning pid fun proc =>
      ({ w.toShm with machine := (sysMunmap ⟨w.machine, proc.map, proc.mmapCurrent⟩ addr length).2.machine }, proc)
  | .mprotect pid addr len prot => w.onRunning pid fun proc =>
      ({ w.toShm with machine := (sysMprotect ⟨w.machine, proc.map, proc.mmapCurrent⟩ addr len prot).2.machine }, proc)
  | .fork pid child =>
    match w.tasks pid, w.tasks child with
    | some ⟨proc, .running⟩, none =>
      match shmFork w.toShm proc child with
      | (sh, none) => w.setShm sh
      | (sh, some new) => (w.setShm sh).setTask child (some ⟨new, .running⟩)
    | _, _ => w
  | .exit pid =>
    match w.tasks pid with
    | some ⟨proc, .running⟩ => w.setTask pid (some ⟨proc, .exiting 0⟩)
    | _ => w
  | .exitSlot pid now =>
    match w.tasks pid with
    | some ⟨proc, .exiting k⟩ =>
      if k < maxProcShm then
        let st := shmExitSlot now (w.toShm, proc) k
        (w.setShm st.1).setTask pid (some ⟨st.2, .exiting (k + 1)⟩)
      else w.setTask pid (some ⟨proc, .zombie⟩)
    | _ => w
  | .reap pid =>
    match w.tasks pid with
    | some ⟨proc, .zombie⟩ =>
      (w.setShm { w.toShm with machine := vmmDestroyAddressSpace w.machine proc.map }).setTask pid none
    | _ => w

def step (w : ShmWorld) (call : ShmCall) : ShmWorld := w.settle.perform call

/-! ## The invariant -/

def roots (w : ShmWorld) : Set Nat := { r | ∃ pid t, w.tasks pid = some t ∧ t.proc.map.pml4Phys = r }

def Allocated (w : ShmWorld) (i : Nat) : Prop := i < maxShmSegments ∧ (w.segments i).allocated = true

theorem Allocated.ne_of_free {w : ShmWorld} {i : Nat} (hj : w.Allocated j) (hfree : (w.segments i).allocated = false) :
    j ≠ i := by
  intro hji
  have := hj.2
  rw [hji, hfree] at this
  simp at this

def frames (w : ShmWorld) : Set Nat := { x | ∃ i, w.Allocated i ∧ x ∈ frameSet (w.segments i).physPages }

/-- Page `n` is covered by slot `k` of the process: it shows the frame of its place in the segment. -/
def Covers (w : ShmWorld) (proc : ShmProc) (k n a : Nat) : Prop :=
  k < maxProcShm ∧ (proc.shmMappings k).active = true ∧ ∃ i, w.Allocated i ∧
    (w.segments i).shmid = (proc.shmMappings k).shmid ∧ ∃ j, j < (w.segments i).numPages ∧
      n * 4096 = (proc.shmMappings k).vaddr + j * 4096 ∧ (w.segments i).physPages.getD j 0 = a

/-- A slot that is in use belongs to a segment that calls can name, and names a range of user pages. -/
def SlotOk (w : ShmWorld) (mapping : ShmMapping) : Prop :=
  ∃ i, w.Allocated i ∧ (w.segments i).shmid = mapping.shmid ∧ mapping.shmid.toNat < 2 ^ 31 ∧
    mapping.vaddr % 4096 = 0 ∧ vmmUserRange mapping.vaddr ((w.segments i).numPages * 4096) = true

/-- No slot in use names the identifier. -/
def Unnamed (w : ShmWorld) (id : BitVec 32) : Prop :=
  ∀ pid t k, w.tasks pid = some t → k < maxProcShm → (t.proc.shmMappings k).active = true →
    (t.proc.shmMappings k).shmid ≠ id

/-- The segments whose identifier came after `INT_MAX`; no call can name them. -/
def stale (w : ShmWorld) : Finset Nat :=
  (Finset.range maxShmSegments).filter fun i => (w.segments i).allocated = true ∧ 2 ^ 31 ≤ (w.segments i).shmid.toNat

/-- What ties segments, slots and page tables together. `lent` are the frames that devices have lent. -/
structure Base (lent : Set Nat) (w : ShmWorld) : Prop where
  family : ∃ ext, Family w.machine w.roots ext (lent ∪ w.frames)
  finite : { pid | w.tasks pid ≠ none }.Finite
  user : ∀ pid t, w.tasks pid = some t → t.proc.map.isKernel = false
  apart : ∀ pid pid' t t', w.tasks pid = some t → w.tasks pid' = some t' →
    t.proc.map.pml4Phys = t'.proc.map.pml4Phys → pid = pid'
  length : ∀ i, w.Allocated i → (w.segments i).physPages.length = (w.segments i).numPages
  pages : ∀ i, w.Allocated i → FreshPages w.machine.pmm.totalPages lent (w.segments i).physPages
  disjoint : ∀ i j, w.Allocated i → w.Allocated j → i ≠ j →
    ∀ x ∈ frameSet (w.segments i).physPages, x ∉ frameSet (w.segments j).physPages
  distinct : ∀ i j, w.Allocated i → w.Allocated j → (w.segments i).shmid = (w.segments j).shmid → i = j
  issued : ∀ i, w.Allocated i → 0 < (w.segments i).shmid.toNat ∧ (w.segments i).shmid.toNat < w.nextShmid.toNat
  next_pos : 0 < w.nextShmid.toNat
  next : w.nextShmid.toNat ≤ 2 ^ 31 + w.stale.card
  slots : ∀ pid t k, w.tasks pid = some t → k < maxProcShm → (t.proc.shmMappings k).active = true →
    w.SlotOk (t.proc.shmMappings k)
  past : ∀ pid t k, w.tasks pid = some t → k < t.phase.past → (t.proc.shmMappings k).active = false
  cover : ∀ pid t n a, w.tasks pid = some t → n < 2 ^ 35 → Borrows w.machine.mem t.proc.map.pml4Phys n a →
    a / 4096 ∈ w.frames → ∃ k, w.Covers t.proc k n a

variable {lent : Set Nat} {w : ShmWorld} {pid : Nat} {t t' : ShmTask}

theorem mem_roots (ht : w.tasks pid = some t) : t.proc.map.pml4Phys ∈ w.roots := ⟨pid, t, ht, rfl⟩

/-! ## Changing one thing at a time -/

def setMachine (w : ShmWorld) (s : Machine) : ShmWorld := { w with machine := s }

def setSegments (w : ShmWorld) (segments : Nat → Segment) : ShmWorld := { w with segments := segments }

theorem Base.setMachine_cover (h : Base lent w) (hfam : Family s w.roots ext (lent ∪ w.frames))
    (htot : s.pmm.totalPages = w.machine.pmm.totalPages)
    (hcov : ∀ pid t n a, w.tasks pid = some t → n < 2 ^ 35 → Borrows s.mem t.proc.map.pml4Phys n a →
      a / 4096 ∈ w.frames → ∃ k, w.Covers t.proc k n a) : Base lent (w.setMachine s) := by
  refine { h with family := ⟨ext, hfam⟩, pages := fun i hi => ?_, cover := hcov }
  show FreshPages s.pmm.totalPages lent _
  rw [htot]
  exact h.pages i hi

theorem Base.setMachine (h : Base lent w) (hs : Fewer w.machine s w.roots ext (lent ∪ w.frames)) :
    Base lent (w.setMachine s) :=
  h.setMachine_cover hs.family hs.total fun pid t n a ht hn hb hx =>
    h.cover pid t n a ht hn (hs.less _ (mem_roots ht) n hn a hb) hx

theorem tasks_setTask_self (w : ShmWorld) (pid : Nat) (o : Option ShmTask) : (w.setTask pid o).tasks pid = o :=
  update_self ..

theorem tasks_setTask_ne {pid' : Nat} (hne : pid' ≠ pid) : (w.setTask pid o).tasks pid' = w.tasks pid' :=
  update_of_ne hne ..

theorem tasks_setTask_cases {pid' : Nat} (ht : (w.setTask pid o).tasks pid' = some t) :
    pid' = pid ∧ o = some t ∨ pid' ≠ pid ∧ w.tasks pid' = some t := by
  by_cases hpid : pid' = pid
  · rw [hpid, tasks_setTask_self] at ht
    exact .inl ⟨hpid, ht⟩
  · rw [tasks_setTask_ne hpid] at ht
    exact .inr ⟨hpid, ht⟩

theorem setTask_eq_self (ho : w.tasks pid = o) : w.setTask pid o = w := by
  rw [setTask, ← ho, update_eq_self]

theorem roots_setTask (ht : w.tasks pid = some t) (hmap : t'.proc.map = t.proc.map) :
    (w.setTask pid (some t')).roots = w.roots := by
  ext r
  constructor
  · intro ⟨pid', u, hu, hr⟩
    rcases tasks_setTask_cases hu with ⟨-, hu⟩ | ⟨-, hu⟩
    · rw [← Option.some.inj hu, hmap] at hr
      exact ⟨pid, t, ht, hr⟩
    · exact ⟨pid', u, hu, hr⟩
  · intro ⟨pid', u, hu, hr⟩
    by_cases hpid : pid' = pid
    · rw [hpid, ht, Option.some.injEq] at hu
      refine ⟨pid, t', tasks_setTask_self .., ?_⟩
      rw [hmap, hu]
      exact hr
    · exact ⟨pid', u, (tasks_setTask_ne hpid).trans hu, hr⟩

/-- **A process comes, changes or goes**, and the pages that the others borrow at most go. -/
theorem Base.replaceTask (h : Base lent w) (hfam : Family s ((w.setMachine s).setTask pid o).roots ext (lent ∪ w.frames))
    (hless : BorrowsLess w.machine.mem s.mem w.roots) (htot : s.pmm.totalPages = w.machine.pmm.totalPages)
    (hnew : ∀ t, o = some t → t.proc.map.isKernel = false ∧
      (∀ pid' u, pid' ≠ pid → w.tasks pid' = some u → u.proc.map.pml4Phys ≠ t.proc.map.pml4Phys) ∧
      (∀ k, k < maxProcShm → (t.proc.shmMappings k).active = true → w.SlotOk (t.proc.shmMappings k)) ∧
      (∀ k, k < t.phase.past → (t.proc.shmMappings k).active = false) ∧
      ∀ n a, n < 2 ^ 35 → Borrows s.mem t.proc.map.pml4Phys n a → a / 4096 ∈ w.frames → ∃ k, w.Covers t.proc k n a) :
    Base lent ((w.setMachine s).setTask pid o) := by
  have hcase : ∀ {pid' u}, ((w.setMachine s).setTask pid o).tasks pid' = some u →
      pid' = pid ∧ o = some u ∨ pid' ≠ pid ∧ w.tasks pid' = some u := tasks_setTask_cases
  refine ⟨⟨ext, hfam⟩, ?_, fun pid' u hu => ?_, fun p1 p2 t1 t2 h1 h2 heq => ?_, h.length, fun i hi => ?_, h.disjoint,
    h.distinct, h.issued, h.next_pos, h.next, fun pid' u k hu => ?_, fun pid' u k hu => ?_,
    fun pid' u n a hu hn hb hx => ?_⟩
  · apply (h.finite.insert pid).subset
    intro pid' hpid'
    obtain ⟨u, hu⟩ := Option.ne_none_iff_exists'.mp hpid'
    rcases hcase hu with ⟨hpid, -⟩ | ⟨-, hu⟩
    · exact .inl hpid
    · exact .inr (by simp [hu])
  · rcases hcase hu with ⟨-, ho⟩ | ⟨-, hu⟩
    · exact (hnew u ho).1
    · exact h.user pid' u hu
  · rcases hcase h1 with ⟨hp1, ho1⟩ | ⟨hp1, hw1⟩ <;> rcases hcase h2 with ⟨hp2, ho2⟩ | ⟨hp2, hw2⟩
    · rw [hp1, hp2]
    · exact absurd heq.symm ((hnew t1 ho1).2.1 p2 t2 hp2 hw2)
    · exact absurd heq ((hnew t2 ho2).2.1 p1 t1 hp1 hw1)
    · exact h.apart p1 p2 t1 t2 hw1 hw2 heq
  · show FreshPages s.pmm.totalPages lent _
    rw [htot]
    exact h.pages i hi
  · rcases hcase hu with ⟨-, ho⟩ | ⟨-, hu⟩
    · exact (hnew u ho).2.2.1 k
    · exact h.slots pid' u k hu
  · rcases hcase hu with ⟨-, ho⟩ | ⟨-, hu⟩
    · exact (hnew u ho).2.2.2.1 k
    · exact h.past pid' u k hu
  · rcases hcase hu with ⟨-, ho⟩ | ⟨-, hu⟩
    · exact (hnew u ho).2.2.2.2 n a hn hb hx
    · exact h.cover pid' u n a hu hn (hless _ (mem_roots hu) n hn a hb) hx

theorem Base.setTask (h : Base lent w) (ht : w.tasks pid = some t) (hmap : t'.proc.map = t.proc.map)
    (hslot : ∀ k, k < maxProcShm → (t'.proc.shmMappings k).active = true → w.SlotOk (t'.proc.shmMappings k))
    (hpast : ∀ k, k < t'.phase.past → (t'.proc.shmMappings k).active = false)
    (hcov : ∀ n a, n < 2 ^ 35 → Borrows w.machine.mem t.proc.map.pml4Phys n a → a / 4096 ∈ w.frames →
      ∃ k, w.Covers t'.proc k n a) : Base lent (w.setTask pid (some t')) := by
  obtain ⟨ext, hfam⟩ := h.family
  rw [← roots_setTask ht hmap] at hfam
  refine h.replaceTask (s := w.machine) hfam (fun _ _ _ _ _ hb => hb) rfl fun u hu => ?_
  obtain rfl := Option.some.inj hu
  rw [hmap]
  exact ⟨h.user pid t ht, fun pid' u hpid hu heq => hpid (h.apart pid' pid u t hu ht heq), hslot, hpast, hcov⟩

/-- The parts of a segment that others rely on. -/
structure SameSegment (seg seg' : Segment) : Prop where
  shmid : seg'.shmid = seg.shmid
  numPages : seg'.numPages = seg.numPages
  physPages : seg'.physPages = seg.physPages
  allocated : seg'.allocated = seg.allocated

theorem SameSegment.refl (seg : Segment) : SameSegment seg seg := ⟨rfl, rfl, rfl, rfl⟩

theorem Base.restrict {w' : ShmWorld} (h : Base lent w) (htasks : w'.tasks = w.tasks) (hnext : w'.nextShmid = w.nextShmid)
    (hfam : ∃ ext, Family w'.machine w.roots ext (lent ∪ w'.frames)) (hmem : w'.machine.mem = w.machine.mem)
    (htot : w'.machine.pmm.totalPages = w.machine.pmm.totalPages)
    (hsub : ∀ i, w'.Allocated i → w.Allocated i ∧ SameSegment (w.segments i) (w'.segments i)) (hstale : w'.stale = w.stale)
    (hused : ∀ pid t k i, w.tasks pid = some t → k < maxProcShm → (t.proc.shmMappings k).active = true →
      w.Allocated i → (w.segments i).shmid = (t.proc.shmMappings k).shmid → w'.Allocated i) : Base lent w' := by
  have hroot : w'.roots = w.roots := by
    unfold roots
    rw [htasks]
  have hframe : ∀ x ∈ w'.frames, x ∈ w.frames := by
    intro x ⟨i, hi, hx⟩
    rw [(hsub i hi).2.physPages] at hx
    exact ⟨i, (hsub i hi).1, hx⟩
  refine ⟨by rwa [hroot], ?_, ?_, ?_, fun i hi => ?_, fun i hi => ?_, fun i j hi hj hne => ?_, fun i j hi hj heq => ?_,
    fun i hi => ?_, ?_, ?_, ?_, ?_, ?_⟩
  all_goals try rw [htasks]
  · exact h.finite
  · exact h.user
  · exact h.apart
  · rw [(hsub i hi).2.physPages, (hsub i hi).2.numPages]
    exact h.length i (hsub i hi).1
  · rw [(hsub i hi).2.physPages, htot]
    exact h.pages i (hsub i hi).1
  · rw [(hsub i hi).2.physPages, (hsub j hj).2.physPages]
    exact h.disjoint i j (hsub i hi).1 (hsub j hj).1 hne
  · rw [(hsub i hi).2.shmid, (hsub j hj).2.shmid] at heq
    exact h.distinct i j (hsub i hi).1 (hsub j hj).1 heq
  · rw [(hsub i hi).2.shmid, hnext]
    exact h.issued i (hsub i hi).1
  · rw [hnext]
    exact h.next_pos
  · rw [hnext, hstale]
    exact h.next
  · intro pid t k ht hk hact
    obtain ⟨i, hi, hid, hlow, halign, huser⟩ := h.slots pid t k ht hk hact
    have hi' := hused pid t k i ht hk hact hi hid
    refine ⟨i, hi', (hsub i hi').2.shmid.trans hid, hlow, halign, ?_⟩
    rw [(hsub i hi').2.numPages]
    exact huser
  · exact h.past
  · intro pid t n a ht hn hb hx
    rw [hmem] at hb
    obtain ⟨k, hk, hact, i, hi, hid, hrest⟩ := h.cover pid t n a ht hn hb (hframe _ hx)
    have hi' := hused pid t k i ht hk hact hi hid
    refine ⟨k, hk, hact, i, hi', (hsub i hi').2.shmid.trans hid, ?_⟩
    rw [(hsub i hi').2.numPages, (hsub i hi').2.physPages]
    exact hrest

section Same

variable {segs : Nat → Segment} (hsame : ∀ i, SameSegment (w.segments i) (segs i))

include hsame

theorem allocated_congr (i : Nat) : (w.setSegments segs).Allocated i ↔ w.Allocated i := by
  unfold Allocated
  rw [show (w.setSegments segs).segments i = segs i from rfl, (hsame i).allocated]

theorem frames_congr : (w.setSegments segs).frames = w.frames := by
  ext x
  constructor
  · intro ⟨i, hi, hx⟩
    refine ⟨i, (allocated_congr hsame i).mp hi, ?_⟩
    rw [← (hsame i).physPages]
    exact hx
  · intro ⟨i, hi, hx⟩
    refine ⟨i, (allocated_congr hsame i).mpr hi, ?_⟩
    rw [← (hsame i).physPages] at hx
    exact hx

theorem stale_congr : (w.setSegments segs).stale = w.stale := by
  apply filter_congr
  intro i _
  rw [show (w.setSegments segs).segments i = segs i from rfl, (hsame i).allocated, (hsame i).shmid]

theorem Base.setSegments (h : Base lent w) : Base lent (w.setSegments segs) := by
  refine h.restrict rfl rfl ?_ rfl rfl
    (fun i hi => ⟨(allocated_congr hsame i).mp hi, hsame i⟩) (stale_congr hsame)
    fun _ _ _ i _ _ _ hi _ => (allocated_congr hsame i).mpr hi
  rw [frames_congr hsame]
  exact h.family

end Same

/-! ## Segments come and go -/

theorem maxShmSegments_eq : maxShmSegments = 128 := by
  unfold maxShmSegments
  rfl

section End

variable {i : Nat}

theorem segments_freeSegment (j : Nat) :
    (w.setShm (w.toShm.freeSegment i)).segments j = if j = i then Segment.zero else w.segments j :=
  update_apply ..

theorem allocated_freeSegment : (w.setShm (w.toShm.freeSegment i)).Allocated j ↔ w.Allocated j ∧ j ≠ i := by
  unfold Allocated
  rw [segments_freeSegment]
  split_ifs with hji
  · simp [Segment.zero, hji]
  · simp [hji]

theorem frames_freeSegment (h : Base lent w) (hi : w.Allocated i) :
    (w.setShm (w.toShm.freeSegment i)).frames = w.frames \ frameSet (w.segments i).physPages := by
  ext x
  constructor
  · intro ⟨j, hj, hx⟩
    obtain ⟨hj, hne⟩ := allocated_freeSegment.mp hj
    rw [segments_freeSegment, if_neg hne] at hx
    exact ⟨⟨j, hj, hx⟩, h.disjoint j i hj hi hne x hx⟩
  · intro ⟨⟨j, hj, hx⟩, hnot⟩
    have hne : j ≠ i := fun hji => hnot (hji ▸ hx)
    refine ⟨j, allocated_freeSegment.mpr ⟨hj, hne⟩, ?_⟩
    rw [segments_freeSegment, if_neg hne]
    exact hx

theorem stale_freeSegment (hid : (w.segments i).shmid.toNat < 2 ^ 31) :
    (w.setShm (w.toShm.freeSegment i)).stale = w.stale := by
  apply filter_congr
  intro j _
  rw [segments_freeSegment]
  split_ifs with hji
  · rw [hji]
    constructor
    · intro hz
      simp [Segment.zero] at hz
    · omega
  · exact Iff.rfl

section

variable (h : Base lent w) (hi : w.Allocated i)

include h hi

theorem machine_freeSegment :
    (w.toShm.freeSegment i).machine = (w.segments i).physPages.foldl Machine.freePage w.machine :=
  shmFreePages_eq _ (h.length i hi) (h.pages i hi).pos

theorem mem_frameSet_getD (hj : j < (w.segments i).numPages) :
    (w.segments i).physPages.getD j 0 ∈ (w.segments i).physPages := by
  rw [← h.length i hi] at hj
  rw [List.getD_eq_getElem _ _ hj]
  exact List.getElem_mem hj

theorem Base.unborrowed (hnone : w.Unnamed (w.segments i).shmid) :
    ∀ r ∈ w.roots, ∀ n, n < 2 ^ 35 → ∀ a, Borrows w.machine.mem r n a → a / 4096 ∉ frameSet (w.segments i).physPages := by
  intro r hr n hn a hb hx
  obtain ⟨pid, t, ht, rfl⟩ := hr
  obtain ⟨k, hk, hact, i', hi', hid, j, hj, -, ha⟩ := h.cover pid t n a ht hn hb ⟨i, hi, hx⟩
  have hx' : a / 4096 ∈ frameSet (w.segments i').physPages := ⟨a, ha ▸ mem_frameSet_getD h hi' hj, rfl⟩
  by_cases heq : i' = i
  · exact hnone pid t k ht hk hact (heq ▸ hid.symm)
  · exact h.disjoint i' i hi' hi heq _ hx' hx

theorem Base.freeFamily (hnone : w.Unnamed (w.segments i).shmid) :
    ∃ ext, Family (w.toShm.freeSegment i).machine w.roots ext (lent ∪ (w.setShm (w.toShm.freeSegment i)).frames) ∧
      ∀ a ∈ (w.segments i).physPages, a / 4096 ∉ ext := by
  obtain ⟨ext, hfam⟩ := h.family
  have hfam' := withdraw hfam (h.unborrowed hi hnone)
  have hpage := h.pages i hi
  have hlent : (lent ∪ w.frames) \ frameSet (w.segments i).physPages =
      lent ∪ (w.setShm (w.toShm.freeSegment i)).frames := by
    rw [frames_freeSegment h hi, union_sdiff_distrib]
    congr 1
    apply sdiff_eq_left.mpr
    rw [Set.disjoint_left]
    intro x hx ⟨a, ha, hax⟩
    exact hpage.fresh a ha (hax ▸ hx)
  have hext : ext = frameSet (w.segments i).physPages ∪ (ext \ frameSet (w.segments i).physPages) := by
    rw [Set.union_sdiff_self, eq_comm, Set.union_eq_right]
    intro x hx
    exact hfam.ledger.lent_ext (.inr ⟨i, hi, hx⟩)
  rw [hlent, hext] at hfam'
  refine ⟨ext \ frameSet (w.segments i).physPages, ?_, fun a ha hx => hx.2 ⟨a, ha, rfl⟩⟩
  rw [machine_freeSegment h hi]
  refine freePages_family hfam' ⟨hpage.aligned, hpage.pos, hpage.lt, fun a ha hx => hx.2 ⟨a, ha, rfl⟩, hpage.nodup⟩ ?_
  intro a ha hx
  rw [← hlent] at hx
  exact hx.2 ⟨a, ha, rfl⟩

theorem Base.freeSegment (hid : (w.segments i).shmid.toNat < 2 ^ 31) (hnone : w.Unnamed (w.segments i).shmid) :
    Base lent (w.setShm (w.toShm.freeSegment i)) := by
  obtain ⟨ext, hfam, -⟩ := h.freeFamily hi hnone
  have hmach := machine_freeSegment h hi
  refine h.restrict rfl rfl ⟨ext, hfam⟩ ?_ ?_ (fun j hj => ?_)
    (stale_freeSegment hid) fun pid t k j ht hk hact hj hidj => allocated_freeSegment.mpr ⟨hj, fun hji => ?_⟩
  · exact (congrArg Machine.mem hmach).trans (freePages_mem _ _).1
  · exact (congrArg (·.pmm.totalPages) hmach).trans (freePages_mem _ _).2
  · obtain ⟨hj, hne⟩ := allocated_freeSegment.mp hj
    rw [segments_freeSegment, if_neg hne]
    exact ⟨hj, SameSegment.refl _⟩
  · exact hnone pid t k ht hk hact (hji ▸ hidj.symm)

end

end End

section New

variable {i : Nat} {seg : Segment}

def addSegment (w : ShmWorld) (s : Machine) (i : Nat) (seg : Segment) : ShmWorld :=
  { w with machine := s, segments := Function.update w.segments i seg, nextShmid := w.nextShmid + 1 }

theorem segments_addSegment (j : Nat) : (w.addSegment s i seg).segments j = if j = i then seg else w.segments j :=
  update_apply ..

theorem allocated_addSegment (hi : i < maxShmSegments) (hseg : seg.allocated = true) :
    (w.addSegment s i seg).Allocated j ↔ j = i ∨ w.Allocated j := by
  unfold Allocated
  rw [segments_addSegment]
  split_ifs with hji
  · simp [hji, hi, hseg]
  · simp [hji]

theorem stale_addSegment (hfree : (w.segments i).allocated = false) : w.stale ⊆ (w.addSegment s i seg).stale := by
  intro j hj
  obtain ⟨hlt, hgot, hid⟩ := mem_filter.mp hj
  have hne : j ≠ i := fun hji => by
    rw [hji, hfree] at hgot
    simp at hgot
  refine mem_filter.mpr ⟨hlt, ?_⟩
  rw [segments_addSegment, if_neg hne]
  exact ⟨hgot, hid⟩

section

variable (h : Base lent w) (hi : i < maxShmSegments) (hfree : (w.segments i).allocated = false)

include h hi hfree

/-- The counter of identifiers stops in time: a segment with a negative identifier stays for ever. -/
theorem next_addSegment (hseg : seg.allocated = true) (hid : seg.shmid = w.nextShmid) :
    (w.nextShmid + 1).toNat = w.nextShmid.toNat + 1 ∧
      w.nextShmid.toNat + 1 ≤ 2 ^ 31 + (w.addSegment s i seg).stale.card := by
  have hnext := h.next
  have hcard : w.stale.card ≤ 128 := by
    rw [← maxShmSegments_eq, ← card_range maxShmSegments]
    exact card_filter_le _ _
  refine ⟨?_, ?_⟩
  · exact Nat.mod_eq_of_lt (by simp; omega)
  · by_cases hneg : 2 ^ 31 ≤ w.nextShmid.toNat
    · have hnot : i ∉ w.stale := by
        intro hmem
        rw [stale, mem_filter, hfree] at hmem
        simp at hmem
      have hmem : i ∈ (w.addSegment s i seg).stale := by
        refine mem_filter.mpr ⟨mem_range.mpr hi, ?_⟩
        rw [segments_addSegment, if_pos rfl, hid]
        exact ⟨hseg, hneg⟩
      have hsub : w.stale ⊆ (w.addSegment s i seg).stale := stale_addSegment hfree
      have hle := card_le_card (insert_subset hmem hsub)
      rw [card_insert_of_notMem hnot] at hle
      omega
    · omega

theorem Base.addSegment (hfam : Family s w.roots (frameSet seg.physPages ∪ ext) (lent ∪ w.frames))
    (hlog : s.freed = []) (hlent : lent ∪ w.frames ⊆ ext) (hslot : SlotsSame w.machine.mem s.mem 256 w.roots)
    (htot : s.pmm.totalPages = w.machine.pmm.totalPages) (hpage : FreshPages w.machine.pmm.totalPages ext seg.physPages)
    (hseg : seg.allocated = true) (hid : seg.shmid = w.nextShmid) (hlen : seg.physPages.length = seg.numPages) :
    Base lent (w.addSegment s i seg) := by
  have hall : ∀ {j}, (w.addSegment s i seg).Allocated j ↔ j = i ∨ w.Allocated j := allocated_addSegment hi hseg
  have hself : (w.addSegment s i seg).segments i = seg := by rw [segments_addSegment, if_pos rfl]
  have hold : ∀ {j}, w.Allocated j → (w.addSegment s i seg).segments j = w.segments j := by
    intro j hj
    rw [segments_addSegment, if_neg (hj.ne_of_free hfree)]
  have hframe : (w.addSegment s i seg).frames = w.frames ∪ frameSet seg.physPages := by
    ext x
    constructor
    · intro ⟨j, hj, hx⟩
      rcases hall.mp hj with rfl | hj
      · rw [hself] at hx
        exact .inr hx
      · rw [hold hj] at hx
        exact .inl ⟨j, hj, hx⟩
    · intro hx
      rcases hx with ⟨j, hj, hx⟩ | hx
      · refine ⟨j, hall.mpr (.inr hj), ?_⟩
        rw [hold hj]
        exact hx
      · refine ⟨i, hall.mpr (.inl rfl), ?_⟩
        rw [hself]
        exact hx
  have hnew : ∀ x ∈ frameSet seg.physPages, x ∉ lent ∪ w.frames := by
    intro x ⟨a, ha, hax⟩ hx
    exact hpage.fresh a ha (hlent (hax ▸ hx))
  obtain ⟨hnext, hbound⟩ := next_addSegment (s := s) h hi hfree hseg hid
  have hless := BorrowsLess.of_same hslot
  refine ⟨⟨frameSet seg.physPages ∪ ext, ?_⟩, h.finite, h.user, h.apart, fun j hj => ?_, fun j hj => ?_, fun j j' hj hj' hdiff => ?_,
    fun j j' hj hj' heq => ?_, fun j hj => ?_, ?_, ?_, fun pid t k ht hk hact => ?_, h.past,
    fun pid t n a ht hn hb hx => ?_⟩
  · rw [hframe, ← union_assoc, union_comm (lent ∪ w.frames)]
    exact hfam.lendAll subset_union_left hlog
  · rcases hall.mp hj with rfl | hj
    · rw [hself]
      exact hlen
    · rw [hold hj]
      exact h.length j hj
  · show FreshPages s.pmm.totalPages lent _
    rw [htot]
    rcases hall.mp hj with rfl | hj
    · rw [hself]
      exact ⟨hpage.aligned, hpage.pos, hpage.lt, fun a ha hx => hnew _ ⟨a, ha, rfl⟩ (.inl hx), hpage.nodup⟩
    · rw [hold hj]
      exact h.pages j hj
  · rcases hall.mp hj with rfl | hj
    · rcases hall.mp hj' with rfl | hj'
      · exact absurd rfl hdiff
      · rw [hself, hold hj']
        exact fun x hx hx' => hnew x hx (.inr ⟨j', hj', hx'⟩)
    · rcases hall.mp hj' with hji' | hj'
      · rw [hji', hself, hold hj]
        exact fun x hx hx' => hnew x hx' (.inr ⟨j, hj, hx⟩)
      · rw [hold hj, hold hj']
        exact h.disjoint j j' hj hj' hdiff
  · rcases hall.mp hj with rfl | hj
    · rcases hall.mp hj' with rfl | hj'
      · rfl
      · rw [hself, hold hj', hid] at heq
        have := (h.issued j' hj').2
        rw [← heq] at this
        omega
    · rcases hall.mp hj' with hji' | hj'
      · rw [hji', hself, hold hj, hid] at heq
        have := (h.issued j hj).2
        rw [heq] at this
        omega
      · rw [hold hj, hold hj'] at heq
        exact h.distinct j j' hj hj' heq
  · show 0 < ((w.addSegment s i seg).segments j).shmid.toNat ∧ _ < (w.nextShmid + 1).toNat
    rcases hall.mp hj with rfl | hj
    · rw [hself, hid]
      exact ⟨h.next_pos, by omega⟩
    · rw [hold hj]
      have := h.issued j hj
      omega
  · show 0 < (w.nextShmid + 1).toNat
    omega
  · show (w.nextShmid + 1).toNat ≤ _
    omega
  · obtain ⟨j, hj, hrest⟩ := h.slots pid t k ht hk hact
    refine ⟨j, hall.mpr (.inr hj), ?_⟩
    rw [hold hj]
    exact hrest
  · have hb' := hless _ (mem_roots ht) n hn a hb
    -- what was borrowed before the call was not taken by it
    have hx' : a / 4096 ∈ w.frames := by
      rw [hframe] at hx
      rcases hx with hx | hx
      · exact hx
      · obtain ⟨ext', hfam'⟩ := h.family
        have hin := hfam'.trees.borrow _ (mem_roots ht) _ _ (length_pageRoute n) hb'.present hb'.borrowed
        rw [show entryAddr (slot w.machine.mem 256 t.proc.map.pml4Phys (pageRoute n) (ptIndex (n * 4096))) = a from
          hb'.addr] at hin
        exact absurd hin (hnew _ hx)
    obtain ⟨k, hk, hact, j, hj, hrest⟩ := h.cover pid t n a ht hn hb' hx'
    refine ⟨k, hk, hact, j, hall.mpr (.inr hj), ?_⟩
    rw [hold hj]
    exact hrest

end

end New

/-! ## Processes come and go -/

section Tasks

theorem Base.addTask (h : Base lent w) (hnone : w.tasks pid = none)
    (hfam : Family s (insert t.proc.map.pml4Phys w.roots) ext (lent ∪ w.frames))
    (hless : BorrowsLess w.machine.mem s.mem w.roots) (htot : s.pmm.totalPages = w.machine.pmm.totalPages)
    (hnew : t.proc.map.pml4Phys ∉ w.roots) (hkern : t.proc.map.isKernel = false)
    (hemp : ∀ n, n < 2 ^ 35 → ∀ a, ¬ Borrows s.mem t.proc.map.pml4Phys n a)
    (hina : ∀ k, (t.proc.shmMappings k).active = false) : Base lent ((w.setMachine s).setTask pid (some t)) := by
  have hroot : ((w.setMachine s).setTask pid (some t)).roots = insert t.proc.map.pml4Phys w.roots := by
    ext r
    constructor
    · intro ⟨pid', u, hu, hr⟩
      rcases tasks_setTask_cases hu with ⟨-, hu⟩ | ⟨-, hu⟩
      · exact .inl (by rw [← hr, Option.some.inj hu])
      · exact .inr ⟨pid', u, hu, hr⟩
    · intro hr
      rcases hr with rfl | ⟨pid', u, hu, hr⟩
      · exact ⟨pid, t, tasks_setTask_self .., rfl⟩
      · have hne : pid' ≠ pid := fun heq => by
          rw [heq, hnone] at hu
          simp at hu
        exact ⟨pid', u, (tasks_setTask_ne hne).trans hu, hr⟩
  rw [← hroot] at hfam
  refine h.replaceTask hfam hless htot fun u hu => ?_
  obtain rfl := Option.some.inj hu
  refine ⟨hkern, fun pid' u _ hu heq => hnew ⟨pid', u, hu, heq⟩, fun k _ hact => ?_, fun k _ => hina k,
    fun n a hn hb => absurd hb (hemp n hn a)⟩
  rw [hina] at hact
  simp at hact

theorem Base.dropTask (h : Base lent w) (ht : w.tasks pid = some t)
    (hfam : Family s (w.roots \ {t.proc.map.pml4Phys}) ext (lent ∪ w.frames)) (hmem : s.mem = w.machine.mem)
    (htot : s.pmm.totalPages = w.machine.pmm.totalPages) : Base lent ((w.setMachine s).setTask pid none) := by
  have hroot : ((w.setMachine s).setTask pid none).roots = w.roots \ {t.proc.map.pml4Phys} := by
    ext r
    constructor
    · intro ⟨pid', u, hu, hr⟩
      rcases tasks_setTask_cases hu with ⟨-, hu⟩ | ⟨hne, hu⟩
      · simp at hu
      · exact ⟨⟨pid', u, hu, hr⟩, fun heq => hne (h.apart pid' pid u t hu ht (hr.trans heq))⟩
    · intro ⟨⟨pid', u, hu, hr⟩, hne⟩
      have hpid : pid' ≠ pid := fun heq => by
        rw [heq, ht, Option.some.injEq] at hu
        exact hne (by rw [← hr, ← hu]; rfl)
      exact ⟨pid', u, (tasks_setTask_ne hpid).trans hu, hr⟩
  rw [← hroot] at hfam
  exact h.replaceTask hfam (fun _ _ _ _ _ hb => hmem ▸ hb) htot fun _ hu => by cases hu

end Tasks

end ShmWorld

end SzpontOS.Ipc
