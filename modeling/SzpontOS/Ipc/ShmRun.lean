import SzpontOS.Ipc.ShmCalls

/-!
# Runs of the shared memory calls

Any number of processes create, attach, detach and remove segments, unmap and reprotect pages, fork and exit. As long as
no segment has more attachments than an `int` can count, segments, slots and page tables agree (`shm_accounting`). A
crowd of processes makes the count negative, and the segment can then be freed under their eyes (`shm_overflow`).
-/

namespace SzpontOS.Ipc

open Lib Lib.Radix Mm Syscall Relation Function Set

variable {n r N m : Nat}

namespace ShmWorld

variable {lent : Set Nat} {w : ShmWorld} {pid i : Nat} {t : ShmTask} {proc : ShmProc}

/-! ## Whole runs -/

/-- What asks for the end of segment `i`: its mark, or the call itself. -/
def Removes (w : ShmWorld) (call : ShmCall) (i : Nat) : Prop :=
  (w.segments i).markedRmid = true ∨ ∃ pid now, call = .ctl pid (w.segments i).shmid .rmid now

theorem Good.imp {r r' : Nat → Prop} {w' : ShmWorld} (h : Good lent r w w') (himp : ∀ i, r i → r' i) :
    Good lent r' w w' :=
  ⟨h.base, h.counted, fun i hi => (h.fate i hi).imp_right fun hgone => ⟨himp i hgone.1, hgone.2⟩⟩

theorem Good.onRunning {r : Nat → Prop} {f : ShmProc → Shm × ShmProc} (hsame : Good lent r w w)
    (hcall : ∀ proc, w.tasks pid = some ⟨proc, .running⟩ →
      Good lent r w ((w.setShm (f proc).1).setTask pid (some ⟨(f proc).2, .running⟩))) :
    Good lent r w (w.onRunning pid f) := by
  unfold ShmWorld.onRunning
  split
  · rename_i proc ht
    exact hcall proc ht
  · exact hsame

theorem Good.perform (h : Base lent w) (hcount : Counted w) (hfew : Few w) (hlog : w.machine.freed = [])
    (call : ShmCall) : Good lent (w.Removes call) w (w.perform call) := by
  have hsame : ∀ {r : Nat → Prop}, Good lent r w w := .of_same hcount h rfl rfl
  obtain ⟨ext, hfam⟩ := h.family
  cases call with
  | get pid key size shmflg now => exact .onRunning hsame fun proc ht => .get h hcount hlog ht key size shmflg now
  | attach pid shmid shmaddr now => exact .onRunning hsame fun proc ht => .attach h hcount ht shmid shmaddr now
  | detach pid shmaddr now =>
    refine .onRunning hsame fun proc ht => ?_
    have hpast : ∀ j, j < Phase.running.past → ((shmDt w.toShm proc shmaddr now).2.2.shmMappings j).active = false :=
      fun j hj => by simp [Phase.past] at hj
    exact (Good.detach h hcount hfew ht (by simp) (by simp) shmaddr now hpast).imp fun i hi => .inl hi
  | ctl pid shmid cmd now =>
    refine Good.onRunning hsame fun proc ht => ?_
    have ht' : (w.setShm (shmCtl w.toShm shmid cmd now).2.2).tasks pid = some ⟨proc, .running⟩ := ht
    rw [setTask_eq_self ht']
    refine (Good.ctl h hcount hfew shmid cmd now).imp fun i hi => .inr ⟨pid, now, ?_⟩
    rw [hi.1, hi.2]
  | munmap pid addr length =>
    refine .onRunning hsame fun proc ht => ?_
    exact .of_machine h hcount ht rfl rfl (munmap_spec hfam (mem_roots ht) (h.user pid _ ht) proc.mmapCurrent addr length)
  | mprotect pid addr len prot =>
    refine .onRunning hsame fun proc ht => ?_
    exact .of_machine h hcount ht rfl rfl (mprotect_spec hfam (mem_roots ht) proc.mmapCurrent addr len prot)
  | fork pid child =>
    simp only [ShmWorld.perform]
    split
    · rename_i proc ht hkid
      exact .fork h hcount ht hkid
    · exact hsame
  | exit pid =>
    simp only [ShmWorld.perform]
    split
    · rename_i proc ht
      exact .of_phase h hcount ht (fun j hj => by simp [Phase.past] at hj) (slotOf_phase (by simp) (by simp))
    · exact hsame
  | exitSlot pid now =>
    simp only [ShmWorld.perform]
    split
    · rename_i proc k ht
      split_ifs with hk
      · exact (Good.exitSlot h hcount hfew ht hk now).imp fun i hi => .inl hi
      · have hpast : ∀ j, j < maxProcShm → (proc.shmMappings j).active = false := fun j hj =>
          h.past pid _ j ht (by show j < k; omega)
        refine .of_phase h hcount ht hpast fun j => ?_
        unfold ShmTask.slotOf
        rw [if_neg (by simp), if_neg]
        rintro ⟨_, hj, hact⟩
        rw [hpast j hj] at hact
        simp at hact
    · exact hsame
  | reap pid =>
    simp only [ShmWorld.perform]
    split
    · rename_i proc ht
      exact .reap h hcount ht
    · exact hsame

/-- Before the first call: no segments and no slots in use. Processes run, each with its own address space,
and may already have borrowed frames that are `lent` by devices. -/
structure Start (lent : Set Nat) (w : ShmWorld) : Prop where
  family : ∃ ext, Family w.machine w.roots ext lent
  finite : { pid | w.tasks pid ≠ none }.Finite
  user : ∀ pid t, w.tasks pid = some t → t.proc.map.isKernel = false
  apart : ∀ pid pid' t t', w.tasks pid = some t → w.tasks pid' = some t' →
    t.proc.map.pml4Phys = t'.proc.map.pml4Phys → pid = pid'
  segments : ∀ i, i < maxShmSegments → (w.segments i).allocated = false
  next : w.nextShmid = 1
  slots : ∀ pid t k, w.tasks pid = some t → (t.proc.shmMappings k).active = false

section Start

variable (h : Start lent w)

include h

theorem Start.not_allocated (i : Nat) : ¬ w.Allocated i := by
  intro ⟨hlt, hgot⟩
  rw [h.segments i hlt] at hgot
  simp at hgot

theorem Start.frames_eq : w.frames = ∅ := by
  ext x
  constructor
  · intro ⟨i, hi, _⟩
    exact absurd hi (h.not_allocated i)
  · intro hx
    exact absurd hx (notMem_empty x)

theorem Start.base : Base lent w := by
  have hnone := h.not_allocated
  have hframe := h.frames_eq
  refine ⟨?_, h.finite, h.user, h.apart, fun i hi => absurd hi (hnone i), fun i hi => absurd hi (hnone i),
    fun i _ hi => absurd hi (hnone i), fun i _ hi => absurd hi (hnone i), fun i hi => absurd hi (hnone i), ?_, ?_,
    fun pid t k ht _ hact => ?_, fun pid t k ht _ => h.slots pid t k ht, fun pid t n a _ _ _ hx => ?_⟩
  · rw [hframe, union_empty]
    exact h.family
  · rw [h.next]
    decide
  · rw [h.next]
    exact Nat.le_add_right_of_le (by decide)
  · rw [h.slots pid t k ht] at hact
    simp at hact
  · rw [hframe] at hx
    exact absurd hx (notMem_empty _)

theorem Start.counted : Counted w := fun i hi => absurd hi (h.not_allocated i)

theorem Start.place_ne (x : Nat × Nat) (id : BitVec 32) : w.place x ≠ some id := by
  intro hx
  obtain ⟨t, ht, -, -, hact, -⟩ := place_eq_some.mp hx
  rw [h.slots _ t _ ht] at hact
  simp at hact

theorem Start.held_eq_zero (id : BitVec 32) : held w.place id = 0 := by
  rw [Lib.held_eq_zero h.base.finitelyHeld]
  exact fun x => h.place_ne x id

end Start

theorem Base.settle (h : Base lent w) : Base lent w.settle := by
  obtain ⟨ext, hfam⟩ := h.family
  exact h.setMachine ⟨hfam.forget, fun _ _ _ _ _ hb => hb, rfl⟩

structure Inv (lent : Set Nat) (w : ShmWorld) : Prop where
  base : Base lent w
  counted : Counted w
  few : Few w

theorem Inv.good (h : Inv lent w) (call : ShmCall) : Good lent (w.Removes call) w (w.step call) := by
  have hgood := Good.perform h.base.settle h.counted h.few rfl call
  refine ⟨hgood.base, hgood.counted, fun i hi => ?_⟩
  rcases hgood.fate i hi with hkept | ⟨hremoved, hgone⟩
  · exact .inl hkept
  · exact .inr ⟨hremoved, hgone.cleared, hgone.unattached, hgone.freed⟩

def Step (w w' : ShmWorld) : Prop := (∃ call, w' = w.step call) ∧ Few w'

/-! ## Too many attachments -/

theorem maxProcShm_eq : maxProcShm = 32 := by
  unfold maxProcShm
  rfl

theorem shmAt_succeeds (h : Base lent w) (ht : w.tasks pid = some ⟨proc, .running⟩) (hi : w.Allocated i)
    (hlow : (w.segments i).shmid.toNat < 2 ^ 31) (hone : (w.segments i).numPages = 1) {k : Nat}
    (hslot : (List.range maxProcShm).find? (fun k => !(proc.shmMappings k).active) = some k) (hn : n < 2 ^ 35)
    (hpos : 1 ≤ n) (habs : has (leafOf w.machine.mem proc.map.pml4Phys n) flagPresent = false)
    (hroom : w.machine.Room (r + 3)) (now : Nat) :
    ∃ s, shmAt w.toShm proc (w.segments i).shmid (n * 4096) now =
        (((n * 4096 : Nat) : Int), ({ w.toShm with machine := s } : Shm).setSegment i { w.segments i with
          attachCount := (w.segments i).attachCount + 1, atime := now, lastPid := proc.startMmap.pid },
          proc.startMmap.attach k (w.segments i) (n * 4096)) ∧
      s.Room r ∧ MappedTo w.machine.mem s.mem w.roots proc.map.pml4Phys (n * 4096) (w.segments i).physPages 1 := by
  obtain ⟨ext, hfam⟩ := h.family
  have hmap := startMmap_map proc
  have huser : vmmUserRange (n * 4096) 4096 = true := by
    simp only [vmmUserRange, userEnd, Bool.and_eq_true, decide_eq_true_eq]
    omega
  have hfree := virtToPhys_page hfam (mem_roots ht) hn
  rw [habs] at hfree
  obtain ⟨s, hres, hroom'⟩ := hroom.mapPage proc.map ((w.segments i).physPages.getD 0 0) deviceFlags huser
  have hloop : (List.range 1).foldlM (shmMapPage proc.map (n * 4096) (w.segments i).physPages) w.machine = .ok s := by
    simp only [List.range_one, List.foldlM_cons, List.foldlM_nil, shmMapPage, Nat.zero_mul, Nat.add_zero, hres]
    rfl
  refine ⟨s, ?_, hroom', ?_⟩
  · unfold shmAt
    rw [h.findById hi hlow]
    rw [hslot]
    dsimp only
    rw [hone, hmap, if_neg (show ¬ n * 4096 = 0 by omega), if_neg, if_neg, hloop]
    · simp [hfree]
    · simp [huser]
  · have halign : n * 4096 % 4096 = 0 := by omega
    have hfree' : ∀ j, j < 1 → vmmVirtToPhys w.machine.mem proc.map (n * 4096 + j * 4096) = 0 := by
      intro j hj
      rw [show j = 0 by omega, Nat.zero_mul, Nat.add_zero]
      exact hfree
    have houtcome := shmMapLoop hfam (mem_roots ht) (h.user pid _ ht) (fun j hj => h.segment_page hi (hone ▸ hj)) halign
      (by simpa using huser) hfree'
    exact (houtcome.of_ok s hloop).2.1

def crowdPage : Nat := 0x600000000

/-- `N` processes, of which the first have attached the segment in their slots, `m` times in all. -/
structure Crowded (N m : Nat) (w : ShmWorld) : Prop where
  base : Base ∅ w
  counted : Counted w
  seg : w.Allocated 0
  shmid : (w.segments 0).shmid = 1
  pages : (w.segments 0).numPages = 1
  room : w.machine.Room (3 * (N * 32 - m))
  held : held w.place 1 = m
  only : ∀ x id, w.place x = some id → id = 1
  tasks : ∀ p, p < N → ∃ proc, w.tasks p = some ⟨proc, .running⟩ ∧ ∀ k, k < 32 →
    ((proc.shmMappings k).active = true ↔ p * 32 + k < m) ∧
    (m ≤ p * 32 + k → has (leafOf w.machine.mem proc.map.pml4Phys (crowdPage + k)) flagPresent = false)

theorem Machine.Room.settle {s : Machine} (h : s.Room n) : { s with freed := [] }.Room n :=
  ⟨⟨h.ok.pmm, h.ok.phys⟩, h.faults, h.heap, h.pages⟩

theorem Crowded.next (h : Crowded N m w) (hm : m < N * 32) : ∃ call, Crowded N (m + 1) (w.step call) := by
  have hbase := h.base.settle
  obtain ⟨proc, ht, hproc⟩ := h.tasks (m / 32) (by omega)
  have hslot : (List.range maxProcShm).find? (fun k => !(proc.shmMappings k).active) = some (m % 32) := by
    apply find_range_eq
    · rw [maxProcShm_eq]
      omega
    · have hnot : ¬ (proc.shmMappings (m % 32)).active = true := by
        rw [(hproc (m % 32) (by omega)).1]
        omega
      simpa using hnot
    · intro j hj
      have hyes := (hproc j (by omega)).1.mpr (by omega)
      rw [hyes]
      rfl
  have hina : (proc.shmMappings (m % 32)).active = false := by
    simpa using List.find?_some hslot
  have habs := (hproc (m % 32) (by omega)).2 (by omega)
  have hpage : crowdPage + m % 32 < 2 ^ 35 := by
    unfold crowdPage
    omega
  have hlow : (w.segments 0).shmid.toNat < 2 ^ 31 := by
    rw [h.shmid]
    decide
  have hroom : w.settle.machine.Room (3 * (N * 32 - (m + 1)) + 3) := by
    have hr := Machine.Room.settle h.room
    rwa [show 3 * (N * 32 - m) = 3 * (N * 32 - (m + 1)) + 3 by omega] at hr
  have ht' : w.settle.tasks (m / 32) = some ⟨proc, .running⟩ := ht
  obtain ⟨s, hat, hroom', hmap⟩ := shmAt_succeeds (w := w.settle) (i := 0) hbase ht' h.seg hlow h.pages hslot hpage
    (by unfold crowdPage; omega) habs hroom 0
  rw [show (w.settle.segments 0).shmid = 1 from h.shmid] at hat
  refine ⟨.attach (m / 32) 1 ((crowdPage + m % 32) * 4096) 0, ?_⟩
  have hgood : Good ∅ (fun _ => False) w.settle _ := .attach hbase h.counted ht' 1 ((crowdPage + m % 32) * 4096) 0
  unfold step
  simp only [perform, onRunning, ht']
  rw [hat] at hgood ⊢
  have hkept := (hgood.fate 0 h.seg).resolve_right fun hgone => hgone.1
  have hplace : (w.setTask (m / 32) (some ⟨proc.startMmap.attach (m % 32) (w.segments 0) ((crowdPage + m % 32) * 4096),
      .running⟩)).place = update w.place (m / 32, m % 32) (some 1) := by
    rw [place_attach ht (startMmap_shmMappings proc) (find_range_some hslot).1, h.shmid]
  refine ⟨hgood.base, hgood.counted, hkept.1, hkept.2.shmid.trans h.shmid, hkept.2.numPages.trans h.pages, hroom', ?_,
    fun x id hx => ?_, fun p hp => ?_⟩
  · have htake := held_take h.base.finitelyHeld (place_inactive ht hina) 1 1
    rw [if_pos rfl, h.held] at htake
    rw [← htake]
    exact congrArg (fun f => Lib.held f 1) hplace
  · have hx' := (congrFun hplace x).symm.trans hx
    rw [update_apply] at hx'
    split_ifs at hx'
    · exact (Option.some.inj hx').symm
    · exact h.only x id hx'
  · by_cases hpm : p = m / 32
    · subst hpm
      refine ⟨_, tasks_setTask_self .., fun k hk => ?_⟩
      have hupd : (proc.startMmap.attach (m % 32) (w.segments 0) ((crowdPage + m % 32) * 4096)).shmMappings k =
          if k = m % 32 then ⟨(w.segments 0).shmid, (crowdPage + m % 32) * 4096, (w.segments 0).size, true⟩
          else proc.shmMappings k := by
        rw [← startMmap_shmMappings proc]
        exact update_apply ..
      refine ⟨?_, fun hle => ?_⟩
      · rw [show (w.settle.segments 0) = w.segments 0 from rfl, hupd]
        split_ifs with hkm
        · exact iff_of_true rfl (by omega)
        · rw [(hproc k hk).1]
          omega
      · rcases hmap proc.map.pml4Phys (mem_roots ht') (crowdPage + k) (by unfold crowdPage; omega) with
          heq | ⟨-, j, hj, hpage', -⟩
        · show has (leafOf s.mem proc.startMmap.map.pml4Phys (crowdPage + k)) flagPresent = false
          rw [startMmap_map, heq]
          exact (hproc k hk).2 (by omega)
        · omega
    · obtain ⟨proc', ht2, hproc'⟩ := h.tasks p hp
      refine ⟨proc', (tasks_setTask_ne hpm).trans ht2, fun k hk => ⟨?_, fun hle => ?_⟩⟩
      · rw [(hproc' k hk).1]
        omega
      · have ht2' : w.settle.tasks p = some ⟨proc', .running⟩ := ht2
        rcases hmap proc'.map.pml4Phys (mem_roots ht2') (crowdPage + k) (by unfold crowdPage; omega) with
          heq | ⟨hroot, -⟩
        · show has (leafOf s.mem proc'.map.pml4Phys (crowdPage + k)) flagPresent = false
          rw [heq]
          exact (hproc' k hk).2 (by omega)
        · exact absurd (h.base.apart p (m / 32) _ _ ht2 ht hroot) hpm

/-- Processes that have just been created, with room for `r` more pages. -/
structure Populated (N r : Nat) (w : ShmWorld) : Prop where
  start : Start ∅ w
  room : w.machine.Room r
  tasks : ∀ p, p < N → ∃ proc, w.tasks p = some ⟨proc, .running⟩ ∧
    ∀ (q : List Nat) (j : Nat), q.length ≤ 3 → slot w.machine.mem 256 proc.map.pml4Phys q j = 0
  rest : ∀ p, N ≤ p → w.tasks p = none

def createdProc (pid : Nat) (map : Pagemap) : ShmProc := ⟨pid, 0, 0, map, 0x0000600000000000, fun _ => ⟨0, 0, 0, false⟩⟩

theorem Populated.next (h : Populated N (r + 1) w) : ∃ w', Populated (N + 1) r w' := by
  obtain ⟨map, s, hmade, hroom⟩ := h.room.create
  obtain ⟨ext, hfam⟩ := h.start.family
  obtain ⟨hs, -, htot, -, hres⟩ := hfam.create
  rw [hmade] at htot hres
  obtain ⟨hkern, hnew, hfam', hemp, hsame, -⟩ := hres
  have hnone : w.tasks N = none := h.rest N le_rfl
  have hfam1 : Family s (insert map.pml4Phys w.roots) (ext ∪ heapSet hs) (∅ ∪ w.frames) := by
    rw [h.start.frames_eq, union_empty]
    exact hfam'
  have hbase : Base ∅ ((w.setMachine s).setTask N (some ⟨createdProc N map, .running⟩)) := by
    refine h.start.base.addTask hnone hfam1 (.of_same hsame) htot hnew hkern (fun n _ a hb => ?_)
      fun _ => rfl
    have hpres := hb.present
    rw [leafOf, show (createdProc N map).map = map from rfl, hemp] at hpres
    simp at hpres
  refine ⟨(w.setMachine s).setTask N (some ⟨createdProc N map, .running⟩), ⟨?_, hbase.finite, hbase.user, hbase.apart,
    h.start.segments, h.start.next, ?_⟩, hroom, fun p hp => ?_, fun p hp => ?_⟩
  · obtain ⟨ext', hfam2⟩ := hbase.family
    refine ⟨ext', ?_⟩
    rwa [show ((w.setMachine s).setTask N (some ⟨createdProc N map, .running⟩)).frames = ∅ from h.start.frames_eq,
      union_empty] at hfam2
  · intro pid t k ht
    rcases tasks_setTask_cases ht with ⟨-, ht⟩ | ⟨-, ht⟩
    · rw [← Option.some.inj ht]
      rfl
    · exact h.start.slots pid t k ht
  · by_cases hpN : p = N
    · rw [hpN]
      exact ⟨createdProc N map, tasks_setTask_self .., fun q j _ => hemp q j⟩
    · obtain ⟨proc, ht, hslots⟩ := h.tasks p (by omega)
      refine ⟨proc, (tasks_setTask_ne hpN).trans ht, fun q j hq => ?_⟩
      exact (hsame _ (mem_roots ht) q j hq).trans (hslots q j hq)
  · have hne : p ≠ N := by omega
    exact (tasks_setTask_ne hne).trans (h.rest p (by omega))

theorem Populated.grow (N : Nat) (h : Populated 0 (r + N) w) : ∃ w', Populated N r w' := by
  induction N generalizing r with
  | zero => exact ⟨w, h⟩
  | succ N ih =>
    have h' : Populated 0 (r + 1 + N) w := by
      rwa [show r + 1 + N = r + (N + 1) by omega]
    obtain ⟨w', hw'⟩ := ih h'
    exact hw'.next

theorem Populated.get (h : Populated N (3 * (N * 32) + 1) w) (hN : 0 < N) :
    Crowded N 0 (w.step (.get 0 0 4096 0 0)) := by
  obtain ⟨proc, ht, -⟩ := h.tasks 0 hN
  have hbase := h.start.base.settle
  have ht' : w.settle.tasks 0 = some ⟨proc, .running⟩ := ht
  have hsetl : w.settle.machine.Room (3 * (N * 32) + 1) := Machine.Room.settle h.room
  obtain ⟨hpage, hroom⟩ := hsetl.allocPage
  have hkm : w.settle.machine.kmalloc = (true, w.settle.machine) := by
    unfold Machine.kmalloc
    rw [show w.settle.machine.heapGrowth = [] from h.room.heap]
  have hslot : (List.range maxShmSegments).find? (fun i => !(w.settle.segments i).allocated) = some 0 := by
    apply find_range_eq
    · rw [maxShmSegments_eq]
      norm_num
    · rw [show (w.settle.segments 0).allocated = false from h.start.segments 0 (by rw [maxShmSegments_eq]; norm_num)]
      rfl
    · omega
  have htake : shmTakePages w.settle.machine [] 1 = (some [w.settle.machine.allocPage.1],
      { w.settle.machine.allocPage.2 with
        mem := w.settle.machine.allocPage.2.mem.memset w.settle.machine.allocPage.1 0 4096 }) := by
    rw [shmTakePages, if_neg hpage]
    rfl
  have hget : (shmGet w.settle.toShm proc 0 4096 0 0).2 = { ({ w.settle.toShm with
      machine := { w.settle.machine.allocPage.2 with
        mem := w.settle.machine.allocPage.2.mem.memset w.settle.machine.allocPage.1 0 4096 } } : Shm).setSegment 0
      (newSegment w.nextShmid 0 4096 [w.settle.machine.allocPage.1] 0 proc 0) with nextShmid := w.nextShmid + 1 } := by
    unfold shmGet
    rw [hslot]
    rw [hkm]
    dsimp only
    rw [htake]
    rfl
  have hgood : Good ∅ (fun _ => False) w.settle _ := .get hbase h.start.counted rfl ht' 0 4096 0 0
  have htasks : (w.settle.setShm (shmGet w.settle.toShm proc 0 4096 0 0).2).tasks 0 = some ⟨proc, .running⟩ := ht
  unfold step
  simp only [perform, onRunning, ht']
  rw [setTask_eq_self htasks] at hgood ⊢
  rw [hget] at hgood ⊢
  obtain ⟨ext, hfam⟩ := h.start.family
  have hfam' : Family w.settle.machine w.roots (frameSet [] ∪ ext) ∅ := by
    rw [frameSet_nil, empty_union]
    exact hfam.forget
  have htook := shmTakePages_spec (empty_subset ext) 1 hfam' FreshPages.nil
  rw [htake] at htook
  have hslots := htook.1.slots
  refine ⟨hgood.base, hgood.counted, ⟨by rw [maxShmSegments_eq]; norm_num, rfl⟩, ?_, rfl, ?_, ?_, fun x id hx => ?_,
    fun p hp => ?_⟩
  · exact h.start.next
  · exact hroom.mem _
  · exact h.start.held_eq_zero 1
  · exact absurd hx (h.start.place_ne x id)
  · obtain ⟨proc', htp, hemp⟩ := h.tasks p hp
    refine ⟨proc', htp, fun k _ => ⟨?_, fun _ => ?_⟩⟩
    · rw [h.start.slots p _ k htp]
      simp
    · have hleaf := (hslots _ (mem_roots htp) (pageRoute (crowdPage + k)) (ptIndex ((crowdPage + k) * 4096)) le_rfl).trans
        (hemp _ _ le_rfl)
      refine .trans (congrArg (has · flagPresent) hleaf) ?_
      simp

theorem Crowded.full (h : Crowded N 0 w) (m : Nat) (hm : m ≤ N * 32) :
    ∃ w', ReflTransGen (fun a b => ∃ call, b = step a call) w w' ∧ Crowded N m w' := by
  induction m with
  | zero => exact ⟨w, .refl, h⟩
  | succ m ih =>
    obtain ⟨w', hrun, hw'⟩ := ih (by omega)
    obtain ⟨call, hnext⟩ := hw'.next (by omega)
    exact ⟨w'.step call, hrun.tail ⟨call, rfl⟩, hnext⟩

theorem Crowded.few (h : Crowded N m w) (hm : m < 2 ^ 31) : Few w := by
  intro id
  by_cases hid : id = 1
  · rw [hid, h.held]
    exact hm
  · rw [(Lib.held_eq_zero h.base.finitelyHeld).mpr fun x hx => hid (h.only x id hx)]
    norm_num

theorem freeSegment_zero (sh : Shm) (i : Nat) : (sh.freeSegment i).segments i = Segment.zero :=
  update_self (β := fun _ => Segment) i Segment.zero sh.segments

/-- A machine with `pages` pages of memory, of which the first two are used, and no process yet. -/
def emptyWorld (pages : Nat) : ShmWorld where
  machine := { emptyRoot with pmm := { emptyRoot.pmm with totalPages := pages } }
  segments := fun _ => Segment.zero
  nextShmid := 1
  tasks := fun _ => none

theorem setBits_emptyWorld (pages : Nat) : (emptyWorld pages).machine.pmm.setBits ≤ 2 := by
  have hsub : ((Finset.range pages).filter fun i => (emptyWorld pages).machine.pmm.bitmapTest i = true) ⊆ {0, 1} := by
    intro i hi
    have htest := (Finset.mem_filter.mp hi).2
    unfold Pmm.bitmapTest emptyWorld emptyRoot at htest
    dsimp only at htest
    split_ifs at htest with hbyte
    · have hlt : i < 8 := by omega
      interval_cases i <;> simp_all
    · simp at htest
  exact Finset.card_le_card hsub

theorem populated_emptyWorld (hr : r + 2 ≤ 2 ^ 40) : Populated 0 r (emptyWorld (r + 2)) := by
  have hok : (emptyWorld (r + 2)).machine.Ok := by
    refine ⟨⟨hr.trans (by norm_num), Nat.zero_le _, fun _ => ?_⟩, hr⟩
    show (emptyRoot.pmm.bitmap 0 &&& 1#8 <<< 0 != 0) = true
    decide
  have hfam := (Accounted.start hok).family
  have hroot : (emptyWorld (r + 2)).roots = Mm.World.roots (World.start (emptyWorld (r + 2)).machine).live := by
    simp [roots, emptyWorld, World.roots, World.start]
  rw [← hroot] at hfam
  refine ⟨⟨⟨_, hfam⟩, ?_, fun _ _ ht => ?_, fun _ _ _ _ ht => ?_, fun _ _ => rfl, rfl, fun _ _ _ ht => ?_⟩,
    ⟨hok, rfl, rfl, ?_⟩, fun p hp => absurd hp (Nat.not_lt_zero p), fun _ _ => rfl⟩
  · simp [emptyWorld]
  · exact absurd ht (by simp [emptyWorld])
  · exact absurd ht (by simp [emptyWorld])
  · exact absurd ht (by simp [emptyWorld])
  · have := setBits_emptyWorld (r + 2)
    show _ ≤ r + 2
    omega

/-- **Shared memory segments.** In every state of a run `attach_count` is the number of slots of live processes that
name the segment. A call keeps a segment and its frames, or the segment was removed, no slot names it and the call frees
each of its frames once. A borrowed page shows a frame of a device, or a frame of a segment through a slot of the
process. -/
theorem shm_accounting {start : ShmWorld} (hstart : Start lent start) (hrun : ReflTransGen Step start w) :
    (∀ i, w.Allocated i → (w.segments i).attachCount.toInt = held w.place (w.segments i).shmid) ∧
    (∀ call i, w.Allocated i →
      (Kept w (w.step call) i ∧ ∀ a ∈ (w.segments i).physPages, a / 4096 ∉ (w.step call).machine.freed.map Prod.fst) ∨
      w.Removes call i ∧ Gone w (w.step call) i) ∧
    (∀ i, w.Allocated i → ∀ a ∈ (w.segments i).physPages, a / 4096 ∉ lent) ∧
    ∀ pid t n a, w.tasks pid = some t → n < 2 ^ 35 → Borrows w.machine.mem t.proc.map.pml4Phys n a →
      a / 4096 ∈ lent ∨ ∃ k, w.Covers t.proc k n a := by
  have hfirst : Inv lent start := ⟨hstart.base, hstart.counted, fun id => by rw [hstart.held_eq_zero]; norm_num⟩
  have hkeep : ∀ w w', Inv lent w → Step w w' → Inv lent w' := by
    intro w w' hinv ⟨⟨call, hcall⟩, hfew⟩
    have hgood := hinv.good call
    rw [← hcall] at hgood
    exact ⟨hgood.base, hgood.counted, hfew⟩
  have hinv : Inv lent w := invariant_of_step hkeep hfirst hrun
  refine ⟨fun i hi => ?_, fun call i hi => ?_, fun i hi => (hinv.base.pages i hi).fresh, fun pid t n a ht hn hb => ?_⟩
  · have hlt := hinv.few (w.segments i).shmid
    rw [hinv.counted i hi, BitVec.toInt_eq_toNat_cond, BitVec.toNat_ofNat, Nat.mod_eq_of_lt (by omega),
      if_pos (by omega)]
  · have hgood := hinv.good call
    rcases hgood.fate i hi with hkept | hgone
    · refine .inl ⟨hkept, fun a ha => hgood.base.not_logged hkept.1 ?_⟩
      rw [hkept.2.physPages]
      exact ha
    · exact .inr hgone
  · obtain ⟨ext, hfam⟩ := hinv.base.family
    have hin : a / 4096 ∈ lent ∪ w.frames := by
      rw [← hb.addr]
      exact hfam.trees.borrow _ (mem_roots ht) _ _ (length_pageRoute n) hb.present hb.borrowed
    exact hin.imp_right fun hx => hinv.base.cover pid t n a ht hn hb hx

/-- One process creates a segment and attaches it. -/
theorem shm_accounting_attached : ∃ start w, Start ∅ start ∧ ReflTransGen Step start w ∧ w.Allocated 0 ∧
    held w.place (w.segments 0).shmid = 1 ∧ (w.segments 0).attachCount.toInt = 1 := by
  have hempty := populated_emptyWorld (r := 3 * (1 * 32) + 1 + 1) (by norm_num)
  obtain ⟨start, hstart⟩ := hempty.grow 1
  have hget := hstart.get Nat.one_pos
  obtain ⟨call, hattach⟩ := hget.next (by norm_num)
  have hrun : ReflTransGen Step start ((start.step (.get 0 0 4096 0 0)).step call) :=
    (ReflTransGen.single ⟨⟨_, rfl⟩, hget.few (by norm_num)⟩).tail ⟨⟨_, rfl⟩, hattach.few (by norm_num)⟩
  have hheld := hattach.held
  rw [← hattach.shmid] at hheld
  refine ⟨start, _, hstart.start, hrun, hattach.seg, hheld, ?_⟩
  rw [(shm_accounting hstart.start hrun).1 0 hattach.seg, hheld]
  rfl

/-- With one attachment more than an `int` counts, `attach_count` is negative, and `shmctl(IPC_RMID)` frees the
segment at once. -/
theorem shm_overflow : ∃ start w, Start ∅ start ∧ ReflTransGen (fun a b => ∃ call, b = step a call) start w ∧
    w.Allocated 0 ∧ held w.place (w.segments 0).shmid = 2 ^ 31 ∧ (w.segments 0).attachCount.toInt = -2 ^ 31 ∧
    ¬ (w.step (.ctl 0 (w.segments 0).shmid .rmid 0)).Allocated 0 := by
  have hempty := populated_emptyWorld (r := 3 * (2 ^ 26 * 32) + 1 + 2 ^ 26) (by norm_num)
  obtain ⟨start, hstart⟩ := hempty.grow (2 ^ 26)
  obtain ⟨w, hrun, hw⟩ := (hstart.get (by norm_num)).full (2 ^ 31) (by norm_num)
  have hheld := hw.held
  rw [← hw.shmid] at hheld
  have hcount : (w.segments 0).attachCount.toInt = -2 ^ 31 := by
    rw [hw.counted 0 hw.seg, hheld]
    decide
  refine ⟨start, w, hstart.start, .head ⟨_, rfl⟩ hrun, hw.seg, hheld, hcount, fun hstill => ?_⟩
  obtain ⟨proc, ht, -⟩ := hw.tasks 0 (by norm_num)
  have ht' : w.settle.tasks 0 = some ⟨proc, .running⟩ := ht
  have hfind : w.settle.toShm.findById (w.segments 0).shmid = some 0 :=
    hw.base.settle.findById hw.seg (by rw [show (w.settle.segments 0).shmid = 1 from hw.shmid]; decide)
  have hcount' : (w.settle.segments 0).attachCount.toInt ≤ 0 := by
    rw [show w.settle.segments 0 = w.segments 0 from rfl, hcount]
    norm_num
  have hfree : (w.step (.ctl 0 (w.segments 0).shmid .rmid 0)).segments 0 = Segment.zero := by
    simp only [step, perform, onRunning, ht', shmCtl, hfind, if_pos hcount']
    exact freeSegment_zero _ 0
  have hallocated := hstill.2
  rw [hfree] at hallocated
  simp [Segment.zero] at hallocated

end ShmWorld

end SzpontOS.Ipc
