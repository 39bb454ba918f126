import SzpontOS.Ipc.ShmWorld
import SzpontOS.Lib.Count

/-!
# The shared memory calls

`Counted` says that `attach_count` is the number of slots that name the segment; with `Base` it lets a segment go only
when nobody can see its frames. `Good` is what every call does: it keeps the invariants, and each segment is kept as it
is or goes for good.
-/

namespace SzpontOS.Ipc

open Lib Lib.Radix Mm Syscall Function ShmTask List Set
open Option hiding any_eq_true

/-! ## Counting attachments -/

/-- The segment that slot `k` of a process is attached to; a process that is gone has none. -/
def ShmTask.slotOf (t : ShmTask) (k : Nat) : Option (BitVec 32) :=
  if t.phase ≠ .zombie ∧ k < maxProcShm ∧ (t.proc.shmMappings k).active = true then some (t.proc.shmMappings k).shmid
  else none

variable {k n a j vaddr : Nat} {w' : ShmWorld} {proc' : ShmProc} {s : Machine} {ext : Set Nat} {seg : Segment}

namespace ShmWorld

variable {lent : Set Nat} {w : ShmWorld} {pid i : Nat} {t t' : ShmTask} {id : BitVec 32}

/-- What each slot of each live process is attached to. -/
def place (w : ShmWorld) (x : Nat × Nat) : Option (BitVec 32) := (w.tasks x.1).bind fun t => t.slotOf x.2

/-- `attach_count` is the number of attachments, as an `int`. -/
def Counted (w : ShmWorld) : Prop :=
  ∀ i, w.Allocated i → (w.segments i).attachCount = BitVec.ofNat 32 (held w.place (w.segments i).shmid)

/-- No segment has as many attachments as an `int` cannot count. -/
def Few (w : ShmWorld) : Prop := ∀ id, held w.place id < 2 ^ 31

theorem Base.finitelyHeld (h : Base lent w) : FinitelyHeld w.place := by
  apply (h.finite.prod (finite_lt_nat maxProcShm)).subset
  intro x hx
  rw [mem_ofPred_eq, place] at hx
  cases htask : w.tasks x.1 with
  | none => simp [htask] at hx
  | some t =>
    rw [htask, bind_some, slotOf] at hx
    refine ⟨?_, ?_⟩
    · rw [mem_ofPred_eq, htask]
      simp
    · by_contra hk
      exact hx (if_neg fun hand => hk hand.2.1)

theorem place_eq_some : w.place (pid, k) = some id ↔ ∃ t, w.tasks pid = some t ∧ t.phase ≠ .zombie ∧
    k < maxProcShm ∧ (t.proc.shmMappings k).active = true ∧ (t.proc.shmMappings k).shmid = id := by
  unfold place
  rw [bind_eq_some_iff]
  apply exists_congr
  intro t
  simp only [slotOf, ite_none_right_eq_some, some.injEq, and_assoc]

theorem Base.no_slot (h : Base lent w) (hnone : ∀ x, w.place x ≠ some id) : w.Unnamed id := by
  intro pid t k ht hk hact hid
  refine hnone (pid, k) (place_eq_some.mpr ⟨t, ht, fun hzom => ?_, hk, hact, hid⟩)
  have := h.past pid t k ht (by rw [hzom]; exact hk)
  rw [hact] at this
  simp at this

theorem place_setTask (ht : w.tasks pid = some t) (hrest : ∀ j, j ≠ k → t'.slotOf j = t.slotOf j) :
    (w.setTask pid (some t')).place = update w.place (pid, k) (t'.slotOf k) := by
  funext x
  obtain ⟨pid', j⟩ := x
  by_cases hpid : pid' = pid
  · rw [hpid, place, tasks_setTask_self, bind_some]
    by_cases hj : j = k
    · rw [hj, update_self]
    · rw [update_of_ne fun heq => hj (congrArg Prod.snd heq), hrest j hj, place, ht, bind_some]
  · rw [update_of_ne fun heq => hpid (congrArg Prod.fst heq), place, tasks_setTask_ne hpid]
    rfl

theorem place_setTask_same {o o' : Option ShmTask} (ho : w.tasks pid = o)
    (hsame : ∀ j, (o'.bind fun t => t.slotOf j) = o.bind fun t => t.slotOf j) : (w.setTask pid o').place = w.place := by
  funext x
  obtain ⟨pid', j⟩ := x
  by_cases hpid : pid' = pid
  · rw [hpid, place, place, tasks_setTask_self, ho]
    exact hsame j
  · rw [place, tasks_setTask_ne hpid]
    rfl

/-! ## Identifiers -/

theorem toInt_pos : 0 < id.toInt ↔ 0 < id.toNat ∧ id.toNat < 2 ^ 31 := by
  rw [BitVec.toInt_eq_toNat_cond]
  split_ifs <;> omega

theorem count_le_zero (hn : n < 2 ^ 31) : (BitVec.ofNat 32 n).toInt ≤ 0 ↔ n = 0 := by
  rw [← not_lt, toInt_pos, BitVec.toNat_ofNat, Nat.mod_eq_of_lt (by omega)]
  omega

theorem find_range_some {P : Nat → Bool} (h : (range n).find? P = some k) : k < n ∧ P k = true :=
  ⟨mem_range.mp (mem_of_find?_eq_some h), find?_some h⟩

theorem findById_some (h : w.toShm.findById id = some i) :
    w.Allocated i ∧ (w.segments i).shmid = id ∧ (w.segments i).shmid.toNat < 2 ^ 31 := by
  unfold Shm.findById at h
  split_ifs at h with hid
  obtain ⟨hlt, hfound⟩ := find_range_some h
  rw [Bool.and_eq_true, beq_iff_eq] at hfound
  rw [hfound.2]
  exact ⟨⟨hlt, hfound.1⟩, rfl, (toInt_pos.mp (by omega)).2⟩

theorem Base.findById (h : Base lent w) (hi : w.Allocated i) (hlow : (w.segments i).shmid.toNat < 2 ^ 31) :
    w.toShm.findById (w.segments i).shmid = some i := by
  have hpos : 0 < (w.segments i).shmid.toInt := toInt_pos.mpr ⟨(h.issued i hi).1, hlow⟩
  have hsome : (w.toShm.findById (w.segments i).shmid).isSome := by
    unfold Shm.findById
    rw [if_neg (by omega), find?_isSome]
    exact ⟨i, mem_range.mpr hi.1, by simp [hi.2]⟩
  obtain ⟨j, hj⟩ := isSome_iff_exists.mp hsome
  obtain ⟨hgot, hid, -⟩ := findById_some hj
  rw [hj, h.distinct j i hgot hi hid]

/-! ## What a call does -/

def Kept (w w' : ShmWorld) (i : Nat) : Prop := w'.Allocated i ∧ SameSegment (w.segments i) (w'.segments i)

/-- The segment in slot `i` is gone: no slot of a live process names it, and each of its frames was freed once. -/
structure Gone (w w' : ShmWorld) (i : Nat) : Prop where
  cleared : ¬ w'.Allocated i
  unattached : ∀ x, w'.place x ≠ some (w.segments i).shmid
  freed : ∀ a ∈ (w.segments i).physPages, (w'.machine.freed.map Prod.fst).count (a / 4096) = 1 ∧
    w'.machine.pmm.bitmapTest (a / 4096) = false

/-- What a call does: the invariants hold, and a segment goes only after it was `removed`. -/
structure Good (lent : Set Nat) (removed : Nat → Prop) (w w' : ShmWorld) : Prop where
  base : Base lent w'
  counted : Counted w'
  fate : ∀ i, w.Allocated i → Kept w w' i ∨ removed i ∧ Gone w w' i

theorem Good.of_same {removed : Nat → Prop} (hcounted : Counted w) (hbase : Base lent w')
    (hsegs : w'.segments = w.segments) (hplace : w'.place = w.place) : Good lent removed w w' := by
  have hall : ∀ i, w'.Allocated i ↔ w.Allocated i := by
    intro i
    unfold Allocated
    rw [hsegs]
  refine ⟨hbase, fun i hi => ?_, fun i hi => .inl ⟨(hall i).mpr hi, ?_⟩⟩
  · rw [hsegs, hplace]
    exact hcounted i ((hall i).mp hi)
  · rw [hsegs]
    exact .refl _

theorem Base.not_logged (h : Base lent w) (hi : w.Allocated i) (ha : a ∈ (w.segments i).physPages) :
    a / 4096 ∉ w.machine.freed.map Prod.fst := by
  intro hmem
  obtain ⟨e, he, heq⟩ := mem_map.mp hmem
  obtain ⟨ext, hfam⟩ := h.family
  exact (hfam.ledger.log e he).2 (.inr ⟨i, hi, a, ha, heq.symm⟩)

theorem Base.freed_once (h : Base lent w) (hi : w.Allocated i) (hnone : ∀ x, w.place x ≠ some (w.segments i).shmid)
    (ha : a ∈ (w.segments i).physPages) :
    ((w.toShm.freeSegment i).machine.freed.map Prod.fst).count (a / 4096) = 1 ∧
      (w.toShm.freeSegment i).machine.pmm.bitmapTest (a / 4096) = false := by
  have hpage := h.pages i hi
  refine ⟨?_, ?_⟩
  · rw [machine_freeSegment h hi, freePages_log, count_append, count_reverse,
      count_eq_zero_of_not_mem (h.not_logged hi ha), count_eq_one_of_mem hpage.nodup]
    exact mem_map.mpr ⟨a, ha, rfl⟩
  · obtain ⟨ext, hfam⟩ := h.family
    obtain ⟨ext', hfam', hout⟩ := h.freeFamily hi (h.no_slot hnone)
    have hmem : (w.toShm.freeSegment i).machine.mem = w.machine.mem := by
      rw [machine_freeSegment h hi, (freePages_mem _ _).1]
    have htot : (w.toShm.freeSegment i).machine.pmm.totalPages = w.machine.pmm.totalPages := by
      rw [machine_freeSegment h hi, (freePages_mem _ _).2]
    rw [← Bool.not_eq_true, hfam'.ledger.used _ (htot ▸ hpage.lt a ha)]
    intro hused
    rcases hused with hown | hext
    · rw [hmem] at hown
      exact hfam.ledger.apart _ hown (hfam.ledger.lent_ext (.inr ⟨i, hi, a, ha, rfl⟩))
    · exact hout a ha hext

theorem Good.freeSegment {removed : Nat → Prop} (h : Base lent w) (hcounted : Counted w) (hi : w.Allocated i)
    (hid : (w.segments i).shmid.toNat < 2 ^ 31) (hnone : ∀ x, w.place x ≠ some (w.segments i).shmid)
    (hremoved : removed i) : Good lent removed w (w.setShm (w.toShm.freeSegment i)) := by
  refine ⟨h.freeSegment hi hid (h.no_slot hnone), fun j hj => ?_, fun j hj => ?_⟩
  · obtain ⟨hj, hne⟩ := allocated_freeSegment.mp hj
    rw [segments_freeSegment, if_neg hne]
    exact hcounted j hj
  · by_cases hji : j = i
    · rw [hji]
      exact .inr ⟨hremoved, fun hgot => (allocated_freeSegment.mp hgot).2 rfl, hnone,
        fun a ha => h.freed_once hi hnone ha⟩
    · refine .inl ⟨allocated_freeSegment.mpr ⟨hj, hji⟩, ?_⟩
      rw [segments_freeSegment, if_neg hji]
      exact .refl _

theorem Good.trans {removed : Nat → Prop} {w1 w2 : ShmWorld}
    (hkept : ∀ i, w.Allocated i → Kept w w1 i) (h : Good lent removed w1 w2) : Good lent removed w w2 := by
  refine ⟨h.base, h.counted, fun i hi => ?_⟩
  obtain ⟨hgot, hsame⟩ := hkept i hi
  rcases h.fate i hgot with ⟨hgot', hsame'⟩ | ⟨hremoved, hgone⟩
  · exact .inl ⟨hgot', hsame'.shmid.trans hsame.shmid, hsame'.numPages.trans hsame.numPages,
      hsame'.physPages.trans hsame.physPages, hsame'.allocated.trans hsame.allocated⟩
  · refine .inr ⟨hremoved, hgone.cleared, ?_, ?_⟩
    · rw [← hsame.shmid]
      exact hgone.unattached
    · rw [← hsame.physPages]
      exact hgone.freed

/-- A segment that goes once the call has seen that its count is zero. -/
theorem Good.unused {removed : Nat → Prop} {w1 : ShmWorld} (hgood : ∀ removed, Good lent removed w w1)
    (hi : w.Allocated i) (hlow : (w.segments i).shmid.toNat < 2 ^ 31)
    (hheld : held w1.place (w.segments i).shmid < 2 ^ 31) (hle : (w1.segments i).attachCount.toInt ≤ 0)
    (hremoved : removed i) : Good lent removed w (w1.setShm (w1.toShm.freeSegment i)) := by
  obtain ⟨h, hcounted, hfate⟩ := hgood fun _ => False
  have hkept : ∀ j, w.Allocated j → Kept w w1 j := fun j hj => (hfate j hj).resolve_right And.left
  obtain ⟨hi1, hsame⟩ := hkept i hi
  rw [← hsame.shmid] at hlow hheld
  refine .trans hkept (.freeSegment h hcounted hi1 hlow ?_ hremoved)
  rw [← held_eq_zero h.finitelyHeld, ← count_le_zero hheld, ← hcounted i hi1]
  exact hle

/-! ## The calls -/

section Calls

variable {removed : Nat → Prop} {proc : ShmProc} {phase phase' : Phase}

section

variable (h : Base lent w) (hcounted : Counted w) (ht : w.tasks pid = some ⟨proc, phase⟩)

include h hcounted ht

section

variable (hmap : proc'.map = proc.map) (hmaps : proc'.shmMappings = proc.shmMappings)

include hmap hmaps

theorem Good.of_task (hpast : ∀ k, k < phase'.past → (proc'.shmMappings k).active = false)
    (hslot : ∀ k, slotOf ⟨proc', phase'⟩ k = slotOf ⟨proc, phase⟩ k)
    (hs : Fewer w.machine s w.roots ext (lent ∪ w.frames)) :
    Good lent removed w ((w.setMachine s).setTask pid (some ⟨proc', phase'⟩)) := by
  have hbase := h.setMachine hs
  have ht' : (w.setMachine s).tasks pid = some ⟨proc, phase⟩ := ht
  have hplace : ((w.setMachine s).setTask pid (some ⟨proc', phase'⟩)).place = _ := place_setTask_same ht' hslot
  have hslots : ∀ k, k < maxProcShm → (proc'.shmMappings k).active = true →
      (w.setMachine s).SlotOk (proc'.shmMappings k) := by
    intro k hk
    rw [hmaps]
    exact hbase.slots pid _ k ht' hk
  refine .of_same hcounted (hbase.setTask ht' hmap hslots hpast ?_) rfl hplace
  · intro n a hn hb hx
    obtain ⟨k, hk⟩ := hbase.cover pid _ n a ht' hn hb hx
    refine ⟨k, ?_⟩
    unfold Covers at hk ⊢
    rw [hmaps]
    exact hk

theorem Good.of_machine (hs : Fewer w.machine s w.roots ext (lent ∪ w.frames)) :
    Good lent removed w ((w.setMachine s).setTask pid (some ⟨proc', phase⟩)) := by
  refine .of_task h hcounted ht hmap hmaps (fun k hk => ?_) (fun k => ?_) hs
  · rw [hmaps]
    exact h.past pid _ k ht hk
  · unfold slotOf
    rw [hmaps]

end

theorem Good.of_phase (hpast : ∀ k, k < phase'.past → (proc.shmMappings k).active = false)
    (hslot : ∀ k, slotOf ⟨proc, phase'⟩ k = slotOf ⟨proc, phase⟩ k) :
    Good lent removed w (w.setTask pid (some ⟨proc, phase'⟩)) := by
  obtain ⟨ext, hfam⟩ := h.family
  exact .of_task h hcounted ht rfl rfl hpast hslot (.refl hfam)

end

theorem sameSegment_update (hseg : SameSegment (w.segments i) seg) :
    ∀ j, SameSegment (w.segments j) (update w.segments i seg j) := by
  intro j
  rw [update_apply]
  split_ifs with hji
  · rw [hji]
    exact hseg
  · exact .refl _

theorem Good.updateSegment (h : Base lent w) (hcounted : Counted w) (hi : w.Allocated i) (hbase : Base lent w')
    (hsegs : w'.segments = w.segments) (hseg : SameSegment (w.segments i) seg)
    (hself : seg.attachCount = BitVec.ofNat 32 (held w'.place (w.segments i).shmid))
    (hrest : ∀ id, id ≠ (w.segments i).shmid → held w'.place id = held w.place id) :
    Good lent removed w (w'.setSegments (update w.segments i seg)) := by
  have hsame := sameSegment_update (w := w) hseg
  refine ⟨.setSegments (hsegs ▸ hsame) hbase, fun j hj => ?_,
    fun j hj => .inl ⟨(allocated_congr hsame j).mpr hj, hsame j⟩⟩
  have hall : w.Allocated j := (allocated_congr hsame j).mp hj
  show (update w.segments i seg j).attachCount = BitVec.ofNat 32 (held w'.place (update w.segments i seg j).shmid)
  rw [(hsame j).shmid]
  by_cases hji : j = i
  · rw [hji, update_self]
    exact hself
  · rw [update_of_ne hji, hrest _ fun heq => hji (h.distinct j i hall hi heq)]
    exact hcounted j hall

theorem Base.segment_page (h : Base lent w) (hi : w.Allocated i) (hj : j < (w.segments i).numPages) :
    PageAddr ((w.segments i).physPages.getD j 0) ∧ (w.segments i).physPages.getD j 0 / 4096 ∈ lent ∪ w.frames := by
  have hmem := mem_frameSet_getD h hi hj
  have hlt := (h.pages i hi).lt _ hmem
  obtain ⟨ext, hfam⟩ := h.family
  have hphys := hfam.ledger.ok.phys
  exact ⟨⟨(h.pages i hi).aligned _ hmem, by omega⟩, .inr ⟨i, hi, _, hmem, rfl⟩⟩

theorem startMmap_map (proc : ShmProc) : proc.startMmap.map = proc.map := by
  unfold ShmProc.startMmap
  split_ifs <;> rfl

theorem startMmap_shmMappings (proc : ShmProc) : proc.startMmap.shmMappings = proc.shmMappings := by
  unfold ShmProc.startMmap
  split_ifs <;> rfl

theorem place_inactive (ht : w.tasks pid = some ⟨proc, phase⟩) (hina : (proc.shmMappings k).active = false) :
    w.place (pid, k) = none := by
  rw [place, ht, bind_some, slotOf, if_neg]
  simp [hina]

theorem place_attach (ht : w.tasks pid = some ⟨proc, .running⟩) (hmaps : proc'.shmMappings = proc.shmMappings)
    (hk : k < maxProcShm) (seg : Segment) (vaddr : Nat) :
    (w.setTask pid (some ⟨proc'.attach k seg vaddr, .running⟩)).place = update w.place (pid, k) (some seg.shmid) := by
  have hrest : ∀ j, j ≠ k → slotOf ⟨proc'.attach k seg vaddr, .running⟩ j =
      slotOf ⟨proc, .running⟩ j := by
    intro j hj
    unfold slotOf
    rw [show (proc'.attach k seg vaddr).shmMappings j = proc'.shmMappings j from update_of_ne hj .., hmaps]
  rw [place_setTask ht hrest, slotOf,
    show (proc'.attach k seg vaddr).shmMappings k = ⟨seg.shmid, vaddr, seg.size, true⟩ from update_self ..]
  simp [hk]

section

variable (h : Base lent w)

include h

theorem Base.mapped (ht : w.tasks pid = some t) (hk : k < maxProcShm)
    (hslot : t.proc.shmMappings k = ⟨(w.segments i).shmid, vaddr, (w.segments i).size, true⟩) (hi : w.Allocated i)
    (hfam : Family s w.roots ext (lent ∪ w.frames)) (htot : s.pmm.totalPages = w.machine.pmm.totalPages)
    (hmapped : MappedTo w.machine.mem s.mem w.roots t.proc.map.pml4Phys vaddr (w.segments i).physPages
      (w.segments i).numPages) : Base lent (w.setMachine s) := by
  refine h.setMachine_cover hfam htot fun pid' t' n a ht' hn hb hx => ?_
  rcases hmapped _ (mem_roots ht') n hn with heq | ⟨hroot, j, hj, hpage, hent⟩
  · exact h.cover pid' t' n a ht' hn (hb.congr heq) hx
  · have hpid := h.apart pid' pid t' t ht' ht hroot
    rw [hpid, ht, some.injEq] at ht'
    refine ⟨k, hk, ?_, i, hi, ?_, j, hj, ?_, ?_⟩
    · rw [← ht', hslot]
    · rw [← ht', hslot]
    · rw [← ht', hslot]
      exact hpage
    · rw [← hb.addr, hent, leafEntry_addr (h.segment_page hi hj).1 deviceFlags_addr]

section

variable (ht : w.tasks pid = some ⟨proc, .running⟩) (hmap : proc'.map = proc.map)
  (hmaps : proc'.shmMappings = proc.shmMappings) (hina : (proc.shmMappings k).active = false) (hi : w.Allocated i)
  (hlow : (w.segments i).shmid.toNat < 2 ^ 31) (halign : vaddr % 4096 = 0)
  (huser : vmmUserRange vaddr ((w.segments i).numPages * 4096) = true)

include ht hmap hmaps hina hi hlow halign huser

theorem Base.attach : Base lent (w.setTask pid (some ⟨proc'.attach k (w.segments i) vaddr, .running⟩)) := by
  have hupd : (proc'.attach k (w.segments i) vaddr).shmMappings = update proc.shmMappings k
      ⟨(w.segments i).shmid, vaddr, (w.segments i).size, true⟩ := by
    rw [← hmaps]
    rfl
  refine h.setTask ht hmap (fun j hj => ?_) (fun j hj => by simp [Phase.past] at hj) fun n a hn hb hx => ?_
  · rw [hupd, update_apply]
    split_ifs
    · exact fun _ => ⟨i, hi, rfl, hlow, halign, huser⟩
    · exact h.slots pid _ j ht hj
  · -- the slot covered nothing before
    obtain ⟨j, hj, hact, hrest⟩ := h.cover pid _ n a ht hn hb hx
    have hne : j ≠ k := fun hjk => by
      rw [hjk, hina] at hact
      simp at hact
    refine ⟨j, hj, ?_⟩
    rw [hupd, update_of_ne hne]
    exact ⟨hact, hrest⟩

theorem Good.attached (hcounted : Counted w) (hk : k < maxProcShm) (hfam : Family s w.roots ext (lent ∪ w.frames))
    (htot : s.pmm.totalPages = w.machine.pmm.totalPages) (hmapped : MappedTo w.machine.mem s.mem w.roots
      proc.map.pml4Phys vaddr (w.segments i).physPages (w.segments i).numPages)
    (hseg : SameSegment (w.segments i) seg)
    (hcount : seg.attachCount = (w.segments i).attachCount + 1) :
    Good lent removed w (((w.setTask pid (some ⟨proc'.attach k (w.segments i) vaddr, .running⟩)).setMachine s).setSegments
      (update w.segments i seg)) := by
  have hbase1 := h.attach ht hmap hmaps hina hi hlow halign huser
  have hroot : (w.setTask pid (some ⟨proc'.attach k (w.segments i) vaddr, .running⟩)).roots = w.roots :=
    roots_setTask ht hmap
  rw [← hroot] at hfam hmapped
  rw [← show (proc'.attach k (w.segments i) vaddr).map = proc.map from hmap] at hmapped
  have hbase2 := hbase1.mapped (tasks_setTask_self w pid _) hk (update_self ..) hi hfam htot hmapped
  have hplace : ((w.setTask pid (some ⟨proc'.attach k (w.segments i) vaddr, .running⟩)).setMachine s).place = _ :=
    place_attach ht hmaps hk (w.segments i) vaddr
  have hheld := held_take h.finitelyHeld (place_inactive ht hina) (w.segments i).shmid
  refine .updateSegment h hcounted hi hbase2 rfl hseg ?_ fun id hid => ?_
  · rw [hcount, hplace, hheld, if_pos rfl, hcounted i hi, BitVec.ofNat_add]
    rfl
  · rw [hplace, hheld, if_neg hid.symm, Nat.add_zero]

end

theorem Base.release (ht : w.tasks pid = some ⟨proc, phase⟩) (hi : w.Allocated i)
    (hid : (w.segments i).shmid = (proc.shmMappings k).shmid)
    (hgone : ∀ j, j < (w.segments i).numPages → ∀ n, n * 4096 = (proc.shmMappings k).vaddr + j * 4096 →
      ¬ Borrows w.machine.mem proc.map.pml4Phys n ((w.segments i).physPages.getD j 0))
    (hpast : ∀ j, j < phase'.past → ((proc.release k).shmMappings j).active = false) :
    Base lent (w.setTask pid (some ⟨proc.release k, phase'⟩)) := by
  have hupd : ∀ j, (proc.release k).shmMappings j = if j = k then { proc.shmMappings k with active := false }
      else proc.shmMappings j := fun j => update_apply ..
  have hslots : ∀ j, j < maxProcShm → ((proc.release k).shmMappings j).active = true →
      w.SlotOk ((proc.release k).shmMappings j) := by
    intro j hj
    rw [hupd]
    split_ifs
    · exact fun hact => by simp at hact
    · exact h.slots pid _ j ht hj
  refine h.setTask ht rfl hslots hpast fun n a hn hb hx => ?_
  obtain ⟨j, hj, hact, i', hi', hid', m, hm, hpage, ha⟩ := h.cover pid _ n a ht hn hb hx
  have hne : j ≠ k := fun hjk => by
    rw [hjk] at hid' hpage
    have hii : i' = i := h.distinct i' i hi' hi (hid'.trans hid.symm)
    rw [hii] at hm ha
    exact hgone m hm n hpage (ha ▸ hb)
  refine ⟨j, hj, ?_⟩
  rw [hupd, if_neg hne]
  exact ⟨hact, i', hi', hid', m, hm, hpage, ha⟩

end

theorem slotOf_release (proc : ShmProc) (k : Nat) (hph : phase ≠ .zombie) (hph' : phase' ≠ .zombie) :
    (∀ j, j ≠ k → slotOf ⟨proc.release k, phase'⟩ j = slotOf ⟨proc, phase⟩ j) ∧
      slotOf ⟨proc.release k, phase'⟩ k = none := by
  refine ⟨fun j hj => ?_, ?_⟩
  · unfold slotOf
    rw [show (proc.release k).shmMappings j = proc.shmMappings j from update_of_ne hj ..]
    simp [hph, hph']
  · unfold slotOf
    rw [show (proc.release k).shmMappings k = { proc.shmMappings k with active := false } from update_self ..]
    simp

theorem slotOf_phase (hph : phase ≠ .zombie) (hph' : phase' ≠ .zombie) (k : Nat) :
    slotOf ⟨proc, phase'⟩ k = slotOf ⟨proc, phase⟩ k := by
  unfold slotOf
  simp [hph, hph']

theorem find_range_eq {P : Nat → Bool} (hk : k < n) (hP : P k = true) (hbef : ∀ j, j < k → P j = false) :
    (range n).find? P = some k := by
  rw [find?_range_eq_some]
  refine ⟨hP, mem_range.mpr hk, fun j hj => ?_⟩
  rw [hbef j hj]
  rfl

theorem shmFork_spec {R : Set Nat} {sh : Shm} (hfam : Family sh.machine R ext lent) (hroot : proc.map.pml4Phys ∈ R)
    (child : Nat) : (shmFork sh proc child).1 = { sh with machine := (shmFork sh proc child).1.machine } ∧
      BorrowsLess sh.machine.mem (shmFork sh proc child).1.machine.mem R ∧
      (shmFork sh proc child).1.machine.pmm.totalPages = sh.machine.pmm.totalPages ∧
      match (shmFork sh proc child).2 with
      | none => ∃ ext', Family (shmFork sh proc child).1.machine R ext' lent
      | some new => new.map.isKernel = false ∧ new.map.pml4Phys ∉ R ∧ (∀ k, (new.shmMappings k).active = false) ∧
        (∀ n, n < 2 ^ 35 → ∀ a, ¬ Borrows (shmFork sh proc child).1.machine.mem new.map.pml4Phys n a) ∧
        ∃ ext', Family (shmFork sh proc child).1.machine (insert new.map.pml4Phys R) ext' lent := by
  unfold shmFork
  obtain ⟨hs1, -, hfam1, htot1, hmem1, -⟩ := hfam.kmalloc
  rcases hk : sh.machine.kmalloc with ⟨_ | _, s1⟩
  · rw [hk] at hfam1 htot1 hmem1
    refine ⟨rfl, ?_, htot1, _, hfam1⟩
    rw [hmem1]
    exact fun _ _ _ _ _ hb => hb
  rw [hk] at hfam1 htot1 hmem1
  dsimp only at hfam1 htot1 hmem1 ⊢
  rw [← hmem1, ← htot1]
  obtain ⟨hs2, -, htot2, -, hmade⟩ := hfam1.create
  rcases hc : vmmCreateAddressSpace s1 with ⟨_ | old, s2⟩
  · rw [hc] at htot2 hmade
    obtain ⟨-, hfam2, hsame⟩ := hmade
    exact ⟨rfl, .of_same hsame, htot2, _, hfam2⟩
  rw [hc] at htot2 hmade
  obtain ⟨hkern, hold, hfam2, -, hsame, -⟩ := hmade
  dsimp only at htot2 hfam2 hsame ⊢
  obtain ⟨hs3, -, htot3, -, hclon⟩ := hfam2.clone (mem_insert_of_mem _ hroot)
  rcases hd : vmmCloneAddressSpace s2 proc.map with ⟨_ | map, s3⟩
  · rw [hd] at htot3 hclon
    obtain ⟨hfam3, hsame3⟩ := hclon
    obtain ⟨hfam4, hstay, hmem⟩ := hfam3.destroy (mem_insert _ _) hkern
    rw [insert_sdiff_of_mem _ (mem_singleton _), sdiff_singleton_eq_self hold] at hfam4
    refine ⟨rfl, ?_, hstay.1.trans (htot3.trans htot2), _, hfam4⟩
    rw [hmem]
    apply BorrowsLess.of_same
    intro r hr q j hq
    rw [hsame3 r (mem_insert_of_mem _ hr) q j hq, hsame r hr q j hq]
  · rw [hd] at htot3 hclon
    obtain ⟨hkern', hnew, hfam3, hclone⟩ := hclon
    obtain ⟨hfam4, hstay, hmem⟩ := hfam3.destroy (mem_insert_of_mem _ (mem_insert _ _)) hkern
    have hne : map.pml4Phys ≠ old.pml4Phys := fun heq => hnew (.inl heq)
    have hback : insert map.pml4Phys (insert old.pml4Phys R) \ {old.pml4Phys} = insert map.pml4Phys R := by
      rw [insert_sdiff_of_notMem _ (by simpa using hne), insert_sdiff_of_mem _ (mem_singleton _),
        sdiff_singleton_eq_self hold]
    rw [hback] at hfam4
    rw [hmem]
    refine ⟨rfl, ?_, hstay.1.trans (htot3.trans htot2), hkern', fun hin => hnew (.inr hin), fun _ => rfl,
      fun n hn a => Cloned.unborrowed hfam2 (mem_insert_of_mem _ hroot) hclone hn a, _, hfam4⟩
    apply BorrowsLess.of_same
    intro r hr q j hq
    rw [hclone.others r (mem_insert_of_mem _ hr) q j hq, hsame r hr q j hq]

section

variable (h : Base lent w) (hcounted : Counted w)

include h hcounted

theorem Good.get (hlog : w.machine.freed = []) (ht : w.tasks pid = some ⟨proc, phase⟩) (key : BitVec 32) (size : Nat)
    (shmflg : BitVec 32) (now : Nat) :
    Good lent removed w ((w.setShm (shmGet w.toShm proc key size shmflg now).2).setTask pid (some ⟨proc, phase⟩)) := by
  obtain ⟨ext, hfam⟩ := h.family
  unfold shmGet
  split
  · exact .of_machine h hcounted ht rfl rfl (.refl hfam)
  split
  · exact .of_machine h hcounted ht rfl rfl (.refl hfam)
  rename_i i hfound
  obtain ⟨hs, -, hfam1, htot1, hmem1, -⟩ := hfam.kmalloc
  have hgone1 := kmalloc_freed w.machine
  rcases hk : w.machine.kmalloc with ⟨_ | _, s1⟩
  · rw [hk] at hfam1 htot1 hmem1
    refine .of_machine h hcounted ht rfl rfl ⟨hfam1, ?_, htot1⟩
    rw [hmem1]
    exact fun _ _ _ _ _ hb => hb
  rw [hk] at hfam1 htot1 hgone1 hmem1
  dsimp only at hfam1 htot1 hgone1 hmem1 ⊢
  have hnothing : Family s1 w.roots (frameSet [] ∪ (ext ∪ heapSet hs)) (lent ∪ w.frames) := by
    rw [frameSet_nil, empty_union]
    exact hfam1
  have htake := shmTakePages_spec hfam1.ledger.lent_ext ((size + 4095) / 4096) hnothing FreshPages.nil
  rcases hpage : shmTakePages s1 [] ((size + 4095) / 4096) with ⟨_ | pages, s2⟩
  · rw [hpage] at htake
    refine .of_machine h hcounted ht rfl rfl ⟨htake.family, ?_, htake.total.trans htot1⟩
    rw [← hmem1]
    exact .of_same htake.slots
  rw [hpage] at htake
  obtain ⟨htook, hnew, hlen, hgone2⟩ := htake
  obtain ⟨hilt, hfree⟩ := find_range_some hfound
  rw [Bool.not_eq_true'] at hfree
  have hbase : Base lent (w.addSegment s2 i (newSegment w.nextShmid key size pages shmflg proc now)) := by
    refine h.addSegment hilt hfree htook.family ?_ hfam1.ledger.lent_ext ?_ (htook.total.trans htot1) ?_ rfl rfl ?_
    · rw [hgone2, hgone1, hlog]
    · rw [← hmem1]
      exact htook.slots
    · rw [← htot1]
      exact hnew
    · rw [show (newSegment w.nextShmid key size pages shmflg proc now).physPages = pages from rfl, hlen]
      simp [newSegment]
  have ht' : (w.addSegment s2 i (newSegment w.nextShmid key size pages shmflg proc now)).tasks pid = some ⟨proc, phase⟩ := ht
  show Good lent removed w ((w.addSegment s2 i (newSegment w.nextShmid key size pages shmflg proc now)).setTask pid
    (some ⟨proc, phase⟩))
  rw [setTask_eq_self ht']
  refine ⟨hbase, fun j hj => ?_, fun j hj => .inl ⟨(allocated_addSegment hilt rfl).mpr (.inr hj), ?_⟩⟩
  · rw [segments_addSegment]
    rcases (allocated_addSegment hilt rfl).mp hj with hji | hj
    · -- nobody has the new identifier in a slot
      rw [if_pos hji]
      have hzero : held w.place w.nextShmid = 0 := by
        rw [held_eq_zero h.finitelyHeld]
        intro x hx
        obtain ⟨t, ht, -, hk, hact, hid⟩ := place_eq_some.mp hx
        obtain ⟨j, hj, hidj, -⟩ := h.slots _ t _ ht hk hact
        have := (h.issued j hj).2
        rw [hidj, hid] at this
        omega
      show (0 : BitVec 32) = BitVec.ofNat 32 (held w.place w.nextShmid)
      rw [hzero]
      rfl
    · rw [if_neg (hj.ne_of_free hfree)]
      exact hcounted j hj
  · rw [segments_addSegment, if_neg (hj.ne_of_free hfree)]
    exact .refl _

theorem Good.attach (ht : w.tasks pid = some ⟨proc, .running⟩) (shmid : BitVec 32) (shmaddr now : Nat) :
    Good lent removed w ((w.setShm (shmAt w.toShm proc shmid shmaddr now).2.1).setTask pid
      (some ⟨(shmAt w.toShm proc shmid shmaddr now).2.2, .running⟩)) := by
  obtain ⟨ext, hfam⟩ := h.family
  have hroot := mem_roots ht
  have hkern := h.user pid _ ht
  have hmap := startMmap_map proc
  have hmaps := startMmap_shmMappings proc
  unfold shmAt
  split
  · exact .of_machine h hcounted ht rfl rfl (.refl hfam)
  rename_i i hfound
  split
  · exact .of_machine h hcounted ht rfl rfl (.refl hfam)
  rename_i k hslot
  dsimp only
  generalize (if shmaddr = 0 then proc.startMmap.mmapCurrent else shmaddr) = vaddr
  obtain ⟨hi, -, hlow⟩ := findById_some hfound
  split_ifs with hargs htook
  · exact .of_machine h hcounted ht hmap hmaps (.refl hfam)
  · exact .of_machine h hcounted ht hmap hmaps (.refl hfam)
  simp only [not_or, Bool.not_eq_true', not_not, Bool.not_eq_false] at hargs
  obtain ⟨halign, huser⟩ := hargs
  have hfree : ∀ j, j < (w.segments i).numPages → vmmVirtToPhys w.machine.mem proc.map (vaddr + j * 4096) = 0 := by
    intro j hj
    by_contra hne
    apply htook
    rw [any_eq_true]
    refine ⟨j, mem_range.mpr hj, ?_⟩
    rw [hmap]
    simpa using hne
  have hloop := shmMapLoop hfam hroot hkern (fun j => h.segment_page hi) halign huser hfree
  rw [hmap]
  rcases hres : (range (w.segments i).numPages).foldlM (shmMapPage proc.map vaddr (w.segments i).physPages)
    w.machine with ⟨s, j⟩ | s
  · obtain ⟨hfam', hj, hmapped, hstay⟩ := hloop.of_error _ hres
    have huser' : vmmUserRange vaddr (j * 4096) = true := userRange_mono huser (Nat.mul_le_mul_right _ hj.le)
    exact .of_machine h hcounted ht hmap hmaps (shmMap_undone hfam' hroot hkern hmapped hstay huser')
  · obtain ⟨hfam', hmapped, hstay⟩ := hloop.of_ok _ hres
    obtain ⟨hklt, hina⟩ := find_range_some hslot
    rw [Bool.not_eq_true'] at hina
    exact .attached h ht hmap hmaps hina hi hlow halign huser hcounted hklt hfam' hstay.1 hmapped
      ⟨rfl, rfl, rfl, rfl⟩ rfl

theorem Good.setSegment (hi : w.Allocated i) (hseg : SameSegment (w.segments i) seg)
    (hcount : seg.attachCount = (w.segments i).attachCount) :
    Good lent removed w (w.setSegments (update w.segments i seg)) :=
  .updateSegment h hcounted hi h rfl hseg (hcount.trans (hcounted i hi)) fun _ _ => rfl

theorem Good.fork (ht : w.tasks pid = some ⟨proc, .running⟩) {child : Nat}
    (hkid : w.tasks child = none) :
    Good lent removed w (match shmFork w.toShm proc child with
      | (sh, none) => w.setShm sh
      | (sh, some new) => (w.setShm sh).setTask child (some ⟨new, .running⟩)) := by
  obtain ⟨ext, hfam⟩ := h.family
  obtain ⟨hsh, hless, htot, hres⟩ := shmFork_spec hfam (mem_roots ht) child
  rcases hf : shmFork w.toShm proc child with ⟨sh, _ | new⟩
  · rw [hf] at hsh hless htot hres
    obtain ⟨ext', hfam'⟩ := hres
    dsimp only at hsh hless htot hfam' ⊢
    have hbase := h.setMachine ⟨hfam', hless, htot⟩
    rw [hsh]
    exact .of_same hcounted hbase rfl rfl
  · rw [hf] at hsh hless htot hres
    obtain ⟨hkern, hnew, hina, hemp, ext', hfam'⟩ := hres
    dsimp only at hsh hless htot hfam' hemp ⊢
    have hbase : Base lent ((w.setMachine sh.machine).setTask child (some ⟨new, .running⟩)) :=
      h.addTask hkid hfam' hless htot hnew hkern hemp hina
    rw [hsh]
    refine .of_same hcounted hbase rfl (place_setTask_same hkid fun k => ?_)
    rw [bind_some, slotOf, if_neg]
    · rfl
    · simp [hina]

theorem Good.reap (ht : w.tasks pid = some ⟨proc, .zombie⟩) :
    Good lent removed w ((w.setMachine (vmmDestroyAddressSpace w.machine proc.map)).setTask pid none) := by
  obtain ⟨ext, hfam⟩ := h.family
  obtain ⟨hfam', hstay, hmem⟩ := hfam.destroy (mem_roots ht) (h.user pid _ ht)
  have hbase := h.dropTask ht hfam' hmem hstay.1
  exact .of_same hcounted hbase rfl (place_setTask_same ht fun k => rfl)

section

variable (hfew : Few w)

include hfew

theorem Good.detached (ht : w.tasks pid = some ⟨proc, phase⟩)
    (hph : phase ≠ .zombie) (hph' : phase' ≠ .zombie) (hk : k < maxProcShm) (hact : (proc.shmMappings k).active = true)
    (hi : w.Allocated i) (hid : (w.segments i).shmid = (proc.shmMappings k).shmid) (now : Nat)
    (hpast : ∀ j, j < phase'.past → ((proc.release k).shmMappings j).active = false) :
    Good lent (fun i => (w.segments i).markedRmid = true) w
      ((w.setShm (w.toShm.detach i proc.map (proc.shmMappings k).vaddr proc.pid now)).setTask pid
        (some ⟨proc.release k, phase'⟩)) := by
  obtain ⟨i', hi', hid', hlow, halign, huser⟩ := h.slots pid _ k ht hk hact
  have hii : i' = i := h.distinct i' i hi' hi (hid'.trans hid.symm)
  rw [hii] at huser
  rw [← hid] at hlow
  obtain ⟨ext, hfam⟩ := h.family
  obtain ⟨hfewer, hgone⟩ := shmUnmapPages_spec hfam (mem_roots ht) (h.user pid _ ht) halign huser
  have hbase2 := (h.setMachine hfewer).release ht hi hid hgone hpast
  obtain ⟨hrest, hself⟩ := slotOf_release proc k hph hph'
  have hx : w.place (pid, k) = some (w.segments i).shmid := by
    rw [hid]
    exact place_eq_some.mpr ⟨_, ht, hph, hk, hact, rfl⟩
  have hdrop := held_drop h.finitelyHeld hx
  rw [← hself, ← place_setTask ht hrest] at hdrop
  -- the world before the segment may be freed
  obtain ⟨w1, hw⟩ : ∃ w1, w1 = ((w.setMachine (shmUnmapPages w.machine proc.map (proc.shmMappings k).vaddr
    (w.segments i))).setTask pid (some ⟨proc.release k, phase'⟩)).setSegments
      (update w.segments i ((w.segments i).detach proc.pid now)) := ⟨_, rfl⟩
  have hgood : ∀ removed, Good lent removed w w1 := by
    intro removed
    rw [hw]
    refine .updateSegment h hcounted hi hbase2 rfl ⟨rfl, rfl, rfl, rfl⟩ ?_ fun id hne => ?_
    · show (w.segments i).attachCount - 1 = _
      rw [hcounted i hi, ← hdrop, if_pos rfl, BitVec.ofNat_add]
      exact BitVec.add_sub_cancel _ _
    · rw [← hdrop, if_neg hne.symm]
      rfl
  have hres : (w.setShm (w.toShm.detach i proc.map (proc.shmMappings k).vaddr proc.pid now)).setTask pid
      (some ⟨proc.release k, phase'⟩) = w1.setShm (if (w1.segments i).attachCount.toInt ≤ 0 ∧
        (w1.segments i).markedRmid then w1.toShm.freeSegment i else w1.toShm) := by
    rw [hw]
    rfl
  rw [hres]
  split_ifs with hcond
  · -- the last attachment of a segment that is marked
    obtain ⟨hle, hmark⟩ := hcond
    refine .unused hgood hi hlow ?_ hle ?_
    · refine Nat.lt_of_le_of_lt ?_ (hfew (w.segments i).shmid)
      rw [← hdrop, hw]
      exact Nat.le_add_right ..
    · rw [hw] at hmark
      simpa [setSegments, Segment.detach] using hmark
  · exact hgood _

theorem Good.detach (ht : w.tasks pid = some ⟨proc, phase⟩) (hph : phase ≠ .zombie) (hph' : phase' ≠ .zombie)
    (shmaddr now : Nat)
    (hpast : ∀ j, j < phase'.past → ((shmDt w.toShm proc shmaddr now).2.2.shmMappings j).active = false) :
    Good lent (fun i => (w.segments i).markedRmid = true) w
      ((w.setShm (shmDt w.toShm proc shmaddr now).2.1).setTask pid
        (some ⟨(shmDt w.toShm proc shmaddr now).2.2, phase'⟩)) := by
  unfold shmDt at hpast ⊢
  split_ifs at hpast ⊢ with hzero
  · exact .of_phase h hcounted ht hpast (slotOf_phase hph hph')
  split at hpast
  · exact .of_phase h hcounted ht hpast (slotOf_phase hph hph')
  rename_i k hfound
  obtain ⟨hk, hmatch⟩ := find_range_some hfound
  rw [Bool.and_eq_true, beq_iff_eq] at hmatch
  obtain ⟨hact, rfl⟩ := hmatch
  obtain ⟨i, hi, hid, hlow, -⟩ := h.slots pid _ k ht hk hact
  have hfind := h.findById hi (by rw [hid]; exact hlow)
  rw [hid] at hfind
  rw [hfind] at hpast ⊢
  exact .detached h hcounted hfew ht hph hph' hk hact hi hid now hpast

theorem Good.exitSlot (ht : w.tasks pid = some ⟨proc, .exiting k⟩) (hk : k < maxProcShm) (now : Nat) :
    Good lent (fun i => (w.segments i).markedRmid = true) w
      ((w.setShm (shmExitSlot now (w.toShm, proc) k).1).setTask pid
        (some ⟨(shmExitSlot now (w.toShm, proc) k).2, .exiting (k + 1)⟩)) := by
  have hpast := fun j (hj : j < k) => h.past pid _ j ht hj
  unfold shmExitSlot
  split_ifs with hact
  · dsimp only at hact
    refine .detach h hcounted hfew ht (by simp) (by simp) _ now fun j hj => ?_
    have hj' : j < k + 1 := hj
    obtain ⟨i, hi, hid, hlow, -, huser⟩ := h.slots pid _ k ht hk hact
    have hpos : (proc.shmMappings k).vaddr ≠ 0 := by
      simp only [vmmUserRange, Bool.and_eq_true, decide_eq_true_eq] at huser
      omega
    -- the slot itself is the first that matches
    have hfind : (range maxProcShm).find? (fun m => (proc.shmMappings m).active &&
        (proc.shmMappings m).vaddr == (proc.shmMappings k).vaddr) = some k := by
      apply find_range_eq hk
      · simp [hact]
      · intro m hm
        rw [hpast m hm]
        rfl
    have haft : (shmDt w.toShm proc (proc.shmMappings k).vaddr now).2.2 = proc.release k := by
      unfold shmDt
      rw [if_neg hpos, hfind]
      dsimp only
      split <;> rfl
    rw [haft, ShmProc.release]
    dsimp only
    rw [update_apply]
    split_ifs with hjk
    · rfl
    · exact hpast j (by omega)
  · refine .of_phase h hcounted ht (fun j hj => ?_) (slotOf_phase (by simp) (by simp))
    have hj' : j < k + 1 := hj
    by_cases hjk : j = k
    · rw [hjk]
      simpa using hact
    · exact hpast j (by omega)

theorem Good.ctl (shmid : BitVec 32) (cmd : ShmCmd) (now : Nat) :
    Good lent (fun i => (w.segments i).shmid = shmid ∧ cmd = .rmid) w
      (w.setShm (shmCtl w.toShm shmid cmd now).2.2) := by
  have hsame : Good lent (fun i => (w.segments i).shmid = shmid ∧ cmd = .rmid) w w := .of_same hcounted h rfl rfl
  unfold shmCtl
  split
  · exact hsame
  rename_i i hfound
  obtain ⟨hi, hid, hlow⟩ := findById_some hfound
  cases cmd with
  | rmid =>
    have hseg : SameSegment (w.segments i) { w.segments i with markedRmid := true } := ⟨rfl, rfl, rfl, rfl⟩
    have hmark : ∀ removed, Good lent removed w
        (w.setSegments (update w.segments i { w.segments i with markedRmid := true })) :=
      fun _ => .setSegment h hcounted hi hseg rfl
    dsimp only
    split_ifs with hle
    · refine .unused hmark hi hlow (hfew _) ?_ ⟨hid, rfl⟩
      simpa [setSegments] using hle
    · exact hmark _
  | stat buf =>
    cases buf with
    | none => exact hsame
    | some _ => exact hsame
  | set buf =>
    cases buf with
    | none => exact hsame
    | some buf =>
      have hseg : SameSegment (w.segments i) { w.segments i with
          uid := buf.uid, gid := buf.gid, mode := buf.mode &&& 0o777, ctime := now } := ⟨rfl, rfl, rfl, rfl⟩
      exact .setSegment h hcounted hi hseg rfl
  | other => exact hsame

end

end

end Calls

end ShmWorld

end SzpontOS.Ipc
