import SzpontOS.Lib.Run
import SzpontOS.Fd.FdInv

/-!
# Runs of the descriptor calls

Any interleaving of the calls keeps counts and pointers together (`descriptor_accounting`), as long as no description
has `2 ^ 32` pointers at once; then `refcount` is zero again (`refcount_overflow`).
-/

namespace SzpontOS.Fd

open Lib Relation Function Finset Nat Option
open List hiding mem_range mem_product

variable {q : Int} {i d0 d1 n k : Nat}

namespace FdWorld

variable {w w' : FdWorld} {owed : List Nat} {d : Nat} {f : Desc} {p : Place} {pid : Int} {fd s : Nat} {b : Bool}

structure Sound (w : FdWorld) : Prop where
  inv : Inv w []
  marked : Marked w

/-! ## Closing -/

theorem Inv.setCloexec (h : Inv w owed) (pid : Int) (fd : Nat) (b : Bool) : Inv (w.setCloexec pid fd b) owed :=
  { h with }

theorem release_inv (h : Inv w (d :: owed)) (hfew : Few w (d :: owed)) :
    Inv (w.release d) owed ∧ Released w (w.release d) :=
  fdRelease_inv _ w d owed (lt_succ_self _) hfew h

/-- What is in a place counts, whether it stays there or its release is owed. -/
theorem Inv.few_takeOut (h : Inv w owed) (hfew : Few w owed) (hp : w.place p = some d) :
    Few (w.setPlace p none) (d :: owed) := by
  intro e
  have := held_drop h.finite hp e
  have := hfew e
  rw [count_cons, place_setPlace]
  simp only [beq_iff_eq]
  omega

structure Closed (pid : Int) (fd : Nat) (w w' : FdWorld) : Prop where
  sound : Sound w'
  few : Few w' []
  gone : w'.place (slot pid fd) = none
  others : ∀ q i, (q, i) ≠ (pid, fd) → w'.place (slot q i) = w.place (slot q i) ∧ w'.cloexec q i = w.cloexec q i

theorem slot_inj : slot q i = slot pid fd ↔ (q, i) = (pid, fd) := by
  exact Sum.inl_injective.eq_iff

theorem closeSlot_closed (h : Sound w) (hfew : Few w []) (pid : Int) (fd : Nat) : Closed pid fd w (w.closeSlot pid fd) := by
  unfold closeSlot
  rcases hp : w.place (slot pid fd) with _ | d
  · exact ⟨h, hfew, hp, fun _ _ _ => ⟨rfl, rfl⟩⟩
  · have htook := (h.inv.takeOut hp).setCloexec pid fd false
    have hfew' : Few ((w.setPlace (slot pid fd) none).setCloexec pid fd false) [d] := h.inv.few_takeOut hfew hp
    obtain ⟨hinv, hrel⟩ := release_inv htook hfew'
    have hgone : ((w.setPlace (slot pid fd) none).setCloexec pid fd false).place (slot pid fd) = none :=
      update_self ..
    have hrest : ∀ q i, (q, i) ≠ (pid, fd) →
        ((w.setPlace (slot pid fd) none).setCloexec pid fd false).place (slot q i) = w.place (slot q i) := by
      intro q i hne
      exact update_of_ne (fun heq => hne (slot_inj.mp heq)) ..
    have hmark : ∀ q i, ((w.setPlace (slot pid fd) none).setCloexec pid fd false).cloexec q i =
        if q = pid ∧ i = fd then false else w.cloexec q i := fun _ _ => rfl
    refine ⟨⟨hinv, fun q i hq => ?_⟩, ?_, ?_, fun q i hne => ⟨?_, ?_⟩⟩
    · rw [hrel.slot] at hq
      rw [hrel.cloexec, hmark]
      split_ifs with heq
      · rfl
      · rw [hrest q i (by simpa using heq)] at hq
        exact h.marked q i hq
    · refine Few.released ?_ htook.finite hrel
      intro e
      have := hfew' e
      rw [count_cons] at this
      omega
    · rw [hrel.slot, hgone]
    · rw [hrel.slot, hrest q i hne]
    · rw [hrel.cloexec, hmark, if_neg (by simpa using hne)]

/-! ## Copying -/

theorem setPlace_retain (w : FdWorld) (p : Place) (x : Option Nat) (d : Nat) :
    (w.setPlace p x).retain d = (w.retain d).setPlace p x := by
  unfold FdWorld.retain
  have hdescs : (w.setPlace p x).descs = w.descs := rfl
  rw [hdescs]
  rcases w.descs d with _ | f
  · rfl
  · rfl

theorem retain_same (w : FdWorld) (d : Nat) :
    (w.retain d).place = w.place ∧ (w.retain d).cloexec = w.cloexec ∧ (w.retain d).socks = w.socks := by
  unfold FdWorld.retain
  rcases w.descs d with _ | f
  · exact ⟨rfl, rfl, rfl⟩
  · exact ⟨rfl, rfl, rfl⟩

theorem place_retain (w : FdWorld) (d : Nat) : (w.retain d).place = w.place := (retain_same w d).1

theorem place_install : (w.install pid fd d b).place = update w.place (slot pid fd) (some d) := by
  show ((w.setPlace (slot pid fd) (some d)).retain d).place = _
  rw [place_retain]
  rfl

theorem cloexec_install (w : FdWorld) (pid : Int) (fd d : Nat) (b : Bool) (q : Int) (i : Nat) :
    (w.install pid fd d b).cloexec q i = if q = pid ∧ i = fd then b else w.cloexec q i := by
  unfold install setCloexec
  rw [(retain_same _ d).2.1]
  rfl

theorem Marked.fill (h : Marked w) (pid : Int) (fd : Nat)
    (hplace : ∀ q i, (q, i) ≠ (pid, fd) → w'.place (slot q i) = w.place (slot q i))
    (hfull : w'.place (slot pid fd) ≠ none)
    (hmark : ∀ q i, (q, i) ≠ (pid, fd) → w'.cloexec q i = w.cloexec q i) : Marked w' := by
  intro q i hq
  by_cases heq : (q, i) = (pid, fd)
  · rw [Prod.mk.injEq] at heq
    rw [heq.1, heq.2] at hq
    exact absurd hq hfull
  · rw [hmark q i heq]
    rw [hplace q i heq] at hq
    exact h q i hq

theorem place_slot_update {x : Option Nat} (hne : (q, i) ≠ (pid, fd)) :
    update w.place (slot pid fd) x (slot q i) = w.place (slot q i) :=
  update_of_ne (fun heq => hne (slot_inj.mp heq)) ..

theorem Inv.fillSlot (h : Inv w (d :: owed)) (hemp : w.place (slot pid fd) = none) (hfd : fd < maxFd) :
    Inv (w.setPlace (slot pid fd) (some d)) owed := by
  refine h.putIn hemp (fun q i heq => ?_) fun r i heq => absurd heq slot_ne_passed
  rw [slot_inj, Prod.mk.injEq] at heq
  exact heq.2 ▸ hfd

theorem install_sound (h : Sound w) (hemp : w.place (slot pid fd) = none) (hfd : fd < maxFd)
    (hd : w.descs d ≠ none) : Sound (w.install pid fd d b) := by
  refine ⟨?_, h.marked.fill pid fd (fun q i hne => ?_) ?_ fun q i hne => ?_⟩
  · have hput := (h.inv.retain hd).fillSlot (by rw [place_retain, hemp]) hfd
    rw [← setPlace_retain] at hput
    exact hput.setCloexec pid fd b
  · rw [place_install]
    exact place_slot_update hne
  · rw [place_install, update_self]
    simp
  · rw [cloexec_install, if_neg (by simpa using hne)]

theorem freeSlot_some {start : Nat} (h : w.freeSlot pid start = some i) :
    i < maxFd ∧ start ≤ i ∧ w.place (slot pid i) = none := by
  have hmem := List.mem_of_find?_eq_some h
  have hfree := List.find?_some h
  exact ⟨List.mem_range.mp hmem, by simpa using hfree⟩

theorem lookup_some (h : w.lookup pid q = some d) : w.place (slot pid q.toNat) = some d ∧ 0 ≤ q := by
  unfold lookup at h
  split_ifs at h with hrange
  exact ⟨h, hrange.1⟩

theorem setCloexec_sound (h : Sound w) (hold : w.place (slot q fd) ≠ none) (b : Bool) : Sound (w.setCloexec q fd b) := by
  refine ⟨h.inv.setCloexec q fd b, h.marked.fill q fd (fun _ _ _ => rfl) hold fun r i hne => ?_⟩
  exact if_neg (by simpa using hne)

/-- **What a call does with a descriptor.** It closes or marks it, or copies it to a free slot or over another one. -/
inductive Changed (pid : Int) (w : FdWorld) : FdWorld → Prop
  | same : Changed pid w w
  | close (fd : Nat) : Changed pid w (w.closeSlot pid fd)
  | mark {fd d : Nat} (hold : w.place (slot pid fd) = some d) (b : Bool) : Changed pid w (w.setCloexec pid fd b)
  | copy {i fd d : Nat} (hold : w.place (slot pid i) = some d) (hemp : w.place (slot pid fd) = none) (hfd : fd < maxFd)
    (b : Bool) : Changed pid w (w.install pid fd d b)
  | move {i fd d : Nat} (hold : w.place (slot pid i) = some d) (hne : i ≠ fd) (hfd : fd < maxFd) (b : Bool) :
    Changed pid w (w.dupTo pid d fd b).2

theorem Changed.sound (hchange : Changed pid w w') (h : Sound w) (hfew : Few w []) : Sound w' := by
  cases hchange with
  | same => exact h
  | close fd => exact (closeSlot_closed h hfew pid fd).sound
  | mark hold b => exact setCloexec_sound h (by rw [hold]; simp) b
  | copy hold hemp hfd b => exact install_sound h hemp hfd (h.inv.place_desc _ _ hold)
  | @move i fd d hold hne hfd b =>
    have hshut := closeSlot_closed h hfew pid fd
    -- the description is in use through the old descriptor
    have hkept : (w.closeSlot pid fd).place (slot pid i) = some d := by
      rw [(hshut.others pid i (by simp [hne])).1, hold]
    exact install_sound hshut.sound hshut.gone hfd (hshut.sound.inv.place_desc _ d hkept)

section

variable (w : FdWorld) (pid : Int)

theorem sysClose_changed (q : Int) : Changed pid w (w.sysClose pid q).2 := by
  unfold sysClose
  split
  · exact .same
  · exact .close _

theorem dupFrom_changed (hold : w.place (slot pid i) = some d) (start : Nat) (b : Bool) :
    Changed pid w (w.dupFrom pid d start b).2 := by
  unfold dupFrom
  split
  · exact .same
  · rename_i j hj
    obtain ⟨hlt, -, hemp⟩ := freeSlot_some hj
    exact .copy hold hemp hlt b

theorem sysDup_changed (oldfd : Int) : Changed pid w (w.sysDup pid oldfd).2 := by
  unfold sysDup
  split
  · exact .same
  · rename_i d hd
    exact dupFrom_changed w pid (lookup_some hd).1 0 false

theorem sysDup2_changed (oldfd newfd : Int) : Changed pid w (w.sysDup2 pid oldfd newfd).2 := by
  unfold sysDup2
  split
  · exact .same
  · rename_i d hd
    obtain ⟨hold, hpos⟩ := lookup_some hd
    split_ifs with hrange heq
    · exact .same
    · exact .same
    · exact .move hold (by omega) (by omega) false

theorem sysDup3_changed (oldfd newfd : Int) (flags : BitVec 32) : Changed pid w (w.sysDup3 pid oldfd newfd flags).2 := by
  unfold sysDup3
  split
  · exact .same
  split
  · exact .same
  · split
    · exact .same
    · rename_i d hd
      obtain ⟨hold, hpos⟩ := lookup_some hd
      split
      · exact .same
      · exact .move hold (by omega) (by omega) _

theorem sysFcntl_changed (q cmd : Int) (arg : BitVec 64) : Changed pid w (w.sysFcntl pid q cmd arg).2 ∨
    ∃ d f, cmd = 4 ∧ w.lookup pid q = some d ∧ w.descs d = some f ∧
      (w.sysFcntl pid q cmd arg).2 = w.setDesc d (some { f with flags := arg.setWidth 32 }) := by
  unfold sysFcntl
  split
  · exact .inl .same
  · rename_i d hd
    obtain ⟨hold, -⟩ := lookup_some hd
    dsimp only
    split
    · split
      · exact .inl .same
      · exact .inl (dupFrom_changed w pid hold _ _)
    split
    · exact .inl .same
    split
    · exact .inl (.mark hold _)
    · split
      · exact .inl .same
      · rename_i f hf
        split
        · exact .inl .same
        split
        · rename_i hcmd
          exact .inr ⟨d, f, hcmd, hd, hf, rfl⟩
        · exact .inl .same

end

/-! ## Pipes -/

theorem Inv.alloc (h : Inv w owed) (hnew : w.descs d = none) (hone : f.refcount = 1)
    (hdest : ∀ s, f.target ≠ .socket s) : Inv (w.setDesc d (some f)) (d :: owed) := by
  have hheld : held w.place d = 0 := (held_eq_zero h.finite).mpr fun p hp => h.place_desc p d hp hnew
  have howed : owed.count d = 0 := count_eq_zero.mpr fun hmem => h.owed_desc d hmem hnew
  refine h.setDesc (fun e hed => count_cons_of_ne (Ne.symm hed)) (fun hx => by cases hx) fun g hg => ?_
  obtain rfl := some.inj hg
  rw [hone, count_cons_self, howed, hheld]
  exact ⟨rfl, by omega, fun s hs => absurd hs (hdest s)⟩

theorem Inv.setChan (h : Inv w owed) (c : Nat) (ch : Option Chan) : Inv (w.setChan c ch) owed :=
  { h with }

theorem Inv.swap (h : Inv w (d0 :: d1 :: owed)) : Inv w (d1 :: d0 :: owed) := by
  have hcount : ∀ e, (d1 :: d0 :: owed).count e = (d0 :: d1 :: owed).count e := fun e => (List.Perm.swap d0 d1 owed).count_eq e
  refine { h with owed_desc := fun e he => ?_, counted := fun e f hf => ?_, live := fun e f hf => ?_ }
  · exact h.owed_desc e ((List.Perm.swap d0 d1 owed).mem_iff.mp he)
  · rw [hcount]
    exact h.counted e f hf
  · rw [hcount]
    exact h.live e f hf

theorem Marked.setPlace (h : Marked w) (pid : Int) (fd d : Nat) : Marked (w.setPlace (slot pid fd) (some d)) := by
  refine h.fill pid fd (fun q i hne => place_slot_update hne) ?_ fun _ _ _ => rfl
  simp

theorem sysPipe2_sound {flags : BitVec 32} {c : Nat} {copied : Bool} (h : Sound w) (h0 : w.descs d0 = none)
    (h1 : w.descs d1 = none) (hne : d0 ≠ d1) : Sound (w.sysPipe2 pid flags c d0 d1 copied).2 := by
  unfold sysPipe2
  split
  · exact h
  split
  · exact h
  · rename_i fd0 hfd0
    obtain ⟨hlt0, -, hemp0⟩ := freeSlot_some hfd0
    split
    · exact h
    · rename_i fd1 hfd1
      obtain ⟨hlt1, hle, hemp1⟩ := freeSlot_some hfd1
      split
      · exact h
      · extract_lets w1 w2 w3 w4
        have hfd : (pid, fd1) ≠ (pid, fd0) := by
          rw [Ne, Prod.mk.injEq]
          omega
        have hinv2 : Inv w2 [d0] := (h.inv.setChan c _).alloc h0 rfl fun _ => by simp
        have hinv3 : Inv w3 [d0, d1] := by
          refine (hinv2.alloc ?_ rfl fun _ => by simp).swap
          show update w.descs d0 _ d1 = none
          rw [update_of_ne hne.symm, h1]
        have hinv4 : Inv w4 [] := by
          refine (hinv3.fillSlot hemp0 hlt0).fillSlot ?_ hlt1
          show update w.place (slot pid fd0) _ (slot pid fd1) = none
          rw [place_slot_update hfd, hemp1]
        have hsnd4 : Sound w4 := by
          have hmark : Marked w3 := h.marked
          exact ⟨hinv4, (hmark.setPlace pid fd0 d0).setPlace pid fd1 d1⟩
        have hfull1 : w4.place (slot pid fd1) = some d1 := update_self ..
        have hfull0 : w4.place (slot pid fd0) = some d0 := by
          show update (update w.place (slot pid fd0) _) (slot pid fd1) _ (slot pid fd0) = _
          rw [update_of_ne (fun heq => hfd (slot_inj.mp heq.symm)), update_self]
        split_ifs
        · refine setCloexec_sound (setCloexec_sound hsnd4 ?_ true) ?_ true
          · rw [hfull0]
            simp
          · rw [show (w4.setCloexec pid fd0 true).place = w4.place from rfl, hfull1]
            simp
        · exact hsnd4

/-! ## Processes -/

theorem forkFds_sound {parent child : Int} (h : Sound w) (hkid : ∀ i, w.place (slot child i) = none) :
    Sound (w.forkFds parent child) := by
  refine (foldl_range_rule (fun k w' => Sound w' ∧ ∀ i, k ≤ i → w'.place (slot child i) = none)
    ⟨h, fun i _ => hkid i⟩ ?_).1
  rintro k w' hk ⟨hw', hrest⟩
  split
  · exact ⟨hw', fun i hi => hrest i (by omega)⟩
  · rename_i d hd
    refine ⟨install_sound hw' (hrest k le_rfl) hk (hw'.inv.place_desc _ d hd), fun i hi => ?_⟩
    have hki : (child, i) ≠ (child, k) := by
      rw [Ne, Prod.mk.injEq]
      omega
    rw [place_install, place_slot_update hki]
    exact hrest i (by omega)

theorem foldl_close_sound (cond : FdWorld → Nat → Bool) (h : Sound w) (hfew : Few w []) (pid : Int) (n : Nat) :
    Sound ((List.range n).foldl (fun w i => if cond w i then w.closeSlot pid i else w) w) ∧
      Few ((List.range n).foldl (fun w i => if cond w i then w.closeSlot pid i else w) w) [] := by
  refine foldl_range_rule (fun _ w' => Sound w' ∧ Few w' []) ⟨h, hfew⟩ ?_
  intro k w' _ ⟨hw', hfew'⟩
  split
  · have hshut := closeSlot_closed hw' hfew' pid k
    exact ⟨hshut.sound, hshut.few⟩
  · exact ⟨hw', hfew'⟩

theorem execFds_sound (h : Sound w) (hfew : Few w []) (pid : Int) : Sound (w.execFds pid) :=
  (foldl_close_sound (fun w i => w.cloexec pid i) h hfew pid maxFd).1

theorem processCloseAllFds_sound (h : Sound w) (hfew : Few w []) (pid : Int) : Sound (w.processCloseAllFds pid) := by
  have hall := (foldl_close_sound (fun _ _ => true) h hfew pid maxFd).1
  unfold processCloseAllFds
  simpa only [if_true] using hall

/-! ## Passing descriptors -/

theorem passedCount_setPassedCount {r : Nat} :
    (w.setPassedCount s n).passedCount r = if r = s then n else w.passedCount r := update_apply ..

theorem Inv.setPassedCount (h : Inv w owed) (hcount : ∀ i, w.place (passed s i) ≠ none → i < n) :
    Inv (w.setPassedCount s n) owed := by
  refine { h with queues := fun r i hi => ?_ }
  obtain ⟨hr, hlt⟩ := h.queues r i hi
  refine ⟨hr, ?_⟩
  rw [passedCount_setPassedCount]
  split_ifs with hrs
  · rw [hrs] at hi
    exact hcount i hi
  · exact hlt

theorem pass_sound {peer : Nat} (h : Sound w) (hpeer : peer ∈ w.socks) (q : Int) :
    Sound (pass pid peer w q) ∧ peer ∈ (pass pid peer w q).socks := by
  unfold pass
  split
  · split
    · exact ⟨h, hpeer⟩
    · rename_i d hd
      obtain ⟨hold, -⟩ := lookup_some hd
      have hemp : w.place (passed peer (w.passedCount peer)) = none := by
        by_contra hfull
        exact lt_irrefl _ (h.inv.queues peer _ hfull).2
      have hcount : Inv ((w.retain d).setPassedCount peer (w.passedCount peer + 1)) [d] := by
        refine (h.inv.retain (h.inv.place_desc _ d hold)).setPassedCount fun i hi => ?_
        rw [place_retain] at hi
        exact lt_succ_of_lt (h.inv.queues peer i hi).2
      have hsocks : ((w.retain d).setPassedCount peer (w.passedCount peer + 1)).socks = w.socks :=
        (retain_same w d).2.2
      refine ⟨⟨?_, fun r i hr => ?_⟩, hsocks ▸ hpeer⟩
      · refine Inv.putIn hcount ?_ (fun r i heq => absurd heq.symm slot_ne_passed) fun r i heq => ?_
        · show (w.retain d).place _ = none
          rw [place_retain, hemp]
        · obtain ⟨hr, hi⟩ : peer = r ∧ w.passedCount peer = i := by
            unfold passed at heq
            simpa using heq
          rw [hsocks, passedCount_setPassedCount, if_pos hr.symm, ← hr, ← hi]
          exact ⟨hpeer, lt_succ_self _⟩
      · have hslot : update (w.retain d).place (passed peer (w.passedCount peer)) (some d) (slot r i) =
            w.place (slot r i) := by
          rw [update_of_ne slot_ne_passed, place_retain]
        have hr' : update (w.retain d).place (passed peer (w.passedCount peer)) (some d) (slot r i) = none := hr
        rw [hslot] at hr'
        show (w.retain d).cloexec r i = false
        rw [(retain_same w d).2.1]
        exact h.marked r i hr'
  · exact ⟨h, hpeer⟩

theorem sendRights_sound (h : Sound w) (q : Int) (fds : List Int) : Sound (w.sendRights pid q fds) := by
  unfold sendRights
  split
  · exact h
  · rename_i peer hpeer
    obtain ⟨s, -, hs⟩ := bind_eq_some_iff.mp hpeer
    have hmem := (h.inv.peers s peer hs).1
    have hall : ∀ w' : FdWorld, Sound w' → peer ∈ w'.socks → Sound (fds.foldl (pass pid peer) w') := by
      induction fds with
      | nil => exact fun w' hw' _ => hw'
      | cons x fds ih =>
        intro w' hw' hin
        obtain ⟨hw'', hin'⟩ : Sound (pass pid peer w' x) ∧ peer ∈ (pass pid peer w' x).socks := pass_sound hw' hin x
        exact ih _ hw'' hin'
    exact hall w h hmem

/-- What is known while the queue of socket `s` is emptied, `n` entries long at the start. -/
structure Receiving (s n k : Nat) (w : FdWorld) : Prop where
  sound : Sound w
  few : Few w []
  count : w.passedCount s ≤ n
  emptied : ∀ i < k, w.place (passed s i) = none

theorem deliver_receiving (h : Receiving s n k w) : Receiving s n (k + 1) (deliver pid s w k) := by
  unfold deliver
  rcases hk : w.place (passed s k) with _ | d
  · refine ⟨h.sound, h.few, h.count, fun i hi => ?_⟩
    rcases Nat.lt_succ_iff_lt_or_eq.mp hi with hi | rfl
    · exact h.emptied i hi
    · exact hk
  · dsimp only
    have htook := h.sound.inv.takeOut hk
    have hfew := h.sound.inv.few_takeOut h.few hk
    have hemptied : ∀ i < k + 1, (w.setPlace (passed s k) none).place (passed s i) = none := by
      intro i hi
      rw [place_setPlace, update_apply]
      split_ifs with heq
      · rfl
      · refine h.emptied i (lt_of_le_of_ne (Nat.lt_succ_iff.mp hi) fun hik => heq (by rw [hik]))
    have hmark : Marked (w.setPlace (passed s k) none) := by
      intro q i hq
      exact h.sound.marked q i hq
    split
    · obtain ⟨hinv, hrel⟩ := release_inv htook hfew
      refine ⟨⟨hinv, fun q i hq => ?_⟩, ?_, (hrel.count s).trans h.count, fun i hi => ?_⟩
      · rw [hrel.cloexec]
        exact hmark q i ((hrel.slot q i).symm.trans hq)
      · refine Few.released ?_ htook.finite hrel
        intro e
        have := hfew e
        rw [count_cons] at this
        omega
      · rcases hrel.place (passed s i) with heq | hnone
        · rw [heq, hemptied i hi]
        · exact hnone
    · rename_i fd hfd
      obtain ⟨hlt, -, hemp⟩ := freeSlot_some hfd
      have hput := htook.fillSlot hemp hlt
      refine ⟨⟨hput, hmark.setPlace pid fd d⟩, fun e => ?_, h.count, fun i hi => ?_⟩
      · have htake := held_take htook.finite hemp d e
        have := hfew e
        rw [count_cons] at this
        simp only [count_nil, beq_iff_eq] at this ⊢
        show held (update (w.setPlace (passed s k) none).place (slot pid fd) (some d)) e + 0 < 2 ^ 32
        omega
      · show update (w.setPlace (passed s k) none).place (slot pid fd) (some d) (passed s i) = none
        exact hemptied i hi

theorem recvRights_sound (h : Sound w) (hfew : Few w []) (q : Int) : Sound (w.recvRights pid q) := by
  unfold recvRights
  split
  · exact h
  · rename_i s hs
    have hall : Receiving s (w.passedCount s) (w.passedCount s)
        ((List.range (w.passedCount s)).foldl (deliver pid s) w) := by
      refine foldl_range_rule (fun k w' => Receiving s (w.passedCount s) k w') ⟨h, hfew, le_rfl, ?_⟩ ?_
      · exact fun i hi => absurd hi (not_lt_zero i)
      · exact fun k w' _ hw' => deliver_receiving hw'
    generalize (List.range (w.passedCount s)).foldl (deliver pid s) w = w' at hall
    have hinv := hall.sound.inv
    refine ⟨hinv.setPassedCount fun i hi => ?_, hall.sound.marked⟩
    have hlt := (hinv.queues s i hi).2
    exact absurd (hall.emptied i (lt_of_lt_of_le hlt hall.count)) hi

/-! ## Whole runs -/

inductive FdCall
  | pipe2 (pid : Int) (flags : BitVec 32) (c d0 d1 : Nat) (copied : Bool)
  | dup (pid oldfd : Int)
  | dup2 (pid oldfd newfd : Int)
  | dup3 (pid oldfd newfd : Int) (flags : BitVec 32)
  | fcntl (pid fd cmd : Int) (arg : BitVec 64)
  | close (pid fd : Int)
  | fork (parent child : Int)
  | exec (pid : Int)
  | exit (pid : Int)
  | sendmsg (pid fd : Int) (fds : List Int)
  | recvmsg (pid fd : Int)

def perform (w : FdWorld) : FdCall → FdWorld
  | .pipe2 pid flags c d0 d1 copied => (w.sysPipe2 pid flags c d0 d1 copied).2
  | .dup pid oldfd => (w.sysDup pid oldfd).2
  | .dup2 pid oldfd newfd => (w.sysDup2 pid oldfd newfd).2
  | .dup3 pid oldfd newfd flags => (w.sysDup3 pid oldfd newfd flags).2
  | .fcntl pid fd cmd arg => (w.sysFcntl pid fd cmd arg).2
  | .close pid fd => (w.sysClose pid fd).2
  | .fork parent child => w.forkFds parent child
  | .exec pid => w.execFds pid
  | .exit pid => w.processCloseAllFds pid
  | .sendmsg pid fd fds => w.sendRights pid fd fds
  | .recvmsg pid fd => w.recvRights pid fd

/-- What is new is new: `kzalloc` returns memory that is not in use, and a child's table is empty. -/
def Fresh (w : FdWorld) : FdCall → Prop
  | .pipe2 _ _ c d0 d1 _ => w.chans c = none ∧ w.descs d0 = none ∧ w.descs d1 = none ∧ d0 ≠ d1
  | .fork _ child => ∀ i, w.place (slot child i) = none
  | _ => True

theorem perform_sound (h : Sound w) (hfew : Few w []) (call : FdCall) (hnew : w.Fresh call) :
    Sound (w.perform call) := by
  cases call with
  | pipe2 pid flags c d0 d1 copied => exact sysPipe2_sound h hnew.2.1 hnew.2.2.1 hnew.2.2.2
  | dup pid oldfd => exact (sysDup_changed w pid oldfd).sound h hfew
  | dup2 pid oldfd newfd => exact (sysDup2_changed w pid oldfd newfd).sound h hfew
  | dup3 pid oldfd newfd flags => exact (sysDup3_changed w pid oldfd newfd flags).sound h hfew
  | fcntl pid fd cmd arg =>
    rcases sysFcntl_changed w pid fd cmd arg with hchange | ⟨d, f, -, -, hf, heq⟩
    · exact hchange.sound h hfew
    · rw [perform, heq]
      exact ⟨h.inv.recount hf rfl (h.inv.counted d f hf) (h.inv.live d f hf) fun _ _ => rfl, h.marked⟩
  | close pid fd => exact (sysClose_changed w pid fd).sound h hfew
  | fork parent child => exact forkFds_sound h hnew
  | exec pid => exact execFds_sound h hfew pid
  | exit pid => exact processCloseAllFds_sound h hfew pid
  | sendmsg pid fd fds => exact sendRights_sound h fd fds
  | recvmsg pid fd => exact recvRights_sound h hfew fd

noncomputable def slotRefs (w : FdWorld) (d : Nat) : Nat := held (fun i : Int × Nat => w.place (Sum.inl i)) d

noncomputable def passedRefs (w : FdWorld) (d : Nat) : Nat := held (fun i : Nat × Nat => w.place (Sum.inr i)) d

theorem Sound.refs (h : Sound w) (d : Nat) : held w.place d = w.slotRefs d + w.passedRefs d := held_sum h.inv.finite d

def Step (w w' : FdWorld) : Prop :=
  ∃ call, w.Fresh call ∧ w' = w.perform call ∧ ∀ d, w'.slotRefs d + w'.passedRefs d < 2 ^ 32

/-- **Reference counts.** In every state of a run each description's count is the number of slots that point to it and
of its copies in flight; it is allocated while that number is not zero; and no empty slot is marked for `exec`. -/
theorem descriptor_accounting {start w : FdWorld} (hstart : Sound start)
    (hfew : ∀ d, start.slotRefs d + start.passedRefs d < 2 ^ 32) (hrun : ReflTransGen Step start w) :
    (∀ d f, w.descs d = some f → f.refcount.toNat = w.slotRefs d + w.passedRefs d) ∧
    (∀ d, w.descs d = none ↔ w.slotRefs d + w.passedRefs d = 0) ∧
    ∀ pid fd, w.place (slot pid fd) = none → w.cloexec pid fd = false := by
  have hfew_of : ∀ w : FdWorld, Sound w → (∀ d, w.slotRefs d + w.passedRefs d < 2 ^ 32) → Few w [] := by
    intro w hw hrefs d
    rw [hw.refs]
    exact hrefs d
  obtain ⟨hsound, hlt⟩ : Sound w ∧ ∀ d, w.slotRefs d + w.passedRefs d < 2 ^ 32 := by
    induction hrun with
    | refl => exact ⟨hstart, hfew⟩
    | tail _ hstep ih =>
      obtain ⟨call, hfresh, rfl, hrefs⟩ := hstep
      exact ⟨perform_sound ih.1 (hfew_of _ ih.1 ih.2) call hfresh, hrefs⟩
  refine ⟨fun d f hf => ?_, fun d => ?_, hsound.marked⟩
  · rw [hsound.inv.counted d f hf, count_nil, add_zero, hsound.refs, BitVec.toNat_ofNat,
      mod_eq_of_lt (hlt d)]
  · rw [← hsound.refs]
    constructor
    · intro hnone
      exact (held_eq_zero hsound.inv.finite).mpr fun p hp => hsound.inv.place_desc p d hp hnone
    · intro hzero
      by_contra hsome
      obtain ⟨f, hf⟩ := ne_none_iff_exists'.mp hsome
      have := hsound.inv.live d f hf
      rw [count_nil] at this
      omega

/-! ## A crowd -/

/-- Processes 1 to `n` have one description in all their slots, and process `n + 1` in its first `k`. -/
def crowd (n k : Nat) : FdWorld where
  place := fun p =>
    match p with
    | .inl (pid, fd) => if 1 ≤ pid ∧ pid ≤ n ∧ fd < maxFd ∨ pid = n + 1 ∧ fd < k then some 0 else none
    | .inr _ => none
  cloexec := fun _ _ => false
  descs := fun d => if d = 0 then some ⟨BitVec.ofNat 32 (maxFd * n + k), 0, .other⟩ else none
  chans := fun _ => none
  socks := []
  passedCount := fun _ => 0
  peer := fun _ => none

theorem crowd_full (n : Nat) : crowd n maxFd = crowd (n + 1) 0 := by
  unfold crowd
  congr 1
  · funext p
    rcases p with ⟨pid, fd⟩ | p
    · dsimp only
      congr 1
      apply propext
      constructor
      · omega
      · omega
    · rfl

theorem crowd_slot : (crowd n k).place (slot pid fd) =
    if 1 ≤ pid ∧ pid ≤ n ∧ fd < maxFd ∨ pid = n + 1 ∧ fd < k then some 0 else none := rfl

theorem crowd_install : (crowd n k).install (n + 1) k 0 false = crowd n (k + 1) := by
  have hretain : (crowd n k).retain 0 =
      (crowd n k).setDesc 0 (some ⟨BitVec.ofNat 32 (maxFd * n + k) + 1, 0, .other⟩) := rfl
  have hcount : BitVec.ofNat 32 (maxFd * n + k) + 1 = BitVec.ofNat 32 (maxFd * n + (k + 1)) :=
    (BitVec.ofNat_add _ 1).symm
  refine FdWorld.ext ?_ ?_ ?_ rfl rfl rfl rfl
  · funext p
    rw [place_install]
    rcases p with ⟨pid, fd⟩ | p
    · show update (crowd n k).place (slot (n + 1) k) (some 0) (slot pid fd) = (crowd n (k + 1)).place (slot pid fd)
      by_cases hnew : (pid, fd) = ((n : Int) + 1, k)
      · rw [slot_inj.mpr hnew, update_self, crowd_slot, if_pos (.inr ⟨rfl, lt_succ_self k⟩)]
      · rw [place_slot_update hnew, crowd_slot, crowd_slot]
        rw [Prod.mk.injEq] at hnew
        congr 1
        apply propext
        constructor
        · omega
        · omega
    · exact update_of_ne (by unfold slot; simp) ..
  · funext q i
    exact ite_self false
  · unfold install
    rw [setPlace_retain, hretain, hcount]
    funext d
    show update (crowd n k).descs 0 _ d = _
    rw [update_apply]
    split_ifs with hd
    · exact (if_pos hd).symm
    · exact (if_neg hd).trans (if_neg hd).symm

theorem crowd_fork (hn : 0 < n) : (crowd n 0).forkFds 1 (n + 1) = crowd (n + 1) 0 := by
  rw [← crowd_full]
  refine foldl_range_rule (fun k w => w = crowd n k) rfl ?_
  intro k w hk hw
  rw [hw]
  have hplace : (crowd n k).place (slot 1 k) = some 0 := by
    exact if_pos (.inl ⟨le_rfl, by omega, hk⟩)
  rw [hplace]
  exact crowd_install

theorem crowd_refs (n : Nat) : (crowd n 0).slotRefs 0 = maxFd * n ∧ (crowd n 0).passedRefs 0 = 0 := by
  constructor
  · have hhold : holders (fun i : Int × Nat => (crowd n 0).place (Sum.inl i)) 0 =
        ↑(Icc (1 : Int) n ×ˢ Finset.range maxFd) := by
      ext ⟨pid, fd⟩
      simp [holders, crowd, and_assoc]
    unfold slotRefs held
    rw [hhold, Set.ncard_coe_finset, card_product, Int.card_Icc, card_range, mul_comm]
    congr 1
    omega
  · have hnone : holders (fun i : Nat × Nat => (crowd n 0).place (Sum.inr i)) 0 = ∅ := by
      simp [holders, crowd]
    unfold passedRefs held
    rw [hnone, Set.ncard_empty]

theorem crowd_place (hp : (crowd n 0).place p = some d) :
    d = 0 ∧ ∃ pid fd, p = slot pid fd ∧ 1 ≤ pid ∧ pid ≤ n ∧ fd < maxFd := by
  rcases p with ⟨pid, fd⟩ | i
  · rw [show (Sum.inl (pid, fd) : Place) = slot pid fd from rfl, crowd_slot] at hp
    split at hp
    · exact ⟨(some.inj hp).symm, pid, fd, rfl, by omega⟩
    · exact absurd hp (by simp)
  · exact absurd hp (by simp [crowd])

theorem crowd_desc (hf : (crowd n 0).descs d = some f) : d = 0 ∧ f = ⟨BitVec.ofNat 32 (maxFd * n), 0, .other⟩ := by
  have hf' : (if d = 0 then some ⟨BitVec.ofNat 32 (maxFd * n + 0), 0, .other⟩ else none) = some f := hf
  split at hf'
  · rename_i hd
    exact ⟨hd, (some.inj hf').symm⟩
  · exact absurd hf' (by simp)

theorem crowd_finite (n : Nat) : FinitelyHeld (crowd n 0).place := by
  refine ((Icc (1 : Int) n ×ˢ Finset.range maxFd).finite_toSet.image Sum.inl).subset ?_
  intro p hp
  obtain ⟨d, hd⟩ := ne_none_iff_exists'.mp hp
  obtain ⟨_, pid, fd, rfl, hpid, hn, hfd⟩ := crowd_place hd
  refine ⟨(pid, fd), ?_, rfl⟩
  rw [mem_coe, mem_product, mem_Icc, mem_range]
  exact ⟨⟨hpid, hn⟩, hfd⟩

theorem crowd_held (n : Nat) : held (crowd n 0).place 0 = maxFd * n := by
  obtain ⟨hslot, hpassed⟩ := crowd_refs n
  rw [held_sum (crowd_finite n)]
  exact congrArg₂ (· + ·) hslot hpassed

theorem crowd_sound (hn : 0 < n) : Sound (crowd n 0) where
  inv := by
    have hpos : 0 < maxFd * n := mul_pos (by decide) hn
    refine ⟨crowd_finite n, ?_, by simp, ?_, ?_, ?_, ?_, ?_, ?_, nodup_nil, ?_⟩
    · intro p d hp
      rw [(crowd_place hp).1]
      simp [crowd]
    · intro d f hf
      obtain ⟨rfl, rfl⟩ := crowd_desc hf
      rw [crowd_held, count_nil, add_zero]
    · intro d f hf
      rw [(crowd_desc hf).1, crowd_held]
      omega
    · intro pid fd hp
      obtain ⟨d, hd⟩ := ne_none_iff_exists'.mp hp
      obtain ⟨_, q, i, heq, _, _, hi⟩ := crowd_place hd
      obtain ⟨rfl, rfl⟩ := Prod.mk.inj (slot_inj.mp heq)
      exact hi
    · intro s i hp
      exact absurd rfl hp
    · intro d f s hf hdest
      rw [(crowd_desc hf).2] at hdest
      exact absurd hdest (by simp)
    · intro d e f g s hf hg _ _
      rw [(crowd_desc hf).1, (crowd_desc hg).1]
    · intro s r hr
      exact absurd hr (by simp [crowd])
  marked := fun _ _ _ => rfl

theorem crowd_fresh : (crowd n 0).Fresh (.fork 1 (n + 1)) := by
  intro i
  exact if_neg (by omega)

theorem crowd_run (n : Nat) :
    ReflTransGen (fun w w' => ∃ call, w.Fresh call ∧ w' = w.perform call) (crowd 1 0) (crowd (n + 1) 0) := by
  induction n with
  | zero => exact .refl
  | succ n ih => exact ih.tail ⟨.fork 1 _, crowd_fresh, (crowd_fork n.succ_pos).symm⟩

/-- **A count that overflows.** Process 1 has one file in all its slots and forks `2 ^ 24 - 1` times: the file has
`2 ^ 32` pointers and the count is zero. -/
theorem refcount_overflow : ∃ w f, Sound (crowd 1 0) ∧
    ReflTransGen (fun w w' => ∃ call, w.Fresh call ∧ w' = w.perform call) (crowd 1 0) w ∧
    w.descs 0 = some f ∧ f.refcount = 0 ∧ w.slotRefs 0 = 2 ^ 32 ∧ w.passedRefs 0 = 0 := by
  refine ⟨crowd (2 ^ 24 - 1 + 1) 0, ⟨BitVec.ofNat 32 (maxFd * 2 ^ 24), 0, .other⟩, crowd_sound one_pos,
    crowd_run _, rfl, by decide, ?_, (crowd_refs _).2⟩
  rw [(crowd_refs _).1]
  decide

theorem crowd_few (hn : n < 2 ^ 24) (d : Nat) : (crowd n 0).slotRefs d + (crowd n 0).passedRefs d < 2 ^ 32 := by
  rw [slotRefs, passedRefs, ← held_sum (crowd_finite n)]
  by_cases hd : d = 0
  · rw [hd, crowd_held]
    unfold maxFd
    omega
  · rw [(held_eq_zero (crowd_finite n)).mpr fun p hp => hd (crowd_place hp).1]
    decide

/-- Two processes after a fork: the file has 512 pointers. -/
theorem descriptor_accounting_forked : ∃ f, (crowd 2 0).descs 0 = some f ∧ f.refcount.toNat = 512 ∧
    f.refcount.toNat = (crowd 2 0).slotRefs 0 + (crowd 2 0).passedRefs 0 := by
  have hrun : ReflTransGen Step (crowd 1 0) (crowd 2 0) :=
    .single ⟨.fork 1 2, crowd_fresh, (crowd_fork one_pos).symm, crowd_few (by decide)⟩
  have haccount := descriptor_accounting (crowd_sound one_pos) (crowd_few (by decide)) hrun
  exact ⟨⟨BitVec.ofNat 32 512, 0, .other⟩, rfl, rfl, haccount.1 0 _ rfl⟩

end FdWorld

end SzpontOS.Fd
