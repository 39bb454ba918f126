import SzpontOS.Fd.FdRun

/-!
# Pipe ends

The two ends of a pipe have a description each. `readers` and `writers` say whether it is open; a reader of an empty
pipe looks at `writers` to tell the end of the file from a pause. `fd_release` takes the end that closes from the access
mode in the description's flags, which `F_SETFL` overwrites. While it leaves the mode alone the counters are right
(`pipe_end_accounting`); a program that asks for `O_NONBLOCK` in the usual way makes the writer close as a reader
(`write_end_misread`).
-/

namespace SzpontOS.Fd

open Lib Relation Function List Prod
open Option hiding filter_map

def Chan.count (ch : Chan) : Bool → Int
  | true => ch.writers
  | false => ch.readers

namespace FdWorld

/-! ## Reading and writing -/

section Calls

variable (w : FdWorld)

/-- The loop over the caller's table: `O_NONBLOCK` of the first descriptor with this node. -/
def isNonblock (pid : Int) (node : Target) : Bool :=
  ((List.range maxFd).findSome? fun i =>
    ((w.place (slot pid i)).bind w.descs).bind fun f =>
      if f.target = node then some (f.flags.getLsbD 11) else none).getD false

/-- One look of `pipe_read_op` at the channel: what the call returns with the bytes read, or `none` when the thread
sleeps for a tick and looks again. -/
def pipeReadOp (pid : Int) (c size : Nat) : Option (Int × List (BitVec 8)) × FdWorld :=
  match w.chans c with
  | none => (some (0, []), w)
  | some ch =>
    if size = 0 then (some (0, []), w)
    else if ch.ring.len = 0 then
      if ch.writers ≤ 0 then (some (0, []), w)
      else if w.isNonblock pid (.pipe c false) then (some (-11, []), w)
      else (none, w)
    else
      let (bytes, ring) := ch.ring.pop pipeBufSize (min size ch.ring.len)
      (some (bytes.length, bytes), w.setChan c (some { ch with ring := ring }))

/-- The loop of `pipe_write_op` up to the next sleep: `written` bytes are in, `rest` is to go. -/
def pipeWriteLoop (pid : Int) (c written : Nat) (rest : List (BitVec 8)) : Option Int × FdWorld :=
  match w.chans c with
  | none => (some 0, w)
  | some ch =>
    let (n, ring) := ch.ring.pushWhile pipeBufSize rest
    let w := w.setChan c (some { ch with ring := ring })
    if n = rest.length then (some (written + n), w)
    else if ch.readers ≤ 0 then (some (-1), w)
    else if w.isNonblock pid (.pipe c true) then (some (if written + n > 0 then written + n else -11), w)
    else (none, w)

def pipeWriteOp (pid : Int) (c : Nat) (buf : List (BitVec 8)) : Option Int × FdWorld :=
  match w.chans c with
  | none => (some 0, w)
  | some ch =>
    if buf = [] then (some 0, w)
    else if ch.readers ≤ 0 then (some (-1), w)
    else w.pipeWriteLoop pid c 0 buf

def nodeOf (pid fd : Int) : Option Target := ((w.lookup pid fd).bind w.descs).map (·.target)

/-- `sys_read`; the write end has no `read`. -/
def sysRead (pid fd : Int) (size : Nat) : Option (Int × List (BitVec 8)) × FdWorld :=
  match w.nodeOf pid fd with
  | some (.pipe c false) => w.pipeReadOp pid c size
  | _ => (some (-1, []), w)

def sysWrite (pid fd : Int) (buf : List (BitVec 8)) : Option Int × FdWorld :=
  match w.nodeOf pid fd with
  | some (.pipe c true) => w.pipeWriteOp pid c buf
  | _ => (some (-1), w)

end Calls

/-! ## The invariant -/

variable {w w' w'' : FdWorld} {d c : Nat} {f : Desc} {ch : Chan} {pid : Int} {fd : Nat} {wr : Bool}

def EndOpen (w : FdWorld) (c : Nat) (wr : Bool) : Prop := ∃ d f, w.descs d = some f ∧ f.target = .pipe c wr

/-- **Ends and counters.** An end has at most one description, which has its access mode; the counters say which of
the two there are. -/
structure PipeInv (w : FdWorld) : Prop where
  chan : ∀ c wr, w.EndOpen c wr → w.chans c ≠ none
  unique : ∀ d e f g c wr, w.descs d = some f → w.descs e = some g → f.target = .pipe c wr → g.target = .pipe c wr →
    d = e
  mode : ∀ d f c wr, w.descs d = some f → f.target = .pipe c wr → f.flags.getLsbD 0 = wr
  opened : ∀ c ch wr, w.chans c = some ch → w.EndOpen c wr → ch.count wr = 1
  closed : ∀ c ch wr, w.chans c = some ch → ¬ w.EndOpen c wr → ch.count wr = 0

/-! ## What leaves the ends alone -/

/-- The descriptions of the ends and their counters are the same. -/
structure SameEnds (w w' : FdWorld) : Prop where
  descs : ∀ d, (w'.descs d).map (fun f => (f.flags, f.target)) = (w.descs d).map fun f => (f.flags, f.target)
  chans : ∀ c, (w'.chans c).map Chan.count = (w.chans c).map Chan.count

namespace SameEnds

theorem refl (w : FdWorld) : SameEnds w w := ⟨fun _ => rfl, fun _ => rfl⟩

theorem trans (h : SameEnds w w') (h' : SameEnds w' w'') : SameEnds w w'' :=
  ⟨fun d => (h'.descs d).trans (h.descs d), fun c => (h'.chans c).trans (h.chans c)⟩

theorem recount (hd : w.descs d = some f) (n : BitVec 32) : SameEnds w (w.setDesc d (some { f with refcount := n })) := by
  refine ⟨fun e => ?_, fun _ => rfl⟩
  rw [descs_setDesc]
  by_cases he : e = d
  · rw [he, update_self, hd]
    rfl
  · rw [update_of_ne he]

theorem retain (w : FdWorld) (d : Nat) : SameEnds w (w.retain d) := by
  unfold FdWorld.retain
  split
  · exact .refl w
  · rename_i f hf
    exact recount hf _

theorem install (w : FdWorld) (pid : Int) (fd d : Nat) (b : Bool) : SameEnds w (w.install pid fd d b) := by
  have hset : SameEnds w (w.setPlace (slot pid fd) (some d)) := ⟨fun _ => rfl, fun _ => rfl⟩
  exact hset.trans ((retain _ d).trans ⟨fun _ => rfl, fun _ => rfl⟩)

theorem setRing (hc : w.chans c = some ch) (ring : RingBuffer (BitVec 8)) :
    SameEnds w (w.setChan c (some { ch with ring := ring })) := by
  refine ⟨fun _ => rfl, fun e => ?_⟩
  have hcount : Chan.count { ch with ring := ring } = ch.count := by
    funext wr
    cases wr
    · rfl
    · rfl
  show (update w.chans c _ e).map Chan.count = _
  by_cases he : e = c
  · rw [he, update_self, hc, map_some, map_some, hcount]
  · rw [update_of_ne he]

end SameEnds

theorem PipeInv.of_targets (h : PipeInv w) (hdescs : ∀ d, (w'.descs d).map Desc.target = (w.descs d).map Desc.target)
    (hchans : ∀ c, (w'.chans c).map Chan.count = (w.chans c).map Chan.count)
    (hmode : ∀ d f c wr, w'.descs d = some f → f.target = .pipe c wr → f.flags.getLsbD 0 = wr) : PipeInv w' := by
  have hdesc : ∀ {d f}, w'.descs d = some f → ∃ g, w.descs d = some g ∧ g.target = f.target := fun {d _} hf =>
    map_eq_some_iff.mp ((hdescs d).symm.trans (congrArg (Option.map Desc.target) hf))
  have hchan : ∀ {c ch}, w'.chans c = some ch → ∃ ch', w.chans c = some ch' ∧ ch'.count = ch.count := fun {c _} hch =>
    map_eq_some_iff.mp ((hchans c).symm.trans (congrArg (Option.map Chan.count) hch))
  have hopen : ∀ c wr, w'.EndOpen c wr ↔ w.EndOpen c wr := by
    intro c wr
    have hdest : ∀ v : FdWorld, v.EndOpen c wr ↔ ∃ d, (v.descs d).map Desc.target = some (.pipe c wr) := fun v => by
      simp only [EndOpen, map_eq_some_iff]
    simp only [hdest, hdescs]
  refine ⟨fun c wr ho hnone => ?_, ?_, hmode, ?_, ?_⟩
  · apply h.chan c wr ((hopen c wr).mp ho)
    have hc := hchans c
    rw [hnone] at hc
    exact map_eq_none_iff.mp hc.symm
  · intro d e f g c wr hf hg hft hgt
    obtain ⟨f', hf', htf⟩ := hdesc hf
    obtain ⟨g', hg', htg⟩ := hdesc hg
    exact h.unique d e f' g' c wr hf' hg' (htf.trans hft) (htg.trans hgt)
  · intro c ch wr hch ho
    obtain ⟨ch', hch', hcount⟩ := hchan hch
    rw [← hcount]
    exact h.opened c ch' wr hch' ((hopen c wr).mp ho)
  · intro c ch wr hch hshut
    obtain ⟨ch', hch', hcount⟩ := hchan hch
    rw [← hcount]
    exact h.closed c ch' wr hch' fun ho => hshut ((hopen c wr).mpr ho)

theorem PipeInv.same (h : PipeInv w) (hsame : SameEnds w w') : PipeInv w' := by
  refine h.of_targets (fun d => ?_) hsame.chans fun d f c wr hf hdest => ?_
  · simpa [comp_def] using congrArg (Option.map snd) (hsame.descs d)
  · obtain ⟨g, hg, heq⟩ := map_eq_some_iff.mp ((hsame.descs d).symm.trans (congrArg (Option.map _) hf))
    rw [← show g.flags = f.flags from congrArg fst heq]
    exact h.mode d g c wr hg ((congrArg snd heq).trans hdest)

/-! ## Closing an end -/

theorem endOpen_of_freed (hopen : (w.setDesc d none).EndOpen c wr) : w.EndOpen c wr := by
  obtain ⟨e, g, hg, hdest⟩ := hopen
  exact ⟨e, g, (descs_of_freed hg).2, hdest⟩

theorem endOpen_freed (hopen : w.EndOpen c wr) (hd : ∀ f, w.descs d = some f → f.target ≠ .pipe c wr) :
    (w.setDesc d none).EndOpen c wr := by
  obtain ⟨e, g, hg, hdest⟩ := hopen
  refine ⟨e, g, ?_, hdest⟩
  have hne : e ≠ d := fun heq => hd g (heq ▸ hg) hdest
  rwa [descs_setDesc, update_of_ne hne]

theorem PipeInv.free (h : PipeInv w) (hd : ∀ f c wr, w.descs d = some f → f.target ≠ .pipe c wr) :
    PipeInv (w.setDesc d none) := by
  refine ⟨fun c wr hopen => h.chan c wr (endOpen_of_freed hopen), ?_, ?_, ?_, ?_⟩
  · intro a b f g c wr hf hg
    exact h.unique a b f g c wr (descs_of_freed hf).2 (descs_of_freed hg).2
  · intro a f c wr hf
    exact h.mode a f c wr (descs_of_freed hf).2
  · intro c ch wr hch hopen
    exact h.opened c ch wr hch (endOpen_of_freed hopen)
  · intro c ch wr hch hshut
    exact h.closed c ch wr hch fun hopen => hshut (endOpen_freed hopen fun f => hd f c wr)

theorem closePipe_spec (hch : w.chans c = some ch) (flags : BitVec 32) : ∃ ch' : Chan,
    w.closePipe c flags = w.setChan c (if ch'.readers ≤ 0 ∧ ch'.writers ≤ 0 then none else some ch') ∧
    ∀ wr, ch'.count wr = ch.count wr - if wr = flags.getLsbD 0 then 1 else 0 := by
  unfold closePipe
  rw [hch]
  refine ⟨_, rfl, fun wr => ?_⟩
  cases wr <;> cases flags.getLsbD 0 <;> simp [Chan.count]

theorem count_nonpos : (ch.readers ≤ 0 ∧ ch.writers ≤ 0) ↔ ∀ wr, ch.count wr ≤ 0 := by
  rw [Bool.forall_bool]
  rfl

theorem PipeInv.closeEnd (h : PipeInv w) (hf : w.descs d = some f) (hdest : f.target = .pipe c wr) :
    PipeInv ((w.setDesc d none).closePipe c f.flags) := by
  obtain ⟨ch, hch⟩ := ne_none_iff_exists'.mp (h.chan c wr ⟨d, f, hf, hdest⟩)
  obtain ⟨ch', hclose, hcount⟩ := closePipe_spec (w := w.setDesc d none) hch f.flags
  rw [h.mode d f c wr hf hdest] at hcount
  rw [hclose]
  -- the end is closed now, and every other end is as it was
  have hgone : ¬ (w.setDesc d none).EndOpen c wr := by
    intro ⟨e, g, hg, hgt⟩
    obtain ⟨hne, hg'⟩ := descs_of_freed hg
    exact hne (h.unique e d g f c wr hg' hf hgt hdest)
  have hkept : ∀ c' wr', (c', wr') ≠ (c, wr) → w.EndOpen c' wr' → (w.setDesc d none).EndOpen c' wr' := by
    intro c' wr' hne hopen
    refine endOpen_freed hopen fun g hg hgt => hne ?_
    rw [hf, some.injEq] at hg
    rw [← hg, hdest, Target.pipe.injEq] at hgt
    rw [hgt.1, hgt.2]
  have hopened : ∀ wr', (w.setDesc d none).EndOpen c wr' → ch'.count wr' = 1 := by
    intro wr' hopen
    have hne : wr' ≠ wr := fun heq => hgone (heq ▸ hopen)
    rw [hcount, if_neg hne, h.opened c ch wr' hch (endOpen_of_freed hopen)]
    rfl
  have hshut : ∀ wr', ¬ (w.setDesc d none).EndOpen c wr' → ch'.count wr' = 0 := by
    intro wr' hopen
    rw [hcount]
    split_ifs with heq
    · rw [heq, h.opened c ch wr hch ⟨d, f, hf, hdest⟩]
      rfl
    · rw [h.closed c ch wr' hch fun ho => hopen (hkept c wr' (by simp [heq]) ho)]
      rfl
  have hrest : ∀ {c' x}, c' ≠ c → ((w.setDesc d none).setChan c x).chans c' = w.chans c' := fun hne =>
    update_of_ne hne ..
  have hhere : ∀ {c' x}, c' = c → ((w.setDesc d none).setChan c x).chans c' = x := fun heq => by
    rw [heq]
    exact update_self ..
  refine ⟨?_, ?_, ?_, ?_, ?_⟩
  · intro c' wr' hopen
    by_cases hc : c' = c
    · subst hc
      have hpos := hopened wr' hopen
      rw [hhere rfl, if_neg fun hall => ?_]
      · simp
      · have := count_nonpos.mp hall wr'
        omega
    · rw [hrest hc]
      exact h.chan c' wr' (endOpen_of_freed hopen)
  · intro a b f g c wr hf hg
    exact h.unique a b f g c wr (descs_of_freed hf).2 (descs_of_freed hg).2
  · intro a f c wr hf
    exact h.mode a f c wr (descs_of_freed hf).2
  · intro c' ch'' wr' hch' hopen
    by_cases hc : c' = c
    · rw [hhere hc] at hch'
      split_ifs at hch'
      rw [← some.inj hch']
      exact hopened wr' (hc ▸ hopen)
    · rw [hrest hc] at hch'
      exact h.opened c' ch'' wr' hch' (endOpen_of_freed hopen)
  · intro c' ch'' wr' hch' hopen
    by_cases hc : c' = c
    · rw [hhere hc] at hch'
      split_ifs at hch'
      rw [← some.inj hch']
      exact hshut wr' fun ho => hopen (hc ▸ ho)
    · rw [hrest hc] at hch'
      exact h.closed c' ch'' wr' hch' fun ho => hopen (hkept c' wr' (by simp [hc]) ho)

theorem PipeInv.fdRelease (fuel : Nat) : ∀ (w : FdWorld) (d : Nat), PipeInv w → PipeInv (fdRelease fuel w d) := by
  induction fuel with
  | zero => exact fun _ _ h => h
  | succ fuel ih =>
    intro w d h
    rw [FdWorld.fdRelease]
    split
    · exact h
    · rename_i f hf
      split
      · exact h.same (.recount hf _)
      · split
        · rename_i c wr hdest
          exact h.closeEnd hf hdest
        · rename_i s hdest
          have hfree : PipeInv (w.setDesc d none) := by
            refine h.free fun g c wr hg => ?_
            rw [hf, some.injEq] at hg
            simp [← hg, hdest]
          refine foldlRecOn _ _ (hfree.same ⟨fun _ => rfl, fun _ => rfl⟩) fun w' hw' e _ => ih w' e hw'
        · rename_i hdest
          refine h.free fun g c wr hg => ?_
          rw [hf, some.injEq] at hg
          simp [← hg, hdest]

/-! ## The calls -/

theorem PipeInv.closeSlot (h : PipeInv w) (pid : Int) (fd : Nat) : PipeInv (w.closeSlot pid fd) := by
  unfold FdWorld.closeSlot
  split
  · exact h
  · exact .fdRelease _ _ _ (h.same ⟨fun _ => rfl, fun _ => rfl⟩)

theorem PipeInv.changed (h : PipeInv w) (hchange : Changed pid w w') : PipeInv w' := by
  cases hchange with
  | same => exact h
  | close fd => exact h.closeSlot pid fd
  | mark hold b => exact h.same ⟨fun _ => rfl, fun _ => rfl⟩
  | copy hold hemp hfd b => exact h.same (.install ..)
  | move hold hne hfd b => exact (h.closeSlot pid _).same (.install ..)

/-- `F_SETFL` on a pipe end that leaves its access mode alone. -/
def KeepsMode (w : FdWorld) : FdCall → Prop
  | .fcntl pid fd 4 arg => ∀ c wr, w.nodeOf pid fd = some (.pipe c wr) → arg.getLsbD 0 = wr
  | _ => True

section

variable (h : PipeInv w)

include h

theorem PipeInv.setFlags (hf : w.descs d = some f) {flags : BitVec 32}
    (hmode : ∀ c wr, f.target = .pipe c wr → flags.getLsbD 0 = wr) :
    PipeInv (w.setDesc d (some { f with flags := flags })) := by
  refine h.of_targets (fun e => ?_) (fun _ => rfl) fun e g c wr hg hdest => ?_
  · rw [descs_setDesc]
    by_cases he : e = d
    · rw [he, update_self, hf]
      rfl
    · rw [update_of_ne he]
  · rcases descs_set hg with ⟨_, heq⟩ | ⟨_, hg⟩
    · rw [some.injEq] at heq
      rw [← heq] at hdest ⊢
      exact hmode c wr hdest
    · exact h.mode e g c wr hg hdest

theorem PipeInv.newPipe {d0 d1 : Nat} (f0 f1 : Desc) (ring : RingBuffer (BitVec 8)) (hc : w.chans c = none)
    (h0 : w.descs d0 = none) (h1 : w.descs d1 = none) (hne : d0 ≠ d1) (ht0 : f0.target = .pipe c false)
    (ht1 : f1.target = .pipe c true) (hm0 : f0.flags.getLsbD 0 = false) (hm1 : f1.flags.getLsbD 0 = true) :
    PipeInv (((w.setChan c (some ⟨ring, 1, 1⟩)).setDesc d0 (some f0)).setDesc d1 (some f1)) := by
  have hfresh : ∀ wr, ¬ w.EndOpen c wr := fun wr hopen => h.chan c wr hopen hc
  set new := ((w.setChan c (some ⟨ring, 1, 1⟩)).setDesc d0 (some f0)).setDesc d1 (some f1) with hnew
  have hdesc : ∀ {e g}, new.descs e = some g → e = d0 ∧ g = f0 ∨ e = d1 ∧ g = f1 ∨ w.descs e = some g := by
    intro e g hg
    rcases descs_set hg with ⟨he, heq⟩ | ⟨_, hg⟩
    · exact .inr (.inl ⟨he, (some.inj heq).symm⟩)
    · rcases descs_set hg with ⟨he, heq⟩ | ⟨_, hg⟩
      · exact .inl ⟨he, (some.inj heq).symm⟩
      · exact .inr (.inr hg)
  have hd1 : new.descs d1 = some f1 := update_self ..
  have hd0 : new.descs d0 = some f0 := (update_of_ne hne ..).trans (update_self ..)
  have hhere : ∀ wr, new.EndOpen c wr := by
    intro wr
    cases wr with
    | false => exact ⟨d0, f0, hd0, ht0⟩
    | true => exact ⟨d1, f1, hd1, ht1⟩
  have hrest : ∀ {c' wr}, c' ≠ c → (new.EndOpen c' wr ↔ w.EndOpen c' wr) := by
    intro c' wr hne'
    constructor
    · intro ⟨e, g, hg, hdest⟩
      rcases hdesc hg with ⟨_, rfl⟩ | ⟨_, rfl⟩ | hg
      · rw [ht0, Target.pipe.injEq] at hdest
        exact absurd hdest.1.symm hne'
      · rw [ht1, Target.pipe.injEq] at hdest
        exact absurd hdest.1.symm hne'
      · exact ⟨e, g, hg, hdest⟩
    · intro ⟨e, g, hg, hdest⟩
      have he0 : e ≠ d0 := fun heq => by simp [heq, h0] at hg
      have he1 : e ≠ d1 := fun heq => by simp [heq, h1] at hg
      exact ⟨e, g, (update_of_ne he1 ..).trans ((update_of_ne he0 ..).trans hg), hdest⟩
  have hchan : new.chans c = some ⟨ring, 1, 1⟩ := update_self ..
  have hchans : ∀ {c'}, c' ≠ c → new.chans c' = w.chans c' := fun hne' => update_of_ne hne' ..
  refine ⟨?_, ?_, ?_, ?_, ?_⟩
  · intro c' wr hopen
    by_cases hcc : c' = c
    · simp [hcc, hchan]
    · rw [hchans hcc]
      exact h.chan c' wr ((hrest hcc).mp hopen)
  · intro a b f g c' wr hf hg hft hgt
    rcases hdesc hf with ⟨rfl, rfl⟩ | ⟨rfl, rfl⟩ | hf' <;> rcases hdesc hg with ⟨rfl, rfl⟩ | ⟨rfl, rfl⟩ | hg'
    · rfl
    · simp [← hft, ht0, ht1] at hgt
    · rw [ht0, Target.pipe.injEq] at hft
      exact absurd ⟨b, g, hg', hft.1 ▸ hgt⟩ (hfresh wr)
    · simp [← hft, ht0, ht1] at hgt
    · rfl
    · rw [ht1, Target.pipe.injEq] at hft
      exact absurd ⟨b, g, hg', hft.1 ▸ hgt⟩ (hfresh wr)
    · rw [ht0, Target.pipe.injEq] at hgt
      exact absurd ⟨a, f, hf', hgt.1 ▸ hft⟩ (hfresh wr)
    · rw [ht1, Target.pipe.injEq] at hgt
      exact absurd ⟨a, f, hf', hgt.1 ▸ hft⟩ (hfresh wr)
    · exact h.unique a b f g c' wr hf' hg' hft hgt
  · intro a f c' wr hf hft
    rcases hdesc hf with ⟨_, rfl⟩ | ⟨_, rfl⟩ | hf'
    · rw [ht0, Target.pipe.injEq] at hft
      rw [hm0, hft.2]
    · rw [ht1, Target.pipe.injEq] at hft
      rw [hm1, hft.2]
    · exact h.mode a f c' wr hf' hft
  · intro c' ch wr hch hopen
    by_cases hcc : c' = c
    · rw [hcc, hchan, some.injEq] at hch
      rw [← hch]
      cases wr
      · rfl
      · rfl
    · rw [hchans hcc] at hch
      exact h.opened c' ch wr hch ((hrest hcc).mp hopen)
  · intro c' ch wr hch hshut
    by_cases hcc : c' = c
    · exact absurd (hcc ▸ hhere wr) hshut
    · rw [hchans hcc] at hch
      exact h.closed c' ch wr hch fun hopen => hshut ((hrest hcc).mpr hopen)

theorem PipeInv.sysPipe2 (pid : Int) (flags : BitVec 32) {d0 d1 : Nat} (copied : Bool) (hc : w.chans c = none)
    (h0 : w.descs d0 = none) (h1 : w.descs d1 = none) (hne : d0 ≠ d1) :
    PipeInv (w.sysPipe2 pid flags c d0 d1 copied).2 := by
  unfold FdWorld.sysPipe2
  split
  · exact h
  · split
    · exact h
    · split
      · exact h
      · split
        · exact h
        · have hnew := h.newPipe ⟨1, flags &&& oNonblock, .pipe c false⟩
            ⟨1, 1 ||| (flags &&& oNonblock), .pipe c true⟩ ⟨fun _ => 0, 0, 0, 0⟩ hc h0 h1 hne rfl rfl
            (by simp [oNonblock]) (by simp)
          split
          all_goals exact hnew.same ⟨fun _ => rfl, fun _ => rfl⟩

theorem PipeInv.sysFcntl {fd cmd : Int} {arg : BitVec 64} (hmode : w.KeepsMode (.fcntl pid fd cmd arg)) :
    PipeInv (w.sysFcntl pid fd cmd arg).2 := by
  rcases sysFcntl_changed w pid fd cmd arg with hchange | ⟨d, f, rfl, hd, hf, heq⟩
  · exact h.changed hchange
  · rw [heq]
    refine h.setFlags hf fun c wr hdest => ?_
    have hnode : w.nodeOf pid fd = some (.pipe c wr) := by
      unfold nodeOf
      rw [hd, bind_some, hf, map_some, hdest]
    rw [BitVec.getLsbD_setWidth]
    exact hmode c wr hnode

theorem PipeInv.pass (pid : Int) (peer : Nat) (fd : Int) : PipeInv (w.pass pid peer fd) := by
  unfold FdWorld.pass
  split
  · split
    · exact h
    · exact h.same ((SameEnds.retain w _).trans ⟨fun _ => rfl, fun _ => rfl⟩)
  · exact h

theorem PipeInv.deliver (pid : Int) (s i : Nat) : PipeInv (w.deliver pid s i) := by
  unfold FdWorld.deliver
  split
  · exact h
  · dsimp only
    split
    · exact .fdRelease _ _ _ (h.same ⟨fun _ => rfl, fun _ => rfl⟩)
    · exact h.same ⟨fun _ => rfl, fun _ => rfl⟩

theorem PipeInv.perform (call : FdCall) (hfresh : w.Fresh call) (hmode : w.KeepsMode call) :
    PipeInv (w.perform call) := by
  cases call with
  | pipe2 pid flags c d0 d1 copied => exact h.sysPipe2 pid flags copied hfresh.1 hfresh.2.1 hfresh.2.2.1 hfresh.2.2.2
  | dup pid oldfd => exact h.changed (sysDup_changed w pid oldfd)
  | dup2 pid oldfd newfd => exact h.changed (sysDup2_changed w pid oldfd newfd)
  | dup3 pid oldfd newfd flags => exact h.changed (sysDup3_changed w pid oldfd newfd flags)
  | fcntl pid fd cmd arg => exact h.sysFcntl hmode
  | close pid fd => exact h.changed (sysClose_changed w pid fd)
  | fork parent child =>
    refine foldl_range_rule (fun _ w => PipeInv w) h fun i w _ hw => ?_
    split
    · exact hw
    · exact hw.same (.install ..)
  | exec pid =>
    refine foldl_range_rule (fun _ w => PipeInv w) h fun i w _ hw => ?_
    split
    · exact hw.closeSlot ..
    · exact hw
  | exit pid => exact foldl_range_rule (fun _ w => PipeInv w) h fun i w _ hw => hw.closeSlot pid i
  | sendmsg pid fd fds =>
    show PipeInv (w.sendRights pid fd fds)
    unfold sendRights
    split
    · exact h
    · exact foldlRecOn _ _ h fun w hw e _ => hw.pass pid _ e
  | recvmsg pid fd =>
    show PipeInv (w.recvRights pid fd)
    unfold recvRights
    split
    · exact h
    · exact (foldlRecOn _ _ h fun w hw i _ => hw.deliver pid _ i).same ⟨fun _ => rfl, fun _ => rfl⟩

end

/-! ## Reading and writing leave the ends alone -/

theorem SameEnds.pipeReadOp (w : FdWorld) (pid : Int) (c size : Nat) : SameEnds w (w.pipeReadOp pid c size).2 := by
  unfold FdWorld.pipeReadOp
  split
  · exact .refl w
  · rename_i ch hch
    split_ifs
    · exact .refl w
    · exact .refl w
    · exact .refl w
    · exact .refl w
    · exact .setRing hch _

theorem SameEnds.pipeWriteLoop (w : FdWorld) (pid : Int) (c written : Nat) (rest : List (BitVec 8)) :
    SameEnds w (w.pipeWriteLoop pid c written rest).2 := by
  unfold FdWorld.pipeWriteLoop
  split
  · exact .refl w
  · rename_i ch hch
    have hset := SameEnds.setRing hch (ch.ring.pushWhile pipeBufSize rest).2
    dsimp only
    split
    · exact hset
    · split
      · exact hset
      · split
        · exact hset
        · exact hset

theorem SameEnds.sysRead (w : FdWorld) (pid fd : Int) (size : Nat) : SameEnds w (w.sysRead pid fd size).2 := by
  unfold FdWorld.sysRead
  split
  · exact .pipeReadOp ..
  · exact .refl w

theorem SameEnds.sysWrite (w : FdWorld) (pid fd : Int) (buf : List (BitVec 8)) :
    SameEnds w (w.sysWrite pid fd buf).2 := by
  unfold FdWorld.sysWrite
  split
  · unfold pipeWriteOp
    split
    · exact .refl w
    · split_ifs
      · exact .refl w
      · exact .refl w
      · exact .pipeWriteLoop ..
  · exact .refl w

/-! ## Whole runs -/

/-- What one process does before another one takes its turn: a call of the descriptor tables, a look at a pipe by a
reader or a writer, or the next look of a writer that slept. -/
inductive PipeStep (w : FdWorld) : FdWorld → Prop
  | call (call : FdCall) : w.Fresh call → w.KeepsMode call → PipeStep w (w.perform call)
  | read (pid fd : Int) (size : Nat) : PipeStep w (w.sysRead pid fd size).2
  | write (pid fd : Int) (buf : List (BitVec 8)) : PipeStep w (w.sysWrite pid fd buf).2
  | resume (pid : Int) (c written : Nat) (rest : List (BitVec 8)) : PipeStep w (w.pipeWriteLoop pid c written rest).2

theorem PipeInv.step (h : PipeInv w) (hstep : PipeStep w w') : PipeInv w' := by
  cases hstep with
  | call call hfresh hmode => exact h.perform call hfresh hmode
  | read pid fd size => exact h.same (.sysRead ..)
  | write pid fd buf => exact h.same (.sysWrite ..)
  | resume pid c written rest => exact h.same (.pipeWriteLoop ..)

def NoPipes (w : FdWorld) : Prop := (∀ c wr, ¬ w.EndOpen c wr) ∧ ∀ c, w.chans c = none

theorem NoPipes.pipeInv (h : NoPipes w) : PipeInv w where
  chan := fun c wr hopen => absurd hopen (h.1 c wr)
  unique := fun d _ f _ c wr hf _ hdest _ => absurd ⟨d, f, hf, hdest⟩ (h.1 c wr)
  mode := fun d f c wr hf hdest => absurd ⟨d, f, hf, hdest⟩ (h.1 c wr)
  opened := fun c ch _ hch _ => by simp [h.2 c] at hch
  closed := fun c ch _ hch _ => by simp [h.2 c] at hch

theorem sysRead_empty {fd : Int} {size : Nat} (hnode : w.nodeOf pid fd = some (.pipe c false))
    (hch : w.chans c = some ch) (hemp : ch.ring.len = 0) (hsize : 0 < size) :
    (w.sysRead pid fd size).1 = some (0, []) ↔ ch.writers ≤ 0 := by
  unfold sysRead pipeReadOp
  rw [hnode]
  dsimp only
  rw [hch]
  dsimp only
  rw [if_neg (by omega), if_pos hemp]
  split_ifs with hw
  · simp [hw]
  · simp [hw]
  · simp [hw]

open Classical in
/-- **Pipe ends.** In every run in which `F_SETFL` leaves the access mode of pipe ends alone, `readers` and `writers`
are 1 or 0 as the end is open or not, and who reads an empty pipe sees the end of the file exactly when the write end is
closed. -/
theorem pipe_end_accounting {start w : FdWorld} (hstart : NoPipes start) (hrun : ReflTransGen PipeStep start w) :
    (∀ c wr, w.EndOpen c wr → w.chans c ≠ none) ∧
    ∀ c ch, w.chans c = some ch →
      ch.readers = (if w.EndOpen c false then 1 else 0) ∧ ch.writers = (if w.EndOpen c true then 1 else 0) ∧
      ∀ pid fd size, w.nodeOf pid fd = some (.pipe c false) → ch.ring.len = 0 → 0 < size →
        ((w.sysRead pid fd size).1 = some (0, []) ↔ ¬ w.EndOpen c true) := by
  have hinv : PipeInv w := invariant_of_step (fun _ _ h hstep => h.step hstep) hstart.pipeInv hrun
  refine ⟨hinv.chan, fun c ch hch => ?_⟩
  have hcount : ∀ wr, ch.count wr = if w.EndOpen c wr then 1 else 0 := by
    intro wr
    split_ifs with hopen
    · exact hinv.opened c ch wr hch hopen
    · exact hinv.closed c ch wr hch hopen
  refine ⟨hcount false, hcount true, fun pid fd size hnode hempty hsize => ?_⟩
  rw [sysRead_empty hnode hch hempty hsize, show ch.writers = _ from hcount true]
  split_ifs with hopen
  · simp [hopen]
  · simp [hopen]

/-- In a world whose descriptors are accounted for, an end is open while a slot or a queue holds it. -/
theorem Sound.endOpen_iff (h : Sound w) :
    w.EndOpen c wr ↔ ∃ p d f, w.place p = some d ∧ w.descs d = some f ∧ f.target = .pipe c wr := by
  refine ⟨fun ⟨d, f, hf, htarget⟩ => ?_, fun ⟨_, d, f, _, hf, htarget⟩ => ⟨d, f, hf, htarget⟩⟩
  have hlive := h.inv.live d f hf
  rw [count_nil, add_zero] at hlive
  obtain ⟨p, hp⟩ : ∃ p, w.place p = some d := by
    by_contra! hnone
    exact hlive.ne' ((held_eq_zero h.inv.finite).mpr hnone)
  exact ⟨p, d, f, hp, hf, htarget⟩

/-! ## `O_NONBLOCK` on the write end -/

def blank : FdWorld := ⟨fun _ => none, fun _ _ => false, fun _ => none, fun _ => none, [], fun _ => 0, fun _ => none⟩

theorem blank_noPipes : NoPipes blank := ⟨fun _ _ ⟨_, _, hf, _⟩ => by simp [blank] at hf, fun _ => rfl⟩

/-- `pipe2` in process 1 gives descriptors 0 and 1. -/
def piped : FdWorld := blank.perform (.pipe2 1 0 0 0 1 true)

theorem piped_step : PipeStep blank piped := by
  refine .call (.pipe2 1 0 0 0 1 true) ?_ trivial
  exact ⟨rfl, rfl, rfl, by decide⟩

/-- The writer closes its end: the reader sees the end of the file. -/
theorem pipe_end_accounting_closed : ∃ w ch, ReflTransGen PipeStep blank w ∧ w.chans 0 = some ch ∧
    ch.readers = 1 ∧ ch.writers = 0 ∧ (w.sysRead 1 0 1).1 = some (0, []) ∧ ¬ w.EndOpen 0 true := by
  have hrun := (ReflTransGen.single piped_step).tail (.call (.close 1 1) trivial trivial)
  have hread : ((piped.perform (.close 1 1)).sysRead 1 0 1).1 = some (0, []) := rfl
  have haccount := ((pipe_end_accounting blank_noPipes hrun).2 0 _ rfl).2.2 1 0 1 rfl rfl Nat.one_pos
  exact ⟨_, _, hrun, rfl, rfl, rfl, hread, haccount.mp hread⟩

/-- **A writer that closes as a reader.** The writer sets just `O_NONBLOCK` with `F_SETFL` and closes its end, the only
one: the channel has no reader and a writer, and the reader waits for ever. -/
theorem write_end_misread : ∃ w ch,
    w = ((blank.perform (.pipe2 1 0 0 0 1 true)).perform (.fcntl 1 1 4 0x800)).perform (.close 1 1) ∧
    w.chans 0 = some ch ∧ ch.readers = 0 ∧ w.EndOpen 0 false ∧ ch.writers = 1 ∧ ¬ w.EndOpen 0 true ∧
    ch.ring.len = 0 ∧ w.nodeOf 1 0 = some (.pipe 0 false) ∧ (w.sysRead 1 0 1).1 = none := by
  refine ⟨_, _, rfl, rfl, rfl, ⟨0, _, rfl, rfl⟩, rfl, ?_, rfl, rfl, rfl⟩
  intro ⟨d, f, hf, htarget⟩
  rcases d with _ | _ | d
  · have : Target.pipe 0 false = .pipe 0 true := (congrArg (fun x => x.target) (some.inj hf)).trans htarget
    simp at this
  all_goals exact absurd (show none = some f from hf) (by simp)

/-! ## The bytes of a pipe -/

/-- A call of `pipe_write_op`: how many bytes of its buffer are in, and what it returned if it does not sleep. -/
structure PipeWrite where
  buf : List (BitVec 8)
  written : Nat
  result : Option Int

/-- The calls on one pipe: the writes so far, by a number each, all bytes that went in with the write they came from,
and all bytes that reads returned. -/
structure PipeLog where
  world : FdWorld
  writes : Nat → Option PipeWrite
  sent : List (Nat × BitVec 8)
  returned : List (BitVec 8)

namespace PipeLog

variable {s s' : PipeLog} {id written : Nat} {buf : List (BitVec 8)} {r : Option Int × FdWorld}

/-- The `count` bytes in the ring. -/
def held (w : FdWorld) (c : Nat) : List (BitVec 8) := (w.chans c).elim [] fun ch => ch.ring.contents pipeBufSize

def sentBy (s : PipeLog) (id : Nat) : List (BitVec 8) := (s.sent.filter fun x => x.1 = id).map snd

/-- After a look of a write that ended with `r`. What the write has contributed is what the ring gained. -/
def look (s : PipeLog) (c id written : Nat) (buf : List (BitVec 8)) (r : Option Int × FdWorld) : PipeLog :=
  let gained := (held r.2 c).drop (held s.world c).length
  { s with
    world := r.2
    writes := Function.update s.writes id (some ⟨buf, written + gained.length, r.1⟩)
    sent := s.sent ++ gained.map fun b => (id, b) }

/-- What happens between two sleeps. Everyone else may do anything that leaves the ring alone, such as closing an end
or changing `O_NONBLOCK` before the next look. -/
inductive Step (c : Nat) (s : PipeLog) : PipeLog → Prop
  | read (pid : Int) (size : Nat) : Step c s { s with
      world := (s.world.pipeReadOp pid c size).2
      returned := s.returned ++ (s.world.pipeReadOp pid c size).1.elim [] snd }
  | write (pid : Int) (id : Nat) (buf : List (BitVec 8)) : s.writes id = none →
      Step c s (s.look c id 0 buf (s.world.pipeWriteOp pid c buf))
  | resume (pid : Int) (id : Nat) (buf : List (BitVec 8)) (written : Nat) : s.writes id = some ⟨buf, written, none⟩ →
      Step c s (s.look c id written buf (s.world.pipeWriteLoop pid c written (buf.drop written)))
  | other (w : FdWorld) : (w.chans c).map Chan.ring = (s.world.chans c).map Chan.ring → Step c s { s with world := w }

/-- The ring is in order, and bytes leave it as they came; a write has contributed the first `written` of its bytes. -/
structure Inv (c : Nat) (s : PipeLog) : Prop where
  ring : ∃ ch, s.world.chans c = some ch ∧ ch.ring.WF pipeBufSize
  fifo : s.sent.map snd = s.returned ++ held s.world c
  fresh : ∀ id, s.writes id = none → s.sentBy id = []
  prefixes : ∀ id x, s.writes id = some x → x.written ≤ x.buf.length ∧ s.sentBy id = x.buf.take x.written ∧
    ∀ n, x.result = some n → 0 ≤ n → n = x.written

/-- A look that ends with `r` puts the first `k` bytes of `rest` into the ring. -/
def Puts (w : FdWorld) (c written : Nat) (rest : List (BitVec 8)) (r : Option Int × FdWorld) (k : Nat) : Prop :=
  k ≤ rest.length ∧ (∃ ch, r.2.chans c = some ch ∧ ch.ring.WF pipeBufSize) ∧ held r.2 c = held w c ++ rest.take k ∧
    ∀ n, r.1 = some n → 0 ≤ n → n = written + k

theorem held_eq (hch : w.chans c = some ch) : held w c = ch.ring.contents pipeBufSize := by
  unfold held
  rw [hch]
  rfl

theorem puts_loop (hch : w.chans c = some ch) (hwf : ch.ring.WF pipeBufSize) (pid : Int) (written : Nat)
    (rest : List (BitVec 8)) : ∃ k, Puts w c written rest (w.pipeWriteLoop pid c written rest) k := by
  obtain ⟨hn, hwf', hcont⟩ := hwf.pushWhile rest
  set n := (ch.ring.pushWhile pipeBufSize rest).1
  set ring := (ch.ring.pushWhile pipeBufSize rest).2
  have hset : (w.setChan c (some { ch with ring := ring })).chans c = some { ch with ring := ring } := update_self ..
  have hheld : held (w.setChan c (some { ch with ring := ring })) c = held w c ++ rest.take n := by
    rw [held_eq hset, held_eq hch, hcont, hn, take_eq_take_min, Nat.min_comm]
  have hputs : ∀ result, (∀ m : Int, result = some m → 0 ≤ m → m = written + n) →
      Puts w c written rest (result, w.setChan c (some { ch with ring := ring })) n :=
    fun result hres => ⟨by omega, ⟨_, hset, hwf'⟩, hheld, hres⟩
  refine ⟨n, ?_⟩
  unfold pipeWriteLoop
  rw [hch]
  dsimp only
  split
  · exact hputs _ fun m hm _ => (some.inj hm).symm
  · split
    · refine hputs _ fun m hm hpos => ?_
      have := some.inj hm
      omega
    · split
      · refine hputs _ fun m hm hpos => ?_
        have := some.inj hm
        split_ifs at this
        · omega
        · omega
      · exact hputs _ fun m hm => by simp at hm

theorem puts_start (hch : w.chans c = some ch) (hwf : ch.ring.WF pipeBufSize) (pid : Int) (buf : List (BitVec 8)) :
    ∃ k, Puts w c 0 buf (w.pipeWriteOp pid c buf) k := by
  have hnone : ∀ n : Int, n ≤ 0 → Puts w c 0 buf (some n, w) 0 := by
    refine fun n hn => ⟨Nat.zero_le _, ⟨ch, hch, hwf⟩, by simp, fun m hm hpos => ?_⟩
    have := some.inj hm
    omega
  unfold pipeWriteOp
  rw [hch]
  dsimp only
  split_ifs
  · exact ⟨0, hnone 0 le_rfl⟩
  · exact ⟨0, hnone (-1) (by omega)⟩
  · exact puts_loop hch hwf pid 0 buf

theorem sentBy_append (s : PipeLog) (id id' : Nat) (bytes : List (BitVec 8)) :
    ((s.sent ++ bytes.map fun b => (id, b)).filter fun x => x.1 = id').map snd =
      s.sentBy id' ++ if id = id' then bytes else [] := by
  rw [filter_append, map_append]
  congr 1
  split_ifs with hid
  · simp [hid, filter_map, comp_def]
  · simp [hid, filter_map, comp_def]

theorem Inv.look (h : Inv c s) (hputs : ∃ k, Puts s.world c written (buf.drop written) r k) (hbuf : written ≤ buf.length)
    (hsent : s.sentBy id = buf.take written) : Inv c (s.look c id written buf r) := by
  obtain ⟨k, hk, hring, hheld, hres⟩ := hputs
  have hlen : ((buf.drop written).take k).length = k := by simpa using hk
  rw [length_drop] at hk
  unfold PipeLog.look
  dsimp only
  rw [hheld, drop_left, hlen]
  refine ⟨hring, ?_, fun id' hid' => ?_, fun id' x hx => ?_⟩
  · rw [hheld, List.map_append, h.fifo, List.append_assoc, List.map_map]
    simp [comp_def]
  · dsimp only at hid'
    by_cases hid : id' = id
    · simp [hid] at hid'
    · rw [update_of_ne hid] at hid'
      rw [sentBy, sentBy_append, h.fresh id' hid', if_neg (Ne.symm hid), append_nil]
  · dsimp only at hx
    rw [sentBy, sentBy_append]
    by_cases hid : id' = id
    · rw [hid, update_self, some.injEq] at hx
      rw [hid, ← hx, hsent, if_pos rfl, ← take_add]
      refine ⟨?_, rfl, fun n hn hpos => by simpa using hres n hn hpos⟩
      show written + k ≤ buf.length
      omega
    · rw [update_of_ne hid] at hx
      rw [if_neg (Ne.symm hid), append_nil]
      exact h.prefixes id' x hx

theorem Inv.read (h : Inv c s) (pid : Int) (size : Nat) : Inv c { s with
    world := (s.world.pipeReadOp pid c size).2
    returned := s.returned ++ (s.world.pipeReadOp pid c size).1.elim [] snd } := by
  obtain ⟨ch, hch, hwf⟩ := h.ring
  have hnone : ∀ x : Option (Int × List (BitVec 8)), x.elim [] snd = [] →
      Inv c { s with world := s.world, returned := s.returned ++ x.elim [] snd } := by
    intro x hx
    rw [hx, append_nil]
    exact h
  unfold pipeReadOp
  rw [hch]
  dsimp only
  split_ifs
  · exact hnone (some (0, [])) rfl
  · exact hnone (some (0, [])) rfl
  · exact hnone (some (-11, [])) rfl
  · exact hnone none rfl
  · obtain ⟨hbyte, hwf', hcont⟩ := hwf.pop (Nat.min_le_right size ch.ring.len)
    have hset : (s.world.setChan c (some { ch with
        ring := (ch.ring.pop pipeBufSize (min size ch.ring.len)).2 })).chans c = some _ := update_self ..
    refine ⟨⟨_, hset, hwf'⟩, ?_, h.fresh, h.prefixes⟩
    rw [held_eq hset, hcont, elim_some, hbyte, append_assoc, take_append_drop, ← held_eq hch]
    exact h.fifo

theorem Inv.step (h : Inv c s) (hstep : Step c s s') : Inv c s' := by
  obtain ⟨ch, hch, hwf⟩ := h.ring
  cases hstep with
  | read pid size => exact h.read pid size
  | write pid id buf hid =>
    apply h.look (puts_start hch hwf pid buf) (Nat.zero_le _)
    rw [h.fresh id hid, take_zero]
  | resume pid id buf written hid =>
    obtain ⟨hbuf, hsent, _⟩ := h.prefixes id _ hid
    exact h.look (puts_loop hch hwf pid written _) hbuf hsent
  | other w hsame =>
    rw [hch, map_some, map_eq_some_iff] at hsame
    obtain ⟨ch', hch', hring⟩ := hsame
    refine ⟨⟨ch', hch', hring ▸ hwf⟩, ?_, h.fresh, h.prefixes⟩
    rw [held_eq hch', hring, ← held_eq hch]
    exact h.fifo

def start (w : FdWorld) : PipeLog := ⟨w, fun _ => none, [], []⟩

/-- **Pipes are queues.** From a new pipe, in every interleaving of reads and writes at the points where they sleep: a
write that returned `n` has contributed the first `n` bytes of its buffer, and all bytes contributed are those returned
by the reads and then those in the ring. -/
theorem pipe_fifo {readers writers : Int} (hnew : w.chans c = some ⟨⟨fun _ => 0, 0, 0, 0⟩, readers, writers⟩)
    (hrun : ReflTransGen (Step c) (start w) s) : ∃ ch, s.world.chans c = some ch ∧ ch.ring.len ≤ pipeBufSize ∧
      ch.ring.tail = (ch.ring.head + ch.ring.len) % pipeBufSize ∧
      (∀ id x (n : Nat), s.writes id = some x → x.result = some (n : Int) →
        n ≤ x.buf.length ∧ s.sentBy id = x.buf.take n) ∧
      s.sent.map snd = s.returned ++ ch.ring.contents pipeBufSize := by
  have hinv : Inv c (start w) := by
    refine ⟨⟨_, hnew, RingBuffer.wf_empty (by decide) 0⟩, ?_, fun _ _ => rfl, fun _ _ hx => by simp [start] at hx⟩
    exact (held_eq hnew).symm
  have hend := invariant_of_step (fun _ _ h hstep => h.step hstep) hinv hrun
  obtain ⟨ch, hch, hwf⟩ := hend.ring
  refine ⟨ch, hch, hwf.len_le, hwf.tail_eq, fun id x n hx hresult => ?_, held_eq hch ▸ hend.fifo⟩
  obtain ⟨hlen, hsent, hn⟩ := hend.prefixes id x hx
  have hwritten : n = x.written := by exact_mod_cast hn n hresult (Int.natCast_nonneg n)
  exact ⟨hwritten ▸ hlen, hwritten ▸ hsent⟩

/-- Three bytes go in, and two of them come out again. -/
theorem pipe_fifo_threeBytes : ∃ s ch, ReflTransGen (Step 0) (start piped) s ∧ s.world.chans 0 = some ch ∧
    s.returned = [7, 8] ∧ s.sent.map snd = [7, 8] ++ ch.ring.contents pipeBufSize ∧ s.sentBy 0 = [7, 8, 9] := by
  have hrun := (ReflTransGen.single (Step.write (c := 0) (s := start piped) 1 0 [7, 8, 9] rfl)).tail (.read 1 2)
  obtain ⟨ch, hch, _, _, hwrite, hfifo⟩ := pipe_fifo (show piped.chans 0 = some ⟨_, 1, 1⟩ from rfl) hrun
  exact ⟨_, ch, hrun, hch, rfl, hfifo, (hwrite 0 _ 3 rfl rfl).2⟩

end PipeLog

end FdWorld

end SzpontOS.Fd
