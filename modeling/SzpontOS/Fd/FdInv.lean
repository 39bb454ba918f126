import SzpontOS.Fd.Fd

/-!
# What reference counts count

Between two calls the count of every description is the number of places that point to it. Inside a call it is that
number and the releases still owed (`Inv`). All calls are made of three moves: taking a pointer out of a place, putting
one in, and counting a new one. `fd_release` pays what is owed.
-/

namespace SzpontOS.Fd

open Lib Function List BitVec Option

namespace FdWorld

variable {w w' : FdWorld} {owed : List Nat} {d e : Nat} {f : Desc} {p : Place} {pid : Int} {fd s i : Nat}

/-! ## The fields after each change -/

section Fields

variable {x : Option Nat} {g : Option Desc}

@[simp] theorem place_setPlace : (w.setPlace p x).place = update w.place p x := rfl

@[simp] theorem descs_setDesc : (w.setDesc d g).descs = update w.descs d g := rfl

theorem descs_set (hf : (w.setDesc d g).descs e = some f) : e = d ∧ g = some f ∨ e ≠ d ∧ w.descs e = some f := by
  rw [descs_setDesc, update_apply] at hf
  split_ifs at hf with he
  · exact .inl ⟨he, hf⟩
  · exact .inr ⟨he, hf⟩

theorem descs_of_freed (hf : (w.setDesc d none).descs e = some f) : e ≠ d ∧ w.descs e = some f := by
  rcases descs_set hf with ⟨-, hnone⟩ | hold
  · cases hnone
  · exact hold

end Fields

/-! ## The invariant -/

/-- **Pointers and counts.** `owed` lists the releases that are still to come. -/
structure Inv (w : FdWorld) (owed : List Nat) : Prop where
  finite : FinitelyHeld w.place
  place_desc : ∀ p d, w.place p = some d → w.descs d ≠ none
  owed_desc : ∀ d ∈ owed, w.descs d ≠ none
  counted : ∀ d f, w.descs d = some f → f.refcount = BitVec.ofNat 32 (held w.place d + owed.count d)
  live : ∀ d f, w.descs d = some f → 0 < held w.place d + owed.count d
  slots : ∀ pid fd, w.place (slot pid fd) ≠ none → fd < maxFd
  queues : ∀ s i, w.place (passed s i) ≠ none → s ∈ w.socks ∧ i < w.passedCount s
  socket : ∀ d f s, w.descs d = some f → f.target = .socket s → s ∈ w.socks
  socket_unique : ∀ d e f g s, w.descs d = some f → w.descs e = some g → f.target = .socket s →
    g.target = .socket s → d = e
  nodup : w.socks.Nodup
  peers : ∀ s r, w.peer s = some r → r ∈ w.socks ∧ w.peer r = some s

/-- No description has as many pointers as `refcount` can count. -/
def Few (w : FdWorld) (owed : List Nat) : Prop := ∀ d, held w.place d + owed.count d < 2 ^ 32

/-- Only descriptors in use are marked for `exec`. -/
def Marked (w : FdWorld) : Prop := ∀ pid fd, w.place (slot pid fd) = none → w.cloexec pid fd = false

/-! ## The three moves -/

theorem slot_ne_passed : slot pid fd ≠ passed s i := by
  exact Sum.inl_ne_inr

theorem Inv.takeOut (h : Inv w owed) (hp : w.place p = some d) : Inv (w.setPlace p none) (d :: owed) := by
  have hsub : ∀ q e, update w.place p none q = some e → w.place q = some e := by
    intro q e hq
    by_cases hqp : q = p
    · rw [hqp, update_self] at hq
      exact absurd hq (by simp)
    · rwa [update_of_ne hqp] at hq
  have htot : ∀ e, held (update w.place p none) e + (d :: owed).count e = held w.place e + owed.count e := by
    intro e
    have := held_drop h.finite hp e
    rw [count_cons]
    simp only [beq_iff_eq]
    omega
  refine ⟨h.finite.update p none, fun q e hq => h.place_desc q e (hsub q e hq), fun e he => ?_, fun e f he => ?_,
    fun e f he => ?_, fun pid fd hfd => ?_, fun s i hi => ?_, h.socket, h.socket_unique, h.nodup, h.peers⟩
  · rcases mem_cons.mp he with rfl | he
    · exact h.place_desc p e hp
    · exact h.owed_desc e he
  · rw [h.counted e f he]
    exact congrArg _ (htot e).symm
  · rw [show held (w.setPlace p none).place e + (d :: owed).count e = _ from htot e]
    exact h.live e f he
  · obtain ⟨e, he⟩ := ne_none_iff_exists'.mp hfd
    exact h.slots pid fd (by rw [hsub _ e he]; simp)
  · obtain ⟨e, he⟩ := ne_none_iff_exists'.mp hi
    exact h.queues s i (by rw [hsub _ e he]; simp)

theorem Inv.putIn (h : Inv w (d :: owed)) (hp : w.place p = none) (hslot : ∀ pid fd, p = slot pid fd → fd < maxFd)
    (hque : ∀ s i, p = passed s i → s ∈ w.socks ∧ i < w.passedCount s) : Inv (w.setPlace p (some d)) owed := by
  have htot : ∀ e, held (update w.place p (some d)) e + owed.count e = held w.place e + (d :: owed).count e := by
    intro e
    rw [held_take h.finite hp, count_cons]
    simp only [beq_iff_eq]
    omega
  have hcase : ∀ q, update w.place p (some d) q ≠ none → q = p ∨ w.place q ≠ none := by
    intro q hq
    by_cases hqp : q = p
    · exact .inl hqp
    · rw [update_of_ne hqp] at hq
      exact .inr hq
  refine ⟨h.finite.update p _, fun q e hq => ?_, fun e he => h.owed_desc e (mem_cons_of_mem d he),
    fun e f he => ?_, fun e f he => ?_, fun pid fd hfd => ?_, fun s i hi => ?_, h.socket, h.socket_unique, h.nodup,
    h.peers⟩
  · by_cases hqp : q = p
    · rw [hqp, place_setPlace, update_self] at hq
      rw [← Option.some.inj hq]
      exact h.owed_desc d mem_cons_self
    · rw [place_setPlace, update_of_ne hqp] at hq
      exact h.place_desc q e hq
  · rw [h.counted e f he]
    exact congrArg _ (htot e).symm
  · rw [place_setPlace, htot]
    exact h.live e f he
  · rcases hcase _ hfd with heq | hold
    · exact hslot pid fd heq.symm
    · exact h.slots pid fd hold
  · rcases hcase _ hi with heq | hold
    · exact hque s i heq.symm
    · exact h.queues s i hold

/-- **One description changes.** Its count is right again, and it leads to a socket only where the old one did. -/
theorem Inv.setDesc {owed' : List Nat} {x : Option Desc} (h : Inv w owed)
    (hrest : ∀ e, e ≠ d → owed'.count e = owed.count e) (hnone : x = none → held w.place d + owed'.count d = 0)
    (hsome : ∀ g, x = some g → g.refcount = BitVec.ofNat 32 (held w.place d + owed'.count d) ∧
      0 < held w.place d + owed'.count d ∧ ∀ s, g.target = .socket s → ∃ f, w.descs d = some f ∧ f.target = .socket s) :
    Inv (w.setDesc d x) owed' := by
  have hdesc : ∀ e, (e ≠ d → w.descs e ≠ none) → 0 < held w.place e + owed'.count e →
      (w.setDesc d x).descs e ≠ none := by
    intro e hold hpos
    rw [descs_setDesc]
    by_cases hed : e = d
    · rw [hed] at hpos
      rw [hed, update_self]
      exact fun hx => hpos.ne' (hnone hx)
    · rw [update_of_ne hed]
      exact hold hed
  have hdest : ∀ {e g s}, (w.setDesc d x).descs e = some g → g.target = .socket s →
      ∃ f, w.descs e = some f ∧ f.target = .socket s := by
    intro e g s hg hs
    rcases descs_set hg with ⟨rfl, hx⟩ | ⟨-, hg⟩
    · exact (hsome g hx).2.2 s hs
    · exact ⟨g, hg, hs⟩
  refine ⟨h.finite, fun q e hq => hdesc e (fun _ => h.place_desc q e hq) ?_, fun e he => ?_, fun e g hg => ?_,
    fun e g hg => ?_, h.slots, h.queues, fun e g s hg hs => ?_, fun e e' g g' s hg hg' hs hs' => ?_, h.nodup, h.peers⟩
  · exact Nat.add_pos_left (Nat.pos_of_ne_zero fun hz => (held_eq_zero h.finite).mp hz q hq) _
  · have hpos := count_pos_iff.mpr he
    refine hdesc e (fun hed => h.owed_desc e (count_pos_iff.mp ?_)) (Nat.add_pos_right _ hpos)
    rwa [← hrest e hed]
  · rcases descs_set hg with ⟨rfl, hx⟩ | ⟨hed, hg⟩
    · exact (hsome g hx).1
    · rw [hrest e hed]
      exact h.counted e g hg
  · rcases descs_set hg with ⟨rfl, hx⟩ | ⟨hed, hg⟩
    · exact (hsome g hx).2.1
    · rw [hrest e hed]
      exact h.live e g hg
  · obtain ⟨f, hf, hfs⟩ := hdest hg hs
    exact h.socket e f s hf hfs
  · obtain ⟨f, hf, hfs⟩ := hdest hg hs
    obtain ⟨f', hf', hfs'⟩ := hdest hg' hs'
    exact h.socket_unique e e' f f' s hf hf' hfs hfs'

theorem Inv.recount {owed' : List Nat} {f' : Desc} (h : Inv w owed) (hf : w.descs d = some f)
    (hf' : f'.target = f.target) (hr : f'.refcount = BitVec.ofNat 32 (held w.place d + owed'.count d))
    (hpos : 0 < held w.place d + owed'.count d) (hrest : ∀ e, e ≠ d → owed'.count e = owed.count e) :
    Inv (w.setDesc d (some f')) owed' := by
  refine h.setDesc hrest (fun hx => by cases hx) fun g hg => ?_
  obtain rfl := Option.some.inj hg
  exact ⟨hr, hpos, fun s hs => ⟨f, hf, hf' ▸ hs⟩⟩

theorem Inv.retain (h : Inv w owed) (hd : w.descs d ≠ none) : Inv (w.retain d) (d :: owed) := by
  obtain ⟨f, hf⟩ := ne_none_iff_exists'.mp hd
  unfold FdWorld.retain
  rw [hf]
  refine h.recount hf rfl ?_ ?_ fun e hed => ?_
  · rw [h.counted d f hf, List.count_cons_self, ← Nat.add_assoc]
    exact (ofNat_add _ 1).symm
  · rw [count_cons_self]
    omega
  · exact count_cons_of_ne (Ne.symm hed)

/-! ## Release -/

theorem Inv.free (h : Inv w (d :: owed)) (hnone : held w.place d + owed.count d = 0) : Inv (w.setDesc d none) owed :=
  h.setDesc (fun _ hed => (count_cons_of_ne (Ne.symm hed)).symm) (fun _ => hnone) fun _ hg => by cases hg

theorem Inv.closePipe (h : Inv w owed) (c : Nat) (flags : BitVec 32) : Inv (w.closePipe c flags) owed := by
  unfold FdWorld.closePipe
  split
  · exact h
  · exact { h with }

theorem passed_injective : Function.Injective (passed s) := by
  intro i j hij
  unfold passed at hij
  simpa using hij

theorem Inv.held_detach (h : Inv w owed) (s e : Nat) :
    held (w.detachSocket s).place e + (w.queue s ++ owed).count e = held w.place e + owed.count e := by
  have hnd : (w.passedPlaces s).Nodup := nodup_range.map passed_injective
  show held (clear w.place (w.passedPlaces s)) e + _ = _
  rw [held_clear h.finite hnd e, count_append]
  unfold queue
  omega

theorem Inv.few_detach (h : Inv w owed) (hfew : Few w owed) (s : Nat) : Few (w.detachSocket s) (w.queue s ++ owed) := by
  intro e
  rw [h.held_detach]
  exact hfew e

theorem Inv.detachSocket (h : Inv w owed) (hnone : ∀ d f, w.descs d = some f → f.target ≠ .socket s) :
    Inv (w.detachSocket s) (w.queue s ++ owed) := by
  have hkeep : ∀ q, clear w.place (w.passedPlaces s) q ≠ none → q ∉ w.passedPlaces s ∧ w.place q ≠ none := by
    intro q hq
    unfold clear at hq
    split_ifs at hq with hmem
    · exact absurd rfl hq
    · exact ⟨hmem, hq⟩
  refine ⟨h.finite.clear _, fun q e hq => ?_, fun e he => ?_, fun e g hg => ?_, fun e g hg => ?_, fun pid fd hfd => ?_,
    fun r i hi => ?_, fun e g r hg hr => ?_, h.socket_unique, h.nodup.erase s, fun r r' hr => ?_⟩
  · obtain ⟨hmem, -⟩ := hkeep q (by rw [show clear w.place _ q = some e from hq]; simp)
    have hq' : clear w.place (w.passedPlaces s) q = some e := hq
    rw [clear, if_neg hmem] at hq'
    exact h.place_desc q e hq'
  · rcases mem_append.mp he with he | he
    · obtain ⟨q, -, hq⟩ := mem_filterMap.mp he
      exact h.place_desc q e hq
    · exact h.owed_desc e he
  · rw [h.held_detach]
    exact h.counted e g hg
  · rw [h.held_detach]
    exact h.live e g hg
  · exact h.slots pid fd (hkeep _ hfd).2
  · obtain ⟨hmem, hold⟩ := hkeep _ hi
    obtain ⟨hr, hi'⟩ := h.queues r i hold
    have hrs : r ≠ s := by
      intro hrs
      apply hmem
      rw [hrs] at hi' ⊢
      exact mem_map_of_mem (mem_range.mpr hi')
    refine ⟨(mem_erase_of_ne hrs).mpr hr, ?_⟩
    show i < update w.passedCount s 0 r
    rwa [update_of_ne hrs]
  · have hrs : r ≠ s := fun hrs => hnone e g hg (hrs ▸ hr)
    exact (mem_erase_of_ne hrs).mpr (h.socket e g r hg hr)
  · have hpeer : (if r = s ∨ w.peer s = some r then none else w.peer r) = some r' := hr
    split_ifs at hpeer with hgone
    obtain ⟨hmem, hback⟩ := h.peers r r' hpeer
    have hrs : r' ≠ s := by
      intro hrs
      rw [hrs] at hback
      exact hgone (.inr hback)
    have hstay : ¬ (r' = s ∨ w.peer s = some r') := by
      rintro (heq | heq)
      · exact hrs heq
      · have := (h.peers s r' heq).2
        rw [hback] at this
        exact hgone (.inl (Option.some.inj this))
    refine ⟨(mem_erase_of_ne hrs).mpr hmem, ?_⟩
    show (if r' = s ∨ w.peer s = some r' then none else w.peer r') = some r
    rw [if_neg hstay, hback]

/-- What a release leaves alone: the descriptor tables, and every entry of a queue that it does not empty. -/
structure Released (w w' : FdWorld) : Prop where
  socks : w'.socks.length ≤ w.socks.length
  count : ∀ s, w'.passedCount s ≤ w.passedCount s
  place : ∀ p, w'.place p = w.place p ∨ w'.place p = none
  slot : ∀ pid fd, w'.place (slot pid fd) = w.place (slot pid fd)
  cloexec : w'.cloexec = w.cloexec

theorem Released.refl (w : FdWorld) : Released w w := ⟨le_rfl, fun _ => le_rfl, fun _ => .inl rfl, fun _ _ => rfl, rfl⟩

theorem Released.trans {w'' : FdWorld} (h : Released w w') (h' : Released w' w'') : Released w w'' := by
  refine ⟨h'.socks.trans h.socks, fun s => (h'.count s).trans (h.count s), fun p => ?_, fun pid fd => (h'.slot pid fd).trans (h.slot pid fd),
    h'.cloexec.trans h.cloexec⟩
  rcases h'.place p with heq | hnone
  · rw [heq]
    exact h.place p
  · exact .inr hnone

theorem Few.released (hfew : Few w owed) (hfin : FinitelyHeld w.place) (h : Released w w') : Few w' owed := by
  intro d
  have := held_mono hfin h.place d
  have := hfew d
  omega

theorem detachSocket_released (w : FdWorld) (s : Nat) : Released w (w.detachSocket s) := by
  refine ⟨length_erase_le, fun r => ?_, fun p => ?_, fun pid fd => ?_, rfl⟩
  · show update w.passedCount s 0 r ≤ w.passedCount r
    by_cases hr : r = s
    · rw [hr, update_self]
      exact Nat.zero_le _
    · rw [update_of_ne hr]
  · by_cases hmem : p ∈ w.passedPlaces s
    · exact .inr (if_pos hmem)
    · exact .inl (if_neg hmem)
  · refine if_neg fun hmem => ?_
    obtain ⟨i, -, hi⟩ := mem_map.mp hmem
    exact slot_ne_passed hi.symm

theorem foldl_release_inv {release : FdWorld → Nat → FdWorld} {n : Nat}
    (hone : ∀ (w : FdWorld) (d : Nat) (owed : List Nat), w.socks.length < n → Few w (d :: owed) → Inv w (d :: owed) →
      Inv (release w d) owed ∧ Released w (release w d)) (ds : List Nat) :
    ∀ w : FdWorld, w.socks.length < n → Few w (ds ++ owed) → Inv w (ds ++ owed) →
      Inv (ds.foldl release w) owed ∧ Released w (ds.foldl release w) := by
  induction ds with
  | nil =>
    intro w _ _ h
    exact ⟨h, Released.refl w⟩
  | cons d ds ih =>
    intro w hn hfew h
    obtain ⟨hinv, hrel⟩ := hone w d (ds ++ owed) hn hfew h
    have hfew' : Few w (ds ++ owed) := by
      intro e
      have := hfew e
      rw [List.cons_append, List.count_cons] at this
      omega
    obtain ⟨hinv', hrel'⟩ := ih (release w d) (hrel.socks.trans_lt hn) (hfew'.released h.finite hrel) hinv
    exact ⟨hinv', hrel.trans hrel'⟩

theorem fdRelease_inv (fuel : Nat) : ∀ (w : FdWorld) (d : Nat) (owed : List Nat), w.socks.length < fuel →
    Few w (d :: owed) → Inv w (d :: owed) → Inv (fdRelease fuel w d) owed ∧ Released w (fdRelease fuel w d) := by
  induction fuel with
  | zero =>
    intro w d owed hfuel
    exact absurd hfuel (Nat.not_lt_zero _)
  | succ fuel ih =>
    intro w d owed hfuel hfew h
    obtain ⟨f, hf⟩ := ne_none_iff_exists'.mp (h.owed_desc d mem_cons_self)
    have hcount : f.refcount - 1 = BitVec.ofNat 32 (held w.place d + owed.count d) := by
      rw [h.counted d f hf, List.count_cons_self, ← Nat.add_assoc, BitVec.ofNat_add _ 1]
      exact add_sub_cancel ..
    have hlt := hfew d
    rw [count_cons_self] at hlt
    have hzero : f.refcount - 1 = 0 ↔ held w.place d + owed.count d = 0 := by
      rw [hcount]
      constructor
      · intro hz
        have := congrArg BitVec.toNat hz
        rw [BitVec.toNat_ofNat, Nat.mod_eq_of_lt (by omega)] at this
        exact this
      · intro hz
        rw [hz]
        rfl
    rw [fdRelease, hf]
    dsimp only
    split_ifs with hmore
    · refine ⟨h.recount hf rfl hcount ?_ ?_, le_rfl, fun _ => le_rfl, fun _ => .inl rfl, fun _ _ => rfl, rfl⟩
      · have hne : held w.place d + owed.count d ≠ 0 := fun hz => hmore (hzero.mpr hz)
        omega
      · intro e hed
        exact (count_cons_of_ne (Ne.symm hed)).symm
    · have hnone : held w.place d + owed.count d = 0 := hzero.mp (not_not.mp hmore)
      have hfree := h.free hnone
      have hgone : Released w (w.setDesc d none) := ⟨le_rfl, fun _ => le_rfl, fun _ => .inl rfl, fun _ _ => rfl, rfl⟩
      split
      · rename_i c write _
        refine ⟨hfree.closePipe c f.flags, ?_⟩
        unfold closePipe
        split
        · exact hgone
        · exact ⟨le_rfl, fun _ => le_rfl, fun _ => .inl rfl, fun _ _ => rfl, rfl⟩
      · rename_i s hdest
        -- no other description leads to the socket
        have hlast : ∀ e g, (w.setDesc d none).descs e = some g → g.target ≠ .socket s := by
          intro e g hg hgs
          obtain ⟨hed, hg⟩ := descs_of_freed hg
          exact hed (h.socket_unique e d g f s hg hf hgs hdest)
        have hfew' : Few (w.setDesc d none) owed := by
          intro e
          have := hfew e
          rw [count_cons] at this
          show held w.place e + owed.count e < 2 ^ 32
          omega
        have hsocks : ((w.setDesc d none).detachSocket s).socks.length < fuel := by
          have hmem := h.socket d f s hf hdest
          show (w.socks.erase s).length < fuel
          have := length_pos_of_mem hmem
          rw [length_erase_of_mem hmem]
          omega
        obtain ⟨hinv, hrel⟩ := foldl_release_inv ih ((w.setDesc d none).queue s) _ hsocks (hfree.few_detach hfew' s)
          (hfree.detachSocket hlast)
        exact ⟨hinv, (hgone.trans (detachSocket_released _ s)).trans hrel⟩
      · exact ⟨hfree, hgone⟩

end FdWorld

end SzpontOS.Fd
